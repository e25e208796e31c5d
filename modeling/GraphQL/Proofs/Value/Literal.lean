import GraphQL.Proofs.Keyed
import GraphQL.Proofs.Number.Literal
import GraphQL.Proofs.Text.Quoted
import GraphQL.Value.Literal
import GraphQL.Value.Reader

/-!
# Literals read back

`Value.reread` is what the literal text of a value reads as, which is the value itself but for doubles and times
(`Value.reread_of_plain`). Reading stops exactly where the literal ends (`Parser.readValue_reads`), so that values
without doubles and times are read back from any text that their literals are in front of (`Parser.readValue_literal`).
-/

namespace GraphQL

/-! ### What literals read as -/

/-- A name that is not one of the words for other literals. -/
def IsSymbol (symbol : String) : Prop :=
  isBareName symbol = true ∧ symbol ≠ "null" ∧ symbol ≠ "true" ∧ symbol ≠ "false"

theorem isBareName_cons {name : String} (h : isBareName name = true) :
    IsName name ∧ ∃ b rest, bytesOf name = b :: rest ∧ Byte.isDigit b = false := by
  unfold isBareName at h
  cases hbytes : bytesOf name with
  | nil =>
    rw [show name.toUTF8.toList = [] from hbytes] at h
    simp at h
  | cons b rest =>
    rw [show name.toUTF8.toList = b :: rest from hbytes] at h
    simp only [Bool.and_eq_true, List.all_eq_true, Bool.not_eq_true'] at h
    refine ⟨⟨?_, fun c hc => h.1 c (hbytes ▸ hc)⟩, b, rest, rfl, h.2⟩
    rintro rfl
    rw [bytesOf_empty] at hbytes
    cases hbytes

namespace Value

/-- What the text of a double reads as, if it is a literal at all: large integers lose their kind, and an infinite number
is a word or, after a minus sign, nothing. -/
def rereadFloat : Binary64 → Option Value
  | .finite negative m e h => Parser.numberValue? (bytesOf (FloatText.literal (.finite negative m e h)))
  | .infinity false => some (.enum "inf")
  | .infinity true => none
  | .nan => some (.enum "NaN")

mutual

/-- What the literal text of a value reads as. -/
def reread : Value → Option Value
  | .float x => rereadFloat x
  | .time t => some (.string t.text)
  | .list items => (rereadItems items).map .list
  | .object entries => (rereadEntries entries).map .object
  | v => some v

/-- What the literal texts of items read as. -/
def rereadItems : List Value → Option (List Value)
  | [] => some []
  | v :: rest => (reread v).bind fun w => (rereadItems rest).map (w :: ·)

/-- What the literal texts of the values of entries read as. -/
def rereadEntries : List (String × Value) → Option (List (String × Value))
  | [] => some []
  | (key, v) :: rest => (reread v).bind fun w => (rereadEntries rest).map ((key, w) :: ·)

end

/-- The value is no symbol, no variable and nothing that holds other values. -/
def isAtom : Value → Bool
  | enum _ | var _ | list _ | object _ => false
  | _ => true

/-- Symbols and variables have the form of names, and no object has a key twice. -/
inductive Legible : Value → Prop
  | atom {v : Value} (h : v.isAtom = true) : Legible v
  | enum {symbol : String} (h : IsSymbol symbol) : Legible (.enum symbol)
  | var {name : String} (h : IsName name) : Legible (.var name)
  | list {items : List Value} (h : ∀ v ∈ items, Legible v) : Legible (.list items)
  | object {entries : List (String × Value)} (hkeys : (Entries.keys entries).Nodup)
      (h : ∀ entry ∈ entries, Legible entry.2) : Legible (.object entries)

/-- The value holds neither doubles nor times. -/
inductive Plain : Value → Prop
  | null : Plain .null
  | bool (b : Bool) : Plain (.bool b)
  | int (i : Int64) : Plain (.int i)
  | string (text : String) : Plain (.string text)
  | enum (symbol : String) : Plain (.enum symbol)
  | var (name : String) : Plain (.var name)
  | list {items : List Value} (h : ∀ v ∈ items, Plain v) : Plain (.list items)
  | object {entries : List (String × Value)} (h : ∀ entry ∈ entries, Plain entry.2) : Plain (.object entries)

/-- Values without doubles and times read as themselves. -/
theorem reread_of_plain {v : Value} (h : v.Plain) : v.reread = some v := by
  induction h with
  | null | bool | int | string | enum | var => simp only [reread]
  | @list items _ ih =>
    have hitems : ∀ rest : List Value, (∀ v ∈ rest, v.reread = some v) → rereadItems rest = some rest := by
      intro rest hrest
      induction rest with
      | nil => simp only [rereadItems]
      | cons v rest ihRest =>
        obtain ⟨hv, hrest⟩ := List.forall_mem_cons.1 hrest
        simp only [rereadItems, hv, ihRest hrest, Option.bind_some, Option.map_some]
    simp only [reread, hitems items ih, Option.map_some]
  | @object entries _ ih =>
    have hentries : ∀ rest : List (String × Value), (∀ entry ∈ rest, entry.2.reread = some entry.2) →
        rereadEntries rest = some rest := by
      intro rest hrest
      induction rest with
      | nil => simp only [rereadEntries]
      | cons entry rest ihRest =>
        obtain ⟨hentry, hrest⟩ := List.forall_mem_cons.1 hrest
        simp only [rereadEntries, hentry, ihRest hrest, Option.bind_some, Option.map_some]
    simp only [reread, hentries entries ih, Option.map_some]

end Value

namespace Parser

variable {F : Prop} {ahead : List UInt8}

/-! ### Numbers and words -/

/-- A literal may end in front of what is ahead. -/
def Ends (ahead : List UInt8) : Prop := ∀ b ∈ ahead.head?, Byte.endsNumber b

private theorem endsNumber_cases {b : UInt8} (h : Byte.endsNumber b) :
    Byte.isNumber b = false ∧ Byte.isName b = false ∧ (b == 0x22) = false := by
  revert h
  simp only [Byte.endsNumber, Byte.isSpace, Byte.isNumber, Byte.isName, Byte.isLetter, Byte.isDigit, Bool.or_eq_true,
    Bool.or_eq_false_iff, Bool.and_eq_false_iff, decide_eq_false_iff_not, beq_iff_eq, beq_eq_false_iff_ne, ne_eq,
    UInt8.le_iff_toNat_le, ← UInt8.toNat_inj, UInt8.reduceToNat]
  omega

theorem Ends.number (h : Ends ahead) : Stops Byte.isNumber ahead := fun b hb => (endsNumber_cases (h b hb)).1

theorem Ends.name (h : Ends ahead) : Stops Byte.isName ahead := fun b hb => (endsNumber_cases (h b hb)).2.1

theorem Ends.quote (h : Ends ahead) : Stops (· == 0x22) ahead := fun b hb => (endsNumber_cases (h b hb)).2.2

theorem readNumber_reads {run : List UInt8} (hrun : ∀ b ∈ run, Byte.isNumber b) (h : Ends ahead)
    (hF : numberValue? run = none → F) :
    Reads F (At (run ++ ahead)) readNumber (fun v => numberValue? run = some v) (At ahead) := by
  refine position_reads.bind fun pos _ => (span_reads hrun h.number).bind fun run' hrun' => ?_
  subst hrun'
  refine peek_reads.bind fun next hnext => ?_
  have hends : Byte.endsNumber next = true := by
    subst hnext
    cases hahead : ahead with
    | nil => decide
    | cons b rest => exact h b (by rw [hahead]; rfl)
  rw [hends, Bool.not_true, if_neg Bool.false_ne_true]
  cases hvalue : numberValue? run' with
  | some v => exact .pure rfl
  | none => exact .failAt (hF hvalue)

/-- A minus sign without a number behind it is no number. -/
theorem readNumber_fails (b : UInt8) (hnumber : Byte.isNumber b = false) (hends : Byte.endsNumber b = false) (hF : F)
    (P : Value → Prop) (after : List UInt8 → Prop) : Reads F (At (0x2d :: b :: ahead)) readNumber P after := by
  have hspan : Reads F (At ([0x2d] ++ b :: ahead)) (span Byte.isNumber) (· = [0x2d]) (At (b :: ahead)) :=
    span_reads (by simp; decide) fun c hc => by
      cases hc
      exact hnumber
  refine position_reads.bind fun pos _ => hspan.bind fun run _ => peek_reads.bind fun next hnext => ?_
  subst hnext
  rw [hends, Bool.not_false, if_pos rfl]
  intro s _
  exact ⟨fun a s' hok => (by cases hok), fun _ _ _ => hF⟩

private theorem display_bytes (i : Int64) :
    (∃ b ∈ (bytesOf (IntText.display i)).head?, b = 0x2d ∨ Byte.isDigit b) ∧
      ∀ b ∈ bytesOf (IntText.display i), Byte.isNumber b := by
  have hdigits := digitBytes_isDigit i.toInt.natAbs
  have hnumber : ∀ b ∈ digitBytes i.toInt.natAbs, Byte.isNumber b := fun b hb => by
    simp [Byte.isNumber, hdigits b hb]
  rw [IntText.bytesOf_display]
  split
  · refine ⟨⟨0x2d, rfl, .inl rfl⟩, List.forall_mem_cons.2 ⟨by decide, hnumber⟩⟩
  · obtain ⟨b, rest, hbytes⟩ := List.exists_cons_of_ne_nil (digitBytes_ne_nil i.toInt.natAbs)
    refine ⟨⟨b, by rw [hbytes]; rfl, .inr (hdigits b (hbytes ▸ List.mem_cons_self))⟩, hnumber⟩

/-- The decimal text of an integer reads as the integer. -/
theorem numberValue?_display (i : Int64) : numberValue? (bytesOf (IntText.display i)) = some (.int i) := by
  have hdigit : ∀ b : UInt8, Byte.isDigit b → (b == 0x2e || b == 0x65 || b == 0x45) = false ∧ b ≠ 0x2b := by
    intro b
    simp only [Byte.isDigit, Bool.and_eq_true, decide_eq_true_eq, Bool.or_eq_false_iff, beq_eq_false_iff_ne, ne_eq,
      UInt8.le_iff_toNat_le, ← UInt8.toNat_inj, UInt8.reduceToNat]
    omega
  have hall : ∀ b ∈ bytesOf (IntText.display i), (b == 0x2e || b == 0x65 || b == 0x45) = false ∧ b ≠ 0x2b := by
    have hdigits := digitBytes_isDigit i.toInt.natAbs
    intro b hb
    rw [IntText.bytesOf_display] at hb
    split at hb
    · rcases List.mem_cons.1 hb with rfl | hb
      · decide
      · exact hdigit b (hdigits b hb)
    · exact hdigit b (hdigits b hb)
  have hany : (bytesOf (IntText.display i)).any (fun b => b == 0x2e || b == 0x65 || b == 0x45) = false := by
    rw [List.any_eq_false]
    intro b hb
    simpa using (hall b hb).1
  have hparse := IntText.parse?_display i
  generalize bytesOf (IntText.display i) = run at hall hany hparse
  unfold numberValue?
  split
  · exact absurd rfl (hall _ List.mem_cons_self).2
  · dsimp only
    rw [hany, hparse]
    rfl

variable {left : List UInt8}

private theorem readValue_string (text : String) (hends : Ends ahead)
    (hleft : Near (bytesOf (Quoted.write text) ++ ahead) left) :
    Reads F (At left) readValue (· = .string text) (At ahead) := by
  have hread := @readString_reads F ahead text hends.quote
  rw [bytesOf_write, List.cons_append] at hread hleft
  refine Reads.fix 0 (fun _ _ => Nat.zero_le _) fun more _ => ?_
  refine (Reads.skip (hleft.trans (significant_cons (by decide) _)) ?_).here
  exact hread.bind fun text' htext => .pure (congrArg Value.string htext)

/-- A run of bytes that starts as a number does is read as one. -/
theorem readValue_number {run : List UInt8} (hfirst : ∃ b ∈ run.head?, b = 0x2d ∨ Byte.isDigit b)
    (hrun : ∀ b ∈ run, Byte.isNumber b) (hends : Ends ahead) (hleft : Near (run ++ ahead) left)
    (hF : numberValue? run = none → F) :
    Reads F (At left) readValue (fun v => numberValue? run = some v) (At ahead) := by
  have hread := readNumber_reads hrun hends hF
  obtain ⟨b, hb, hfirst⟩ := hfirst
  obtain ⟨rest, rfl⟩ := List.head?_eq_some_iff.1 hb
  have hcases : Byte.isSignificant b ∧ (b == 0x22) = false ∧ (b == 0x24) = false ∧ (b == 0x5b) = false ∧
      (b == 0x7b) = false ∧ (b == 0x2d || b == 0x2b || b == 0x2e || Byte.isDigit b) = true := by
    revert hfirst
    simp only [Byte.isSignificant, Byte.isSpace, Byte.isDigit, Bool.or_eq_true, Bool.and_eq_true, Bool.not_eq_true',
      Bool.or_eq_false_iff, decide_eq_true_eq, beq_iff_eq, beq_eq_false_iff_ne, bne_iff_ne, ne_eq,
      UInt8.le_iff_toNat_le, ← UInt8.toNat_inj, UInt8.reduceToNat]
    omega
  obtain ⟨hsignificant, h1, h2, h3, h4, h5⟩ := hcases
  refine Reads.fix 0 (fun _ _ => Nat.zero_le _) fun more _ => ?_
  refine (Reads.skip (hleft.trans (significant_cons hsignificant _)) ?_).here
  rw [h1, h2, h3, h4, h5]
  exact hread

private theorem readValue_word {word : String} (h : isBareName word = true) (hends : Ends ahead)
    (hleft : Near (bytesOf word ++ ahead) left) : Reads F (At left) readValue (· = wordValue word) (At ahead) := by
  obtain ⟨hname, b, rest, hrest, hdigit⟩ := isBareName_cons h
  have hread := @readToken_reads F ahead word hname hends.name
  have hb : Byte.isName b := hname.2 b (hrest ▸ List.mem_cons_self)
  have hcases : (b == 0x22) = false ∧ (b == 0x24) = false ∧ (b == 0x5b) = false ∧ (b == 0x7b) = false ∧
      (b == 0x2d) = false ∧ (b == 0x2b) = false ∧ (b == 0x2e) = false := by
    revert hb
    simp only [Byte.isName, Byte.isLetter, Byte.isDigit, Bool.or_eq_true, Bool.and_eq_true, decide_eq_true_eq,
      beq_iff_eq, beq_eq_false_iff_ne, ne_eq, UInt8.le_iff_toNat_le, ← UInt8.toNat_inj, UInt8.reduceToNat]
    omega
  obtain ⟨h1, h2, h3, h4, h5, h6, h7⟩ := hcases
  rw [hrest, List.cons_append] at hread hleft
  refine Reads.fix 0 (fun _ _ => Nat.zero_le _) fun more _ => ?_
  refine (Reads.skip (hleft.trans (significant_cons (Byte.isSignificant_of_isName hb) _)) ?_).here
  rw [h1, h2, h3, h4, h5, h6, h7, hdigit, hb]
  exact hread.bind fun word' hword => .pure (congrArg wordValue hword)

/-! ### Lists and objects -/

/-- The first byte of a literal. -/
def startsLiteral (b : UInt8) : Bool :=
  b == 0x22 || b == 0x24 || b == 0x5b || b == 0x7b || b == 0x2d || Byte.isName b

private theorem startsLiteral_cases {b : UInt8} (h : startsLiteral b) :
    Byte.isSignificant b ∧ (b == 0x5d) = false ∧ (b == 0x7d) = false ∧ (b == 0) = false := by
  revert h
  simp only [startsLiteral, Byte.isSignificant, Byte.isSpace, Byte.isName, Byte.isLetter, Byte.isDigit, Bool.or_eq_true,
    Bool.and_eq_true, Bool.not_eq_true', Bool.or_eq_false_iff, decide_eq_true_eq, beq_iff_eq, beq_eq_false_iff_ne,
    bne_iff_ne, ne_eq, UInt8.le_iff_toNat_le, ← UInt8.toNat_inj, UInt8.reduceToNat]
  omega

theorem startsLiteral_of_isDigit {b : UInt8} (h : Byte.isDigit b) : startsLiteral b := by
  simp [startsLiteral, Byte.isName, h]

theorem literal_cons {v : Value} (h : v.Legible) : ∃ b bytes, bytesOf v.literal = b :: bytes ∧ startsLiteral b := by
  have hquoted (text : String) : ∃ b bytes, bytesOf (Quoted.write text) = b :: bytes ∧ startsLiteral b :=
    ⟨_, _, bytesOf_write text, by decide⟩
  have hbracket (opened closed text : String) (b : UInt8) (hb : bytesOf opened = [b]) (hstarts : startsLiteral b) :
      ∃ b bytes, bytesOf (opened ++ text ++ closed) = b :: bytes ∧ startsLiteral b :=
    ⟨b, bytesOf text ++ bytesOf closed, by rw [bytesOf_append, bytesOf_append, hb]; rfl, hstarts⟩
  cases h with
  | enum h =>
    obtain ⟨hname, b, rest, hbytes, -⟩ := isBareName_cons h.1
    refine ⟨b, rest, by rw [Value.literal, hbytes], ?_⟩
    simp [startsLiteral, hname.2 b (hbytes ▸ List.mem_cons_self)]
  | var h =>
    rename_i name
    refine ⟨0x24, bytesOf name, ?_, by decide⟩
    rw [Value.literal, bytesOf_append, bytesOf_dollar]
    rfl
  | list h =>
    rw [Value.literal]
    exact hbracket "[" "]" _ 0x5b (by decide +kernel) (by decide)
  | object hkeys h =>
    rw [Value.literal]
    exact hbracket "\x7b" "\x7d" _ 0x7b (by decide +kernel) (by decide)
  | atom h =>
    cases v with
    | null => exact ⟨0x6e, [0x75, 0x6c, 0x6c], by rw [Value.literal]; decide +kernel, by decide⟩
    | bool b =>
      cases b with
      | false => exact ⟨0x66, [0x61, 0x6c, 0x73, 0x65], by rw [Value.literal]; decide +kernel, by decide⟩
      | true => exact ⟨0x74, [0x72, 0x75, 0x65], by rw [Value.literal]; decide +kernel, by decide⟩
    | int i =>
      obtain ⟨b, rest, hbytes⟩ := List.exists_cons_of_ne_nil (digitBytes_ne_nil i.toInt.natAbs)
      rw [Value.literal, IntText.bytesOf_display]
      split
      · exact ⟨_, _, rfl, by decide⟩
      · exact ⟨b, rest, hbytes, startsLiteral_of_isDigit (digitBytes_isDigit _ b (hbytes ▸ List.mem_cons_self))⟩
    | float x =>
      rw [Value.literal]
      cases x with
      | finite negative m e hcanonical =>
        obtain ⟨⟨b, hb, hfirst⟩, -⟩ := FloatText.literal_finite_bytes negative m e hcanonical
        obtain ⟨rest, hrest⟩ := List.head?_eq_some_iff.1 hb
        refine ⟨b, rest, hrest, ?_⟩
        rcases hfirst with rfl | hdigit
        · decide
        · exact startsLiteral_of_isDigit hdigit
      | infinity negative =>
        cases negative with
        | false => exact ⟨0x69, [0x6e, 0x66], by decide +kernel, by decide⟩
        | true => exact ⟨0x2d, [0x69, 0x6e, 0x66], by decide +kernel, by decide⟩
      | nan => exact ⟨0x4e, [0x61, 0x4e], by decide +kernel, by decide⟩
    | string text =>
      rw [Value.literal]
      exact hquoted text
    | time t =>
      rw [Value.literal]
      exact hquoted t.text
    | enum | var | list | object => cases h

/-- The parser reads the literal of the value wherever less than `n` bytes are left, unless it does not read back. -/
def ReadsWithin (F : Prop) (n : Nat) (value : Parser Value) (v : Value) : Prop :=
  ∀ {left ahead : List UInt8}, Ends ahead → Near (bytesOf v.literal ++ ahead) left → left.length < n →
    (v.reread = none → F) → Reads F (At left) value (fun w => v.reread = some w) (At ahead)

private theorem readItems_reads {n : Nat} {value : Parser Value} (start : Pos) (items : List Value)
    (hitems : ∀ v ∈ items, v.Legible ∧ ReadsWithin F n value v) (hn : left.length < n)
    (hleft : Near (bytesOf (Value.itemsLiteral items) ++ 0x5d :: ahead) left)
    (hF : Value.rereadItems items = none → F) :
    Reads F (At left) (readItems value start) (fun ws => Value.rereadItems items = some ws) (At ahead) := by
  induction items generalizing left with
  | nil =>
    rw [Value.itemsLiteral, bytesOf_empty, List.nil_append] at hleft
    refine Reads.fix 0 (fun _ _ => Nat.zero_le _) fun more _ => ?_
    refine (Reads.skip (hleft.trans (significant_cons (by decide) _)) ?_).here
    refine (discard_reads readByte_reads).bind fun _ _ => .pure ?_
    simp only [Value.rereadItems]
  | cons v rest ih =>
    obtain ⟨⟨hlegible, hvalue⟩, hrest⟩ := List.forall_mem_cons.1 hitems
    -- what follows the item ends it, and is the rest of the items or the closing bracket
    obtain ⟨next, hnext, hends, hnear⟩ : ∃ next, bytesOf (Value.itemsLiteral (v :: rest)) ++ 0x5d :: ahead =
        bytesOf v.literal ++ next ∧ Ends next ∧ Near (bytesOf (Value.itemsLiteral rest) ++ 0x5d :: ahead) next := by
      cases rest with
      | nil =>
        refine ⟨0x5d :: ahead, by rw [Value.itemsLiteral], fun b hb => ?_, ?_⟩
        · cases hb
          decide
        · rw [Value.itemsLiteral, bytesOf_empty]
          rfl
      | cons w rest =>
        refine ⟨0x2c :: 0x20 :: (bytesOf (Value.itemsLiteral (w :: rest)) ++ 0x5d :: ahead), ?_, fun b hb => ?_, ?_⟩
        · rw [Value.itemsLiteral, bytesOf_append, bytesOf_append, bytesOf_comma]
          simp
          exact nofun
        · cases hb
          decide
        · exact (significant_space (by decide) _).trans (significant_space (by decide) _)
    obtain ⟨b, bytes, hbytes, hb⟩ := literal_cons hlegible
    obtain ⟨hsignificant, h1, -, h2⟩ := startsLiteral_cases hb
    have hsource : significant left = bytesOf v.literal ++ next := by
      rw [hleft, hnext, hbytes]
      exact significant_cons hsignificant _
    have hlength := length_significant_le left
    rw [hsource, hbytes, List.cons_append] at hlength
    refine Reads.fix left.length (fun _ h => Nat.le_of_eq (congrArg List.length h).symm) fun more hmore => ?_
    refine (Reads.skip (hsource.trans (by rw [hbytes]; rfl)) ?_).here
    rw [h1, h2]
    have hfirst := @hvalue (b :: (bytes ++ next)) _ hends (by rw [hbytes]; rfl) (Nat.lt_of_le_of_lt hlength hn)
      fun hnone => hF (by simp only [Value.rereadItems, hnone, Option.bind_none])
    refine hfirst.bind fun w hw => ?_
    refine Reads.bind (hmore _ _ _ ?_ (ih hrest ?_ hnear fun hnone => hF ?_)) fun ws hws => .pure ?_
    · rintro _ rfl
      simp at hlength
      omega
    · simp at hlength
      omega
    · simp only [Value.rereadItems, hw, hnone, Option.bind_some, Option.map_none]
    · simp only [Value.rereadItems, hw, hws, Option.bind_some, Option.map_some]

/-- A key, bare or between quotation marks, reads as the key. -/
private theorem readKey_reads (key : String) (more : List UInt8) :
    ∃ b bytes, bytesOf (Value.keyLiteral key) = b :: bytes ∧ startsLiteral b ∧
      Reads F (At (b :: (bytes ++ 0x3a :: more))) (readKey b) (· = key) (At (0x3a :: more)) := by
  have hcolon (p : UInt8 → Bool) (h : p 0x3a = false) : Stops p (0x3a :: more) := fun b hb => by
    cases hb
    exact h
  unfold Value.keyLiteral
  split
  · next hbare =>
    obtain ⟨hname, b, bytes, hbytes, -⟩ := isBareName_cons hbare
    have hb := hname.2 b (hbytes ▸ List.mem_cons_self)
    have hread := @readName_reads F (0x3a :: more) key hname (hcolon _ (by decide)) "object key"
    rw [hbytes, List.cons_append] at hread
    have hquote : (b == 0x22) = false := by
      rw [beq_eq_false_iff_ne]
      rintro rfl
      exact absurd hb (by decide)
    refine ⟨b, bytes, hbytes, by simp [startsLiteral, hb], ?_⟩
    unfold readKey
    rw [hquote]
    exact hread.here
  · have hread := @readString_reads F (0x3a :: more) key (hcolon _ (by decide))
    rw [bytesOf_write, List.cons_append] at hread
    exact ⟨0x22, _, bytesOf_write key, by decide, hread⟩

private theorem readEntries_reads {n : Nat} {value : Parser Value} (start : Pos) (entries : List (String × Value))
    (hentries : ∀ entry ∈ entries, entry.2.Legible ∧ ReadsWithin F n value entry.2) (read : List (String × Value))
    (hkeys : (Entries.keys read ++ Entries.keys entries).Nodup) (hn : left.length < n)
    (hleft : Near (bytesOf (Value.entriesLiteral entries) ++ 0x7d :: ahead) left)
    (hF : Value.rereadEntries entries = none → F) :
    Reads F (At left) (readEntries value start read)
      (fun found => ∃ more, Value.rereadEntries entries = some more ∧ found = read ++ more) (At ahead) := by
  induction entries generalizing left read with
  | nil =>
    rw [Value.entriesLiteral, bytesOf_empty, List.nil_append] at hleft
    refine Reads.fixWith 0 (fun _ _ => Nat.zero_le _) fun more _ => ?_
    refine (Reads.skip (hleft.trans (significant_cons (by decide) _)) ?_).here
    refine position_reads.bind fun pos _ => (discard_reads readByte_reads).bind fun _ _ => .pure ⟨[], ?_, by simp⟩
    simp only [Value.rereadEntries]
  | cons entry rest ih =>
    obtain ⟨key, v⟩ := entry
    obtain ⟨⟨hlegible, hvalue⟩, hrest⟩ := List.forall_mem_cons.1 hentries
    obtain ⟨next, hnext, hends, hnear⟩ : ∃ next, bytesOf (Value.entriesLiteral ((key, v) :: rest)) ++ 0x7d :: ahead =
        bytesOf (Value.keyLiteral key) ++ 0x3a :: 0x20 :: (bytesOf v.literal ++ next) ∧ Ends next ∧
          Near (bytesOf (Value.entriesLiteral rest) ++ 0x7d :: ahead) next := by
      cases rest with
      | nil =>
        refine ⟨0x7d :: ahead, ?_, fun b hb => ?_, ?_⟩
        · simp [Value.entriesLiteral, bytesOf_append, bytesOf_colon]
        · cases hb
          decide
        · rw [Value.entriesLiteral, bytesOf_empty]
          rfl
      | cons entry rest =>
        refine ⟨0x2c :: 0x20 :: (bytesOf (Value.entriesLiteral (entry :: rest)) ++ 0x7d :: ahead), ?_, fun b hb => ?_, ?_⟩
        · rw [Value.entriesLiteral]
          · simp [bytesOf_append, bytesOf_colon, bytesOf_comma]
          · exact nofun
        · cases hb
          decide
        · exact (significant_space (by decide) _).trans (significant_space (by decide) _)
    obtain ⟨b, bytes, hbytes, hb, hkey⟩ := @readKey_reads F key (0x20 :: (bytesOf v.literal ++ next))
    obtain ⟨hsignificant, -, h1, h2⟩ := startsLiteral_cases hb
    have hsource : significant left = b :: (bytes ++ 0x3a :: 0x20 :: (bytesOf v.literal ++ next)) := by
      rw [hleft, hnext, hbytes]
      exact significant_cons hsignificant _
    have hlength := length_significant_le left
    rw [hsource] at hlength
    simp only [List.length_cons, List.length_append] at hlength
    have hnew : Entries.contains key read = false := by
      unfold Entries.contains
      rw [Entries.get?_eq_none_iff.2 fun hmem => ?_]
      · rfl
      · exact List.disjoint_of_nodup_append hkeys hmem (List.mem_cons_self)
    refine Reads.fixWith left.length (fun _ h => Nat.le_of_eq (congrArg List.length h).symm) fun more hmore => ?_
    refine (Reads.skip hsource ?_).here
    refine position_reads.bind fun pos _ => ?_
    rw [h1, h2]
    refine hkey.bind fun key' hkey' => ?_
    subst hkey'
    refine (expect_reads (by decide)).here.bind fun _ _ => ?_
    have hfirst := @hvalue (0x20 :: (bytesOf v.literal ++ next)) _ hends (significant_space (by decide) _)
      (by simp only [List.length_cons, List.length_append]; omega)
      fun hnone => hF (by simp only [Value.rereadEntries, hnone, Option.bind_none])
    refine hfirst.bind fun w hw => ?_
    have hkeys' : (Entries.keys (read ++ [(key', w)]) ++ Entries.keys rest).Nodup := by
      simpa [Entries.keys] using hkeys
    rw [hnew, if_neg Bool.false_ne_true]
    refine (hmore _ _ _ _ ?_ (ih hrest _ hkeys' ?_ hnear fun hnone => hF ?_)).mono ?_ fun _ => id
    · rintro _ rfl
      omega
    · omega
    · simp only [Value.rereadEntries, hw, hnone, Option.bind_some, Option.map_none]
    · rintro found ⟨others, hothers, rfl⟩
      refine ⟨(key', w) :: others, ?_, by simp⟩
      simp only [Value.rereadEntries, hw, hothers, Option.bind_some, Option.map_some]

/-- The literal of a value reads as what it is reread as, up to where it ends. -/
theorem readValue_within {v : Value} (h : v.Legible) (n : Nat) : ReadsWithin F n readValue v := by
  induction h generalizing n with
  | enum h =>
    intro left ahead hends hleft _ _
    rw [Value.literal] at hleft
    refine (readValue_word h.1 hends hleft).mono (fun w hw => ?_) fun _ => id
    rw [hw, wordValue, if_neg h.2.1, if_neg h.2.2.1, if_neg h.2.2.2]
    simp only [Value.reread]
  | @var name h =>
    intro left ahead hends hleft _ _
    rw [Value.literal, bytesOf_append, bytesOf_dollar] at hleft
    refine Reads.fix 0 (fun _ _ => Nat.zero_le _) fun more _ => ?_
    refine (Reads.skip (hleft.trans (significant_cons (by decide) _)) ?_).here
    refine (discard_reads readByte_reads).bind fun _ _ => position_reads.bind fun pos _ => ?_
    refine (readToken_reads h hends.name).bind fun name' hname => ?_
    subst hname
    have hempty : name'.isEmpty = false := by simpa using h.1
    rw [hempty]
    exact .pure (by simp only [Value.reread])
  | @list items h ih =>
    intro left ahead hends hleft hn hF
    rw [Value.literal, bytesOf_append, bytesOf_append, bytesOf_openBracket, bytesOf_closeBracket, List.append_assoc,
      List.append_assoc] at hleft
    have hsource := hleft.trans (significant_cons (by decide) _)
    have hlength := length_significant_le left
    rw [hsource] at hlength
    refine Reads.fix left.length (fun _ h => Nat.le_of_eq (congrArg List.length h).symm) fun more hmore => ?_
    refine (Reads.skip hsource ?_).here
    refine position_reads.bind fun start _ => (discard_reads readByte_reads).bind fun _ _ => ?_
    have hitems : ∀ v ∈ items, v.Legible ∧ ReadsWithin F left.length more v := by
      intro v hv
      refine ⟨h v hv, fun hends hnear hshort hF => ?_⟩
      refine hmore _ _ _ ?_ (ih v hv left.length hends hnear hshort hF)
      rintro _ rfl
      exact hshort
    refine (readItems_reads start items hitems (Nat.lt_of_lt_of_le (Nat.lt_succ_self _) hlength) rfl fun hnone => hF ?_).bind
      fun ws hws => .pure ?_
    · simp only [Value.reread, hnone, Option.map_none]
    · simp only [Value.reread, hws, Option.map_some]
  | @object entries hkeys h ih =>
    intro left ahead hends hleft hn hF
    rw [Value.literal, bytesOf_append, bytesOf_append, bytesOf_openBrace, bytesOf_closeBrace, List.append_assoc,
      List.append_assoc] at hleft
    have hsource := hleft.trans (significant_cons (by decide) _)
    have hlength := length_significant_le left
    rw [hsource] at hlength
    refine Reads.fix left.length (fun _ h => Nat.le_of_eq (congrArg List.length h).symm) fun more hmore => ?_
    refine (Reads.skip hsource ?_).here
    refine position_reads.bind fun start _ => (discard_reads readByte_reads).bind fun _ _ => ?_
    have hentries : ∀ entry ∈ entries, entry.2.Legible ∧ ReadsWithin F left.length more entry.2 := by
      intro entry hentry
      refine ⟨h entry hentry, fun hends hnear hshort hF => ?_⟩
      refine hmore _ _ _ ?_ (ih entry hentry left.length hends hnear hshort hF)
      rintro _ rfl
      exact hshort
    refine (readEntries_reads start entries hentries [] (by simpa [Entries.keys] using hkeys)
      (Nat.lt_of_lt_of_le (Nat.lt_succ_self _) hlength) rfl fun hnone => hF ?_).bind fun found hfound => .pure ?_
    · simp only [Value.reread, hnone, Option.map_none]
    · obtain ⟨others, hothers, rfl⟩ := hfound
      simp only [Value.reread, hothers, Option.map_some]
  | @atom v h =>
    intro left ahead hends hleft _ hF
    cases v with
    | null =>
      rw [Value.literal] at hleft
      refine (readValue_word (by decide +kernel) hends hleft).mono (fun w hw => ?_) fun _ => id
      rw [hw]
      simp only [Value.reread, wordValue, if_pos]
    | bool b =>
      have hbare : isBareName (if b then "true" else "false") = true := by cases b <;> decide +kernel
      rw [Value.literal] at hleft
      refine (readValue_word hbare hends hleft).mono (fun w hw => ?_) fun _ => id
      rw [hw]
      cases b <;> simp [Value.reread, wordValue]
    | int i =>
      rw [Value.literal] at hleft
      obtain ⟨hfirst, hrun⟩ := display_bytes i
      refine (readValue_number hfirst hrun hends hleft fun hnone => ?_).mono (fun w hw => ?_) fun _ => id
      · rw [numberValue?_display] at hnone
        cases hnone
      · rw [numberValue?_display] at hw
        simp only [Value.reread, hw]
    | float x =>
      rw [Value.literal] at hleft
      cases x with
      | finite negative m e hcanonical =>
        obtain ⟨hfirst, hrun⟩ := FloatText.literal_finite_bytes negative m e hcanonical
        refine (readValue_number hfirst hrun hends hleft fun hnone => hF ?_).mono (fun w hw => ?_) fun _ => id
        · simp only [Value.reread, Value.rereadFloat, hnone]
        · simp only [Value.reread, Value.rereadFloat, hw]
      | infinity negative =>
        cases negative with
        | false =>
          have hbare : isBareName "inf" = true := by decide +kernel
          refine (readValue_word hbare hends hleft).mono (fun w hw => ?_) fun _ => id
          rw [hw]
          simp [Value.reread, Value.rereadFloat, wordValue]
        | true =>
          have htext : bytesOf (FloatText.literal (.infinity true)) = [0x2d, 0x69, 0x6e, 0x66] := by decide +kernel
          rw [htext] at hleft
          refine Reads.fix 0 (fun _ _ => Nat.zero_le _) fun more _ => ?_
          refine (Reads.skip (hleft.trans (significant_cons (by decide) _)) ?_).here
          refine readNumber_fails 0x69 (by decide) (by decide) (hF ?_) _ _
          simp only [Value.reread, Value.rereadFloat]
      | nan =>
        have hbare : isBareName "NaN" = true := by decide +kernel
        refine (readValue_word hbare hends hleft).mono (fun w hw => ?_) fun _ => id
        rw [hw]
        simp [Value.reread, Value.rereadFloat, wordValue]
    | string text =>
      rw [Value.literal] at hleft
      refine (readValue_string text hends hleft).mono (fun w hw => ?_) fun _ => id
      rw [hw]
      simp only [Value.reread]
    | time t =>
      rw [Value.literal] at hleft
      refine (readValue_string t.text hends hleft).mono (fun w hw => ?_) fun _ => id
      rw [hw]
      simp only [Value.reread]
    | enum | var | list | object => cases h

theorem readValue_reads {v : Value} (h : v.Legible) (hends : Ends ahead) (hF : v.reread = none → F) :
    Reads F (Near (bytesOf v.literal ++ ahead)) readValue (fun w => v.reread = some w) (At ahead) :=
  fun s hs => readValue_within h (s.rest.length + 1) hends hs (Nat.lt_succ_self _) hF s rfl

/-! ### Reading back -/

/-- A literal has no byte order mark in front. -/
private theorem head_literal {v : Value} (h : v.Legible) (ahead : List UInt8) :
    (bytesOf v.literal ++ ahead).head? ≠ some 0xef := by
  obtain ⟨b, bytes, hbytes, hb⟩ := literal_cons h
  rw [hbytes]
  rintro hhead
  cases hhead
  exact absurd hb (by decide)

/-- The literal of a value without doubles and times reads as the value, from the start of a source or anywhere else, and
exactly what follows the literal is left. -/
theorem readValue_literal {v : Value} (hlegible : v.Legible) (hplain : v.Plain) (hends : Ends ahead) :
    (Scanner.ofBytes (bytesOf v.literal ++ ahead)).rest = bytesOf v.literal ++ ahead ∧
      ∀ s : Scanner, s.rest = bytesOf v.literal ++ ahead → ∃ after, readValue s = .ok v after ∧ after.rest = ahead := by
  refine ⟨Scanner.rest_ofBytes (head_literal hlegible ahead), fun s hs => ?_⟩
  have hnone : v.reread = none → False := by
    rw [Value.reread_of_plain hplain]
    exact nofun
  obtain ⟨hok, herror⟩ := (readValue_reads hlegible hends hnone).here s hs
  cases hread : readValue s with
  | error e after => exact (herror e after hread).elim
  | ok w after =>
    obtain ⟨hw, hafter⟩ := hok w after hread
    rw [Value.reread_of_plain hplain] at hw
    exact ⟨after, by rw [Option.some.inj hw], hafter⟩

/-- Keys are bare or quoted, and items are of any kind. -/
private def assorted : Value :=
  .object
    [("items", .list [.int (-9223372036854775808), .null, .bool true, .enum "RED", .var "x", .object []]),
      ("", .string ""), ("a \"b\"", .string "\\ \n \x01 é")]

private theorem assorted_legible : assorted.Legible := by
  have hsymbol : IsSymbol "RED" := ⟨by decide +kernel, by decide, by decide, by decide⟩
  have hname : IsName "x" := ⟨by decide, by decide +kernel⟩
  refine .object (by decide) ?_
  simp only [List.forall_mem_cons, List.not_mem_nil, false_imp_iff, forall_const, and_true]
  refine ⟨.list ?_, .atom rfl, .atom rfl⟩
  simp only [List.forall_mem_cons, List.not_mem_nil, false_imp_iff, forall_const, and_true]
  exact ⟨.atom rfl, .atom rfl, .atom rfl, .enum hsymbol, .var hname, .object List.nodup_nil (by simp)⟩

private theorem assorted_plain : assorted.Plain := by
  refine .object ?_
  simp only [List.forall_mem_cons, List.not_mem_nil, false_imp_iff, forall_const, and_true]
  refine ⟨.list ?_, .string _, .string _⟩
  simp only [List.forall_mem_cons, List.not_mem_nil, false_imp_iff, forall_const, and_true]
  exact ⟨.int _, .null, .bool _, .enum _, .var _, .object (by simp)⟩

theorem assorted_reads_back :
    assorted.literal =
        "\x7bitems: [-9223372036854775808, null, true, RED, $x, \x7b\x7d], " ++
          "\"\": \"\", \"a \\\"b\\\"\": \"\\\\ \\n \\u0001 é\"\x7d" ∧
      ∃ after, readValue (.ofBytes (bytesOf assorted.literal ++ [0x29, 0x7b])) = .ok assorted after ∧
        after.rest = [0x29, 0x7b] := by
  have hends : Ends [0x29, 0x7b] := fun b hb => by
    cases hb
    decide
  obtain ⟨hrest, hread⟩ := readValue_literal assorted_legible assorted_plain hends
  exact ⟨by decide +kernel, hread _ hrest⟩

end Parser

end GraphQL
