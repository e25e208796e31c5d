import GraphQL.Proofs.Text.Reads

/-!
# Strings read back

A text between quotation marks reads as the text, whatever its characters are (`Parser.readString_reads`). Between three
quotation marks each, a text without such marks reads as its block string value.
-/

namespace GraphQL

namespace Quoted

/-! ### The characters of a quoted string -/

/-- The character stands for itself between quotation marks. -/
def IsPlain (c : Char) : Prop := c ≠ '\"' ∧ c ≠ '\\' ∧ isControl c = false

theorem isPlain_bytes {c : Char} (h : IsPlain c) : ∀ b ∈ utf8Bytes c, Parser.isPlain b := by
  obtain ⟨hquote, hbackslash, hcontrol⟩ := h
  intro b hb
  by_contra hspecial
  have hcases : b = 0 ∨ b = 0x0a ∨ b = 0x22 ∨ b = 0x5c := by
    simp only [Parser.isPlain, bne_iff_ne, ne_eq, Bool.and_eq_true] at hspecial
    tauto
  rcases hcases with rfl | rfl | rfl | rfl
  · simp [isControl, toNat_of_mem_utf8Bytes hb (by decide)] at hcontrol
  · simp [isControl, toNat_of_mem_utf8Bytes hb (by decide)] at hcontrol
  · exact hquote (Char.toNat_inj.1 (toNat_of_mem_utf8Bytes hb (by decide)))
  · exact hbackslash (Char.toNat_inj.1 (toNat_of_mem_utf8Bytes hb (by decide)))

theorem writeChar_plain {c : Char} (h : IsPlain c) : writeChar c = [c] := by
  obtain ⟨hquote, hbackslash, hcontrol⟩ := h
  have hnewline : c ≠ '\n' := fun h => by simp [h, isControl] at hcontrol
  have hreturn : c ≠ '\r' := fun h => by simp [h, isControl] at hcontrol
  have htab : c ≠ '\t' := fun h => by simp [h, isControl] at hcontrol
  simp [writeChar, hquote, hbackslash, hnewline, hreturn, htab, hcontrol]

end Quoted

namespace Parser

variable {F : Prop} {ahead : List UInt8} {before : List UInt8 → Prop}

/-! ### Escapes -/

private theorem hexDigit_bytes : ∀ d < 16, ∃ b : UInt8, utf8Bytes (Byte.hexDigit d) = [b] ∧ Byte.hexValue? b = some d := by
  have h : ∀ d < 16, (Byte.hexDigit d).toNat < 0x80 ∧
      Byte.hexValue? (UInt8.ofNat (Byte.hexDigit d).toNat) = some d := by decide
  intro d hd
  exact ⟨_, utf8Bytes_ascii (h d hd).1, (h d hd).2⟩

private theorem readHex_reads (pos : Pos) (digits : List Nat) (h : ∀ d ∈ digits, d < 16) (value : Nat) :
    Reads F (At ((digits.map Byte.hexDigit).flatMap utf8Bytes ++ ahead)) (readHex pos digits.length value)
      (· = digits.foldl (fun v d => v * 16 + d) value) (At ahead) := by
  induction digits generalizing value with
  | nil => exact .pure rfl
  | cons d digits ih =>
    obtain ⟨b, hbytes, hvalue⟩ := hexDigit_bytes d (h d List.mem_cons_self)
    rw [List.map_cons, List.flatMap_cons, hbytes]
    refine readByte_reads.bind fun b' hb' => ?_
    subst hb'
    rw [hvalue]
    exact ih (fun e he => h e (List.mem_cons_of_mem _ he)) _

private theorem readUnicodeEscape_reads (pos : Pos) {c : Char} (h : c.toNat < 0xd800) :
    Reads F (At (((Quoted.unicodeEscape c).drop 2).flatMap utf8Bytes ++ ahead)) (readUnicodeEscape pos) (· = c)
      (At ahead) := by
  have hdigits : ∀ d ∈ [c.toNat / 0x1000 % 16, c.toNat / 0x100 % 16, c.toNat / 0x10 % 16, c.toNat % 16], d < 16 := by
    simp only [List.mem_cons, List.not_mem_nil, or_false, forall_eq_or_imp, forall_eq]
    omega
  refine (readHex_reads pos _ hdigits 0).bind fun high hhigh => ?_
  have heq : high = c.toNat := by
    rw [hhigh]
    simp only [List.foldl_cons, List.foldl_nil]
    omega
  subst heq
  rw [if_neg (by simp; omega), if_neg (by simp; omega), Char.ofNat_toNat]
  exact .pure rfl

/-- A run on every scanner that stands there tells what is read. -/
private theorem reads_of_eq {α : Type} {p : Parser α} {a : α} {after : List UInt8 → Prop}
    (h : ∀ pos undo, ∃ s', p ⟨ahead, pos, undo⟩ = .ok a s' ∧ after s'.rest) : Reads F (At ahead) p (· = a) after := by
  rintro ⟨rest, pos, undo⟩ rfl
  obtain ⟨s', hrun, hafter⟩ := h pos undo
  refine ⟨fun a' t hok => ?_, fun e t herror => by rw [hrun] at herror; cases herror⟩
  rw [hrun] at hok
  cases hok
  exact ⟨rfl, hafter⟩

/-- What follows the backslash of an escape reads as the character that is escaped. -/
private theorem readEscape_reads {c : Char} (h : ¬Quoted.IsPlain c) :
    ∃ escape, Quoted.writeChar c = '\\' :: escape ∧
      Reads F (At (escape.flatMap utf8Bytes ++ ahead)) readEscape (· = c) (At ahead) := by
  unfold Quoted.writeChar
  split
  · next hc =>
    obtain rfl := eq_of_beq hc
    exact ⟨['\"'], rfl, reads_of_eq fun _ _ => ⟨_, rfl, rfl⟩⟩
  split
  · next hc =>
    obtain rfl := eq_of_beq hc
    exact ⟨['\\'], rfl, reads_of_eq fun _ _ => ⟨_, rfl, rfl⟩⟩
  split
  · next hc =>
    obtain rfl := eq_of_beq hc
    exact ⟨['n'], rfl, reads_of_eq fun _ _ => ⟨_, rfl, rfl⟩⟩
  split
  · next hc =>
    obtain rfl := eq_of_beq hc
    exact ⟨['r'], rfl, reads_of_eq fun _ _ => ⟨_, rfl, rfl⟩⟩
  split
  · next hc =>
    obtain rfl := eq_of_beq hc
    exact ⟨['t'], rfl, reads_of_eq fun _ _ => ⟨_, rfl, rfl⟩⟩
  split
  · next hcontrol =>
    refine ⟨'u' :: (Quoted.unicodeEscape c).drop 2, rfl, position_reads.bind fun pos _ => ?_⟩
    have hmark : Reads F (At (('u' :: (Quoted.unicodeEscape c).drop 2).flatMap utf8Bytes ++ ahead)) readByte (· = 0x75)
        (At (((Quoted.unicodeEscape c).drop 2).flatMap utf8Bytes ++ ahead)) := readByte_reads
    refine hmark.bind fun b hb => ?_
    subst hb
    refine readUnicodeEscape_reads pos ?_
    simp only [Quoted.isControl, Bool.or_eq_true, Bool.and_eq_true, decide_eq_true_eq] at hcontrol
    omega
  · next hquote hbackslash _ _ _ hcontrol =>
    have hplain : Quoted.IsPlain c := by
      refine ⟨fun heq => hquote ?_, fun heq => hbackslash ?_, Bool.not_eq_true _ ▸ hcontrol⟩
      · rw [heq]
        rfl
      · rw [heq]
        rfl
    exact absurd hplain h

/-! ### Quoted strings -/

/-- No written character starts with a quotation mark. -/
private theorem written_head (cs : List Char) : ∀ b ∈ ((cs.flatMap Quoted.writeChar).flatMap utf8Bytes).head?, b ≠ 0x22 := by
  cases cs with
  | nil => simp
  | cons c cs =>
    by_cases hc : Quoted.IsPlain c
    · cases hbytes : utf8Bytes c with
      | nil => exact absurd hbytes (utf8Bytes_ne_nil c)
      | cons b rest =>
        have hb := Quoted.isPlain_bytes hc b (hbytes ▸ List.mem_cons_self)
        simp only [isPlain, bne_iff_ne, ne_eq, Bool.and_eq_true] at hb
        simpa [Quoted.writeChar_plain hc, hbytes] using hb.1.2
    · obtain ⟨escape, hescape, -⟩ := @readEscape_reads True [] c hc
      simp [hescape, show utf8Bytes '\\' = [0x5c] from rfl]

/-- The rest of a quoted string reads as its characters, after a run of bytes that stand for themselves. -/
private theorem quotedBody_reads (start : Pos) (cs : List Char) (run : List UInt8) (hrun : ∀ b ∈ run, isPlain b) :
    Reads F (At (run ++ (cs.flatMap Quoted.writeChar).flatMap utf8Bytes ++ 0x22 :: ahead)) (quotedBody start)
      (· = run ++ cs.flatMap utf8Bytes) (At ahead) := by
  induction cs generalizing run with
  | nil =>
    refine Reads.fix 0 (fun _ _ => Nat.zero_le _) fun more _ => ?_
    rw [List.flatMap_nil, List.flatMap_nil, List.append_nil]
    refine (span_reads hrun fun b hb => ?_).bind fun run' hrun' => ?_
    · cases hb
      decide
    · subst hrun'
      refine readByte_reads.bind fun b hb => ?_
      subst hb
      exact .pure rfl
  | cons c cs ih =>
    by_cases hc : Quoted.IsPlain c
    · have hcons := ih (run ++ utf8Bytes c) fun b hb => by
        rcases List.mem_append.1 hb with hb | hb
        · exact hrun b hb
        · exact Quoted.isPlain_bytes hc b hb
      simpa [Quoted.writeChar_plain hc] using hcons
    · obtain ⟨escape, hescape, hread⟩ :=
        @readEscape_reads F ((cs.flatMap Quoted.writeChar).flatMap utf8Bytes ++ 0x22 :: ahead) c hc
      have hbytes : run ++ ((c :: cs).flatMap Quoted.writeChar).flatMap utf8Bytes ++ 0x22 :: ahead =
          run ++ 0x5c :: (escape.flatMap utf8Bytes ++
            ((cs.flatMap Quoted.writeChar).flatMap utf8Bytes ++ 0x22 :: ahead)) := by
        rw [List.flatMap_cons, hescape]
        simp [show utf8Bytes '\\' = [0x5c] from rfl]
      rw [hbytes]
      refine Reads.fix _ (fun left hleft => Nat.le_of_eq (congrArg List.length hleft).symm) fun more hmore => ?_
      refine (span_reads hrun fun b hb => ?_).bind fun run' hrun' => ?_
      · cases hb
        decide
      · subst hrun'
        refine readByte_reads.bind fun b hb => ?_
        subst hb
        refine hread.bind fun c' hc' => ?_
        subst hc'
        refine Reads.bind (hmore _ _ _ ?_ (ih [] fun b hb => absurd hb (by simp))) fun rest hrest => ?_
        · rintro left rfl
          simp
          omega
        · subst hrest
          exact .pure (by simp)

theorem bytesOf_write (text : String) :
    bytesOf (Quoted.write text) = 0x22 :: ((text.toList.flatMap Quoted.writeChar).flatMap utf8Bytes ++ [0x22]) := by
  unfold Quoted.write
  rw [bytesOf_ofList]
  simp [show utf8Bytes '\"' = [0x22] from rfl]

theorem get_reads : Reads F before (get : Parser Scanner) (fun s => before s.rest) before := by
  intro s hs
  refine ⟨fun s' t hok => ?_, fun e t herror => by cases herror⟩
  cases hok
  exact ⟨hs, hs⟩

/-- A text between quotation marks reads as the text. -/
theorem readString_reads (text : String) (hstop : Stops (· == 0x22) ahead) :
    Reads F (At (bytesOf (Quoted.write text) ++ ahead)) readString (· = text) (At ahead) := by
  have hbody (start : Pos) := @quotedBody_reads F ahead start text.toList [] (by simp)
  have hfirst := written_head text.toList
  rw [bytesOf_write, List.cons_append, List.append_assoc, List.singleton_append]
  generalize (text.toList.flatMap Quoted.writeChar).flatMap utf8Bytes = written at hbody hfirst ⊢
  refine position_reads.bind fun start _ => get_reads.bind fun s hs => ?_
  have hpeek : s.peek = 0x22 := by
    unfold Scanner.peek Scanner.peekAt
    rw [hs]
    rfl
  -- the quotation mark that closes is not the second of three that open a block string
  have hblock : (s.peekAt 1 == 0x22 && s.peekAt 2 == 0x22) = false := by
    unfold Scanner.peekAt
    rw [hs]
    cases hw : written with
    | nil =>
      cases hahead : ahead with
      | nil => rfl
      | cons b rest =>
        rw [hahead] at hstop
        simpa using hstop b rfl
    | cons b rest =>
      have hb : b ≠ 0x22 := hfirst b (by rw [hw]; rfl)
      simp [hb]
  rw [hpeek, if_neg (by simp), hblock, if_neg (by simp)]
  refine (discard_reads readByte_reads).bind fun _ _ => ?_
  refine (hbody start).bind fun bytes hbytes => ?_
  rw [hbytes, List.nil_append, ← bytesOf_eq_flatMap, utf8Text?_bytesOf]
  exact .pure rfl

/-! ### Block strings -/

/-- A source that goes on with a quotation mark has it as its next character. -/
private theorem eq_cons_of_mark {cs : List Char} {bytes rest : List UInt8}
    (h : cs.flatMap utf8Bytes ++ bytes = 0x22 :: rest) :
    cs = [] ∨ ∃ cs', cs = '\"' :: cs' ∧ cs'.flatMap utf8Bytes ++ bytes = rest := by
  cases cs with
  | nil => exact .inl rfl
  | cons c cs =>
    right
    obtain ⟨b, bs, hbytes⟩ := List.exists_cons_of_ne_nil (utf8Bytes_ne_nil c)
    rw [List.flatMap_cons, hbytes, List.append_assoc, List.cons_append] at h
    obtain ⟨hbyte, hrest⟩ := List.cons.inj h
    have hmem : (0x22 : UInt8) ∈ utf8Bytes c := by
      rw [hbytes, hbyte]
      exact List.mem_cons_self
    obtain rfl : c = '\"' := Char.toNat_inj.1 (toNat_of_mem_utf8Bytes hmem (by decide))
    obtain ⟨-, rfl⟩ : b = 0x22 ∧ bs = [] := List.cons.inj (hbytes.symm.trans (show utf8Bytes '\"' = [0x22] from rfl))
    exact ⟨cs, rfl, hrest⟩

/-- The raw text of a block string: three quotation marks are nowhere in it, and none is made or kept from closing it by
its last character. -/
structure IsBlockText (raw : List Char) : Prop where
  unmarked : ¬['\"', '\"', '\"'] <:+: raw
  last : ∀ c ∈ raw.getLast?, c ≠ '\"' ∧ c ≠ '\\'

private theorem IsBlockText.tail {c : Char} {raw : List Char} (h : IsBlockText (c :: raw)) : IsBlockText raw where
  unmarked := fun hmarked => h.unmarked (hmarked.trans (List.suffix_cons c raw).isInfix)
  last := fun d hd => by
    cases raw with
    | nil => cases hd
    | cons e raw => exact h.last d (by rw [List.getLast?_cons_cons]; exact hd)

private theorem IsBlockText.ne_nil {c : Char} {raw : List Char} (h : IsBlockText (c :: raw)) (hc : c = '\"' ∨ c = '\\') :
    raw ≠ [] := by
  rintro rfl
  have := h.last c rfl
  rcases hc with rfl | rfl
  · exact this.1 rfl
  · exact this.2 rfl

private theorem IsBlockText.quote {raw : List Char} (h : IsBlockText ('\"' :: raw)) (ahead bytes : List UInt8) :
    raw.flatMap utf8Bytes ++ ahead ≠ 0x22 :: 0x22 :: bytes := by
  intro heq
  rcases eq_cons_of_mark heq with rfl | ⟨cs, rfl, hrest⟩
  · exact h.ne_nil (.inl rfl) rfl
  · rcases eq_cons_of_mark hrest with rfl | ⟨cs', rfl, -⟩
    · exact h.tail.ne_nil (.inl rfl) rfl
    · exact h.unmarked ⟨[], cs', rfl⟩

private theorem IsBlockText.backslash {raw : List Char} (h : IsBlockText ('\\' :: raw)) (ahead bytes : List UInt8) :
    raw.flatMap utf8Bytes ++ ahead ≠ 0x22 :: 0x22 :: 0x22 :: bytes := by
  intro heq
  rcases eq_cons_of_mark heq with rfl | ⟨cs, rfl, hrest⟩
  · exact h.ne_nil (.inr rfl) rfl
  · exact h.tail.quote ahead bytes hrest

private theorem isBlockPlain_bytes {c : Char} (hquote : c ≠ '\"') (hbackslash : c ≠ '\\') :
    ∀ b ∈ utf8Bytes c, isBlockPlain b := by
  intro b hb
  by_contra hspecial
  have hcases : b = 0x22 ∨ b = 0x5c := by
    simp only [isBlockPlain, bne_iff_ne, ne_eq, Bool.and_eq_true] at hspecial
    tauto
  rcases hcases with rfl | rfl
  · exact hquote (Char.toNat_inj.1 (toNat_of_mem_utf8Bytes hb (by decide)))
  · exact hbackslash (Char.toNat_inj.1 (toNat_of_mem_utf8Bytes hb (by decide)))

/-- The rest of a block string reads as its characters, after a run of bytes that stand for themselves. -/
private theorem blockBody_reads (start : Pos) {raw : List Char} (hraw : IsBlockText raw) (run : List UInt8)
    (hrun : ∀ b ∈ run, isBlockPlain b) :
    Reads F (At (run ++ raw.flatMap utf8Bytes ++ 0x22 :: 0x22 :: 0x22 :: ahead)) (blockBody start)
      (· = run ++ raw.flatMap utf8Bytes) (At ahead) := by
  induction raw generalizing run with
  | nil =>
    refine Reads.fix 0 (fun _ _ => Nat.zero_le _) fun more _ => ?_
    rw [List.flatMap_nil, List.append_nil]
    refine (span_reads hrun fun b hb => ?_).bind fun run' hrun' => ?_
    · cases hb
      decide
    · subst hrun'
      refine get_reads.bind fun s hs => ?_
      rw [show s.rest = _ from hs]
      exact (drop_reads [0x22, 0x22, 0x22]).bind fun _ _ => .pure rfl
  | cons c raw ih =>
    by_cases hc : c ≠ '\"' ∧ c ≠ '\\'
    · have hcons := ih hraw.tail (run ++ utf8Bytes c) fun b hb => by
        rcases List.mem_append.1 hb with hb | hb
        · exact hrun b hb
        · exact isBlockPlain_bytes hc.1 hc.2 b hb
      simpa using hcons
    · -- the mark or the backslash is read by itself, since it neither closes the block string nor escapes its end
      obtain ⟨b, hbytes, hplain, hmark, hescape⟩ : ∃ b, utf8Bytes c = [b] ∧ isBlockPlain b = false ∧
          (∀ bytes, b :: (raw.flatMap utf8Bytes ++ 0x22 :: 0x22 :: 0x22 :: ahead) ≠ 0x22 :: 0x22 :: 0x22 :: bytes) ∧
          ∀ bytes, b :: (raw.flatMap utf8Bytes ++ 0x22 :: 0x22 :: 0x22 :: ahead) ≠
            0x5c :: 0x22 :: 0x22 :: 0x22 :: bytes := by
        by_cases hquote : c = '\"'
        · subst hquote
          refine ⟨0x22, rfl, by decide, fun bytes heq => ?_, fun bytes heq => ?_⟩
          · exact hraw.quote _ bytes (List.cons.inj heq).2
          · exact absurd (List.cons.inj heq).1 (by decide)
        · obtain rfl : c = '\\' := by_contra fun hne => hc ⟨hquote, hne⟩
          refine ⟨0x5c, rfl, by decide, fun bytes heq => ?_, fun bytes heq => ?_⟩
          · exact absurd (List.cons.inj heq).1 (by decide)
          · exact hraw.backslash _ bytes (List.cons.inj heq).2
      rw [List.flatMap_cons, hbytes, List.append_assoc, List.append_assoc, List.singleton_append]
      refine Reads.fix _ (fun left hleft => Nat.le_of_eq (congrArg List.length hleft).symm) fun more hmore => ?_
      refine (span_reads hrun fun b' hb' => ?_).bind fun run' hrun' => ?_
      · cases hb'
        exact hplain
      · subst hrun'
        refine get_reads.bind fun s hs => ?_
        split
        · next bytes heq => exact absurd (hs.symm.trans heq) (hmark bytes)
        · next bytes heq => exact absurd (hs.symm.trans heq) (hescape bytes)
        · refine readByte_reads.bind fun b' hb' => ?_
          subst hb'
          refine Reads.bind (hmore _ _ _ ?_ (ih hraw.tail [] (by simp))) fun rest hrest => ?_
          · rintro left rfl
            simp
            omega
          · subst hrest
            exact .pure (by simp)
        · next heq => exact absurd (hs.symm.trans heq) (by simp)

/-- A text without marks between three quotation marks each reads as its value as a block string. -/
theorem readString_block {raw : List Char} (hraw : IsBlockText raw) :
    Reads F (At (0x22 :: 0x22 :: 0x22 :: (raw.flatMap utf8Bytes ++ 0x22 :: 0x22 :: 0x22 :: ahead))) readString
      (· = BlockString.value (String.ofList raw)) (At ahead) := by
  refine position_reads.bind fun start _ => get_reads.bind fun s hs => ?_
  have hpeek : s.peek = 0x22 := by
    unfold Scanner.peek Scanner.peekAt
    rw [hs]
    rfl
  have hblock : (s.peekAt 1 == 0x22 && s.peekAt 2 == 0x22) = true := by
    unfold Scanner.peekAt
    rw [hs]
    rfl
  rw [hpeek, if_neg (by simp), hblock, if_pos rfl]
  refine (drop_reads [0x22, 0x22, 0x22]).bind fun _ _ => ?_
  refine (blockBody_reads start hraw [] (by simp)).bind fun bytes hbytes => ?_
  rw [hbytes, List.nil_append, ← bytesOf_ofList, utf8Text?_bytesOf]
  exact .pure rfl

end Parser

end GraphQL
