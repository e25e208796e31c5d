import GraphQL.Json.Writer
import GraphQL.Proofs.Number.Literal

/-!
# The keys in JSON text

`Json.textKeys` finds the keys of JSON text in one pass over its characters, which knows string literals, colons and
braces only. In what is written for JSON it finds the keys of every object (`Json.textKeys_text`), whatever characters
they are made of.
-/

namespace GraphQL

namespace Json

/-! ### Scanning text -/

/-- The character that a letter behind a backslash stands for. -/
def escaped : Char → Char
  | 'b' => '\x08'
  | 'f' => '\x0c'
  | 'n' => '\n'
  | 'r' => '\r'
  | 't' => '\t'
  | c => c

/-- Where a scan is: outside of string literals, behind the last of them, or inside of one, whose characters so far
are listed with the last one first. -/
inductive ScanPlace where
  | outside (last : String)
  | inside (read : List Char)
  /-- Behind a backslash. -/
  | escape (read : List Char)
  /-- In the code of a character, with the number of digits to come and the value of those before. -/
  | code (left value : Nat) (read : List Char)

/-- The place behind one more character of a literal; a quotation mark opens the first one. -/
def ScanPlace.next (c : Char) : ScanPlace → ScanPlace
  | outside last => if c = '\"' then inside [] else outside last
  | inside read =>
    if c = '\"' then outside (String.ofList read.reverse)
    else if c = '\\' then escape read
    else inside (c :: read)
  | escape read => if c = 'u' then code 4 0 read else inside (escaped c :: read)
  | code left value read =>
    let value := 16 * value + (Byte.hexValue? (UInt8.ofNat c.toNat)).getD 0
    if left ≤ 1 then inside (Char.ofNat value :: read) else code (left - 1) value read

/-- A scan of JSON text: the keys so far of the innermost open object and of those around it, and the keys of the
objects that are closed. -/
structure KeyScan where
  place : ScanPlace := .outside ""
  keys : List String := []
  outer : List (List String) := []
  closed : List (List String) := []

/-- One more character: a colon makes the last literal a key, and braces open and close an object. -/
def KeyScan.step (s : KeyScan) (c : Char) : KeyScan :=
  match s.place, c with
  | .outside last, ':' => { s with keys := s.keys ++ [last] }
  | .outside _, '{' => { s with keys := [], outer := s.keys :: s.outer }
  | .outside _, '}' => { s with keys := s.outer.headD [], outer := s.outer.tail, closed := s.closed ++ [s.keys] }
  | place, c => { s with place := place.next c }

/-- The keys of each object in JSON text, an object after those inside of it. -/
def textKeys (text : String) : List (List String) := (text.toList.foldl KeyScan.step {}).closed

/-! ### The keys of JSON -/

mutual

/-- The keys of each object, an object after those inside of it. -/
def objectKeys : Json → List (List String)
  | array items => itemsKeys items
  | object members => membersKeys members ++ [Entries.keys members]
  | _ => []

/-- `objectKeys` of each item. -/
def itemsKeys : List Json → List (List String)
  | [] => []
  | json :: rest => objectKeys json ++ itemsKeys rest

/-- `objectKeys` of the value of each member. -/
def membersKeys : List (String × Json) → List (List String)
  | [] => []
  | (_, json) :: rest => objectKeys json ++ membersKeys rest

end

/-! ### What a scan finds -/

/-- From outside of literals the characters lead outside again. They add the first list to the keys of the object that
is open, and the second one to those of closed objects. -/
def Scans (cs : List Char) (keys : List String) (closed : List (List String)) : Prop :=
  ∀ last before outer behind, ∃ last',
    cs.foldl KeyScan.step ⟨.outside last, before, outer, behind⟩ =
      ⟨.outside last', before ++ keys, outer, behind ++ closed⟩

variable {cs ds : List Char} {keys more : List String} {closed further : List (List String)}

theorem Scans.append (hcs : Scans cs keys closed) (hds : Scans ds more further) :
    Scans (cs ++ ds) (keys ++ more) (closed ++ further) := by
  intro last before outer behind
  obtain ⟨mid, hmid⟩ := hcs last before outer behind
  obtain ⟨last', hlast⟩ := hds mid (before ++ keys) outer (behind ++ closed)
  refine ⟨last', ?_⟩
  rw [List.foldl_append, hmid, hlast, List.append_assoc, List.append_assoc]

/-- A character that neither opens a literal nor means anything to a scan. -/
def isNeutral (c : Char) : Bool := c != '\"' && c != ':' && c != '{' && c != '}'

theorem KeyScan.step_neutral {c : Char} (hc : isNeutral c) (last : String) (before : List String)
    (outer behind : List (List String)) :
    step ⟨.outside last, before, outer, behind⟩ c = ⟨.outside last, before, outer, behind⟩ := by
  simp only [isNeutral, Bool.and_eq_true, bne_iff_ne] at hc
  obtain ⟨⟨⟨hquote, hcolon⟩, hopen⟩, hclose⟩ := hc
  unfold step
  split <;> simp_all [ScanPlace.next]

theorem Scans.neutral (h : ∀ c ∈ cs, isNeutral c) : Scans cs [] [] := by
  intro last before outer behind
  refine ⟨last, ?_⟩
  rw [List.append_nil, List.append_nil]
  induction cs with
  | nil => rfl
  | cons c cs ih =>
    rw [List.forall_mem_cons] at h
    rw [List.foldl_cons, KeyScan.step_neutral h.1, ih h.2]

theorem Scans.behind_neutral (hcs : ∀ c ∈ cs, isNeutral c) (hds : Scans ds keys closed) :
    Scans (cs ++ ds) keys closed :=
  (Scans.neutral hcs).append hds

theorem Scans.append_neutral (hcs : Scans cs keys closed) (hds : ∀ c ∈ ds, isNeutral c) :
    Scans (cs ++ ds) keys closed := by
  have happend := hcs.append (Scans.neutral hds)
  rwa [List.append_nil, List.append_nil] at happend

theorem Scans.braces (h : Scans cs keys closed) : Scans ('{' :: cs ++ ['}']) [] (closed ++ [keys]) := by
  intro last before outer behind
  obtain ⟨last', hlast⟩ := h last [] (before :: outer) behind
  refine ⟨last', ?_⟩
  have hopen : KeyScan.step ⟨.outside last, before, outer, behind⟩ '{' =
      ⟨.outside last, [], before :: outer, behind⟩ := rfl
  rw [List.cons_append, List.foldl_cons, List.foldl_append, hopen, hlast, List.append_nil, ← List.append_assoc]
  rfl

/-! ### Literals -/

private theorem hexValue_hexDigit :
    ∀ n < 0x20, (Byte.hexValue? (UInt8.ofNat (Byte.hexDigit (n / 16)).toNat)).getD 0 = n / 16 ∧
      (Byte.hexValue? (UInt8.ofNat (Byte.hexDigit (n % 16)).toNat)).getD 0 = n % 16 := by
  decide

/-- Inside of a literal the text of a character is that character. -/
theorem foldl_writeChar (read : List Char) (before : List String) (outer behind : List (List String)) (c : Char) :
    (writeChar c).foldl KeyScan.step ⟨.inside read, before, outer, behind⟩ =
      ⟨.inside (c :: read), before, outer, behind⟩ := by
  unfold writeChar
  simp only [beq_iff_eq]
  split_ifs with hquote hslash hb hf hn hr ht hcode
  · rw [hquote]; rfl
  · rw [hslash]; rfl
  · rw [hb]; rfl
  · rw [hf]; rfl
  · rw [hn]; rfl
  · rw [hr]; rfl
  · rw [ht]; rfl
  · obtain ⟨hhigh, hlow⟩ := hexValue_hexDigit c.toNat hcode
    have hvalue : 16 * (c.toNat / 16) + c.toNat % 16 = c.toNat := Nat.div_add_mod c.toNat 16
    show KeyScan.mk (.inside (Char.ofNat (16 * (16 * 0 + _) + _) :: read)) before outer behind = _
    rw [hhigh, hlow, Nat.mul_zero, Nat.zero_add, hvalue, Char.ofNat_toNat]
  · show KeyScan.mk ((ScanPlace.inside read).next c) before outer behind = _
    rw [ScanPlace.next, if_neg hquote, if_neg hslash]

theorem foldl_writeString (last : String) (before : List String) (outer behind : List (List String)) (text : String) :
    (writeString text).foldl KeyScan.step ⟨.outside last, before, outer, behind⟩ =
      ⟨.outside text, before, outer, behind⟩ := by
  have hchars (cs read : List Char) :
      (cs.flatMap writeChar).foldl KeyScan.step ⟨.inside read, before, outer, behind⟩ =
        ⟨.inside (cs.reverse ++ read), before, outer, behind⟩ := by
    induction cs generalizing read with
    | nil => rfl
    | cons c cs ih =>
      rw [List.flatMap_cons, List.foldl_append, foldl_writeChar, ih, List.reverse_cons, List.append_assoc]
      rfl
  have hopen : KeyScan.step ⟨.outside last, before, outer, behind⟩ '\"' = ⟨.inside [], before, outer, behind⟩ := rfl
  unfold writeString
  rw [List.cons_append, List.foldl_cons, List.foldl_append, hopen, hchars, List.append_nil]
  show KeyScan.mk (.outside (String.ofList text.toList.reverse.reverse)) before outer behind = _
  rw [List.reverse_reverse, String.ofList_toList]

theorem Scans.string (text : String) : Scans (writeString text) [] [] := fun last before outer behind =>
  ⟨text, by rw [foldl_writeString, List.append_nil, List.append_nil]⟩

theorem Scans.key (indent : Nat) (key : String) : Scans (writeKey indent key) [key] [] := by
  intro last before outer behind
  refine ⟨key, ?_⟩
  rw [writeKey, List.foldl_append, foldl_writeString, List.append_nil]
  split <;> rfl

/-! ### Numbers -/

theorem isNeutral_of_isDigit {c : Char} (h : c.isDigit) : isNeutral c := by
  have hne {d : Char} (hd : d.isDigit = false) : c ≠ d := by
    rintro rfl
    rw [hd] at h
    cases h
  simp only [isNeutral, Bool.and_eq_true, bne_iff_ne]
  exact ⟨⟨⟨hne rfl, hne rfl⟩, hne rfl⟩, hne rfl⟩

private theorem toDigits_neutral (n : Nat) : ∀ c ∈ Nat.toDigits 10 n, isNeutral c := fun _ hc =>
  isNeutral_of_isDigit (Nat.isDigit_of_mem_toDigits (by decide) (by decide) hc)

private theorem writeDigits_neutral {x : DecimalDigits} (hlt : ∀ d ∈ x.digits, d < 10) :
    ∀ c ∈ writeDigits x, isNeutral c := by
  have hpositional : ∀ c ∈ x.positional, isNeutral c := by
    intro c hc
    rcases (x.positional_isNumeral hlt).2 c hc with hdigit | rfl
    · exact isNeutral_of_isDigit hdigit
    · rfl
  have htext {ds : List Nat} (h : ∀ d ∈ ds, d < 10) : ∀ c ∈ DecimalDigits.text ds, isNeutral c := fun c hc =>
    isNeutral_of_isDigit (DecimalDigits.text_isDigit h c hc)
  unfold writeDigits
  split
  · split
    · exact hpositional
    · exact List.forall_mem_append.2 ⟨hpositional, by simp [isNeutral]⟩
  · unfold DecimalDigits.scientific
    have hsign : ∀ c ∈ (if x.point - 1 < 0 then '-' else '+') :: Nat.toDigits 10 (x.point - 1).natAbs, isNeutral c :=
      List.forall_mem_cons.2 ⟨by split <;> rfl, toDigits_neutral _⟩
    refine List.forall_mem_append.2 ⟨?_, List.forall_mem_cons.2 ⟨by decide, hsign⟩⟩
    split
    · simp [isNeutral]
    · next d hd => exact htext (hd ▸ hlt)
    · next d ds hd =>
      have hall := htext (hd ▸ hlt)
      obtain ⟨hfirst, hrest⟩ := List.forall_mem_cons.1 hall
      exact List.forall_mem_cons.2 ⟨hfirst, List.forall_mem_cons.2 ⟨by decide, hrest⟩⟩

theorem Scans.int (i : Int64) : Scans (IntText.display i).toList [] [] := by
  refine .neutral ?_
  unfold IntText.display
  dsimp only
  split
  · rw [String.toList_ofList]
    exact List.forall_mem_cons.2 ⟨by decide, toDigits_neutral _⟩
  · rw [String.toList_ofList]
    exact toDigits_neutral _

theorem Scans.float (x : Binary64) : Scans (writeFloat x) [] [] := by
  refine .neutral ?_
  unfold writeFloat
  split
  · next negative m e _ =>
    have htext : ∀ c ∈ (if m = 0 then ['0', '.', '0'] else writeDigits (Shortest.digits .even m e)), isNeutral c := by
      split
      · simp [isNeutral]
      · exact writeDigits_neutral (Shortest.digits_lt .even m e)
    dsimp only
    split
    · exact List.forall_mem_cons.2 ⟨by decide, htext⟩
    · exact htext
  · simp [isNeutral]

/-! ### Values -/

private theorem lineBreak_neutral (indent level : Nat) : ∀ c ∈ lineBreak indent level, isNeutral c := by
  unfold lineBreak
  split
  · exact List.forall_mem_nil _
  · refine List.forall_mem_cons.2 ⟨by decide, fun c hc => ?_⟩
    rw [List.eq_of_mem_replicate hc]
    decide

mutual

/-- A scan finds in what is written for a value the keys of its objects. -/
theorem Scans.write (indent level : Nat) (json : Json) : Scans (json.write indent level) [] json.objectKeys := by
  match json with
  | .null => rw [Json.write]; exact .neutral (by simp [isNeutral])
  | .bool b => rw [Json.write]; exact .neutral (by cases b <;> simp [isNeutral])
  | .int i => rw [Json.write]; exact .int i
  | .float x => rw [Json.write]; exact .float x
  | .string text => rw [Json.write]; exact .string text
  | .array [] => rw [Json.write]; exact .neutral (by simp [isNeutral])
  | .object [] => rw [Json.write]; exact (Scans.neutral (List.forall_mem_nil _)).braces
  | .array (json :: rest) =>
    rw [Json.write]
    have hitem := (Scans.write indent (level + 1) json).behind_neutral
      (List.forall_mem_cons.2 ⟨(by decide : isNeutral '['), lineBreak_neutral indent (level + 1)⟩)
    have hitems := hitem.append (Scans.writeItems indent (level + 1) rest)
    exact (hitems.append_neutral (lineBreak_neutral indent level)).append_neutral (by simp [isNeutral])
  | .object ((key, json) :: rest) =>
    rw [Json.write]
    have hkey := (Scans.key indent key).behind_neutral (lineBreak_neutral indent (level + 1))
    have hmember := hkey.append (Scans.write indent (level + 1) json)
    have hmembers := hmember.append (Scans.writeMembers indent (level + 1) rest)
    exact (hmembers.append_neutral (lineBreak_neutral indent level)).braces

theorem Scans.writeItems (indent level : Nat) (items : List Json) :
    Scans (Json.writeItems indent level items) [] (itemsKeys items) := by
  match items with
  | [] => exact .neutral (List.forall_mem_nil _)
  | json :: rest =>
    rw [Json.writeItems]
    have hitem := (Scans.write indent level json).behind_neutral
      (List.forall_mem_cons.2 ⟨(by decide : isNeutral ','), lineBreak_neutral indent level⟩)
    exact hitem.append (Scans.writeItems indent level rest)

theorem Scans.writeMembers (indent level : Nat) (members : List (String × Json)) :
    Scans (Json.writeMembers indent level members) (Entries.keys members) (membersKeys members) := by
  match members with
  | [] => exact .neutral (List.forall_mem_nil _)
  | (key, json) :: rest =>
    rw [Json.writeMembers]
    have hkey := (Scans.key indent key).behind_neutral
      (List.forall_mem_cons.2 ⟨(by decide : isNeutral ','), lineBreak_neutral indent level⟩)
    have hmember := hkey.append (Scans.write indent level json)
    exact hmember.append (Scans.writeMembers indent level rest)

end

/-- The keys that are found in the text of a value are those of its objects, in the order that the layout asks for. -/
theorem textKeys_text (layout : JsonLayout) (json : Json) :
    textKeys (json.text layout) = (if layout.sortKeys then json.sorted else json).objectKeys := by
  unfold textKeys text
  obtain ⟨last, hlast⟩ :=
    Scans.write (layout.indent.getD 0) 0 (if layout.sortKeys then json.sorted else json) "" [] [] []
  rw [String.toList_ofList, hlast]
  exact List.nil_append _

end Json

end GraphQL
