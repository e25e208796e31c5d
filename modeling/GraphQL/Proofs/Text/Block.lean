import GraphQL.Proofs.Text.Description

/-!
# What is left of a block string

The value of a block string is described without saying how it is computed: by its lines, the smallest indentation of
those behind the first, what each of them loses, and what is trimmed at both ends. Each of these determines its result,
so that the value is the only text of the description (`BlockString.isValue_iff`). It may be computed with offsets in
bytes, where no cut is ever inside of a character or behind the end of a line (`BlockString.valueLines?_eq`), and all
that it takes away are spaces, tabs and line ends (`BlockString.IsValue.strips`). `BlockString.value_exact` puts these
together.
-/

namespace GraphQL

namespace BlockString

/-! ### What the value is -/

/-- The lines of a text: what stands between its newlines, each without one carriage return at its end. -/
def AreLines (raw : List Char) (lines : List (List Char)) : Prop :=
  ∃ full : List (List Char), full ≠ [] ∧ (∀ line ∈ full, '\n' ∉ line) ∧ raw = ['\n'].intercalate full ∧
    lines = full.map dropReturn

/-- The smallest indentation among the lines that are not blank, or zero if all are. -/
structure IsLeastIndent (lines : List (List Char)) (n : Nat) : Prop where
  le : ∀ line ∈ lines, isBlank line = false → n ≤ indentOf line
  attained : (∃ line ∈ lines, isBlank line = false ∧ indentOf line = n) ∨ (∀ line ∈ lines, isBlank line) ∧ n = 0

/-- A line without an indentation of the given length. A shorter line, which has to be blank, loses all it has. -/
inductive Dedents (n : Nat) : List Char → List Char → Prop
  | cut {indent line : List Char} (hlength : indent.length = n) (h : ∀ c ∈ indent, isIndent c) :
      Dedents n (indent ++ line) line
  | short {line : List Char} (hlength : line.length < n) (h : isBlank line) : Dedents n line []

/-- The lines without the blank ones at both ends. -/
def Trims (lines kept : List (List Char)) : Prop :=
  ∃ lead trail, lines = lead ++ (kept ++ trail) ∧ (∀ line ∈ lead, isBlank line) ∧ (∀ line ∈ trail, isBlank line) ∧
    (∀ line ∈ kept.head?, isBlank line = false) ∧ ∀ line ∈ kept.getLast?, isBlank line = false

/-- The value of a block string: all its lines but the first lose the smallest indentation among these, and then blank
lines at both ends are dropped. -/
def IsValue (raw stripped : List Char) : Prop :=
  ∃ first others n shown kept, AreLines raw (first :: others) ∧ IsLeastIndent others n ∧
    List.Forall₂ (Dedents n) others shown ∧ Trims (first :: shown) kept ∧ stripped = ['\n'].intercalate kept

theorem areLines_iff {raw : List Char} {lines : List (List Char)} :
    AreLines raw lines ↔ lines = (splitLines raw).map dropReturn := by
  constructor
  · rintro ⟨full, hne, hnewline, rfl, rfl⟩
    rw [splitLines_intercalate hne hnewline]
  · intro h
    refine ⟨splitLines raw, splitLines_ne_nil raw, ?_, (intercalate_splitLines raw).symm, h⟩
    intro line hline
    exact newline_not_mem hline

theorem isLeastIndent_iff {lines : List (List Char)} {n : Nat} : IsLeastIndent lines n ↔ n = commonIndent lines := by
  have hnone (h : ∀ line ∈ lines, isBlank line) : commonIndent lines = 0 := by
    have hfilter : lines.filter (!isBlank ·) = [] := by
      rw [List.filter_eq_nil_iff]
      intro line hline
      simp [h line hline]
    unfold commonIndent
    rw [hfilter]
    rfl
  constructor
  · intro h
    rcases h.attained with ⟨line, hline, hblank, rfl⟩ | ⟨hall, rfl⟩
    · obtain ⟨least, hleast, hnot, hindent⟩ := exists_commonIndent hline hblank
      have hle := h.le least hleast hnot
      have hge := commonIndent_le hline hblank
      omega
    · exact (hnone hall).symm
  · rintro rfl
    constructor
    · intro line hline hblank
      exact commonIndent_le hline hblank
    · by_cases hall : ∀ line ∈ lines, isBlank line
      · exact .inr ⟨hall, hnone hall⟩
      · obtain ⟨line, hnot⟩ := not_forall.1 hall
        obtain ⟨hline, hblank⟩ := Classical.not_imp.1 hnot
        exact .inl (exists_commonIndent hline (Bool.not_eq_true _ ▸ hblank))

theorem Dedents.eq_drop {n : Nat} {line shown : List Char} (h : Dedents n line shown) : shown = line.drop n := by
  cases h with
  | cut hlength _ => rw [← hlength, List.drop_left]
  | short hlength _ => rw [List.drop_eq_nil_of_le (Nat.le_of_lt hlength)]

/-- A line can lose what it is indented by, or blanks. -/
theorem dedents_drop {n : Nat} {line : List Char} (h : isBlank line = false → n ≤ indentOf line) :
    Dedents n line (line.drop n) := by
  by_cases hlength : line.length < n
  · have hblank : isBlank line = true := by
      by_contra hnot
      have hle := h (Bool.not_eq_true _ ▸ hnot)
      have hindent : indentOf line ≤ line.length := (List.takeWhile_prefix isIndent).length_le
      omega
    rw [List.drop_eq_nil_of_le (Nat.le_of_lt hlength)]
    exact .short hlength hblank
  · have hindent : ∀ c ∈ line.take n, isIndent c := by
      intro c hc
      cases hblank : isBlank line with
      | true => exact List.all_eq_true.1 hblank c (List.mem_of_mem_take hc)
      | false =>
        -- the first characters are among those that indent
        have hamong : line.take n <+: line.takeWhile isIndent := by
          rw [List.prefix_iff_eq_take.1 (List.takeWhile_prefix isIndent)]
          exact List.take_prefix_take_left (h hblank)
        exact List.mem_takeWhile_imp (hamong.subset hc)
    have hcut : Dedents n (line.take n ++ line.drop n) (line.drop n) := .cut (by simp; omega) hindent
    rwa [List.take_append_drop] at hcut

theorem forall₂_dedents_iff {n : Nat} {others shown : List (List Char)} (h : IsLeastIndent others n) :
    List.Forall₂ (Dedents n) others shown ↔ shown = others.map (List.drop n) := by
  constructor
  · intro hshown
    clear h
    induction hshown with
    | nil => rfl
    | cons hline _ ih => rw [List.map_cons, hline.eq_drop, ih]
  · rintro rfl
    rw [List.forall₂_map_right_iff, List.forall₂_same]
    intro line hline
    exact dedents_drop (h.le line hline)

theorem trims_iff {lines kept : List (List Char)} : Trims lines kept ↔ kept = trimBlank lines := by
  constructor
  · rintro ⟨lead, trail, rfl, hlead, htrail, hfirst, hlast⟩
    induction lead with
    | cons line lead ih =>
      obtain ⟨hline, hlead⟩ := List.forall_mem_cons.1 hlead
      rw [List.cons_append, trimBlank_cons hline]
      exact ih hlead
    | nil =>
      rw [List.nil_append]
      induction trail using List.reverseRecOn with
      | nil => rw [List.append_nil, trimBlank_eq_self hfirst hlast]
      | append_singleton trail line ih =>
        have hline : isBlank line := htrail line (List.mem_append_right _ List.mem_cons_self)
        rw [← List.append_assoc, trimBlank_append hline]
        exact ih fun l hl => htrail l (List.mem_append_left _ hl)
  · rintro rfl
    have hlead := List.takeWhile_append_dropWhile (p := isBlank) (l := lines)
    have htrail := List.takeWhile_append_dropWhile (p := isBlank) (l := (lines.dropWhile isBlank).reverse)
    have hback := congrArg List.reverse htrail
    rw [List.reverse_append, List.reverse_reverse] at hback
    refine ⟨lines.takeWhile isBlank, ((lines.dropWhile isBlank).reverse.takeWhile isBlank).reverse, ?_, ?_, ?_,
      head_trimBlank lines, last_trimBlank lines⟩
    · unfold trimBlank
      rw [hback, hlead]
    · intro line hline
      exact List.mem_takeWhile_imp hline
    · intro line hline
      exact List.mem_takeWhile_imp (List.mem_reverse.1 hline)

/-- There is one value, which is the one that is computed. -/
theorem isValue_iff {raw stripped : List Char} :
    IsValue raw stripped ↔ stripped = ['\n'].intercalate (valueLines raw) := by
  obtain ⟨line, lines, hlines⟩ := List.exists_cons_of_ne_nil (splitLines_ne_nil raw)
  have hraw : (splitLines raw).map dropReturn = dropReturn line :: lines.map dropReturn := by rw [hlines, List.map_cons]
  have hvalue : valueLines raw = trimBlank
      (dropReturn line :: (lines.map dropReturn).map (List.drop (commonIndent (lines.map dropReturn)))) := by
    unfold valueLines
    rw [hraw]
  constructor
  · rintro ⟨first, others, n, shown, kept, hare, hleast, hshown, htrims, rfl⟩
    rw [areLines_iff, hraw] at hare
    obtain ⟨rfl, rfl⟩ := List.cons.inj hare
    rw [forall₂_dedents_iff hleast] at hshown
    rw [trims_iff.1 htrims, hshown, isLeastIndent_iff.1 hleast, hvalue]
  · rintro rfl
    have hleast : IsLeastIndent (lines.map dropReturn) (commonIndent (lines.map dropReturn)) := isLeastIndent_iff.2 rfl
    exact ⟨dropReturn line, lines.map dropReturn, _, _, _, areLines_iff.2 hraw.symm, hleast,
      (forall₂_dedents_iff hleast).2 rfl, trims_iff.2 rfl, by rw [hvalue]⟩

/-! ### Offsets in bytes -/

/-- The number of bytes that encode the line. -/
def byteLength (line : List Char) : Nat := (String.ofList line).utf8ByteSize

/-- The indentation in bytes: what the line is longer than the rest of it. -/
def byteIndent (line : List Char) : Nat := byteLength line - byteLength (line.dropWhile isIndent)

/-- The smallest indentation in bytes among the lines that are not blank; zero if all are. -/
def commonByteIndent (lines : List (List Char)) : Nat :=
  ((lines.filter (!isBlank ·)).map byteIndent).min?.getD 0

/-- The line from the byte at the offset on, where a shorter line is empty. There is none if the offset is inside of a
character. -/
def cut? (offset : Nat) (line : List Char) : Option (List Char) :=
  if offset ≤ byteLength line then
    if h : (⟨offset⟩ : String.Pos.Raw).IsValid (String.ofList line) then
      some ((String.ofList line).sliceFrom ((String.ofList line).pos ⟨offset⟩ h)).copy.toList
    else none
  else some []

/-- The lines of a block string's value, cut at offsets in bytes. -/
def valueLines? (raw : List Char) : Option (List (List Char)) :=
  match (splitLines raw).map dropReturn with
  | [] => some []
  | first :: others => (others.mapM (cut? (commonByteIndent others))).map fun shown => trimBlank (first :: shown)

theorem byteLength_append (front back : List Char) : byteLength (front ++ back) = byteLength front + byteLength back := by
  unfold byteLength
  rw [String.ofList_append, String.utf8ByteSize_append]

/-- A space and a tab are one byte each. -/
theorem byteLength_of_indent {line : List Char} (h : ∀ c ∈ line, isIndent c) : byteLength line = line.length := by
  induction line with
  | nil => rfl
  | cons c line ih =>
    obtain ⟨hc, hline⟩ := List.forall_mem_cons.1 h
    have hbyte : byteLength [c] = 1 := by
      simp only [isIndent, Bool.or_eq_true, beq_iff_eq] at hc
      rcases hc with rfl | rfl <;> rfl
    have hsplit := byteLength_append [c] line
    rw [List.singleton_append, hbyte, ih hline] at hsplit
    rw [hsplit, List.length_cons, Nat.add_comm]

theorem byteIndent_eq (line : List Char) : byteIndent line = indentOf line := by
  have hindent : ∀ c ∈ line.takeWhile isIndent, isIndent c := fun c hc => List.mem_takeWhile_imp hc
  have hsplit := byteLength_append (line.takeWhile isIndent) (line.dropWhile isIndent)
  rw [List.takeWhile_append_dropWhile, byteLength_of_indent hindent] at hsplit
  unfold byteIndent indentOf
  omega

theorem commonByteIndent_eq (lines : List (List Char)) : commonByteIndent lines = commonIndent lines := by
  unfold commonByteIndent commonIndent
  rw [List.map_congr_left fun line _ => byteIndent_eq line]

/-- A cut behind characters is between two of them. -/
theorem cut?_append (front back : List Char) : cut? (byteLength front) (front ++ back) = some back := by
  have hle : byteLength front ≤ byteLength (front ++ back) := by
    rw [byteLength_append]
    exact Nat.le_add_right _ _
  have hvalid : (⟨byteLength front⟩ : String.Pos.Raw).IsValid (String.ofList (front ++ back)) := by
    rw [String.Pos.Raw.isValid_iff_exists_append]
    exact ⟨String.ofList front, String.ofList back, String.ofList_append, rfl⟩
  have hsplits : ((String.ofList (front ++ back)).pos ⟨byteLength front⟩ hvalid).Splits (String.ofList front)
      (String.ofList back) := ⟨String.ofList_append, rfl⟩
  unfold cut?
  rw [if_pos hle, dif_pos hvalid, hsplits.copy_sliceFrom_eq, String.toList_ofList]

theorem Dedents.cut? {n : Nat} {line shown : List Char} (h : Dedents n line shown) :
    BlockString.cut? n line = some shown := by
  cases h with
  | cut hlength hindent =>
    rw [← hlength, ← byteLength_of_indent hindent]
    exact cut?_append _ _
  | short hlength hblank =>
    rw [← byteLength_of_indent (List.all_eq_true.1 hblank)] at hlength
    unfold BlockString.cut?
    rw [if_neg (by omega)]

/-- Lines that all can lose the indentation are all cut. -/
theorem mapM_cut? {n : Nat} {lines shown : List (List Char)} (h : List.Forall₂ (Dedents n) lines shown) :
    lines.mapM (cut? n) = some shown := by
  induction h with
  | nil => rfl
  | cons hline _ ih =>
    rw [List.mapM_cons, hline.cut?, ih]
    rfl

/-- No cut is inside of a character, and none behind the end of a line. -/
theorem valueLines?_eq (raw : List Char) : valueLines? raw = some (valueLines raw) := by
  unfold valueLines? valueLines
  cases (splitLines raw).map dropReturn with
  | nil => rfl
  | cons first others =>
    have hleast : IsLeastIndent others (commonIndent others) := isLeastIndent_iff.2 rfl
    have hcuts := mapM_cut? ((forall₂_dedents_iff hleast).2 rfl)
    dsimp only
    rw [commonByteIndent_eq, hcuts]
    rfl

/-! ### What is taken away -/

/-- The text with nothing but spaces, tabs, newlines and carriage returns at the ends of lines taken away. -/
inductive Strips : List Char → List Char → Prop
  | nil : Strips [] []
  | keep {c : Char} {text stripped : List Char} (h : Strips text stripped) : Strips (c :: text) (c :: stripped)
  | drop {c : Char} {text stripped : List Char} (hc : isIndent c ∨ c = '\n') (h : Strips text stripped) :
      Strips (c :: text) stripped
  | dropReturn {text stripped : List Char} (hend : ∀ c ∈ text.head?, c = '\n') (h : Strips text stripped) :
      Strips ('\r' :: text) stripped

/-- A line that has lost spaces and tabs at its beginning. -/
def Sheds (full shown : List Char) : Prop :=
  ∃ indent, (∀ c ∈ indent, isIndent c) ∧ dropReturn full = indent ++ shown

/-- The lines with a newline before each. -/
def joined (lines : List (List Char)) : List Char := lines.flatMap ('\n' :: ·)

theorem joined_cons (line : List Char) (lines : List (List Char)) :
    joined (line :: lines) = ('\n' :: line) ++ joined lines := List.flatMap_cons

theorem joined_append (front back : List (List Char)) : joined (front ++ back) = joined front ++ joined back :=
  List.flatMap_append

theorem head_joined (lines : List (List Char)) : ∀ c ∈ (joined lines).head?, c = '\n' := by
  intro c hc
  cases lines with
  | nil => cases hc
  | cons line lines => exact (Option.some.inj hc).symm

theorem joined_cons_eq (line : List Char) (lines : List (List Char)) :
    joined (line :: lines) = '\n' :: ['\n'].intercalate (line :: lines) := by
  induction lines generalizing line with
  | nil => simp [joined]
  | cons next lines ih =>
    rw [joined_cons, ih next, List.intercalate_cons_cons]
    simp

namespace Strips

variable {text rest stripped stripped' : List Char}

/-- What follows may not change whether a carriage return stands at the end of a line. -/
theorem append (h : Strips text stripped) (hrest : Strips rest stripped') (hend : ∀ c ∈ rest.head?, c = '\n') :
    Strips (text ++ rest) (stripped ++ stripped') := by
  induction h with
  | nil => exact hrest
  | keep _ ih => exact .keep ih
  | drop hc _ ih => exact .drop hc ih
  | @dropReturn text _ hnext _ ih =>
    refine .dropReturn ?_ ih
    cases text with
    | nil => exact hend
    | cons c text => exact hnext

theorem keep_append (h : Strips rest stripped) (front : List Char) : Strips (front ++ rest) (front ++ stripped) := by
  induction front with
  | nil => exact h
  | cons c front ih => exact .keep ih

theorem drop_append (h : Strips rest stripped) {front : List Char} (hfront : ∀ c ∈ front, isIndent c) :
    Strips (front ++ rest) stripped := by
  induction front with
  | nil => exact h
  | cons c front ih =>
    obtain ⟨hc, hfront⟩ := List.forall_mem_cons.1 hfront
    exact .drop (.inl hc) (ih hfront)

/-- A newline that is kept may be taken away too. -/
theorem drop_newline (h : Strips text ('\n' :: stripped)) : Strips text stripped := by
  generalize hkept : '\n' :: stripped = kept at h
  induction h with
  | nil => cases hkept
  | keep h =>
    obtain ⟨rfl, rfl⟩ := List.cons.inj hkept
    exact .drop (.inr rfl) h
  | drop hc _ ih => exact .drop hc (ih hkept)
  | dropReturn hend _ ih => exact .dropReturn hend (ih hkept)

/-- A newline before the text, and that before what is left of it, do not matter. -/
theorem of_newline (h : Strips ('\n' :: text) ('\n' :: stripped)) : Strips text stripped := by
  cases h with
  | keep h => exact h
  | drop _ h => exact h.drop_newline

theorem of_newline_nil (h : Strips ('\n' :: text) []) : Strips text [] := by
  cases h with
  | drop _ h => exact h

end Strips

section Sheds

variable {full shown : List (List Char)}

theorem Sheds.strips {line kept : List Char} (h : Sheds line kept) : Strips line kept := by
  obtain ⟨indent, hindent, hline⟩ := h
  by_cases hreturn : IsBare line
  · rw [dropReturn_of_isBare hreturn] at hline
    have hkept := (Strips.nil.keep_append kept).drop_append hindent
    rw [List.append_nil] at hkept
    rwa [hline]
  · have hend : line.getLast? = some '\r' := not_not.1 hreturn
    have hreturned : dropReturn line ++ ['\r'] = line := by
      unfold dropReturn
      rw [if_pos hend, List.dropLast_append_getLast? _ hend]
    have hlast : Strips ['\r'] [] := .dropReturn (by simp) .nil
    have hkept := (hlast.keep_append kept).drop_append hindent
    rwa [List.append_nil, ← List.append_assoc, ← hline, hreturned] at hkept

/-- Nothing needs to be left of a blank line. -/
theorem Sheds.of_isBlank {line kept : List Char} (h : Sheds line kept) (hblank : isBlank kept) : Sheds line [] := by
  obtain ⟨indent, hindent, hline⟩ := h
  refine ⟨indent ++ kept, ?_, by rw [hline, List.append_nil]⟩
  intro c hc
  rcases List.mem_append.1 hc with hc | hc
  · exact hindent c hc
  · exact List.all_eq_true.1 hblank c hc

theorem Dedents.sheds {n : Nat} {line kept : List Char} (h : Dedents n (dropReturn line) kept) : Sheds line kept := by
  generalize hline : dropReturn line = returned at h
  cases h with
  | @cut indent _ _ hindent => exact ⟨indent, hindent, hline⟩
  | short _ hblank => exact ⟨returned, List.all_eq_true.1 hblank, by rw [hline, List.append_nil]⟩

theorem strips_joined (h : List.Forall₂ Sheds full shown) : Strips (joined full) (joined shown) := by
  induction h with
  | nil => exact .nil
  | cons hline _ ih =>
    rw [joined_cons, joined_cons]
    exact (hline.strips.keep (c := '\n')).append ih (head_joined _)

theorem strips_joined_blank (h : List.Forall₂ Sheds full shown) (hblank : ∀ line ∈ shown, isBlank line) :
    Strips (joined full) [] := by
  induction h with
  | nil => exact .nil
  | cons hline _ ih =>
    obtain ⟨hfirst, hblank⟩ := List.forall_mem_cons.1 hblank
    rw [joined_cons]
    exact (Strips.drop (.inr rfl) (hline.of_isBlank hfirst).strips).append (ih hblank) (head_joined _)

/-- Blank lines are taken away as a whole. -/
theorem strips_trims {kept : List (List Char)} (h : List.Forall₂ Sheds full shown) (htrims : Trims shown kept) :
    Strips (joined full) (joined kept) := by
  obtain ⟨lead, trail, rfl, hlead, htrail, -, -⟩ := htrims
  have hfront := List.forall₂_take_append _ _ _ h
  have hback := List.forall₂_drop_append _ _ _ h
  have hmiddle := List.forall₂_take_append _ _ _ hback
  have hend := List.forall₂_drop_append _ _ _ hback
  have hrest := (strips_joined hmiddle).append (strips_joined_blank hend htrail) (head_joined _)
  rw [← joined_append, List.take_append_drop, List.append_nil] at hrest
  have hall := (strips_joined_blank hfront hlead).append hrest (head_joined _)
  rwa [← joined_append, List.take_append_drop, List.nil_append] at hall

end Sheds

/-- Of a text, its value leaves out nothing but spaces, tabs and line ends, and has all else in the same order. -/
theorem IsValue.strips {raw stripped : List Char} (h : IsValue raw stripped) : Strips raw stripped := by
  obtain ⟨first, others, n, shown, kept, ⟨full, hne, -, rfl, hlines⟩, -, hshown, htrims, rfl⟩ := h
  obtain ⟨line, lines, rfl⟩ := List.exists_cons_of_ne_nil hne
  rw [List.map_cons] at hlines
  obtain ⟨rfl, rfl⟩ := List.cons.inj hlines
  have hfirst : Sheds line (dropReturn line) := ⟨[], by simp, rfl⟩
  have hothers : List.Forall₂ Sheds lines shown :=
    (List.forall₂_map_left_iff.1 hshown).imp fun _ _ hline => Dedents.sheds hline
  have hstrips := strips_trims (.cons hfirst hothers) htrims
  rw [joined_cons_eq] at hstrips
  cases kept with
  | nil => exact hstrips.of_newline_nil
  | cons first kept =>
    rw [joined_cons_eq] at hstrips
    exact hstrips.of_newline

/-- The value of a block string, computed with offsets in bytes. -/
def value? (raw : String) : Option String :=
  (valueLines? raw.toList).map fun lines => String.ofList (['\n'].intercalate lines)

/-- The stripping of a block string is exact. No offset in bytes is inside of a character or behind the end of a line;
the value is what is described by its lines, and nothing else is; and nothing but spaces, tabs and line ends has been
taken away. -/
theorem value_exact (raw : String) :
    value? raw = some (value raw) ∧
      (∀ stripped, IsValue raw.toList stripped ↔ stripped = (value raw).toList) ∧
      Strips raw.toList (value raw).toList := by
  have hvalue : ∀ stripped, IsValue raw.toList stripped ↔ stripped = (value raw).toList := by
    intro stripped
    rw [isValue_iff]
    unfold value
    rw [String.toList_ofList]
  refine ⟨?_, hvalue, ?_⟩
  · unfold value? value
    rw [valueLines?_eq]
    rfl
  · exact ((hvalue _).2 rfl).strips

-- a character of two bytes behind the indentation, and lines that end in a carriage return and a newline
example : value? "\r\n  é\r\n\t  a\r\n \r\n" = some "é\n a" := by cbv

end BlockString

end GraphQL
