import GraphQL.Proofs.Text.Quoted
import GraphQL.Schema.Reader
import GraphQL.Schema.Writer

/-!
# Descriptions read back

A description of several lines is written as a block string, which is not how every text reads back: `IsKept` tells
which descriptions do (`SchemaText.reread_eq_iff`), and `Parser.readDescription_reads` what is read from any.
-/

namespace GraphQL

namespace BlockString

/-! ### Lines -/

theorem splitLines_ne_nil (cs : List Char) : splitLines cs ≠ [] := by
  cases cs with
  | nil => simp [splitLines]
  | cons c cs =>
    unfold splitLines
    split
    · simp
    · split <;> simp

theorem splitLines_cons {c : Char} (hc : c ≠ '\n') {cs line : List Char} {lines : List (List Char)}
    (h : splitLines cs = line :: lines) : splitLines (c :: cs) = (c :: line) :: lines := by
  rw [splitLines, if_neg hc, h]

theorem splitLines_of_not_mem {line : List Char} (h : '\n' ∉ line) : splitLines line = [line] := by
  induction line with
  | nil => rfl
  | cons c line ih =>
    obtain ⟨hc, hline⟩ := List.ne_and_not_mem_of_not_mem_cons h
    exact splitLines_cons (Ne.symm hc) (ih hline)

theorem splitLines_append {line : List Char} (h : '\n' ∉ line) (cs : List Char) :
    splitLines (line ++ '\n' :: cs) = line :: splitLines cs := by
  induction line with
  | nil => simp [splitLines]
  | cons c line ih =>
    obtain ⟨hc, hline⟩ := List.ne_and_not_mem_of_not_mem_cons h
    exact splitLines_cons (Ne.symm hc) (ih hline)

/-- A text is its lines with newlines between them. -/
theorem intercalate_splitLines (cs : List Char) : ['\n'].intercalate (splitLines cs) = cs := by
  induction cs with
  | nil => rfl
  | cons c cs ih =>
    obtain ⟨line, lines, hlines⟩ := List.exists_cons_of_ne_nil (splitLines_ne_nil cs)
    by_cases hc : c = '\n'
    · rw [splitLines, if_pos hc, hlines, List.intercalate_cons_cons, ← hlines, ih, hc]
      rfl
    · rw [splitLines_cons hc hlines]
      rw [hlines] at ih
      cases lines with
      | nil => simpa using ih
      | cons next lines =>
        rw [List.intercalate_cons_cons] at ih ⊢
        rw [List.cons_append, List.cons_append, ih]

theorem newline_not_mem {cs line : List Char} (h : line ∈ splitLines cs) : '\n' ∉ line := by
  induction cs generalizing line with
  | nil =>
    rw [splitLines, List.mem_singleton] at h
    simp [h]
  | cons c cs ih =>
    obtain ⟨first, lines, hlines⟩ := List.exists_cons_of_ne_nil (splitLines_ne_nil cs)
    by_cases hc : c = '\n'
    · rw [splitLines, if_pos hc] at h
      rcases List.mem_cons.1 h with rfl | h
      · simp
      · exact ih h
    · rw [splitLines_cons hc hlines] at h
      rcases List.mem_cons.1 h with rfl | h
      · exact List.not_mem_cons_of_ne_of_not_mem (Ne.symm hc) (ih (hlines ▸ List.mem_cons_self))
      · exact ih (hlines ▸ List.mem_cons_of_mem _ h)

theorem splitLines_intercalate {lines : List (List Char)} (hne : lines ≠ []) (h : ∀ line ∈ lines, '\n' ∉ line) :
    splitLines (['\n'].intercalate lines) = lines := by
  induction lines with
  | nil => exact absurd rfl hne
  | cons line lines ih =>
    have hline := h line List.mem_cons_self
    cases lines with
    | nil => simpa using splitLines_of_not_mem hline
    | cons next lines =>
      rw [List.intercalate_cons_cons, List.append_assoc]
      have hrest := ih (by simp) fun l hl => h l (List.mem_cons_of_mem _ hl)
      exact (splitLines_append hline _).trans (congrArg (line :: ·) hrest)

/-! ### Indentation -/

/-- The line does not end in a carriage return. -/
def IsBare (line : List Char) : Prop := line.getLast? ≠ some '\r'

theorem dropReturn_of_isBare {line : List Char} (h : IsBare line) : dropReturn line = line := if_neg h

theorem length_dropReturn_le (line : List Char) : (dropReturn line).length ≤ line.length := by
  unfold dropReturn
  split
  · rw [List.length_dropLast]
    omega
  · exact Nat.le_refl _

theorem length_dropReturn_lt {line : List Char} (h : ¬IsBare line) : (dropReturn line).length < line.length := by
  have hend : line.getLast? = some '\r' := not_not.1 h
  unfold dropReturn
  rw [if_pos hend, List.length_dropLast]
  cases line with
  | nil => cases hend
  | cons c line => simp

theorem newline_not_mem_dropReturn {line : List Char} (h : '\n' ∉ line) : '\n' ∉ dropReturn line := by
  unfold dropReturn
  split
  · exact fun hmem => h (List.dropLast_subset _ hmem)
  · exact h

theorem commonIndent_le {lines : List (List Char)} {line : List Char} (h : line ∈ lines) (hblank : isBlank line = false) :
    commonIndent lines ≤ indentOf line := by
  have hmem : indentOf line ∈ (lines.filter (!isBlank ·)).map indentOf :=
    List.mem_map_of_mem (List.mem_filter.2 ⟨h, by simp [hblank]⟩)
  unfold commonIndent
  obtain ⟨n, hn⟩ := Option.isSome_iff_exists.1 (List.isSome_min?_of_mem hmem)
  rw [hn]
  exact (List.min?_eq_some_iff.1 hn).2 _ hmem

/-- The common indentation is that of some line, unless all lines are blank. -/
theorem exists_commonIndent {lines : List (List Char)} {line : List Char} (h : line ∈ lines)
    (hblank : isBlank line = false) :
    ∃ least ∈ lines, isBlank least = false ∧ indentOf least = commonIndent lines := by
  have hmem : indentOf line ∈ (lines.filter (!isBlank ·)).map indentOf :=
    List.mem_map_of_mem (List.mem_filter.2 ⟨h, by simp [hblank]⟩)
  unfold commonIndent
  obtain ⟨n, hn⟩ := Option.isSome_iff_exists.1 (List.isSome_min?_of_mem hmem)
  obtain ⟨least, hleast, rfl⟩ := List.mem_map.1 (List.min?_mem hn)
  obtain ⟨hleast, hnot⟩ := List.mem_filter.1 hleast
  exact ⟨least, hleast, by simpa using hnot, by rw [hn]; rfl⟩

/-! ### Blank lines -/

theorem trimBlank_cons {line : List Char} (h : isBlank line) (lines : List (List Char)) :
    trimBlank (line :: lines) = trimBlank lines := by
  unfold trimBlank
  rw [List.dropWhile_cons_of_pos h]

theorem trimBlank_append {line : List Char} (h : isBlank line) (lines : List (List Char)) :
    trimBlank (lines ++ [line]) = trimBlank lines := by
  unfold trimBlank
  rw [List.dropWhile_append]
  split
  · next hempty =>
    rw [List.isEmpty_iff.1 hempty, List.dropWhile_cons_of_pos h, List.dropWhile_nil]
  · rw [List.reverse_append, List.reverse_singleton, List.singleton_append, List.dropWhile_cons_of_pos h]

theorem trimBlank_sublist (lines : List (List Char)) : List.Sublist (trimBlank lines) lines := by
  unfold trimBlank
  have hinner := (List.dropWhile_sublist isBlank : List.Sublist ((lines.dropWhile isBlank).reverse.dropWhile isBlank) _)
  have hboth := hinner.reverse
  rw [List.reverse_reverse] at hboth
  exact hboth.trans (List.dropWhile_sublist isBlank)

theorem trimBlank_eq_self {lines : List (List Char)} (hfirst : ∀ line ∈ lines.head?, isBlank line = false)
    (hlast : ∀ line ∈ lines.getLast?, isBlank line = false) : trimBlank lines = lines := by
  have hkeep : ∀ lines : List (List Char), (∀ line ∈ lines.head?, isBlank line = false) →
      lines.dropWhile isBlank = lines := by
    intro lines h
    cases lines with
    | nil => rfl
    | cons line lines => exact List.dropWhile_cons_of_neg (by simp [h line rfl])
  unfold trimBlank
  rw [hkeep lines hfirst, hkeep lines.reverse (by rwa [List.head?_reverse]), List.reverse_reverse]

theorem head_trimBlank (lines : List (List Char)) : ∀ line ∈ (trimBlank lines).head?, isBlank line = false := by
  intro line hline
  unfold trimBlank at hline
  -- what is left of the front after the end has been trimmed is the front itself
  obtain ⟨blanks, hblanks⟩ := List.dropWhile_suffix (l := (lines.dropWhile isBlank).reverse) isBlank
  have hreversed := congrArg List.reverse hblanks
  rw [List.reverse_reverse, List.reverse_append] at hreversed
  have hmem : line ∈ (lines.dropWhile isBlank).head? := by
    rw [← hreversed, List.head?_append, Option.mem_def.1 hline]
    rfl
  have hnot := List.head?_dropWhile_not isBlank lines
  rw [Option.mem_def.1 hmem] at hnot
  exact hnot

theorem last_trimBlank (lines : List (List Char)) : ∀ line ∈ (trimBlank lines).getLast?, isBlank line = false := by
  intro line hline
  unfold trimBlank at hline
  rw [List.getLast?_reverse] at hline
  have hnot := List.head?_dropWhile_not isBlank (lines.dropWhile isBlank).reverse
  rw [Option.mem_def.1 hline] at hnot
  exact hnot

/-- The lines of a block string's value are lines. -/
theorem newline_not_mem_valueLines {raw line : List Char} (h : line ∈ valueLines raw) : '\n' ∉ line := by
  have hraw : ∀ line ∈ (splitLines raw).map dropReturn, '\n' ∉ line := by
    intro line hline
    obtain ⟨full, hfull, rfl⟩ := List.mem_map.1 hline
    exact newline_not_mem_dropReturn (newline_not_mem hfull)
  unfold valueLines at h
  split at h
  · cases h
  · next first others heq =>
    rw [heq] at hraw
    rcases List.mem_cons.1 ((trimBlank_sublist _).subset h) with rfl | hline
    · exact hraw line List.mem_cons_self
    · obtain ⟨full, hfull, rfl⟩ := List.mem_map.1 hline
      exact fun hmem => hraw full (List.mem_cons_of_mem _ hfull) (List.mem_of_mem_drop hmem)

end BlockString

namespace SchemaText

/-! ### The text of a description -/

/-- The description is written as a block string. -/
def isBlock (text : String) : Bool := text.toList.contains '\n' && !hasBlockMark text.toList

/-- A line of a block string, without its end. -/
def shownLine (indent line : List Char) : List Char := if line.isEmpty then [] else indent ++ line

/-- What stands between the marks of a description that is written as a block string. -/
def blockText (indent text : List Char) : List Char :=
  '\n' :: (closedLines text).flatMap (fun line => shownLine indent line ++ ['\n']) ++ indent

/-- What a description reads back as. -/
def reread (indent text : String) : String :=
  if isBlock text then BlockString.value (String.ofList (blockText indent.toList text.toList)) else text

theorem toList_blockLine (indent : String) (line : List Char) :
    (blockLine indent line).toList = shownLine indent.toList line ++ ['\n'] := by
  unfold blockLine shownLine
  split <;> simp

theorem toList_description (text indent : String) :
    (description text indent).toList = indent.toList ++
      ((if isBlock text then ['\"', '\"', '\"'] ++ blockText indent.toList text.toList ++ ['\"', '\"', '\"']
        else (Quoted.write text).toList) ++ ['\n']) := by
  unfold description isBlock blockText
  split
  · simp [String.toList_join, List.flatMap_map, toList_blockLine]
  · simp

/-- The lines that are written: all but the last have lost a carriage return at their end, and an empty last line is no
line. -/
theorem closedLines_eq {text : List Char} {lines : List (List Char)} {last : List Char}
    (h : BlockString.splitLines text = lines ++ [last]) :
    closedLines text = lines.map BlockString.dropReturn ++ if last = [] then [] else [last] := by
  unfold closedLines
  rw [h, List.reverse_append, List.reverse_singleton, List.singleton_append]
  cases last with
  | nil => simp
  | cons c last => simp

theorem exists_lines (text : List Char) : ∃ lines last, BlockString.splitLines text = lines ++ [last] :=
  ⟨_, _, (List.dropLast_append_getLast (BlockString.splitLines_ne_nil text)).symm⟩

theorem newline_not_mem_closedLines {text line : List Char} (h : line ∈ closedLines text) : '\n' ∉ line := by
  obtain ⟨lines, last, hlines⟩ := exists_lines text
  rw [closedLines_eq hlines] at h
  rcases List.mem_append.1 h with h | h
  · obtain ⟨full, hfull, rfl⟩ := List.mem_map.1 h
    exact BlockString.newline_not_mem_dropReturn (BlockString.newline_not_mem (hlines ▸ List.mem_append_left _ hfull))
  · split at h
    · cases h
    · rw [List.mem_singleton.1 h]
      exact BlockString.newline_not_mem (hlines ▸ List.mem_append_right _ List.mem_cons_self)

section Block

variable {indent text : List Char}

theorem newline_not_mem_shownLine (hindent : ∀ c ∈ indent, c = ' ') {line : List Char} (h : '\n' ∉ line) :
    '\n' ∉ shownLine indent line := by
  unfold shownLine
  split
  · simp
  · intro hmem
    rcases List.mem_append.1 hmem with hmem | hmem
    · exact absurd (hindent _ hmem) (by decide)
    · exact h hmem

theorem splitLines_blockText (hindent : ∀ c ∈ indent, c = ' ') :
    BlockString.splitLines (blockText indent text) =
      [] :: (closedLines text).map (shownLine indent) ++ [indent] := by
  have hlast : '\n' ∉ indent := fun h => absurd (hindent _ h) (by decide)
  have hall : ∀ lines : List (List Char), (∀ line ∈ lines, '\n' ∉ line) →
      BlockString.splitLines (lines.flatMap (fun line => shownLine indent line ++ ['\n']) ++ indent) =
        lines.map (shownLine indent) ++ [indent] := by
    intro lines hlines
    induction lines with
    | nil => exact BlockString.splitLines_of_not_mem hlast
    | cons line lines ih =>
      have hline := newline_not_mem_shownLine hindent (hlines line List.mem_cons_self)
      have hrest := ih fun l hl => hlines l (List.mem_cons_of_mem _ hl)
      rw [List.flatMap_cons, List.append_assoc, List.append_assoc, List.singleton_append,
        BlockString.splitLines_append hline, hrest]
      rfl
  have htext := hall (closedLines text) fun line => newline_not_mem_closedLines
  unfold blockText
  rw [List.cons_append]
  exact (BlockString.splitLines_append (by simp) _).trans (congrArg ([] :: ·) htext)

/-! ### Marks in a block string -/

theorem hasBlockMark_iff (cs : List Char) : hasBlockMark cs = true ↔ ['\"', '\"', '\"'] <:+: cs := by
  induction cs with
  | nil => simp [hasBlockMark]
  | cons c cs ih =>
    rw [List.infix_cons_iff, ← ih, hasBlockMark.eq_def (c :: cs)]
    split
    · next heq =>
      obtain ⟨rfl, rfl⟩ := List.cons.inj heq
      simp
    · next hnot heq =>
      obtain ⟨rfl, rfl⟩ := List.cons.inj heq
      refine ⟨.inr, fun h => h.resolve_left ?_⟩
      rintro ⟨rest, hrest⟩
      obtain ⟨hc, htail⟩ := List.cons.inj hrest
      exact hnot rest hc.symm htail.symm
    · next heq => cases heq

/-- A mark does not reach across a character other than a quotation mark. -/
theorem mark_infix_append {c : Char} (hc : c ≠ '\"') {a b : List Char} (h : ['\"', '\"', '\"'] <:+: a ++ c :: b) :
    ['\"', '\"', '\"'] <:+: a ∨ ['\"', '\"', '\"'] <:+: b := by
  induction a with
  | nil =>
    rw [List.nil_append, List.infix_cons_iff] at h
    refine .inr (h.resolve_left ?_)
    rintro ⟨rest, hrest⟩
    exact hc (List.cons.inj hrest).1.symm
  | cons d a ih =>
    rw [List.cons_append, List.infix_cons_iff] at h
    rcases h with ⟨rest, hrest⟩ | h
    · left
      rcases a with _ | ⟨e, _ | ⟨f, a⟩⟩
      · exact absurd (List.cons.inj (List.cons.inj hrest).2).1.symm hc
      · exact absurd (List.cons.inj (List.cons.inj (List.cons.inj hrest).2).2).1.symm hc
      · simp only [List.cons_append, List.nil_append, List.cons.injEq] at hrest
        obtain ⟨rfl, rfl, rfl, -⟩ := hrest
        exact ⟨[], a, rfl⟩
    · exact (ih h).imp_left fun h => h.trans (List.suffix_cons d a).isInfix

/-- A line of a text without marks has none. -/
theorem unmarked_of_mem_splitLines {cs line : List Char} (h : line ∈ BlockString.splitLines cs)
    (hmark : ¬['\"', '\"', '\"'] <:+: cs) : ¬['\"', '\"', '\"'] <:+: line := by
  obtain ⟨before, after, hlines⟩ := List.append_of_mem h
  have hmarked : line <:+: ['\n'].intercalate (before ++ line :: after) := by
    clear hlines
    induction before with
    | nil =>
      cases after with
      | nil => simp
      | cons next after =>
        rw [List.nil_append, List.intercalate_cons_cons, List.append_assoc]
        exact (List.prefix_append _ _).isInfix
    | cons first before ih =>
      obtain ⟨next, rest, hrest⟩ := List.exists_cons_of_ne_nil (show before ++ line :: after ≠ [] by simp)
      rw [List.cons_append, hrest, List.intercalate_cons_cons, ← hrest]
      exact ih.trans (List.suffix_append _ _).isInfix
  rw [← hlines, BlockString.intercalate_splitLines] at hmarked
  exact fun hline => hmark (hline.trans hmarked)

theorem unmarked_closedLines {line : List Char} (h : line ∈ closedLines text) (hmark : hasBlockMark text = false) :
    ¬['\"', '\"', '\"'] <:+: line := by
  have hmark : ¬['\"', '\"', '\"'] <:+: text := fun h => by
    rw [(hasBlockMark_iff text).2 h] at hmark
    cases hmark
  obtain ⟨lines, last, hlines⟩ := exists_lines text
  rw [closedLines_eq hlines] at h
  rcases List.mem_append.1 h with h | h
  · obtain ⟨full, hfull, rfl⟩ := List.mem_map.1 h
    have hnot := unmarked_of_mem_splitLines (hlines ▸ List.mem_append_left _ hfull) hmark
    unfold BlockString.dropReturn
    split
    · exact fun hmarked => hnot (hmarked.trans (List.dropLast_prefix _).isInfix)
    · exact hnot
  · split at h
    · cases h
    · rw [List.mem_singleton.1 h]
      exact unmarked_of_mem_splitLines (hlines ▸ List.mem_append_right _ List.mem_cons_self) hmark

/-- No mark is in an indented line. -/
private theorem unmarked_shownLine (hindent : ∀ c ∈ indent, c = ' ') {line : List Char}
    (h : ¬['\"', '\"', '\"'] <:+: line) : ¬['\"', '\"', '\"'] <:+: shownLine indent line := by
  unfold shownLine
  split
  · simp
  · induction indent with
    | nil => exact h
    | cons c indent ih =>
      obtain rfl := hindent c List.mem_cons_self
      have ih := ih fun d hd => hindent d (List.mem_cons_of_mem _ hd)
      exact fun hmarked => (@mark_infix_append ' ' (by decide) [] _ hmarked).elim (by simp) ih

/-- What stands between the marks of a description ends nowhere before. -/
theorem blockText_isBlockText (hindent : ∀ c ∈ indent, c = ' ') (hmark : hasBlockMark text = false) :
    Parser.IsBlockText (blockText indent text) := by
  have hall : ∀ lines : List (List Char), (∀ line ∈ lines, ¬['\"', '\"', '\"'] <:+: line) →
      ¬['\"', '\"', '\"'] <:+: lines.flatMap (fun line => shownLine indent line ++ ['\n']) ++ indent := by
    intro lines hlines
    induction lines with
    | nil =>
      rintro ⟨before, after, heq⟩
      rw [List.flatMap_nil, List.nil_append] at heq
      exact absurd (hindent '\"' (by rw [← heq]; simp)) (by decide)
    | cons line lines ih =>
      have hrest := ih fun l hl => hlines l (List.mem_cons_of_mem _ hl)
      rw [List.flatMap_cons, List.append_assoc, List.append_assoc, List.singleton_append]
      intro hmarked
      rcases mark_infix_append (by decide) hmarked with h | h
      · exact unmarked_shownLine hindent (hlines line List.mem_cons_self) h
      · exact hrest h
  constructor
  · intro hmarked
    unfold blockText at hmarked
    rw [List.cons_append] at hmarked
    refine (@mark_infix_append '\n' (by decide) [] _ hmarked).elim (by simp) ?_
    exact hall _ fun line hline => unmarked_closedLines hline hmark
  · intro c hc
    have hends : ∀ lines : List (List Char),
        ('\n' :: lines.flatMap fun line => shownLine indent line ++ ['\n']).getLast? = some '\n' := by
      intro lines
      induction lines using List.reverseRecOn with
      | nil => rfl
      | append_singleton lines line ih =>
        rw [List.flatMap_append, List.flatMap_singleton, ← List.append_assoc, ← List.cons_append, List.getLast?_append]
        rfl
    unfold blockText at hc
    rw [List.getLast?_append, hends] at hc
    cases hlast : indent.getLast? with
    | none =>
      rw [hlast] at hc
      cases hc
      decide
    | some d =>
      rw [hlast] at hc
      cases hc
      rw [hindent c (List.mem_of_getLast? hlast)]
      decide

/-! ### What reads back -/

/-- A line of a block string as it is read, with its indentation still in front. -/
def readLine (indent line : List Char) : List Char := BlockString.dropReturn (shownLine indent line)

theorem isBlank_indent (hindent : ∀ c ∈ indent, c = ' ') : BlockString.isBlank indent = true :=
  List.all_eq_true.2 fun c hc => by
    rw [hindent c hc]
    rfl

theorem indentOf_append (hindent : ∀ c ∈ indent, c = ' ') (line : List Char) :
    BlockString.indentOf (indent ++ line) = indent.length + BlockString.indentOf line := by
  have hall : ∀ c ∈ indent, BlockString.isIndent c = true := fun c hc => by
    rw [hindent c hc]
    rfl
  unfold BlockString.indentOf
  rw [List.takeWhile_append_of_pos hall, List.length_append]

theorem isBlank_append (hindent : ∀ c ∈ indent, c = ' ') (line : List Char) :
    BlockString.isBlank (indent ++ line) = BlockString.isBlank line := by
  unfold BlockString.isBlank
  rw [List.all_append]
  have := isBlank_indent hindent
  unfold BlockString.isBlank at this
  rw [this, Bool.true_and]

/-- The lines of the block string, without the blank ones that the marks stand on. -/
theorem valueLines_blockText (hindent : ∀ c ∈ indent, c = ' ') :
    BlockString.valueLines (blockText indent text) =
      BlockString.trimBlank (((closedLines text).map (readLine indent)).map
        (List.drop (BlockString.commonIndent ((closedLines text).map (readLine indent))))) := by
  have hbare : BlockString.dropReturn indent = indent := by
    refine BlockString.dropReturn_of_isBare fun h => ?_
    exact absurd (hindent _ (List.mem_of_getLast? h)) (by decide)
  have hlines : (BlockString.splitLines (blockText indent text)).map BlockString.dropReturn =
      [] :: ((closedLines text).map (readLine indent) ++ [indent]) := by
    rw [splitLines_blockText hindent, List.cons_append, List.map_cons, List.map_append, List.map_singleton, hbare,
      List.map_map]
    rfl
  have hcommon (lines : List (List Char)) :
      BlockString.commonIndent (lines ++ [indent]) = BlockString.commonIndent lines := by
    unfold BlockString.commonIndent
    simp [List.filter_append, isBlank_indent hindent]
  have hblank (n : Nat) : BlockString.isBlank (indent.drop n) = true :=
    isBlank_indent fun c hc => hindent c (List.mem_of_mem_drop hc)
  unfold BlockString.valueLines
  rw [hlines]
  dsimp only
  rw [hcommon, List.map_append, List.map_singleton]
  exact (BlockString.trimBlank_cons rfl _).trans (BlockString.trimBlank_append (hblank _) _)

end Block

/-- The lines of a text are read from a block string as they are. -/
structure IsKeptLines (lines : List (List Char)) : Prop where
  bare : ∀ line ∈ lines, BlockString.IsBare line
  first : ∀ line ∈ lines.head?, BlockString.isBlank line = false
  last : ∀ line ∈ lines.getLast?, BlockString.isBlank line = false
  flush : BlockString.commonIndent lines = 0

/-- A description that reads back: it is on one line or has three quotation marks in a row, or else no line ends in a
carriage return, the first and the last line are not blank, and no indentation is common to all lines that are not. -/
def IsKept (text : String) : Prop := isBlock text → IsKeptLines (BlockString.splitLines text.toList)

section Block

variable {indent text : List Char}

theorem readLine_nil (indent : List Char) : readLine indent [] = [] := rfl

theorem readLine_of_ne_nil {line : List Char} (h : line ≠ []) :
    readLine indent line = indent ++ BlockString.dropReturn line := by
  have hempty : line.isEmpty = false := by simpa using h
  have hlast : (indent ++ line).getLast? = line.getLast? := List.getLast?_append_of_ne_nil _ h
  unfold readLine shownLine
  rw [hempty, if_neg Bool.false_ne_true]
  unfold BlockString.dropReturn
  rw [hlast, List.dropLast_append_of_ne_nil h]
  split <;> rfl

/-- The indentation of the lines in a block string that are not blank starts with that of the block string. -/
theorem le_indentOf_readLine (hindent : ∀ c ∈ indent, c = ' ') {line : List Char}
    (hblank : BlockString.isBlank (readLine indent line) = false) :
    indent.length ≤ BlockString.indentOf (readLine indent line) := by
  cases line with
  | nil => cases hblank
  | cons c line =>
    rw [readLine_of_ne_nil (by simp), indentOf_append hindent]
    exact Nat.le_add_right _ _

/-- The least indentation in a block string is at least that of the block string. -/
theorem le_commonIndent (hindent : ∀ c ∈ indent, c = ' ') {lines : List (List Char)} {line : List Char}
    (h : line ∈ lines) (hblank : BlockString.isBlank (readLine indent line) = false) :
    indent.length ≤ BlockString.commonIndent (lines.map (readLine indent)) := by
  obtain ⟨least, hleast, hnot, heq⟩ := BlockString.exists_commonIndent (List.mem_map_of_mem h) hblank
  obtain ⟨origin, -, rfl⟩ := List.mem_map.1 hleast
  rw [← heq]
  exact le_indentOf_readLine hindent hnot

theorem closedLines_of_kept (h : IsKeptLines (BlockString.splitLines text)) :
    closedLines text = BlockString.splitLines text := by
  obtain ⟨lines, last, hlines⟩ := exists_lines text
  have hlast : last ≠ [] := by
    rintro rfl
    have := h.last [] (by rw [hlines, List.getLast?_append]; rfl)
    cases this
  have hmap : lines.map BlockString.dropReturn = lines := by
    refine (List.map_congr_left fun line hline => ?_).trans (List.map_id lines)
    exact BlockString.dropReturn_of_isBare (h.bare line (hlines ▸ List.mem_append_left _ hline))
  rw [closedLines_eq hlines, if_neg hlast, hmap, hlines]

/-- Lines that are kept are those of the block string. -/
theorem valueLines_of_kept (hindent : ∀ c ∈ indent, c = ' ') (h : IsKeptLines (BlockString.splitLines text)) :
    BlockString.valueLines (blockText indent text) = BlockString.splitLines text := by
  rw [valueLines_blockText hindent, closedLines_of_kept h]
  obtain ⟨first, others, hlines⟩ := List.exists_cons_of_ne_nil (BlockString.splitLines_ne_nil text)
  generalize BlockString.splitLines text = lines at h hlines
  have hread : ∀ line ∈ lines, line ≠ [] → readLine indent line = indent ++ line := fun line hline hne => by
    rw [readLine_of_ne_nil hne, BlockString.dropReturn_of_isBare (h.bare line hline)]
  have hne : ∀ {line : List Char}, BlockString.isBlank line = false → line ≠ [] := by
    rintro line hblank rfl
    cases hblank
  have hnot : ∀ line ∈ lines, BlockString.isBlank line = false →
      BlockString.isBlank (readLine indent line) = false := fun line hline hblank => by
    rw [hread line hline (hne hblank), isBlank_append hindent, hblank]
  have hmem : first ∈ lines := hlines ▸ List.mem_cons_self
  have hfirst := h.first first (by rw [hlines]; rfl)
  have hcommon : BlockString.commonIndent (lines.map (readLine indent)) = indent.length := by
    obtain ⟨least, hleast, hblank, hzero⟩ := BlockString.exists_commonIndent hmem hfirst
    have hle := BlockString.commonIndent_le (List.mem_map_of_mem hleast)
      (hnot least hleast hblank)
    rw [hread least hleast (hne hblank), indentOf_append hindent, hzero, h.flush] at hle
    have hge := le_commonIndent hindent hmem (hnot first hmem hfirst)
    omega
  have hdrop : (lines.map (readLine indent)).map (List.drop indent.length) = lines := by
    rw [List.map_map]
    refine (List.map_congr_left fun line hline => ?_).trans (List.map_id lines)
    by_cases hempty : line = []
    · subst hempty
      simp [readLine_nil]
    · simp [hread line hline hempty]
  rw [hcommon, hdrop, BlockString.trimBlank_eq_self h.first h.last]

/-- A line that comes out of a block string as it went in has not lost a carriage return, and no indentation beyond that
of the block string. -/
private theorem eq_of_kept_line {closed line : List Char} {n : Nat} (hclosed : closed.length ≤ line.length)
    (hn : indent.length ≤ n) (h : (readLine indent closed).drop n = line) :
    closed.length = line.length ∧ BlockString.IsBare closed ∧ (line ≠ [] → n = indent.length) := by
  by_cases hempty : closed = []
  · subst hempty
    rw [readLine_nil, List.drop_nil] at h
    subst h
    exact ⟨rfl, fun hend => (by cases hend), fun hne => absurd rfl hne⟩
  · rw [readLine_of_ne_nil hempty] at h
    have hlength := congrArg List.length h
    rw [List.length_drop, List.length_append] at hlength
    have hle := BlockString.length_dropReturn_le closed
    have hpos := List.length_pos_of_ne_nil hempty
    refine ⟨by omega, ?_, fun _ => by omega⟩
    by_contra hend
    have := BlockString.length_dropReturn_lt hend
    omega

/-- Only lines that are kept are those of the block string. -/
theorem kept_of_valueLines (hindent : ∀ c ∈ indent, c = ' ')
    (h : BlockString.valueLines (blockText indent text) = BlockString.splitLines text) :
    IsKeptLines (BlockString.splitLines text) := by
  rw [valueLines_blockText hindent] at h
  have hfirst := BlockString.head_trimBlank
    (((closedLines text).map (readLine indent)).map
      (List.drop (BlockString.commonIndent ((closedLines text).map (readLine indent)))))
  have hlast := BlockString.last_trimBlank
    (((closedLines text).map (readLine indent)).map
      (List.drop (BlockString.commonIndent ((closedLines text).map (readLine indent)))))
  rw [h] at hfirst hlast
  have hsublist := BlockString.trimBlank_sublist
    (((closedLines text).map (readLine indent)).map
      (List.drop (BlockString.commonIndent ((closedLines text).map (readLine indent)))))
  rw [h] at hsublist
  obtain ⟨lines, last, hlines⟩ := exists_lines text
  have hne : last ≠ [] := by
    rintro rfl
    have := hlast [] (by rw [hlines, List.getLast?_append]; rfl)
    cases this
  have hclosed : closedLines text = lines.map BlockString.dropReturn ++ [last] := by
    rw [closedLines_eq hlines, if_neg hne]
  generalize hn : BlockString.commonIndent ((closedLines text).map (readLine indent)) = n at hsublist
  -- no line is blank at either end of the block string, so each line stands at its place
  have heach : BlockString.splitLines text = ((closedLines text).map (readLine indent)).map (List.drop n) := by
    refine hsublist.eq_of_length ?_
    rw [hlines, hclosed]
    simp
  obtain ⟨hsame, hsameLast⟩ : lines = lines.map (fun line => (readLine indent (BlockString.dropReturn line)).drop n) ∧
      [last] = [(readLine indent last).drop n] := by
    refine List.append_inj' ?_ rfl
    rw [← hlines, heach, hclosed]
    simp
  have hmem : last ∈ closedLines text := hclosed ▸ List.mem_append_right _ List.mem_cons_self
  have hblank : BlockString.isBlank (readLine indent last) = false := by
    by_contra hblank
    have hdropped := hlast last (by rw [hlines, List.getLast?_append]; rfl)
    rw [List.singleton_inj.1 hsameLast] at hdropped
    have hall := List.all_eq_true.1 (by simpa using hblank : BlockString.isBlank (readLine indent last) = true)
    have : BlockString.isBlank ((readLine indent last).drop n) = true :=
      List.all_eq_true.2 fun c hc => hall c (List.mem_of_mem_drop hc)
    rw [hdropped] at this
    cases this
  have hge := le_commonIndent hindent hmem hblank
  rw [hn] at hge
  obtain ⟨-, hbareLast, heq⟩ := eq_of_kept_line (Nat.le_refl _) hge (List.singleton_inj.1 hsameLast).symm
  refine ⟨fun line hline => ?_, hfirst, hlast, ?_⟩
  · rw [hlines] at hline
    rcases List.mem_append.1 hline with hline | hline
    · have hkept := List.map_inj_left.1 (hsame.symm.trans (List.map_id lines).symm) line hline
      have hlength := (eq_of_kept_line (BlockString.length_dropReturn_le line) hge hkept).1
      by_contra hend
      have := BlockString.length_dropReturn_lt hend
      omega
    · rw [List.mem_singleton.1 hline]
      exact hbareLast
  · -- the line that is indented least stands at the left in the text
    obtain ⟨least, hleast, hnot, hindented⟩ := BlockString.exists_commonIndent (List.mem_map_of_mem hmem) hblank
    obtain ⟨closed, hmemClosed, rfl⟩ := List.mem_map.1 hleast
    have hempty : closed ≠ [] := by
      rintro rfl
      cases hnot
    have hread : readLine indent closed = indent ++ BlockString.dropReturn closed := readLine_of_ne_nil hempty
    rw [hread, isBlank_append hindent] at hnot
    rw [hread, indentOf_append hindent, hn, heq hne] at hindented
    have hflush : BlockString.dropReturn closed ∈ BlockString.splitLines text := by
      rw [heach, List.map_map]
      refine List.mem_map.2 ⟨closed, hmemClosed, ?_⟩
      rw [Function.comp_apply, hread, heq hne, List.drop_left]
    have hle := BlockString.commonIndent_le hflush hnot
    omega

end Block

/-- The descriptions that read back as they are. -/
theorem reread_eq_iff {indent : String} (hindent : ∀ c ∈ indent.toList, c = ' ') (text : String) :
    reread indent text = text ↔ IsKept text := by
  unfold reread IsKept
  split
  · next hblock =>
    have hnewline : text.toList ≠ [] := by
      intro hnil
      simp [isBlock, hnil] at hblock
    rw [← String.toList_inj, BlockString.value, String.toList_ofList, String.toList_ofList]
    refine ⟨fun h _ => kept_of_valueLines hindent ?_, fun h => ?_⟩
    · have hne : BlockString.valueLines (blockText indent.toList text.toList) ≠ [] := by
        intro hnil
        rw [hnil] at h
        exact hnewline h.symm
      have hlines := BlockString.splitLines_intercalate hne fun line => BlockString.newline_not_mem_valueLines
      rw [h] at hlines
      exact hlines.symm
    · rw [valueLines_of_kept hindent (h hblock), BlockString.intercalate_splitLines]
  · next hblock => exact ⟨fun _ h => absurd h hblock, fun _ => rfl⟩

end SchemaText

namespace Parser

variable {F : Prop} {ahead : List UInt8}

private theorem utf8Bytes_spaces {indent : List Char} (hindent : ∀ c ∈ indent, c = ' ') (bytes : List UInt8) :
    significant (indent.flatMap utf8Bytes ++ bytes) = significant bytes := by
  induction indent with
  | nil => rfl
  | cons c indent ih =>
    obtain rfl := hindent c List.mem_cons_self
    have ih := ih fun d hd => hindent d (List.mem_cons_of_mem _ hd)
    exact (significant_space (by decide) _).trans ih

theorem significant_indent {indent : String} (hindent : ∀ c ∈ indent.toList, c = ' ') (bytes : List UInt8) :
    significant (bytesOf indent ++ bytes) = significant bytes := by
  rw [bytesOf_eq_flatMap]
  exact utf8Bytes_spaces hindent bytes

/-- A description starts with a quotation mark. -/
theorem significant_description {indent : String} (hindent : ∀ c ∈ indent.toList, c = ' ') (text : String) :
    ∃ bytes, ∀ ahead, significant (bytesOf (SchemaText.description text indent) ++ ahead) = 0x22 :: (bytes ++ ahead) := by
  have hquote : ∃ bytes, ((if SchemaText.isBlock text then
      ['\"', '\"', '\"'] ++ SchemaText.blockText indent.toList text.toList ++ ['\"', '\"', '\"']
        else (Quoted.write text).toList) ++ ['\n']).flatMap utf8Bytes = 0x22 :: bytes := by
    split
    · exact ⟨_, rfl⟩
    · rw [List.flatMap_append, ← bytesOf_eq_flatMap, bytesOf_write]
      exact ⟨_, rfl⟩
  obtain ⟨bytes, hbytes⟩ := hquote
  refine ⟨bytes, fun ahead => ?_⟩
  rw [bytesOf_eq_flatMap, SchemaText.toList_description, List.flatMap_append, List.append_assoc,
    utf8Bytes_spaces hindent, hbytes]
  exact significant_cons (by decide) _

/-- A description that is written starts, behind insignificant text, with a string. -/
theorem readString_description {indent : String} (hindent : ∀ c ∈ indent.toList, c = ' ') (text : String) :
    ∃ bytes, significant (bytesOf (SchemaText.description text indent) ++ ahead) = 0x22 :: bytes ∧
      Reads F (At (0x22 :: bytes)) readString (· = SchemaText.reread indent text) (At (0x0a :: ahead)) := by
  rw [bytesOf_eq_flatMap, SchemaText.toList_description, List.flatMap_append, List.append_assoc,
    utf8Bytes_spaces hindent]
  unfold SchemaText.reread
  split
  · next hblock =>
    have hmark : SchemaText.hasBlockMark text.toList = false := by
      simp only [SchemaText.isBlock, Bool.and_eq_true, Bool.not_eq_true'] at hblock
      exact hblock.2
    have hread := @readString_block F (0x0a :: ahead) _ (SchemaText.blockText_isBlockText hindent hmark)
    refine ⟨_, ?_, hread⟩
    have hquote : utf8Bytes '\"' = [0x22] := rfl
    have hnewline : utf8Bytes '\n' = [0x0a] := rfl
    simp only [List.flatMap_append, List.flatMap_cons, List.flatMap_nil, List.append_nil, hquote, hnewline,
      List.append_assoc, List.singleton_append]
    exact significant_cons (by decide) _
  · have hread := @readString_reads F (0x0a :: ahead) text (by simp [Stops])
    rw [bytesOf_write, List.cons_append] at hread
    refine ⟨_, ?_, hread⟩
    rw [List.flatMap_append, ← bytesOf_eq_flatMap, bytesOf_write, List.append_assoc]
    exact significant_cons (by decide) _

/-- What is read where a description is written. -/
theorem readDescription_reads {indent : String} (hindent : ∀ c ∈ indent.toList, c = ' ') (text : String) :
    Reads F (Near (bytesOf (SchemaText.description text indent) ++ ahead)) readDescription
      (· = some (SchemaText.reread indent text)) (At (0x0a :: ahead)) := by
  obtain ⟨bytes, hbytes, hread⟩ := @readString_description F ahead indent hindent text
  refine Reads.skip hbytes ?_
  rw [if_pos (beq_self_eq_true _)]
  exact hread.bind fun read hread => .pure (congrArg some hread)

/-- Where a description is written, a string is read, up to the end of its last line. It is the description exactly if
that is kept, which every description on one line is. -/
theorem readString_description_iff (text : String) {indent : String} (hindent : indent = "" ∨ indent = "  ")
    (s : Scanner) (hs : s.rest = bytesOf (SchemaText.description text indent) ++ ahead) :
    (∃ read after, (skipSpace >>= fun _ => readString) s = .ok read after ∧ after.rest = 0x0a :: ahead ∧
        (read = text ↔ SchemaText.IsKept text)) ∧
      ('\n' ∉ text.toList → SchemaText.IsKept text) := by
  have hspaces : ∀ c ∈ indent.toList, c = ' ' := by
    rcases hindent with rfl | rfl <;> simp
  obtain ⟨bytes, hbytes, hread⟩ := @readString_description False ahead indent hspaces text
  have hskip : Reads False (Near (bytesOf (SchemaText.description text indent) ++ ahead))
      (skipSpace >>= fun _ => readString) (· = SchemaText.reread indent text) (At (0x0a :: ahead)) :=
    Reads.skip hbytes hread
  refine ⟨?_, fun hline hblock => ?_⟩
  · obtain ⟨hok, herror⟩ := hskip.here s hs
    cases hresult : (skipSpace >>= fun _ => readString) s with
    | error e after => exact (herror e after hresult).elim
    | ok read after =>
      obtain ⟨rfl, hafter⟩ := hok read after hresult
      exact ⟨_, after, rfl, hafter, SchemaText.reread_eq_iff hspaces text⟩
  · simp only [SchemaText.isBlock, Bool.and_eq_true, List.contains_iff_mem] at hblock
    exact absurd hblock.1 hline

/-- Paragraphs and deeper lines are kept, an empty line at the end is not. -/
theorem paragraphs_read_back :
    (∃ after, (skipSpace >>= fun _ => readString)
        ⟨bytesOf (SchemaText.description "Goes:\n  one\n\nto \"two\"" "  "), .start, none⟩ =
          .ok "Goes:\n  one\n\nto \"two\"" after) ∧
      ∃ read after, (skipSpace >>= fun _ => readString)
        ⟨bytesOf (SchemaText.description "one\n" ""), .start, none⟩ = .ok read after ∧ read ≠ "one\n" := by
  have hkept : SchemaText.IsKept "Goes:\n  one\n\nto \"two\"" := by
    have hbare : ∀ line ∈ ["Goes:".toList, "  one".toList, [], "to \"two\"".toList], line.getLast? ≠ some '\r' := by
      decide
    exact fun _ => ⟨hbare, by decide, by decide, by decide⟩
  have hlost : ¬SchemaText.IsKept "one\n" := fun h => by
    have hlast := (h (by decide)).last [] (by decide)
    cases hlast
  obtain ⟨⟨read, after, hread, -, hiff⟩, -⟩ := @readString_description_iff []
    "Goes:\n  one\n\nto \"two\"" "  " (.inr rfl) ⟨_, .start, none⟩ (List.append_nil _).symm
  obtain ⟨⟨read', after', hread', -, hiff'⟩, -⟩ := @readString_description_iff [] "one\n" "" (.inl rfl)
    ⟨_, .start, none⟩ (List.append_nil _).symm
  exact ⟨⟨after, hiff.2 hkept ▸ hread⟩, read', after', hread', fun h => hlost (hiff'.1 h)⟩

end Parser

end GraphQL
