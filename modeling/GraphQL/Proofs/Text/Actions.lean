import GraphQL.Proofs.Text.Located

/-!
# Actions of a scanner

Whatever is done with a scanner either moves it on or puts the byte read last back (`Scanner.Step`). That is so of
everything that tokens are read with, where it fails too (`Scanner.Action.steps`). So what a step keeps is kept by all
actions in any order: the scanner stands in the text, and it would stand there with a byte put back (`Scanner.Tracks`),
which never leads further back than it did before (`Scanner.Step.suffix`). `Scanner.run_exact` says what this means for
offsets and positions.
-/

namespace GraphQL

namespace Scanner

variable {text : List UInt8} {s s' : Scanner}

/-! ### Steps -/

/-- A step: the scanner is moved on, or the byte read last is put back. -/
inductive Step : Scanner → Scanner → Prop
  | move {s s' : Scanner} (h : Move s s') : Step s s'
  | unread (s : Scanner) : Step s s.unread

/-- Any number of steps. -/
abbrev Steps : Scanner → Scanner → Prop := Relation.ReflTransGen Step

theorem Travels.steps (h : Travels s s') : Steps s s' := by
  induction h with
  | refl => exact .refl
  | tail _ hmove ih => exact ih.tail (.move hmove)

/-- A byte that was read can be put back. -/
theorem unread_read (s : Scanner) : s.read.2.unread = { s with undo := none } := by
  obtain ⟨rest, pos, undo⟩ := s
  cases rest <;> rfl

/-- There is nothing to put back twice. -/
theorem unread_unread (s : Scanner) : s.unread.unread = s.unread := by
  obtain ⟨rest, pos, undo⟩ := s
  cases undo <;> rfl

theorem rest_suffix_unread (s : Scanner) : s.rest <:+ s.unread.rest := by
  obtain ⟨rest, pos, undo⟩ := s
  cases undo with
  | none => exact List.suffix_refl rest
  | some last => exact List.suffix_cons last.1 rest

/-- The scanner stands in the text, and would still do so if the byte that it remembers were put back. -/
structure Tracks (text : List UInt8) (s : Scanner) : Prop where
  here : s.In text
  back : s.unread.In text

theorem tracks_ofBytes (source : List UInt8) : (ofBytes source).Tracks (ofBytes source).rest := by
  refine ⟨in_ofBytes source, ?_⟩
  unfold ofBytes
  split <;> exact ⟨[], rfl, rfl⟩

theorem Tracks.step (h : s.Tracks text) (hstep : Step s s') : s'.Tracks text := by
  cases hstep with
  | unread => exact ⟨h.back, (unread_unread s).symm ▸ h.back⟩
  | move hmove =>
    refine ⟨h.here.move hmove, ?_⟩
    cases hmove with
    | read => exact unread_read s ▸ h.here
    | comment hrun => exact h.here.move (.comment hrun)

/-- Putting back leads no further back after a step than before it. -/
theorem Step.suffix (hstep : Step s s') : s'.unread.rest <:+ s.unread.rest := by
  cases hstep with
  | unread => exact (unread_unread s).symm ▸ List.suffix_refl s.unread.rest
  | move hmove =>
    cases hmove with
    | read => exact unread_read s ▸ s.rest_suffix_unread
    | @comment run rest pos undo _ =>
      exact (List.suffix_append run rest).trans (rest_suffix_unread ⟨run ++ rest, pos, undo⟩)

theorem Steps.tracks (h : Steps s s') (hs : s.Tracks text) : s'.Tracks text := by
  induction h with
  | refl => exact hs
  | tail _ hstep ih => exact ih.step hstep

theorem Steps.suffix (h : Steps s s') : s'.unread.rest <:+ s.unread.rest := by
  induction h with
  | refl => exact List.suffix_refl _
  | tail _ hstep ih => exact hstep.suffix.trans ih

/-! ### Actions -/

/-- What can be done with a scanner. -/
inductive Action where
  | peek
  | readByte
  | unread
  | drop (n : Nat)
  | span (p : UInt8 → Bool)
  | skipSpace
  | readToken
  | readNumberToken
  | readName (what : String)
  | expect (b : UInt8)
  | consume (b : UInt8)
  | consumeSpread
  | peekKeyword (keyword : String)
  | readHex (pos : Pos) (n value : Nat)
  | readUnicodeEscape (pos : Pos)
  | readEscape
  | quotedBody (start : Pos)
  | blockBody (start : Pos)
  | readString

/-- Where an action leaves the scanner, whether it succeeds or fails. -/
def Action.perform : Action → Scanner → Scanner
  | .peek => Parser.peek.after
  | .readByte => Parser.readByte.after
  | .unread => Parser.unread.after
  | .drop n => (Parser.drop n).after
  | .span p => (Parser.span p).after
  | .skipSpace => Parser.skipSpace.after
  | .readToken => Parser.readToken.after
  | .readNumberToken => Parser.readNumberToken.after
  | .readName what => (Parser.readName what).after
  | .expect b => (Parser.expect b).after
  | .consume b => (Parser.consume b).after
  | .consumeSpread => Parser.consumeSpread.after
  | .peekKeyword keyword => (Parser.peekKeyword keyword).after
  | .readHex pos n value => (Parser.readHex pos n value).after
  | .readUnicodeEscape pos => (Parser.readUnicodeEscape pos).after
  | .readEscape => Parser.readEscape.after
  | .quotedBody start => (Parser.quotedBody start).after
  | .blockBody start => (Parser.blockBody start).after
  | .readString => Parser.readString.after

/-- Where actions leave the scanner, one done after the other. -/
def run (actions : List Action) (s : Scanner) : Scanner := actions.foldl (fun s action => action.perform s) s

theorem Action.steps (action : Action) (s : Scanner) : Steps s (action.perform s) := by
  cases action with
  | peek => exact (Parser.peek_travels s).steps
  | readByte => exact (Parser.readByte_travels s).steps
  | unread => exact .single (.unread s)
  | drop n => exact (Parser.drop_travels n s).steps
  | span p => exact (Parser.span_travels p s).steps
  | skipSpace => exact (Parser.skipSpace_travels s).steps
  | readToken => exact (Parser.readToken_travels s).steps
  | readNumberToken => exact (Parser.readNumberToken_travels s).steps
  | readName what => exact (Parser.readName_travels what s).steps
  | expect b => exact (Parser.expect_travels b s).steps
  | consume b => exact (Parser.consume_travels b s).steps
  | consumeSpread => exact (Parser.consumeSpread_travels s).steps
  | peekKeyword keyword => exact (Parser.peekKeyword_travels keyword s).steps
  | readHex pos n value => exact (Parser.readHex_travels pos n value s).steps
  | readUnicodeEscape pos => exact (Parser.readUnicodeEscape_travels pos s).steps
  | readEscape => exact (Parser.readEscape_travels s).steps
  | quotedBody start => exact (Parser.quotedBody_travels start s).steps
  | blockBody start => exact (Parser.blockBody_travels start s).steps
  | readString => exact (Parser.readString_travels s).steps

theorem steps_run (actions : List Action) (s : Scanner) : Steps s (run actions s) := by
  induction actions generalizing s with
  | nil => exact .refl
  | cons action actions ih => exact (action.steps s).trans (ih (action.perform s))

/-! ### Offsets and positions -/

variable {source consumed : List UInt8} {s : Scanner}

/-- The mark that may stand before a text. -/
def byteOrderMark : List UInt8 := [0xef, 0xbb, 0xbf]

/-- What of the source is none of its text: the mark, if the source begins with it. -/
def mark (source : List UInt8) : List UInt8 := if byteOrderMark <+: source then byteOrderMark else []

theorem mark_append (source : List UInt8) : mark source ++ (ofBytes source).rest = source := by
  unfold ofBytes
  split
  · next rest =>
    have hmark : mark (0xef :: 0xbb :: 0xbf :: rest) = byteOrderMark := if_pos (List.prefix_append byteOrderMark rest)
    rw [hmark]
    rfl
  · next hnot =>
    have hmark : mark source = [] := if_neg fun ⟨rest, hrest⟩ => hnot rest hrest.symm
    rw [hmark]
    rfl

/-- These bytes of the text have been consumed: what follows them in the source lies ahead, the line is counted by the
line ends among them, and the column by the bytes behind the last of these. -/
structure StandsBehind (source consumed : List UInt8) (s : Scanner) : Prop where
  ahead : source = mark source ++ consumed ++ s.rest
  line : s.pos.line = 1 + consumed.count 0x0a
  column : s.pos.column = 1 + (consumed.reverse.takeWhile (· != 0x0a)).length

private theorem standsBehind_of_advance (htext : (ofBytes source).rest = consumed ++ s.rest)
    (hpos : s.pos = Pos.start.advance consumed) : s.StandsBehind source consumed := by
  have hoffset : s.pos = Pos.ofOffset (consumed ++ []) consumed.length := hpos.trans (Pos.advance_start consumed [])
  unfold Pos.ofOffset at hoffset
  rw [List.take_left] at hoffset
  constructor
  · rw [List.append_assoc, ← htext, mark_append]
  · exact congrArg Pos.line hoffset
  · exact congrArg Pos.column hoffset

/-- What holds of a scanner when these bytes of a source have been consumed. -/
structure Exact (source consumed : List UInt8) (s : Scanner) : Prop where
  stands : s.StandsBehind source consumed
  fits : s.pos.Fits
  /-- To put back leads before the byte that was consumed last, or nowhere. -/
  back : s.unread = s ∨ ∃ before b, consumed = before ++ [b] ∧ s.unread.StandsBehind source before
  /-- The byte that is read next can be put back. -/
  again : s.read.2.unread.StandsBehind source consumed
  /-- No second byte can be put back after the first. -/
  once : s.unread.unread = s.unread
  /-- Whatever is done after a byte was put back, what was ahead then is not added to. -/
  never : ∀ actions : List Action, (run actions s.unread).rest <:+ s.unread.rest

private theorem Tracks.back_cases (h : s.Tracks (ofBytes source).rest)
    (htext : (ofBytes source).rest = consumed ++ s.rest) :
    s.unread = s ∨ ∃ before b, consumed = before ++ [b] ∧ s.unread.StandsBehind source before := by
  obtain ⟨before, hbefore, hpos⟩ := h.back
  cases hundo : s.undo with
  | none =>
    left
    unfold unread
    rw [hundo]
  | some last =>
    right
    have hrest : s.unread.rest = last.1 :: s.rest := by
      unfold unread
      rw [hundo]
    refine ⟨before, last.1, ?_, standsBehind_of_advance hbefore hpos⟩
    rw [htext, hrest, List.append_cons] at hbefore
    exact List.append_cancel_right hbefore

/-- After any actions on a source, those that fail included, the scanner stands in the source, its position is that of
the bytes consumed, and at most the byte consumed last can be put back. -/
theorem run_exact (source : List UInt8) (hsize : source.length < 2 ^ 32 - 1) (actions : List Action) :
    ∃ consumed, (run actions (ofBytes source)).Exact source consumed := by
  have htracks := (steps_run actions (ofBytes source)).tracks (tracks_ofBytes source)
  generalize run actions (ofBytes source) = s at htracks
  obtain ⟨consumed, htext, hpos⟩ := htracks.here
  have hstands : s.StandsBehind source consumed := standsBehind_of_advance htext hpos
  refine ⟨consumed, hstands, ?_, htracks.back_cases htext, ?_, s.unread_unread, ?_⟩
  · apply htracks.here.pos_in.fits
    have hlength := congrArg List.length (mark_append source)
    rw [List.length_append] at hlength
    omega
  · rw [unread_read]
    exact ⟨hstands.ahead, hstands.line, hstands.column⟩
  · intro later
    have hback := (steps_run later s.unread).suffix
    rw [unread_unread] at hback
    exact (rest_suffix_unread _).trans hback

/-- A marked source in which a comment is skipped and a string is not closed. -/
private def openString : List UInt8 := [0xef, 0xbb, 0xbf, 0x61, 0x23, 0x62, 0x0a, 0x22, 0x78]

private theorem run_openString :
    run [.readByte, .skipSpace, .unread, .unread, .readByte, .readString] (ofBytes openString) =
      ⟨[], ⟨2, 3⟩, none⟩ := by
  cbv

theorem openString_exact :
    openString.length < 2 ^ 32 - 1 ∧ ∃ consumed, (⟨[], ⟨2, 3⟩, none⟩ : Scanner).Exact openString consumed := by
  have hsize : openString.length < 2 ^ 32 - 1 := by decide
  refine ⟨hsize, ?_⟩
  rw [← run_openString]
  exact run_exact openString hsize _

end Scanner

end GraphQL
