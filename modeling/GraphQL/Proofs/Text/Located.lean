import GraphQL.Proofs.Text.Place

/-!
# Where parsers fail

The position of a scanner in a text is that of an offset of the text (`Scanner.In.pos_in`), and that of a byte as long
as the text goes on. `Parser.Locates` says of a parser from one place on that it does not leave the text: if it fails,
then at a position of the text, and else its result and the place where it ends satisfy a property. There is one rule
for each way in which parsers are built.
-/

namespace GraphQL

/-! ### Positions of a text -/

namespace Pos

/-- The position of the byte at an offset: a line more for each line end before it, and a column more for each byte
behind the last of them. -/
def ofOffset (text : List UInt8) (offset : Nat) : Pos where
  line := 1 + (text.take offset).count 0x0a
  column := 1 + ((text.take offset).reverse.takeWhile (· != 0x0a)).length

/-- The position of an offset of the text, its end included. -/
def In (text : List UInt8) (pos : Pos) : Prop := ∃ offset ≤ text.length, pos = ofOffset text offset

/-- The position of a byte of the text. -/
def OfByte (text : List UInt8) (pos : Pos) : Prop := ∃ offset < text.length, pos = ofOffset text offset

/-- Both numbers fit 32 bits. -/
def Fits (pos : Pos) : Prop := pos.line < 2 ^ 32 ∧ pos.column < 2 ^ 32

variable {text : List UInt8} {pos : Pos}

theorem OfByte.isIn (h : pos.OfByte text) : pos.In text := h.imp fun _ h => ⟨Nat.le_of_lt h.1, h.2⟩

theorem In.fits (h : pos.In text) (hsize : text.length < 2 ^ 32 - 1) : pos.Fits := by
  obtain ⟨offset, hoffset, rfl⟩ := h
  have htake : (text.take offset).length ≤ text.length := List.length_take_le' offset text
  have hline : (text.take offset).count 0x0a ≤ (text.take offset).length := List.count_le_length
  have hcolumn : ((text.take offset).reverse.takeWhile (· != 0x0a)).length ≤ (text.take offset).length := by
    have hprefix := (List.takeWhile_prefix (l := (text.take offset).reverse) (· != 0x0a)).length_le
    rwa [List.length_reverse] at hprefix
  unfold Fits ofOffset
  dsimp only
  omega

theorem advance_start (before ahead : List UInt8) :
    start.advance before = ofOffset (before ++ ahead) before.length := by
  unfold ofOffset
  rw [List.take_left]
  induction before using List.reverseRecOn with
  | nil => rfl
  | append_singleton before b ih =>
    have hnext : start.advance (before ++ [b]) = (start.advance before).next b := advance_append start before [b]
    rw [hnext, ih, next, List.count_append, List.reverse_append, List.reverse_singleton, List.singleton_append,
      List.takeWhile_cons]
    by_cases hend : b = 0x0a
    · simp [hend]
      omega
    · simp [hend]
      omega

end Pos

namespace Scanner.In

variable {text : List UInt8} {s : Scanner}

theorem pos_in (h : s.In text) : s.pos.In text := by
  obtain ⟨before, rfl, hpos⟩ := h
  exact ⟨before.length, by simp, hpos.trans (Pos.advance_start before s.rest)⟩

/-- The scanner stands at a byte as long as the text goes on. -/
theorem pos_ofByte (h : s.In text) (hrest : s.rest ≠ []) : s.pos.OfByte text := by
  obtain ⟨before, rfl, hpos⟩ := h
  refine ⟨before.length, ?_, hpos.trans (Pos.advance_start before s.rest)⟩
  rw [List.length_append]
  exact Nat.lt_add_of_pos_right (List.length_pos_iff.2 hrest)

end Scanner.In

namespace Parser

variable {α β : Type} {text : List UInt8} {s : Scanner}

/-- A parser that starts at a place in the text stays in the text. Where it fails it does so at a position of the
text, and where it succeeds its result and the place reached satisfy `post`. -/
def Locates (text : List UInt8) (s : Scanner) (p : Parser α) (post : α → Scanner → Prop) : Prop :=
  s.In text →
    (∀ a s', p s = .ok a s' → s'.In text ∧ post a s') ∧ ∀ e s', p s = .error e s' → e.pos.In text

/-- A parser that stays in the text and fails in it. -/
abbrev Keeps (text : List UInt8) (p : Parser α) : Prop := ∀ s, Locates text s p fun _ _ => True

/-- A parser that stays in the text and fails in it, and remembers positions of its bytes only. -/
abbrev Marks (text : List UInt8) (p : Parser α) (positions : α → List Pos) : Prop :=
  ∀ s, Locates text s p fun a _ => ∀ pos ∈ positions a, pos.OfByte text

/-! ### Rules -/

namespace Locates

variable {p : Parser α} {f : α → Parser β} {P P' : α → Scanner → Prop} {Q : β → Scanner → Prop} {pos : Pos}
  {cause : SyntaxCause}

theorem pure {a : α} (h : P a s) : Locates text s (Pure.pure a : Parser α) P := by
  intro hs
  refine ⟨fun a' s' hok => ?_, fun e s' herror => ?_⟩
  · cases hok
    exact ⟨hs, h⟩
  · cases herror

theorem bind (hp : Locates text s p P) (hf : ∀ a mid, mid.In text → P a mid → Locates text mid (f a) Q) :
    Locates text s (p >>= f) Q := by
  intro hs
  obtain ⟨hok, herror⟩ := hp hs
  rw [show (p >>= f) s = EStateM.bind p f s from rfl]
  unfold EStateM.bind
  cases hresult : p s with
  | ok a mid =>
    obtain ⟨hmid, hpost⟩ := hok a mid hresult
    exact hf a mid hmid hpost hmid
  | error e mid =>
    refine ⟨nofun, fun e' s' heq => ?_⟩
    cases heq
    exact herror e mid hresult

theorem mono (hp : Locates text s p P) (h : ∀ a s', s'.In text → P a s' → P' a s') : Locates text s p P' := by
  intro hs
  obtain ⟨hok, herror⟩ := hp hs
  refine ⟨fun a s' heq => ?_, herror⟩
  obtain ⟨hs', hpost⟩ := hok a s' heq
  exact ⟨hs', h a s' hs' hpost⟩

/-- Nothing need be known of the result. -/
theorem keeps (hp : Locates text s p P) : Locates text s p fun _ _ => True := hp.mono fun _ _ _ _ => trivial

theorem map {g : α → β} (hp : Locates text s p fun a s' => Q (g a) s') : Locates text s (g <$> p) Q :=
  hp.bind fun _ _ _ h => .pure h

theorem ite {c : Prop} [Decidable c] {q : Parser α} (hp : c → Locates text s p P) (hq : ¬c → Locates text s q P) :
    Locates text s (if c then p else q) P := by
  split
  · exact hp ‹_›
  · exact hq ‹_›

theorem failAt (h : pos.In text) : Locates text s (Parser.failAt pos cause : Parser α) P := by
  intro _
  refine ⟨nofun, fun e s' herror => ?_⟩
  cases herror
  exact h

theorem fail : Locates text s (Parser.fail cause : Parser α) P := fun hs => failAt hs.pos_in hs

/-- Nothing comes after a failure. -/
theorem failAt_bind (h : pos.In text) : Locates text s (Parser.failAt pos cause >>= f) Q := fun hs => failAt h hs

theorem fail_bind : Locates text s (Parser.fail cause >>= f) Q := fun hs => failAt hs.pos_in hs

theorem modifyGet {g : Scanner → α × Scanner} (hin : s.In text → (g s).2.In text)
    (h : s.In text → P (g s).1 (g s).2) : Locates text s (MonadStateOf.modifyGet g : Parser α) P := by
  intro hs
  refine ⟨fun a s' hok => ?_, fun e s' herror => ?_⟩
  · cases hok
    exact ⟨hin hs, h hs⟩
  · cases herror

/-- A parser that looks at the place where it is. -/
theorem get {f : Scanner → Parser β} (h : s.In text → Locates text s (f s) Q) :
    Locates text s (MonadState.get >>= f) Q := fun hs => h hs hs

/-- What the reference of a grammar to itself gives may be assumed where the grammar is gone through, as long as
`state` holds of what is handed on. -/
theorem fixWith {body : (β → Parser α) → β → Parser α} (state : β → Prop)
    (h : ∀ more : β → Parser α, (∀ b, state b → ∀ s, Locates text s (more b) P) →
      ∀ b, state b → ∀ s, Locates text s (body more b) P) {b : β} (hb : state b) (s : Scanner) :
    Locates text s (Parser.fixWith body b) P := by
  induction hn : s.rest.length using Nat.strongRecOn generalizing b s with
  | ind n ih =>
    subst hn
    unfold Locates Parser.fixWith
    rw [Reader.fixWith_eq]
    refine h _ (fun c hc t ht => ?_) b hb s
    by_cases hshorter : t.rest.length < s.rest.length
    · simp only [if_pos hshorter]
      exact ih t.rest.length hshorter hc t rfl ht
    · -- a reference that is not followed fails where it stands
      simp only [if_neg hshorter]
      refine ⟨nofun, fun e s' herror => ?_⟩
      cases herror
      exact ht.pos_in

end Locates

theorem Keeps.fixWith {body : (β → Parser α) → β → Parser α}
    (h : ∀ more : β → Parser α, (∀ b, Keeps text (more b)) → ∀ b, Keeps text (body more b)) (b : β) :
    Keeps text (Parser.fixWith body b) :=
  Locates.fixWith (fun _ => True) (fun more hmore b _ => h more (fun b => hmore b trivial) b) trivial

theorem Keeps.fix {body : Parser α → Parser α} (h : ∀ more : Parser α, Keeps text more → Keeps text (body more)) :
    Keeps text (Parser.fix body) :=
  Keeps.fixWith (fun more hmore _ => h (more ()) (hmore ())) ()

section Marks

variable {positions : α → List Pos}

/-- The positions in what is handed on are those of bytes. -/
theorem Marks.fixWith {body : (β → Parser α) → β → Parser α} (held : β → List Pos)
    (h : ∀ more : β → Parser α, (∀ b, (∀ pos ∈ held b, pos.OfByte text) → Marks text (more b) positions) →
      ∀ b, (∀ pos ∈ held b, pos.OfByte text) → Marks text (body more b) positions) {b : β}
    (hb : ∀ pos ∈ held b, pos.OfByte text) : Marks text (Parser.fixWith body b) positions :=
  Locates.fixWith (fun b => ∀ pos ∈ held b, pos.OfByte text) h hb

theorem Marks.fix {body : Parser α → Parser α}
    (h : ∀ more : Parser α, Marks text more positions → Marks text (body more) positions) :
    Marks text (Parser.fix body) positions :=
  Marks.fixWith (fun _ => []) (fun more hmore _ _ => h (more ()) (hmore () nofun)) nofun

theorem Marks.keeps {p : Parser α} (h : Marks text p positions) : Keeps text p := fun s => (h s).keeps

end Marks

/-! ### Tokens -/

section Tokens

variable {Q : β → Scanner → Prop} {f : UInt8 → Parser β} {g : Pos → Parser β}

/-- The position is that of the place reached. -/
theorem Locates.here (h : s.In text → Locates text s (g s.pos) Q) : Locates text s (position >>= g) Q :=
  fun hs => h hs hs

theorem peek_keeps : Keeps text peek := fun _ => .get fun _ => .pure trivial

theorem readByte_keeps : Keeps text readByte := fun _ => .modifyGet Scanner.In.read fun _ => trivial

theorem drop_keeps (n : Nat) : Keeps text (drop n) := fun _ => .modifyGet (·.drop n) fun _ => trivial

theorem span_keeps (p : UInt8 → Bool) : Keeps text (span p) := fun _ => .modifyGet (·.span p) fun _ => trivial

/-- Behind insignificant text there is a byte, or else a byte zero is seen. -/
theorem skipSpace_locates : Locates text s skipSpace fun b s' =>
    s' = s.skipSpace ∧ (b ≠ 0 → s'.pos.OfByte text) := by
  intro hs
  refine ⟨fun b s' hok => ?_, fun e s' herror => ?_⟩
  · cases hok
    refine ⟨hs.skipSpace, rfl, fun hb => hs.skipSpace.pos_ofByte fun hrest => hb ?_⟩
    rw [Scanner.peek_eq, hrest]
    rfl
  · cases herror

theorem skipSpace_keeps : Keeps text skipSpace := fun _ => skipSpace_locates.keeps

theorem Locates.skip (h : ∀ b mid, mid.In text → (b ≠ 0 → mid.pos.OfByte text) → Locates text mid (f b) Q) :
    Locates text s (skipSpace >>= f) Q :=
  skipSpace_locates.bind fun b mid hmid hb => h b mid hmid hb.2

theorem discard_keeps {p : Parser α} (hp : Keeps text p) : Keeps text (discard p) := fun s => (hp s).map

/-- A name that is there begins with a byte. -/
theorem readToken_locates : Locates text s readToken fun name _ => name.isEmpty = false → s.pos.OfByte text := by
  intro hs
  refine ⟨fun name s' hok => ?_, fun e s' herror => ?_⟩
  · cases hok
    refine ⟨hs.span _, fun hname => hs.pos_ofByte fun hrest => ?_⟩
    have hname : (byteText (s.span Byte.isName).1).isEmpty = false := hname
    rw [(span_eq Byte.isName s).1, hrest] at hname
    exact absurd hname (by decide)
  · cases herror

theorem readToken_keeps : Keeps text readToken := fun _ => readToken_locates.keeps

theorem readName_locates (what : String) : Locates text s (readName what) fun _ _ => s.skipSpace.pos.OfByte text := by
  refine skipSpace_locates.bind fun found mid hmid h => .here fun _ => ?_
  obtain ⟨rfl, -⟩ := h
  refine readToken_locates.bind fun name mid _ hname => .ite (fun _ => .failAt hmid.pos_in) fun hnonempty => .pure ?_
  exact hname (Bool.not_eq_true _ ▸ hnonempty)

theorem readName_keeps (what : String) : Keeps text (readName what) := fun _ => (readName_locates what).keeps

/-- A name is read behind insignificant text, and its position is taken before. -/
theorem Locates.named {what : String} {h : Pos → String → Parser β}
    (hf : ∀ pos name mid, pos.OfByte text → Locates text mid (h pos name) Q) :
    Locates text s (do discard skipSpace; let pos ← position; let name ← readName what; h pos name) Q := by
  refine Locates.bind (P := fun _ mid => mid = s.skipSpace) (.map (skipSpace_locates.mono fun _ _ _ h => h.1)) ?_
  rintro _ mid - rfl
  refine .here fun _ => (readName_locates what).bind fun name mid _ hname => hf _ name mid ?_
  rwa [Scanner.skipSpace_skipSpace] at hname

theorem expect_keeps (b : UInt8) : Keeps text (expect b) := fun _ =>
  .skip fun _ mid _ _ => .ite (fun _ => discard_keeps readByte_keeps mid) fun _ => .fail

theorem consume_keeps (b : UInt8) : Keeps text (consume b) := fun _ =>
  .skip fun _ mid _ _ => .ite (fun _ => (discard_keeps readByte_keeps mid).bind fun _ _ _ _ => .pure trivial)
    fun _ => .pure trivial

theorem consumeSpread_keeps : Keeps text consumeSpread := fun s =>
  (discard_keeps skipSpace_keeps s).bind fun _ mid _ _ => .get fun _ =>
    .ite (fun _ => (drop_keeps 3 mid).bind fun _ _ _ _ => .pure trivial) fun _ => .pure trivial

theorem peekKeyword_keeps (keyword : String) : Keeps text (peekKeyword keyword) := fun s =>
  (discard_keeps skipSpace_keeps s).bind fun _ _ _ _ => .get fun _ => .pure trivial

end Tokens

/-! ### Strings -/

private theorem readHex_keeps {pos : Pos} (hpos : pos.In text) (n value : Nat) :
    Keeps text (readHex pos n value) := by
  induction n generalizing value with
  | zero => exact fun _ => .pure trivial
  | succ n ih =>
    intro s
    refine (readByte_keeps s).bind fun b mid _ _ => ?_
    split
    · exact ih _ mid
    · exact .failAt hpos

private theorem readUnicodeEscape_keeps {pos : Pos} (hpos : pos.In text) : Keeps text (readUnicodeEscape pos) := by
  intro s
  refine (readHex_keeps hpos 4 0 s).bind fun high mid _ _ => .ite (fun _ => ?_) fun _ =>
    .ite (fun _ => .failAt hpos) fun _ => .pure trivial
  refine (readByte_keeps mid).bind fun b mid _ _ => .ite (fun _ => .failAt_bind hpos) fun _ => ?_
  refine (readByte_keeps mid).bind fun b mid _ _ => .ite (fun _ => .failAt_bind hpos) fun _ => ?_
  refine (readHex_keeps hpos 4 0 mid).bind fun low mid _ _ => .ite (fun _ => .pure trivial) fun _ => .failAt hpos

private theorem readEscape_keeps : Keeps text readEscape := by
  refine fun s => .here fun hs => (readByte_keeps s).bind fun b mid _ _ => ?_
  split
  all_goals first
    | exact .pure trivial
    | exact readUnicodeEscape_keeps hs.pos_in mid
    | exact .failAt hs.pos_in

private theorem quotedBody_keeps {start : Pos} (hstart : start.In text) : Keeps text (quotedBody start) := by
  refine Keeps.fix fun more hmore s => ?_
  refine (span_keeps _ s).bind fun run mid _ _ => (readByte_keeps mid).bind fun b mid _ _ => ?_
  refine .ite (fun _ => .pure trivial) fun _ => .ite (fun _ => ?_) fun _ => .failAt hstart
  exact (readEscape_keeps mid).bind fun c mid _ _ => (hmore mid).bind fun _ _ _ _ => .pure trivial

private theorem blockBody_keeps {start : Pos} (hstart : start.In text) : Keeps text (blockBody start) := by
  refine Keeps.fix fun more hmore s => ?_
  refine (span_keeps _ s).bind fun run mid _ _ => .get fun _ => ?_
  split
  · exact (drop_keeps 3 mid).bind fun _ _ _ _ => .pure trivial
  · exact (drop_keeps 4 mid).bind fun _ mid _ _ => (hmore mid).bind fun _ _ _ _ => .pure trivial
  · exact (readByte_keeps mid).bind fun _ mid _ _ => (hmore mid).bind fun _ _ _ _ => .pure trivial
  · exact .failAt hstart

theorem readString_keeps : Keeps text readString := by
  refine fun s => .here fun hs => .get fun _ => .ite (fun _ => .fail) fun _ => .ite (fun _ => ?_) fun _ => ?_
  · refine (drop_keeps 3 s).bind fun _ mid _ _ => (blockBody_keeps hs.pos_in mid).bind fun bytes mid _ _ => ?_
    split
    · exact .pure trivial
    · exact .failAt hs.pos_in
  · refine (discard_keeps readByte_keeps s).bind fun _ mid _ _ => ?_
    refine (quotedBody_keeps hs.pos_in mid).bind fun bytes mid _ _ => ?_
    split
    · exact .pure trivial
    · exact .failAt hs.pos_in

end Parser

end GraphQL
