import GraphQL.Proofs.Text.InStep

/-!
# Tokens in step

The parsers of names, numbers, punctuation and strings stay in step on two sources that differ in their layout only.
Strings are the one place where that means that the sources are the same.
-/

namespace GraphQL

theorem Scanner.peek_eq (s : Scanner) : s.peek = s.rest.headD 0 := by
  rw [List.headD_eq_head?_getD, List.head?_eq_getElem?]
  rfl

namespace Parser

variable {α α' β β' : Type}

/-! ### Places in a source -/

variable {strict : Bool} {room : Room} {before : Ahead} {f : α → Parser β} {same : β → β' → Prop} {after : β → Ahead}

theorem position_bind {f : Pos → Parser β} {g : Pos → Parser β'}
    (h : ∀ pos pos', InStep strict room before (f pos) (g pos') same after) :
    InStep strict room before (position >>= f) (position >>= g) same after :=
  InStep.bind (R := fun _ _ => True) (A := fun _ => before) (fun s t hst _ _ => .ok trivial hst (.refl s) (.refl t))
    fun pos pos' _ => h pos pos'

/-- The next byte of both sources is `b`, zero at the end. -/
structure Facing (b : UInt8) (left right : List UInt8) : Prop where
  respaced : Respaced left right
  left_head : left.headD 0 = b
  right_head : right.headD 0 = b

private theorem Facing.exists_cons {b : UInt8} {left right : List UInt8} (h : Facing b left right) (hb : b ≠ 0) :
    ∃ left' right', left = b :: left' ∧ right = b :: right' := by
  have hcons {ahead : List UInt8} (hhead : ahead.headD 0 = b) : ∃ rest, ahead = b :: rest := by
    cases ahead with
    | nil => exact absurd hhead.symm hb
    | cons c rest => exact ⟨rest, by rw [← hhead, List.headD_cons]⟩
  obtain ⟨left', hleft⟩ := hcons h.left_head
  obtain ⟨right', hright⟩ := hcons h.right_head
  exact ⟨left', right', hleft, hright⟩

theorem skipSpace_inStep : InStep false room Respaced skipSpace skipSpace Eq Facing := by
  intro s t hst _ _
  have hrest := hst.significant
  have hhead : s.skipSpace.rest.headD 0 = t.skipSpace.rest.headD 0 := by
    rw [s.skipSpace_rest, t.skipSpace_rest]
    exact hrest.headD (significant_significant _) (significant_significant _)
  have hpasses (s : Scanner) : s.Passes false s.skipSpace := ⟨s.skipSpace_rest ▸ significant_suffix s.rest, nofun⟩
  refine Agree.ok (a := s.skipSpace.peek) (b := t.skipSpace.peek) ?_ ⟨?_, ?_, ?_⟩ (hpasses s) (hpasses t)
  · rw [Scanner.peek_eq, Scanner.peek_eq, hhead]
  · rwa [s.skipSpace_rest, t.skipSpace_rest]
  · rw [Scanner.peek_eq]
  · rw [Scanner.peek_eq, hhead]

theorem skip {f : UInt8 → Parser β} {g : UInt8 → Parser β'}
    (h : ∀ b, InStep strict room (Facing b) (f b) (g b) same after) :
    InStep strict room Respaced (skipSpace >>= f) (skipSpace >>= g) same after :=
  skipSpace_inStep.bindSame h

theorem discard_skipSpace_inStep : InStep false room Respaced (discard skipSpace) (discard skipSpace) (fun _ _ => True)
    fun _ => Respaced :=
  (skipSpace_inStep.mono (fun _ _ => id) fun _ _ _ h => h.respaced).discard

/-- The next byte is the same in both sources, or it is skipped in both. -/
theorem peek_inStep : InStep false room Respaced peek peek
    (fun b c => b = c ∨ Byte.isSignificant b = false ∧ Byte.isSignificant c = false) fun _ => Respaced := by
  intro s t hst _ _
  refine Agree.ok (a := s.peek) (b := t.peek) ?_ hst (.refl s) (.refl t)
  rw [Scanner.peek_eq, Scanner.peek_eq]
  exact hst.next

theorem peek_facing {b : UInt8} : InStep false room (Facing b) peek peek Eq fun _ => Facing b := by
  intro s t hst _ _
  refine Agree.ok (a := s.peek) (b := t.peek) ?_ hst (.refl s) (.refl t)
  rw [Scanner.peek_eq, Scanner.peek_eq, hst.left_head, hst.right_head]

/-! ### Punctuation -/

/-- A byte that is none of a string, and not the end of the source. -/
def IsMark (b : UInt8) : Prop := b ≠ 0 ∧ Byte.isBare b = true

instance (b : UInt8) : Decidable (IsMark b) := inferInstanceAs (Decidable (_ ∧ _))

private theorem Facing.mark {b : UInt8} {left right : List UInt8} (h : Facing b left right) (hb : IsMark b) :
    ∃ left' right', left = b :: left' ∧ right = b :: right' ∧ Respaced left' right' := by
  obtain ⟨left', right', rfl, rfl⟩ := h.exists_cons hb.1
  obtain ⟨rest, hrest, hrespaced⟩ := h.respaced.cons hb.2
  cases hrest
  exact ⟨left', right', rfl, rfl, hrespaced⟩

private theorem read_eq {s : Scanner} {b : UInt8} {rest : List UInt8} (h : s.rest = b :: rest) :
    s.read = (b, ⟨rest, s.pos.next b, some (b, s.pos)⟩) := by
  unfold Scanner.read
  rw [h]

private theorem passes_cons {s s' : Scanner} {b : UInt8} (h : s.rest = b :: s'.rest) : s.Passes strict s' :=
  .of_length_lt (h ▸ List.suffix_cons b s'.rest) (h ▸ Nat.lt_succ_self _)

/-- A byte that both sources go on with is read. -/
private theorem readByte_cons {A : UInt8 → Ahead}
    (hbefore : ∀ left right, before left right →
      ∃ b left' right', left = b :: left' ∧ right = b :: right' ∧ A b left' right') :
    InStep true room before readByte readByte Eq A := by
  intro s t hst _ _
  obtain ⟨b, left, right, hs, ht, hafter⟩ := hbefore _ _ hst
  rw [show readByte s = .ok s.read.1 s.read.2 from rfl, show readByte t = .ok t.read.1 t.read.2 from rfl, read_eq hs,
    read_eq ht]
  exact .ok rfl hafter (passes_cons hs) (passes_cons ht)

theorem readByte_inStep {b : UInt8} (hb : IsMark b) :
    InStep true room (Facing b) readByte readByte Eq fun _ => Respaced :=
  readByte_cons fun _ _ h => ⟨b, h.mark hb⟩

/-- The mark that was found is read. -/
theorem readMark {b mark : UInt8} (hmark : IsMark mark) (h : (b == mark) = true) :
    InStep true room (Facing b) (discard readByte) (discard readByte) (fun _ _ => True) fun _ => Respaced := by
  rw [eq_of_beq h]
  exact (readByte_inStep hmark).discard

theorem expect_inStep {b : UInt8} (hb : IsMark b) :
    InStep true room Respaced (expect b) (expect b) (fun _ _ => True) fun _ => Respaced :=
  skip fun _ => .ite Iff.rfl (readMark hb) fun _ => .fail nofun

theorem consume_inStep {b : UInt8} (hb : IsMark b) :
    InStep false room Respaced (consume b) (consume b) Eq fun _ => Respaced :=
  skip fun _ => .ite Iff.rfl (fun h => (readMark hb h).step fun _ _ _ => .pure rfl fun _ _ => id) fun _ =>
    .pure rfl fun _ _ h => h.respaced

/-! ### Names and numbers -/

/-- The same run is read from both sources if each of its bytes in one of them is in the other. -/
theorem span_inStep {here : Stretch} {p : UInt8 → Bool}
    (hcons : ∀ b left right, p b = true → here.Same (b :: left) right →
      ∃ rest, right = b :: rest ∧ here.Same left rest)
    (hbefore : ∀ left right, before left right → here.Same left right ∧ (strict = true → left.takeWhile p ≠ [])) :
    InStep strict room before (span p) (span p) Eq fun _ => here.Same := by
  intro s t hst _ _
  obtain ⟨hsame, hstrict⟩ := hbefore _ _ hst
  obtain ⟨hrun, hrest⟩ := hsame.span hcons
  have hpasses (s : Scanner) (hs : strict = true → s.rest.takeWhile p ≠ []) : s.Passes strict (s.span p).2 := by
    refine ⟨(span_eq p s).2 ▸ List.dropWhile_suffix p, fun h heq => hs h ?_⟩
    rw [(span_eq p s).2] at heq
    have hall := List.takeWhile_append_dropWhile (p := p) (l := s.rest)
    rwa [heq, List.append_left_eq_self] at hall
  refine Agree.ok (a := (s.span p).1) (b := (t.span p).1) ?_ ?_ (hpasses s hstrict) (hpasses t (hrun ▸ hstrict))
  · rw [(span_eq p s).1, (span_eq p t).1, hrun]
  · show here.Same (s.span p).2.rest (t.span p).2.rest
    rwa [(span_eq p s).2, (span_eq p t).2]

/-- A run that starts with the next byte consumes something. -/
theorem span_facing {p : UInt8 → Bool} {b : UInt8}
    (hcons : ∀ b left right, p b = true → Respaced (b :: left) right → ∃ rest, right = b :: rest ∧ Respaced left rest)
    (hzero : p 0 = false) (hb : p b = true) : InStep true room (Facing b) (span p) (span p) Eq fun _ => Respaced := by
  refine span_inStep hcons fun left right h => ⟨h.respaced, fun _ => ?_⟩
  have hne : b ≠ 0 := by
    rintro rfl
    rw [hzero] at hb
    cases hb
  obtain ⟨left', right', rfl, rfl⟩ := h.exists_cons hne
  rw [List.takeWhile_cons_of_pos hb]
  exact List.cons_ne_nil _ _

private theorem name_cons (b : UInt8) (left right : List UInt8) (hb : Byte.isName b = true)
    (h : Respaced (b :: left) right) : ∃ rest, right = b :: rest ∧ Respaced left rest :=
  h.cons (Byte.isBare_of_isName hb)

theorem readToken_inStep : InStep false room Respaced readToken readToken Eq fun _ => Respaced := by
  refine InStep.bindSame (A := fun _ => Respaced) ?_ fun _ => .pure rfl fun _ _ => id
  exact span_inStep name_cons fun _ _ h => ⟨h, nofun⟩

/-- A name consumes something, unless it is empty. -/
theorem readToken_bind {f : String → Parser β} {g : String → Parser β'}
    (hbefore : ∀ left right, before left right → Respaced left right)
    (hempty : InStep strict room before (f "") (g "") same after)
    (hname : ∀ name, InStep false room.less Respaced (f name) (g name) same after) :
    InStep strict room before (readToken >>= f) (readToken >>= g) same after := by
  refine .split (fun left _ => left.takeWhile Byte.isName = []) ?_ ?_
  · intro s t ⟨hst, hleft⟩ hs ht
    have hright : t.rest.takeWhile Byte.isName = [] := by rw [← ((hbefore _ _ hst).span name_cons).1, hleft]
    have hnone {s : Scanner} (h : s.rest.takeWhile Byte.isName = []) : readToken s = .ok "" s := by
      have hspan : s.span Byte.isName = ([], s) := by
        obtain ⟨rest, pos, undo⟩ := s
        cases rest with
        | nil => rfl
        | cons b rest =>
          have hb : ¬Byte.isName b = true := fun hb => by simp [hb] at h
          simp [Scanner.span, Scanner.span.go, hb]
      rw [show readToken s = .ok (byteText (s.span Byte.isName).1) (s.span Byte.isName).2 from rfl, hspan]
      rfl
    rw [show (readToken >>= f) s = EStateM.bind readToken f s from rfl,
      show (readToken >>= g) t = EStateM.bind readToken g t from rfl]
    unfold EStateM.bind
    rw [hnone hleft, hnone hright]
    exact hempty s t hst hs ht
  · refine InStep.step (R := Eq) (A := fun _ => Respaced) ?_ fun name _ h => h ▸ hname name
    refine InStep.stepSame (A := fun _ => Respaced) ?_ fun _ => .pure rfl fun _ _ => id
    exact span_inStep name_cons fun _ _ h => ⟨hbefore _ _ h.1, fun _ => h.2⟩

theorem readName_inStep (what : String) :
    InStep true room Respaced (readName what) (readName what) Eq fun _ => Respaced := by
  refine skip fun found => position_bind fun pos pos' => ?_
  refine readToken_bind (fun _ _ h => h.respaced) (.failAt nofun) fun name => ?_
  exact .ite Iff.rfl (fun _ => .failAt nofun) fun _ => .pure rfl fun _ _ => id

/-- A word starts with a byte of names. -/
theorem readToken_word {b : UInt8} (hb : Byte.isName b = true) :
    InStep true room (Facing b) readToken readToken Eq fun _ => Respaced := by
  refine InStep.stepSame (A := fun _ => Respaced) ?_ fun _ => .pure rfl fun _ _ => id
  exact span_facing name_cons (by decide) hb

/-- Whether a name is next is the same in both sources. -/
theorem peekKeyword_inStep {keyword : String} (hkeyword : (bytesOf keyword).all Byte.isName = true) :
    InStep false room Respaced (peekKeyword keyword) (peekKeyword keyword) Eq fun _ => Respaced := by
  refine discard_skipSpace_inStep.bind fun _ _ _ => .get_bind fun s t hst => .pure ?_ ?_
  · exact Respaced.keyword (List.all_eq_true.1 hkeyword) hst
  · rintro left right ⟨rfl, rfl⟩
    exact hst

private theorem drop_rest (n : Nat) (s : Scanner) : (s.drop n).rest = s.rest.drop n := by
  induction n generalizing s with
  | zero => rfl
  | succ n ih =>
    have hread : s.read.2.rest = s.rest.tail := by
      unfold Scanner.read
      cases s.rest <;> rfl
    rw [Scanner.drop, ih, hread, List.drop_tail]

theorem drop_inStep {after : Ahead} (bytes : List UInt8) (hbytes : bytes ≠ [])
    (hbefore : ∀ left right, before left right →
      ∃ left' right', left = bytes ++ left' ∧ right = bytes ++ right' ∧ after left' right') :
    InStep true room before (drop bytes.length) (drop bytes.length) (fun _ _ => True) fun _ => after := by
  intro s t hst _ _
  obtain ⟨left, right, hs, ht, hafter⟩ := hbefore _ _ hst
  have hrest {s : Scanner} {rest : List UInt8} (h : s.rest = bytes ++ rest) : (s.drop bytes.length).rest = rest := by
    rw [drop_rest, h, List.drop_left]
  have hpasses {s : Scanner} {rest : List UInt8} (h : s.rest = bytes ++ rest) :
      s.Passes true (s.drop bytes.length) := by
    refine .of_length_lt ?_ ?_
    · rw [drop_rest]
      exact List.drop_suffix _ _
    · rw [hrest h, h, List.length_append]
      exact Nat.lt_add_of_pos_left (List.length_pos_of_ne_nil hbytes)
  refine Agree.ok (a := ()) (b := ()) trivial ?_ (hpasses hs) (hpasses ht)
  show after (s.drop bytes.length).rest (t.drop bytes.length).rest
  rwa [hrest hs, hrest ht]

private theorem spread_iff (s : Scanner) :
    (s.peek == 0x2e && s.peekAt 1 == 0x2e && s.peekAt 2 == 0x2e) = true ↔ [0x2e, 0x2e, 0x2e] <+: s.rest := by
  unfold Scanner.peek Scanner.peekAt
  match s.rest with
  | [] => simp
  | [b] => simp
  | [b, c] => simp
  | b :: c :: d :: rest =>
    simp only [List.cons_prefix_cons, List.nil_prefix, and_true, List.getElem?_cons_zero, List.getElem?_cons_succ,
      Option.getD_some, Bool.and_eq_true, beq_iff_eq, eq_comm (b := (0x2e : UInt8)), and_assoc]

/-- Three points are read or left, and something insignificant before them is read. -/
theorem consumeSpread_inStep : InStep false room Respaced consumeSpread consumeSpread Eq
    fun found => if found then Respaced else fun left right => ∃ b, Facing b left right := by
  have hbare : ∀ b ∈ [(0x2e : UInt8), 0x2e, 0x2e], Byte.isBare b = true := List.all_eq_true.1 (by decide)
  have hskip : InStep false room Respaced (discard skipSpace) (discard skipSpace) (fun _ _ => True) fun _ left right =>
      ∃ b, Facing b left right :=
    (skipSpace_inStep.mono (fun _ _ => id) fun b _ _ h => ⟨b, h⟩).discard
  refine hskip.bind fun _ _ _ => .get_bind fun s t ⟨b, hst⟩ => .ite ?_ (fun hs => ?_) fun _ => .pure rfl ?_
  · rw [spread_iff, spread_iff]
    constructor
    · rintro ⟨left, hleft⟩
      obtain ⟨right, hright, -⟩ := Respaced.append hbare (hleft ▸ hst.respaced)
      exact ⟨right, hright.symm⟩
    · rintro ⟨right, hright⟩
      obtain ⟨left, hleft, -⟩ := Respaced.append hbare (hright ▸ hst.respaced.symm)
      exact ⟨left, hleft.symm⟩
  · refine InStep.step (A := fun _ => Respaced) (drop_inStep [0x2e, 0x2e, 0x2e] (by decide) ?_) fun _ _ _ =>
      .pure rfl fun _ _ => id
    rintro left right ⟨rfl, rfl⟩
    obtain ⟨left, hleft⟩ := (spread_iff s).1 hs
    obtain ⟨right, hright, hrest⟩ := Respaced.append hbare (hleft ▸ hst.respaced)
    exact ⟨left, right, hleft.symm, hright, hrest⟩
  · rintro left right ⟨rfl, rfl⟩
    exact ⟨b, hst⟩

/-! ### Strings -/

open Stretch

/-- Inside a string the same byte is read, or both sources end. -/
theorem readByte_bind {here : Stretch} (next : UInt8 → Stretch) {f : UInt8 → Parser β} {g : UInt8 → Parser β'}
    (hinside : here.Inside) (hnext : ∀ b rest, here.after b rest = next b)
    (hend : InStep strict room (fun left right => left = [] ∧ right = []) (f 0) (g 0) same after)
    (hbyte : ∀ b, InStep false room.less (next b).Same (f b) (g b) same after) :
    InStep strict room here.Same (readByte >>= f) (readByte >>= g) same after := by
  refine .split (fun left right => left = [] ∧ right = []) ?_ ?_
  · refine InStep.bind (R := fun b c => b = 0 ∧ c = 0) (A := fun _ left right => left = [] ∧ right = []) ?_ ?_
    · rintro s t ⟨-, hs, ht⟩ - -
      have hread {s : Scanner} (h : s.rest = []) : s.read = (0, { s with undo := none }) := by
        unfold Scanner.read
        rw [h]
      rw [show readByte s = .ok s.read.1 s.read.2 from rfl, show readByte t = .ok t.read.1 t.read.2 from rfl, hread hs,
        hread ht]
      exact .ok ⟨rfl, rfl⟩ ⟨hs, ht⟩ ⟨List.suffix_refl _, nofun⟩ ⟨List.suffix_refl _, nofun⟩
    · rintro _ _ ⟨rfl, rfl⟩
      exact hend
  · refine InStep.stepSame (A := fun b => (next b).Same) ?_ hbyte
    refine readByte_cons fun left right ⟨hst, hne⟩ => ?_
    rcases hst.inside hinside with hnil | ⟨b, left, right, hleft, hright, hrest⟩
    · exact absurd hnil hne
    · rw [hnext, hnext] at hrest
      exact ⟨b, left, right, hleft, hright, hrest⟩

private theorem quoted_next {b : UInt8} (hquote : b ≠ 0x22) (hbackslash : b ≠ 0x5c) : quoted.after b [] = quoted := by
  simp [Stretch.after, hquote, hbackslash]

private theorem readHex_inStep (pos pos' : Pos) (n value : Nat) :
    InStep false room quoted.Same (readHex pos n value) (readHex pos' n value) Eq fun _ => quoted.Same := by
  induction n generalizing value room with
  | zero => exact .pure rfl fun _ _ => id
  | succ n ih =>
    refine readByte_bind (fun b => quoted.after b []) inside_quoted (fun _ _ => rfl) (.failAt nofun) fun b => ?_
    cases hb : Byte.hexValue? b with
    | none => exact .failAt nofun
    | some digit =>
      have hne {c : UInt8} (hc : Byte.hexValue? c = none) : b ≠ c := by
        rintro rfl
        rw [hb] at hc
        cases hc
      rw [quoted_next (hne (by decide)) (hne (by decide))]
      exact ih _

private theorem readUnicodeEscape_inStep (pos pos' : Pos) :
    InStep false room quoted.Same (readUnicodeEscape pos) (readUnicodeEscape pos') Eq fun _ => quoted.Same := by
  refine (readHex_inStep pos pos' 4 0).bindSame fun high => .ite Iff.rfl (fun _ => ?_) fun _ => ?_
  · refine readByte_bind (fun b => quoted.after b []) inside_quoted (fun _ _ => rfl) (.failAt_bind nofun)
      fun b => .ite Iff.rfl (fun _ => .failAt_bind nofun) fun hb => ?_
    obtain rfl : b = 0x5c := by simpa using hb
    refine readByte_bind (fun _ => quoted) (inside_verbatim 0 quoted) (fun _ _ => rfl) (.failAt_bind nofun)
      fun b => .ite Iff.rfl (fun _ => .failAt_bind nofun) fun _ => ?_
    refine (readHex_inStep pos pos' 4 0).bindSame fun low => .ite Iff.rfl (fun _ => ?_) fun _ => .failAt nofun
    exact .pure rfl fun _ _ => id
  · exact .ite Iff.rfl (fun _ => .failAt nofun) fun _ => .pure rfl fun _ _ => id

private theorem readEscape_inStep :
    InStep false room (verbatim 0 quoted).Same readEscape readEscape Eq fun _ => quoted.Same := by
  refine position_bind fun pos pos' => ?_
  refine readByte_bind (fun _ => quoted) (inside_verbatim 0 quoted) (fun _ _ => rfl) (.failAt nofun) fun b => ?_
  split
  all_goals first
    | exact .pure rfl fun _ _ => id
    | exact readUnicodeEscape_inStep pos pos'
    | exact .failAt nofun

private theorem plain_cons (b : UInt8) (left right : List UInt8) (hb : isPlain b = true)
    (h : quoted.Same (b :: left) right) : ∃ rest, right = b :: rest ∧ quoted.Same left rest := by
  rcases h.inside inside_quoted with ⟨hleft, -⟩ | ⟨c, left', rest, hleft, rfl, hrest⟩
  · cases hleft
  · cases hleft
    obtain ⟨⟨-, hquote⟩, hbackslash⟩ : ((b ≠ 0 ∧ b ≠ 0x0a) ∧ b ≠ 0x22) ∧ b ≠ 0x5c := by simpa [isPlain] using hb
    refine ⟨rest, rfl, ?_⟩
    simpa [Stretch.after, hquote, hbackslash, Stretch.Same] using hrest

private theorem quotedBody_inStep (start start' : Pos) :
    InStep false room quoted.Same (quotedBody start) (quotedBody start') Eq fun _ => Respaced := by
  refine .fix fun room' _ more more' hmore => ?_
  refine InStep.bindSame (A := fun _ => quoted.Same) (span_inStep plain_cons fun _ _ h => ⟨h, nofun⟩) fun run => ?_
  refine readByte_bind (fun b => quoted.after b []) inside_quoted (fun _ _ => rfl) (.failAt nofun) fun b => ?_
  refine .ite Iff.rfl (fun hb => ?_) fun _ => .ite Iff.rfl (fun hb => ?_) fun _ => .failAt nofun
  · rw [eq_of_beq hb]
    exact .pure rfl fun _ _ => id
  · rw [eq_of_beq hb]
    exact readEscape_inStep.bindSame fun c => hmore.bindSame fun rest => .pure rfl fun _ _ => id

private theorem blockPlain_cons (b : UInt8) (left right : List UInt8) (hb : isBlockPlain b = true)
    (h : block.Same (b :: left) right) : ∃ rest, right = b :: rest ∧ block.Same left rest := by
  rcases h.inside inside_block with ⟨hleft, -⟩ | ⟨c, left', rest, hleft, rfl, hrest⟩
  · cases hleft
  · cases hleft
    obtain ⟨hquote, hbackslash⟩ : b ≠ 0x22 ∧ b ≠ 0x5c := by simpa [isBlockPlain] using hb
    refine ⟨rest, rfl, ?_⟩
    simpa [Stretch.after, hquote, hbackslash, Stretch.Same] using hrest

private theorem blockBody_inStep (start start' : Pos) :
    InStep false room block.Same (blockBody start) (blockBody start') Eq fun _ => Respaced := by
  refine .fix fun room' _ more more' hmore => ?_
  refine InStep.bindSame (A := fun _ => block.Same) (span_inStep blockPlain_cons fun _ _ h => ⟨h, nofun⟩) fun run => ?_
  refine .get_bind fun s t hst => ?_
  have hblock := hst.block
  generalize s.rest = left, t.rest = right at hblock ⊢
  cases hblock with
  | nil => exact .failAt nofun
  | closing hrest =>
    refine InStep.step (R := fun _ _ => True) (A := fun _ => Respaced) ?_ fun _ _ _ => .pure rfl fun _ _ => id
    exact drop_inStep [0x22, 0x22, 0x22] (by decide) fun _ _ h => ⟨_, _, h.1, h.2, hrest⟩
  | covered hrest =>
    refine InStep.step (R := fun _ _ => True) (A := fun _ => block.Same) ?_ fun _ _ _ =>
      hmore.bindSame fun _ => .pure rfl fun _ _ => id
    exact drop_inStep [0x5c, 0x22, 0x22, 0x22] (by decide) fun _ _ h => ⟨_, _, h.1, h.2, hrest⟩
  | @other b left right hrest hother =>
    obtain ⟨hclosing, hcovered⟩ := hother (b :: left) (by simp)
    obtain ⟨hclosing', hcovered'⟩ := hother (b :: right) (by simp)
    split
    · next hleft => exact absurd ⟨_, hleft.symm⟩ hclosing
    · next hleft => exact absurd ⟨_, hleft.symm⟩ hcovered
    · split
      · next hright => exact absurd ⟨_, hright.symm⟩ hclosing'
      · next hright => exact absurd ⟨_, hright.symm⟩ hcovered'
      · refine InStep.stepSame (A := fun _ => block.Same) ?_ fun _ => hmore.bindSame fun _ => .pure rfl fun _ _ => id
        exact readByte_cons fun _ _ h => ⟨b, left, right, h.1, h.2, hrest⟩
      · next hright => cases hright
    · next hleft => cases hleft

private theorem quotes_iff {s : Scanner} {b : UInt8} {rest : List UInt8} (h : s.rest = b :: rest) :
    (s.peekAt 1 == 0x22 && s.peekAt 2 == 0x22) = true ↔ [0x22, 0x22] <+: rest := by
  unfold Scanner.peekAt
  rw [h]
  match rest with
  | [] => simp
  | [c] => simp
  | c :: d :: rest =>
    simp only [List.cons_prefix_cons, List.nil_prefix, and_true, List.getElem?_cons_zero, List.getElem?_cons_succ,
      Option.getD_some, Bool.and_eq_true, beq_iff_eq, eq_comm (b := (0x22 : UInt8))]

theorem readString_inStep : InStep true room (Facing 0x22) readString readString Eq fun _ => Respaced := by
  refine position_bind fun start start' => .get_bind fun s t hst => ?_
  have hpeek {s : Scanner} (h : s.rest.headD 0 = 0x22) : ¬(s.peek != 0x22) = true := by
    rw [Scanner.peek_eq, h]
    decide
  have hs := hpeek hst.left_head
  have ht := hpeek hst.right_head
  refine .ite (iff_of_false hs ht) (fun h => absurd h hs) fun _ => ?_
  obtain ⟨left, right, hleft, hright⟩ := hst.exists_cons (by decide)
  obtain ⟨rest, hrest, hquote⟩ := Respaced.quote (hleft ▸ hst.respaced)
  obtain rfl : right = rest := List.cons_inj_right _ |>.1 (hright.symm.trans hrest)
  refine .ite ?_ (fun hmarks => ?_) fun hmarks => ?_
  · rw [quotes_iff hleft, quotes_iff hright]
    rcases hquote with ⟨left', right', rfl, rfl, -⟩ | ⟨hl, hr, -⟩
    · exact iff_of_true (List.prefix_append _ _) (List.prefix_append _ _)
    · exact iff_of_false hl hr
  · rw [quotes_iff hleft] at hmarks
    rcases hquote with ⟨left', right', rfl, rfl, hblock⟩ | ⟨hl, -⟩
    · refine InStep.step (R := fun _ _ => True) (A := fun _ => block.Same)
        (drop_inStep [0x22, 0x22, 0x22] (by decide) ?_) fun _ _ _ =>
          (blockBody_inStep start start').bindSame fun raw => ?_
      · exact fun _ _ h => ⟨left', right', h.1.trans hleft, h.2.trans hright, hblock⟩
      · cases utf8Text? raw with
        | none => exact .failAt nofun
        | some text => exact .pure rfl fun _ _ => id
    · exact absurd hmarks hl
  · rw [quotes_iff hleft] at hmarks
    rcases hquote with ⟨left', right', rfl, -⟩ | ⟨-, -, hquoted⟩
    · exact absurd (List.prefix_append _ _) hmarks
    · refine InStep.step (R := fun _ _ => True) (A := fun _ => quoted.Same)
        (InStep.discard (R := Eq) (readByte_cons fun _ _ h => ?_)) fun _ _ _ =>
          (quotedBody_inStep start start').bindSame fun bytes => ?_
      · exact ⟨0x22, left, right, h.1.trans hleft, h.2.trans hright, hquoted⟩
      · cases utf8Text? bytes with
        | none => exact .failAt nofun
        | some text => exact .pure rfl fun _ _ => id

end Parser

end GraphQL
