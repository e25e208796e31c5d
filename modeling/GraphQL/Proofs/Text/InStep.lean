import GraphQL.Proofs.Text.Condensed

/-!
# Parsers in step

`Parser.InStep` compares two parsers, each run on a source of its own: both succeed or both fail, they move forward in
their sources, and they are left at places that correspond to each other. There is one rule for each way in which
parsers are built. A repetition stays in step with another one if each of its steps does and consumes something on both
sides; so it never stalls.
-/

namespace GraphQL

/-- The place `s'` is `s` or behind it, really behind it if `strict`. -/
structure Scanner.Passes (strict : Bool) (s s' : Scanner) : Prop where
  suffix : s'.rest <:+ s.rest
  ne : strict = true → s'.rest ≠ s.rest

namespace Scanner.Passes

variable {strict : Bool} {s s' s'' : Scanner}

theorem refl (s : Scanner) : Passes false s s := ⟨List.suffix_refl _, nofun⟩

theorem weak (h : Passes strict s s') : Passes false s s' := ⟨h.suffix, nofun⟩

theorem length_le (h : Passes strict s s') : s'.rest.length ≤ s.rest.length := h.suffix.length_le

theorem length_lt (h : Passes true s s') : s'.rest.length < s.rest.length :=
  Nat.lt_of_le_of_ne h.length_le fun heq => h.ne rfl (h.suffix.eq_of_length heq)

theorem of_length_lt (h : s'.rest <:+ s.rest) (hlt : s'.rest.length < s.rest.length) : Passes strict s s' :=
  ⟨h, fun _ heq => absurd (congrArg List.length heq) (Nat.ne_of_lt hlt)⟩

theorem trans (h : Passes false s s') (h' : Passes strict s' s'') : Passes strict s s'' := by
  refine ⟨h'.suffix.trans h.suffix, fun hstrict heq => ?_⟩
  subst hstrict
  exact absurd (congrArg List.length heq) (Nat.ne_of_lt (Nat.lt_of_lt_of_le h'.length_lt h.length_le))

theorem strict_trans (h : Passes true s s') (h' : Passes false s' s'') : Passes strict s s'' :=
  of_length_lt (h'.suffix.trans h.suffix) (Nat.lt_of_le_of_lt h'.length_le h.length_lt)

end Scanner.Passes

/-- A correspondence between what is left of one source and what is left of the other. -/
abbrev Ahead := List UInt8 → List UInt8 → Prop

/-- How many bytes are left of two sources at most, and one more. -/
abbrev Room := Nat × Nat

/-- The room behind a byte. -/
def Room.less (room : Room) : Room := (room.1 - 1, room.2 - 1)

theorem Room.less_le (room : Room) : room.less ≤ room := ⟨Nat.sub_le _ _, Nat.sub_le _ _⟩

namespace Parser

variable {α α' β β' γ γ' : Type}

/-- The results of two parsers that were at `s` and `t` correspond to each other. -/
inductive Agree (strict : Bool) (same : α → α' → Prop) (after : α → Ahead) (s t : Scanner) :
    EStateM.Result SyntaxError Scanner α → EStateM.Result SyntaxError Scanner α' → Prop where
  | ok {a : α} {b : α'} {s' t' : Scanner} : same a b → after a s'.rest t'.rest → s.Passes strict s' →
      t.Passes strict t' → Agree strict same after s t (.ok a s') (.ok b t')
  | error {e e' : SyntaxError} {s' t' : Scanner} : e.cause = e'.cause → e.cause ≠ .stalled →
      Agree strict same after s t (.error e s') (.error e' t')

theorem Agree.imp {strict strict' : Bool} {same same' : α → α' → Prop} {after after' : α → Ahead} {s t : Scanner}
    {result : EStateM.Result SyntaxError Scanner α} {result' : EStateM.Result SyntaxError Scanner α'}
    (h : Agree strict same after s t result result') (hsame : ∀ a a', same a a' → same' a a')
    (hafter : ∀ a left right, after a left right → after' a left right)
    (hpasses : ∀ s s' : Scanner, s.Passes strict s' → s.Passes strict' s') :
    Agree strict' same' after' s t result result' := by
  cases h with
  | ok hresult hahead hs ht => exact .ok (hsame _ _ hresult) (hafter _ _ _ hahead) (hpasses _ _ hs) (hpasses _ _ ht)
  | error hcause hstalled => exact .error hcause hstalled

/-- Where `before` relates what is ahead in two sources, of which less than `room` is left, two parsers fail for the
same cause or give results that `same` relates and leave sources that `after` relates. They do not go back, and if
`strict` they consume something. -/
def InStep (strict : Bool) (room : Room) (before : Ahead) (p : Parser α) (q : Parser α') (same : α → α' → Prop)
    (after : α → Ahead) : Prop :=
  ∀ s t : Scanner, before s.rest t.rest → s.rest.length < room.1 → t.rest.length < room.2 →
    Agree strict same after s t (p s) (q t)

namespace InStep

variable {strict : Bool} {room room' : Room} {before before' : Ahead} {p p' : Parser α} {q q' : Parser α'}
  {f : α → Parser β} {g : α' → Parser β'} {R R' : α → α' → Prop} {A A' : α → Ahead}
  {same : β → β' → Prop} {after : β → Ahead}

/-! ### Rules -/

theorem starting (h : InStep strict room before p q R A)
    (hbefore : ∀ left right, before' left right → before left right) : InStep strict room before' p q R A :=
  fun s t hst => h s t (hbefore _ _ hst)

theorem within (h : InStep strict room before p q R A) (hroom : room' ≤ room) :
    InStep strict room' before p q R A :=
  fun s t hst hs ht => h s t hst (Nat.lt_of_lt_of_le hs hroom.1) (Nat.lt_of_lt_of_le ht hroom.2)

theorem mono (h : InStep strict room before p q R A) (hsame : ∀ a a', R a a' → R' a a')
    (hafter : ∀ a left right, A a left right → A' a left right) :
    InStep strict room before p q R' A' :=
  fun s t hst hs ht => (h s t hst hs ht).imp hsame hafter fun _ _ => id

theorem weak (h : InStep strict room before p q R A) : InStep false room before p q R A :=
  fun s t hst hs ht => (h s t hst hs ht).imp (fun _ _ => id) (fun _ _ _ => id) fun _ _ => Scanner.Passes.weak

theorem pure {a : α} {a' : α'} (h : R a a') (hafter : ∀ left right, before left right → A a left right) :
    InStep false room before (Pure.pure a : Parser α) (Pure.pure a' : Parser α') R A :=
  fun s t hst _ _ => .ok h (hafter _ _ hst) (.refl s) (.refl t)

private theorem bind_of {strict₁ strict₂ : Bool} (hp : InStep strict₁ room before p q R A)
    (hf : ∀ a a', R a a' → InStep strict₂ room' (A a) (f a) (g a') same after)
    (hroom : ∀ s s' : Scanner, s.Passes strict₁ s' →
      (s.rest.length < room.1 → s'.rest.length < room'.1) ∧ (s.rest.length < room.2 → s'.rest.length < room'.2))
    (hpasses : ∀ s s' s'' : Scanner, s.Passes strict₁ s' → s'.Passes strict₂ s'' → s.Passes strict s'') :
    InStep strict room before (p >>= f) (q >>= g) same after := by
  intro s t hst hs ht
  have hagree := hp s t hst hs ht
  rw [show (p >>= f) s = EStateM.bind p f s from rfl, show (q >>= g) t = EStateM.bind q g t from rfl]
  unfold EStateM.bind
  generalize p s = result, q t = result' at hagree ⊢
  cases hagree with
  | ok hsame hafter hs' ht' =>
    have hagree := hf _ _ hsame _ _ hafter ((hroom _ _ hs').1 hs) ((hroom _ _ ht').2 ht)
    dsimp only
    generalize f _ _ = result, g _ _ = result' at hagree ⊢
    cases hagree with
    | ok hsame' hafter' hs'' ht'' => exact .ok hsame' hafter' (hpasses _ _ _ hs' hs'') (hpasses _ _ _ ht' ht'')
    | error hcause hstalled => exact .error hcause hstalled
  | error hcause hstalled => exact .error hcause hstalled

/-- The second parser is told where the first one has left the sources. -/
theorem bind (hp : InStep false room before p q R A)
    (hf : ∀ a a', R a a' → InStep strict room (A a) (f a) (g a') same after) :
    InStep strict room before (p >>= f) (q >>= g) same after :=
  bind_of hp hf
    (fun _ _ hs => ⟨fun hlt => Nat.lt_of_le_of_lt hs.length_le hlt, fun hlt => Nat.lt_of_le_of_lt hs.length_le hlt⟩)
    fun _ _ _ => .trans

/-- After a parser that consumes something there is less room. -/
theorem step (hp : InStep true room before p q R A)
    (hf : ∀ a a', R a a' → InStep false room.less (A a) (f a) (g a') same after) :
    InStep strict room before (p >>= f) (q >>= g) same after :=
  bind_of hp hf
    (fun _ _ hs => ⟨fun hlt => Nat.lt_sub_of_add_lt (Nat.lt_of_le_of_lt hs.length_lt hlt),
      fun hlt => Nat.lt_sub_of_add_lt (Nat.lt_of_le_of_lt hs.length_lt hlt)⟩)
    fun _ _ _ => .strict_trans

theorem map {h : α → β} {h' : α' → β'} (hp : InStep strict room before p q (fun a a' => same (h a) (h' a'))
      fun a => after (h a)) : InStep strict room before (h <$> p) (h' <$> q) same after := by
  intro s t hst hs ht
  have hagree := hp s t hst hs ht
  rw [show (h <$> p) s = EStateM.map h p s from rfl, show (h' <$> q) t = EStateM.map h' q t from rfl]
  unfold EStateM.map
  generalize p s = result, q t = result' at hagree ⊢
  cases hagree with
  | ok hsame hafter hs' ht' => exact .ok hsame hafter hs' ht'
  | error hcause hstalled => exact .error hcause hstalled

theorem ite {c c' : Prop} [Decidable c] [Decidable c'] (hc : c ↔ c')
    (hp : c → InStep strict room before p q R A) (hp' : ¬c → InStep strict room before p' q' R A) :
    InStep strict room before (if c then p else p') (if c' then q else q') R A := by
  by_cases h : c
  · rw [if_pos h, if_pos (hc.1 h)]
    exact hp h
  · rw [if_neg h, if_neg fun h' => h (hc.2 h')]
    exact hp' h

theorem failAt {pos pos' : Pos} {cause : SyntaxCause} (h : cause ≠ .stalled) :
    InStep strict room before (Parser.failAt pos cause : Parser α) (Parser.failAt pos' cause : Parser α') R A :=
  fun _ _ _ _ _ => .error rfl h

theorem failAt_bind {pos pos' : Pos} {cause : SyntaxCause} (h : cause ≠ .stalled) :
    InStep strict room before (Parser.failAt pos cause >>= f) (Parser.failAt pos' cause >>= g) same after :=
  fun _ _ _ _ _ => .error rfl h

theorem fail {cause : SyntaxCause} (h : cause ≠ .stalled) :
    InStep strict room before (Parser.fail cause : Parser α) (Parser.fail cause : Parser α') R A :=
  fun _ _ _ _ _ => .error rfl h

theorem fail_bind {cause : SyntaxCause} (h : cause ≠ .stalled) :
    InStep strict room before (Parser.fail cause >>= f) (Parser.fail cause >>= g) same after :=
  fun _ _ _ _ _ => .error rfl h

/-- A parser that looks at the source is told what is ahead. -/
theorem get_bind {f : Scanner → Parser β} {g : Scanner → Parser β'}
    (h : ∀ s t : Scanner, before s.rest t.rest →
      InStep strict room (fun left right => left = s.rest ∧ right = t.rest) (f s) (g t) same after) :
    InStep strict room before (MonadState.get >>= f) (MonadState.get >>= g) same after :=
  fun s t hst hs ht => h s t hst s t ⟨rfl, rfl⟩ hs ht

/-- Repetitions are in step if what is repeated is where each may go on behind the place at which it was. -/
theorem fixWith {body : (β → Parser α) → β → Parser α} {body' : (β' → Parser α') → β' → Parser α'}
    (state : β → β' → Prop)
    (h : ∀ room' ≤ room, ∀ (more : β → Parser α) (more' : β' → Parser α'),
      (∀ b b', state b b' → InStep strict room'.less before (more b) (more' b') R A) →
      ∀ b b', state b b' → InStep strict room' before (body more b) (body' more' b') R A)
    {b : β} {b' : β'} (hb : state b b') :
    InStep strict room before (Parser.fixWith body b) (Parser.fixWith body' b') R A := by
  intro s t hst hs ht
  induction hn : s.rest.length using Nat.strongRecOn generalizing s t b b' with
  | ind n ih =>
    subst hn
    unfold Parser.fixWith
    rw [Reader.fixWith_eq, Reader.fixWith_eq]
    refine h (s.rest.length + 1, t.rest.length + 1) ⟨hs, ht⟩ _ _ ?_ b b' hb s t hst (Nat.lt_succ_self _)
      (Nat.lt_succ_self _)
    -- the references are followed since something was consumed
    intro c c' hc s' t' hst' (hs' : s'.rest.length < s.rest.length) (ht' : t'.rest.length < t.rest.length)
    dsimp only
    rw [if_pos hs', if_pos ht']
    exact ih _ hs' hc s' t' hst' (Nat.lt_trans hs' hs) (Nat.lt_trans ht' ht) rfl

theorem fix {body : Parser α → Parser α} {body' : Parser α' → Parser α'}
    (h : ∀ room' ≤ room, ∀ (more : Parser α) (more' : Parser α'), InStep strict room'.less before more more' R A →
      InStep strict room' before (body more) (body' more') R A) :
    InStep strict room before (Parser.fix body) (Parser.fix body') R A :=
  fixWith (fun _ _ => True)
    (fun room' hroom more more' hmore _ _ _ => h room' hroom (more ()) (more' ()) (hmore () () trivial)) trivial

/-- The same where both parsers give the same. -/
theorem bindSame {f : α → Parser β} {g : α → Parser β'} {q : Parser α} (hp : InStep false room before p q Eq A)
    (hf : ∀ a, InStep strict room (A a) (f a) (g a) same after) :
    InStep strict room before (p >>= f) (q >>= g) same after :=
  hp.bind fun a _ ha => ha ▸ hf a

theorem stepSame {f : α → Parser β} {g : α → Parser β'} {q : Parser α} (hp : InStep true room before p q Eq A)
    (hf : ∀ a, InStep false room.less (A a) (f a) (g a) same after) :
    InStep strict room before (p >>= f) (q >>= g) same after :=
  hp.step fun a _ ha => ha ▸ hf a

theorem split (P : Ahead) (h : InStep strict room (fun left right => before left right ∧ P left right) p q R A)
    (h' : InStep strict room (fun left right => before left right ∧ ¬P left right) p q R A) :
    InStep strict room before p q R A := by
  intro s t hst
  by_cases hP : P s.rest t.rest
  · exact h s t ⟨hst, hP⟩
  · exact h' s t ⟨hst, hP⟩

theorem exists_before {ι : Type} {before : ι → Ahead} (h : ∀ i, InStep strict room (before i) p q R A) :
    InStep strict room (fun left right => ∃ i, before i left right) p q R A :=
  fun s t ⟨i, hst⟩ => h i s t hst

theorem discard (hp : InStep strict room before p q R fun _ => before') :
    InStep strict room before (Functor.discard p) (Functor.discard q) (fun _ _ => True) fun _ => before' :=
  map (hp.mono (fun _ _ _ => trivial) fun _ _ _ => id)

end InStep

end Parser

end GraphQL
