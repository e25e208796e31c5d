import GraphQL.Execution.Field

/-!
# What executions ensure

`Ensures inv m post` says of an execution that it keeps the invariant `inv` of the run and that its result has the
property `post`. There is one rule for each way in which executions are built.
-/

namespace GraphQL

variable {ε α β γ : Type}

/-- From every run with the invariant the execution gets to one with the invariant, and its result satisfies `post`. -/
def Ensures (inv : Run ε α → Prop) (m : Execution ε α β) (post : β → Prop) : Prop :=
  ∀ run, inv run → post (m.run run).1 ∧ inv (m.run run).2

namespace Ensures

variable {inv : Run ε α → Prop} {m : Execution ε α β} {f : β → Execution ε α γ} {post post' : β → Prop}
  {post₂ : γ → Prop}

theorem pure {b : β} (h : post b) : Ensures inv (Pure.pure b : Execution ε α β) post := fun _ hrun => ⟨h, hrun⟩

theorem bind (hm : Ensures inv m post) (hf : ∀ b, post b → Ensures inv (f b) post₂) :
    Ensures inv (m >>= f) post₂ := by
  intro run hrun
  obtain ⟨hpost, hinv⟩ := hm run hrun
  exact hf _ hpost _ hinv

theorem mono (hm : Ensures inv m post) (h : ∀ b, post b → post' b) : Ensures inv m post' :=
  fun run hrun => ⟨h _ (hm run hrun).1, (hm run hrun).2⟩

theorem and (hm : Ensures inv m post) (hm' : Ensures inv m post') : Ensures inv m fun b => post b ∧ post' b :=
  fun run hrun => ⟨⟨(hm run hrun).1, (hm' run hrun).1⟩, (hm run hrun).2⟩

/-- Nothing need be known of the result. -/
theorem trivially (hm : Ensures inv m post) : Ensures inv m fun _ => True := hm.mono fun _ _ => trivial

theorem get : Ensures inv (MonadState.get : Execution ε α (Run ε α)) inv := fun _ hrun => ⟨hrun, hrun⟩

theorem set {run : Run ε α} (h : inv run) : Ensures inv (MonadStateOf.set run : Execution ε α Unit) fun _ => True :=
  fun _ _ => ⟨trivial, h⟩

theorem update {f : Run ε α → Run ε α} (h : ∀ run, inv run → inv (f run)) :
    Ensures inv (modify f : Execution ε α Unit) fun _ => True :=
  fun run hrun => ⟨trivial, h run hrun⟩

end Ensures

end GraphQL
