import GraphQL.Proofs.Schema.Normal
import GraphQL.Proofs.Value.Literal

/-!
# Coerced literals are legible

What a literal is coerced to can be written as a literal again, if the defaults of input fields can
(`Schema.Valid.legible_coerceIn`): the symbols of enums are names other than the words for literals, since the schema is
valid, and the keys of input objects are the names of fields.
-/

namespace GraphQL

namespace Value

theorem Legible.items {items : List Value} (h : (Value.list items).Legible) : ∀ v ∈ items, v.Legible := by
  cases h with
  | atom h => cases h
  | list h => exact h

theorem Legible.entries {entries : List (String × Value)} (h : (Value.object entries).Legible) :
    ∀ entry ∈ entries, entry.2.Legible := by
  cases h with
  | atom h => cases h
  | object _ h => exact h

end Value

/-- A scalar coerces legible values to such. -/
theorem ScalarKind.legible_coerceIn {kind : ScalarKind} {u v : Value} (hu : u.Legible) (h : kind.coerceIn u = .ok v) :
    v.Legible := by
  rcases coerceIn_cases h with rfl | ⟨_, rfl⟩ | ⟨_, rfl⟩ | ⟨_, rfl⟩ | ⟨_, rfl⟩
  · exact hu
  all_goals exact .atom rfl

namespace Schema

/-- A name without faults starts with no digit. -/
theorem isBareName_of_nameFaults {name : String} {builtin : Bool} {pos : Pos}
    (h : nameFaults name builtin pos = []) : isBareName name = true := by
  have hfault : nameFault? name builtin = none := by
    unfold nameFaults at h
    split at h
    · cases h
    · next hfault => exact hfault
  unfold nameFault? at hfault
  unfold isBareName
  dsimp only
  generalize name.toUTF8.toList = bytes at hfault ⊢
  cases bytes with
  | nil => cases hfault
  | cons b bytes =>
    by_cases hb : (Byte.isDigit b || !(b :: bytes).all Byte.isName) = true
    · simp only [hb, ↓reduceIte, reduceCtorEq] at hfault
    · simpa [and_comm, and_assoc] using hb

theorem isName_of_nameFaults {name : String} {builtin : Bool} {pos : Pos} (h : nameFaults name builtin pos = []) :
    IsName name :=
  (isBareName_cons (isBareName_of_nameFaults h)).1

variable {schema : Schema}

/-- The symbols of an enum can be written. -/
theorem Valid.isSymbol (h : schema.Valid) {decl : TypeDecl} (hdecl : decl ∈ schema.types) {values : List EnumValue}
    (hvalues : decl.body = .enum values) {value : EnumValue} (hvalue : value ∈ values) : IsSymbol value.name := by
  have hbody := (typeFaults_eq_nil_iff.1 (h.typeFaults hdecl)).2.2
  unfold bodyFaults at hbody
  rw [hvalues] at hbody
  have hname := (List.append_eq_nil_iff.1 (List.flatMap_eq_nil_iff.1 (List.append_eq_nil_iff.1 hbody).2 value hvalue)).1
  split at hname
  · cases hname
  · next hword =>
    simp only [List.contains_eq_mem, List.mem_cons, List.not_mem_nil, or_false, decide_eq_true_eq, not_or] at hword
    exact ⟨isBareName_of_nameFaults hname, hword.2.2, hword.1, hword.2.1⟩

/-- Being legible is a property that is decided by parts. -/
private theorem legible_compositional (h : schema.Valid) :
    Coercion.Compositional schema Value.Legible fun _ v => v.Legible where
  items := Value.Legible.items
  entries := Value.Legible.entries
  null := fun _ => .atom rfl
  nonNull := fun _ => Iff.rfl
  list := ⟨Value.Legible.items, .list⟩
  scalar := fun _ _ _ hsource _ _ hcoerced => ScalarKind.legible_coerceIn hsource hcoerced
  enum := by
    intro _ _ _ values symbol _ hdecl hvalues hsymbol
    obtain ⟨value, hvalue, hname⟩ := List.mem_map.1 (Members.contains_iff.1 hsymbol)
    have hname : value.name = symbol := hname
    exact .enum (hname ▸ h.isSymbol (Members.mem_of_get? hdecl) hvalues hvalue)
  input := by
    intro _ _ _ fields entries _ _ _ hdistinct hkeys _
    constructor
    · exact fun hobject field _ v hv => hobject.entries _ hv
    · intro hvalues
      refine .object (hkeys.nodup hdistinct) fun entry hentry => ?_
      obtain ⟨field, hfield, hname⟩ := List.mem_map.1 (hkeys.subset (List.mem_map_of_mem hentry))
      exact hvalues field hfield entry.2 (show (HasName.name field, entry.2) ∈ entries from hname ▸ hentry)

/-- A legible literal without variables is coerced to such a value, if the defaults that may be filled in are legible. -/
theorem Valid.legible_coerceIn (h : schema.Valid) {type : TypeRef} {v w : Value} (hv : v.Legible)
    (hconstant : v.mentionsVar = false) (hdefaults : ∀ place, Coercion.IsDefault schema place → place.2.Legible)
    (hw : schema.coercion.coerceIn type v = .ok w) : w.Legible := by
  rw [Coercion.good_iff_unchecked (legible_compositional h) h.distinct type v hv hw]
  exact fun place hplace => hdefaults place (Coercion.isDefault_of_unchecked type v hconstant hplace)

end Schema

end GraphQL
