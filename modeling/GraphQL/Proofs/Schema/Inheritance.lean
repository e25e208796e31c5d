import GraphQL.Proofs.Schema.Interfaces

/-!
# Interfaces that implement themselves

The search for what a type implements finds all that its lists of interfaces lead to, in any number of steps
(`Schema.implements_of_transGen`). In the schemas that are made from what is read, no type lists itself. But two
interfaces may list each other, which makes both implement themselves; nothing else does
(`Schema.Reachable.implements_self_iff`).
-/

namespace GraphQL

namespace Schema

variable {schema : Schema} {types : List TypeDecl} {name interface : String}

/-! ### The search is complete -/

/-- A path that starts anywhere either stays outside of a type, or ends with what the type leads to without coming back
to it. -/
private theorem transGen_erase {decl : TypeDecl} (hdecl : Members.get? name types = some decl) {start : String}
    (h : Relation.TransGen (Lists types) start interface) :
    Relation.TransGen (Lists (Members.erase name types)) start interface ∨
      interface ∈ decl.interfaces.map TypeRef.baseName ∨
        ∃ next ∈ decl.interfaces.map TypeRef.baseName,
          Relation.TransGen (Lists (Members.erase name types)) next interface := by
  have hkept {first second : String} (hne : first ≠ name) (hlists : Lists types first second) :
      Lists (Members.erase name types) first second := by
    obtain ⟨found, hfound, hlisted⟩ := hlists
    exact ⟨found, by rw [Members.get?_erase, if_neg hne, hfound], hlisted⟩
  have hown {second : String} (hlists : Lists types name second) : second ∈ decl.interfaces.map TypeRef.baseName := by
    obtain ⟨found, hfound, hlisted⟩ := hlists
    cases hdecl.symm.trans hfound
    exact hlisted
  -- by induction from the end of the path: what is said of its last visit to the type stays so when it gets longer
  induction h using Relation.TransGen.head_induction_on with
  | @single start hlists =>
    rcases Classical.em (start = name) with rfl | hne
    · exact .inr (.inl (hown hlists))
    · exact .inl (.single (hkept hne hlists))
  | @head start next hlists _ ih =>
    rcases ih with hpath | hlast
    · rcases Classical.em (start = name) with rfl | hne
      · exact .inr (.inr ⟨next, hown hlists, hpath⟩)
      · exact .inl (.head (hkept hne hlists) hpath)
    · exact .inr hlast

/-- The search finds what a path from one of the pending types leads to: what it has visited no longer matters, as all
that this listed is pending too. -/
theorem reaches_of_transGen {unvisited : List TypeDecl} {pending : List String} :
    (∃ start ∈ pending, Relation.TransGen (Lists unvisited) start interface) →
      reaches interface unvisited pending = true := by
  induction unvisited, pending using reaches.induct with
  | case1 unvisited => simp
  | case2 unvisited name pending hfound ih =>
    rintro ⟨start, hstart, hpath⟩
    rw [reaches_cons_of_none hfound]
    rcases List.mem_cons.1 hstart with rfl | hstart
    · -- nothing leads away from a name that no unvisited type has
      obtain ⟨_, ⟨decl, hdecl, -⟩, -⟩ := Relation.TransGen.head'_iff.1 hpath
      cases hfound.symm.trans hdecl
    · exact ih ⟨start, hstart, hpath⟩
  | case3 unvisited name pending decl hfound names ih =>
    rintro ⟨start, hstart, hpath⟩
    rw [reaches_cons_of_some hfound, Bool.or_eq_true]
    rcases transGen_erase hfound hpath with hpath | hlast | ⟨next, hnext, hpath⟩
    · rcases List.mem_cons.1 hstart with rfl | hstart
      · obtain ⟨_, ⟨found, herased, -⟩, -⟩ := Relation.TransGen.head'_iff.1 hpath
        simp [Members.get?_erase] at herased
      · exact .inr (ih ⟨start, List.mem_append_right _ hstart, hpath⟩)
    · exact .inl (List.contains_iff_mem.2 hlast)
    · exact .inr (ih ⟨next, List.mem_append_left _ hnext, hpath⟩)

/-- A type implements what its lists of interfaces lead to. -/
theorem implements_of_transGen (h : Relation.TransGen (Lists schema.types) name interface) :
    schema.implements name interface = true := reaches_of_transGen ⟨name, List.mem_cons_self, h⟩

/-! ### Types that implement themselves -/

/-- What a type of a valid schema lists and has a list itself, is an interface. -/
private theorem interface_of_lists (hvalid : schema.Valid) {other : String} (h : Lists schema.types name interface)
    (hother : Lists schema.types interface other) :
    ∃ decl body, schema.type? interface = some decl ∧ decl.body = .interface body := by
  obtain ⟨-, type, -, hlisted⟩ := conforms_of_lists hvalid h
  obtain ⟨decl, hdecl, -⟩ := hother
  obtain ⟨expected, hbody, -⟩ := hlisted decl hdecl
  exact ⟨decl, expected, hdecl, hbody⟩

/-- A way back to a type of a valid schema has a second type on it, and the two list each other. -/
private theorem mutual_of_transGen (hvalid : schema.Valid) (h : Relation.TransGen (Lists schema.types) name name) :
    ∃ other, other ≠ name ∧ Lists schema.types name other ∧ Lists schema.types other name := by
  obtain ⟨other, hlists, hback⟩ := Relation.TransGen.head'_iff.1 h
  have hne : other ≠ name := (conforms_of_lists hvalid hlists).1
  have hback : Relation.TransGen (Lists schema.types) other name :=
    (Relation.reflTransGen_iff_eq_or_transGen.1 hback).resolve_left (Ne.symm hne)
  exact ⟨other, hne, hlists, lists_of_transGen hvalid hback (Ne.symm hne)⟩

/-- No type of a reachable schema lists itself. A type implements itself exactly if it and another type list each other,
so that only interfaces do. On a longer way back to a type, all types list one another. -/
theorem Reachable.implements_self_iff (h : schema.Reachable) (name : String) :
    ¬ Lists schema.types name name ∧
      (schema.implements name name = true ↔
        ∃ other, other ≠ name ∧ Lists schema.types name other ∧ Lists schema.types other name) ∧
      (schema.implements name name = true →
        ∃ decl body, schema.type? name = some decl ∧ decl.body = .interface body) ∧
      ∀ other, other ≠ name → schema.implements name other = true → schema.implements other name = true →
        Lists schema.types name other ∧ Lists schema.types other name := by
  have hvalid := h.valid
  have hiff : schema.implements name name = true ↔
      ∃ other, other ≠ name ∧ Lists schema.types name other ∧ Lists schema.types other name := by
    refine ⟨fun hself => mutual_of_transGen hvalid (transGen_of_implements hself), ?_⟩
    rintro ⟨other, -, hlists, hback⟩
    exact implements_of_transGen (.head hlists (.single hback))
  refine ⟨fun hself => (conforms_of_lists hvalid hself).1 rfl, hiff, fun hself => ?_, fun other hne hthere hback => ?_⟩
  · obtain ⟨other, -, hlists, hback⟩ := hiff.1 hself
    exact interface_of_lists hvalid hback hlists
  · exact ⟨lists_of_transGen hvalid (transGen_of_implements hthere) hne,
      lists_of_transGen hvalid (transGen_of_implements hback) (Ne.symm hne)⟩

/-- What is read from `interface A implements B{f:A}`. -/
private def left : TypeDecl where
  name := "A"
  pos := ⟨1, 1⟩
  body := .interface {
    interfaces := [.unresolved "B" ⟨1, 24⟩]
    fields := [{ name := "f", type := .unresolved "A" ⟨1, 28⟩, pos := ⟨1, 26⟩ }] }

/-- What is read from `interface B implements A{f:A}`. -/
private def right : TypeDecl where
  name := "B"
  pos := ⟨1, 1⟩
  body := .interface {
    interfaces := [.unresolved "A" ⟨1, 24⟩]
    fields := [{ name := "f", type := .unresolved "A" ⟨1, 28⟩, pos := ⟨1, 26⟩ }] }

private theorem left_read : Schema.read? {} "interface A implements B{f:A}".toUTF8.toList = .ok [.type left] := by
  have hbytes : "interface A implements B{f:A}".toUTF8.toList =
      [105, 110, 116, 101, 114, 102, 97, 99, 101, 32, 65, 32, 105, 109, 112, 108, 101, 109, 101, 110, 116, 115, 32, 66,
        123, 102, 58, 65, 125] := by
    decide +kernel
  rw [hbytes]
  cbv

private theorem right_read : Schema.read? {} "interface B implements A{f:A}".toUTF8.toList = .ok [.type right] := by
  have hbytes : "interface B implements A{f:A}".toUTF8.toList =
      [105, 110, 116, 101, 114, 102, 97, 99, 101, 32, 66, 32, 105, 109, 112, 108, 101, 109, 101, 110, 116, 115, 32, 65,
        123, 102, 58, 65, 125] := by
    decide +kernel
  rw [hbytes]
  cbv

private def mirrored : Schema where
  types := [left.resolved, right.resolved]

private theorem mirrored_reachable : mirrored.Reachable := by
  have hdeclare : Schema.declare? {} [.type left, .type right] = .ok mirrored := by cbv
  refine .declare .empty (fun d hd => .inr ?_) hdeclare
  rcases List.mem_cons.1 hd with rfl | hd
  · exact ⟨_, _, _, _, left_read, List.mem_cons_self, .inl rfl⟩
  · rw [List.mem_singleton.1 hd]
    exact ⟨_, _, _, _, right_read, List.mem_cons_self, .inl rfl⟩

/-- Two interfaces that list each other are accepted, and implement themselves. -/
theorem mirrored_implement_themselves :
    mirrored.Reachable ∧ mirrored.implements "A" "A" = true ∧ mirrored.implements "B" "B" = true := by
  have hleft : Lists mirrored.types "A" "B" := ⟨left.resolved, by cbv, by decide⟩
  have hright : Lists mirrored.types "B" "A" := ⟨right.resolved, by cbv, by decide⟩
  exact ⟨mirrored_reachable, (mirrored_reachable.implements_self_iff "A").2.1.2 ⟨"B", by decide, hleft, hright⟩,
    (mirrored_reachable.implements_self_iff "B").2.1.2 ⟨"A", by decide, hright, hleft⟩⟩

end Schema

end GraphQL
