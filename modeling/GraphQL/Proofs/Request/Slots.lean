import GraphQL.Proofs.Request.Fragments
import GraphQL.Proofs.Request.Sources

/-!
# Slots for fragments

A fragment may be spread before it is defined. A spread asks for the slot of its fragment, by name, and gets one without
a fragment if there is none; a definition fills the slot of its name, which it asks for when all of it has been read.
`Definition.linkAll` does so for all definitions of a request. A name keeps its slot (`FragmentSlot.names_linkAll`), and
what is in the slots in the end are the fragments of the request that is read, in order (`Document.read?_linked`).
-/

namespace GraphQL

/-- A place for a fragment. -/
structure FragmentSlot where
  name : String
  /-- None as long as the fragment is only spread. -/
  fragment? : Option Fragment := none

instance : HasName FragmentSlot := ⟨FragmentSlot.name⟩

namespace FragmentSlot

/-! ### Asking for slots -/

/-- The index of the slot of the name, and the slots with one for it. -/
def ask (name : String) (slots : List FragmentSlot) : Nat × List FragmentSlot :=
  (slots.findIdx (HasName.name · == name),
    if Members.contains name slots then slots else slots ++ [FragmentSlot.mk name none])

/-- The index that each of the spreads gets for its fragment. -/
def link : List (String × Pos) → List FragmentSlot → List ((String × Pos) × Nat) × List FragmentSlot
  | [], slots => ([], slots)
  | mention :: rest, slots =>
    let (i, slots) := ask mention.1 slots
    let (links, slots) := link rest slots
    ((mention, i) :: links, slots)

/-- Puts the fragment into the slot of its name. -/
def define (fragment : Fragment) (slots : List FragmentSlot) : List FragmentSlot :=
  let (i, slots) := ask fragment.name slots
  slots.modify i fun slot => { slot with fragment? := some fragment }

end FragmentSlot

namespace Definition

/-- The fragments that are spread in a definition at any depth. -/
def spreads : Definition → List (String × Pos)
  | operation op => Selection.spreadsOf op.selections
  | fragment frag => Selection.spreadsOf frag.selections

/-- Links the spreads of a definition, and then fills a slot if it is a fragment. -/
def link (definition : Definition) (slots : List FragmentSlot) : List ((String × Pos) × Nat) × List FragmentSlot :=
  let (links, slots) := FragmentSlot.link definition.spreads slots
  match definition with
  | operation _ => (links, slots)
  | fragment frag => (links, FragmentSlot.define frag slots)

/-- Links the spreads of definitions, one after the other. -/
def linkAll : List Definition → List FragmentSlot → List ((String × Pos) × Nat) × List FragmentSlot
  | [], slots => ([], slots)
  | definition :: rest, slots =>
    let (links, slots) := definition.link slots
    let (more, slots) := linkAll rest slots
    (links ++ more, slots)

end Definition

namespace FragmentSlot

variable {slots : List FragmentSlot} {mentioned : List String} {defined : List Fragment} {name : String}

/-! ### What slots hold -/

private theorem eraseDups_concat (names : List String) (name : String) :
    (names ++ [name]).eraseDups = if name ∈ names then names.eraseDups else names.eraseDups ++ [name] := by
  rw [List.eraseDups_append, List.removeAll]
  by_cases hname : name ∈ names <;> simp [hname, List.eraseDups_cons]

private theorem nodup_eraseDups (names : List String) : names.eraseDups.Nodup := by
  induction names using List.reverseRecOn with
  | nil => exact List.nodup_nil
  | append_singleton names name ih =>
    rw [eraseDups_concat]
    split
    · exact ih
    · next hname =>
      refine List.nodup_append.2 ⟨ih, List.nodup_singleton name, fun other hother _ hsame heq => hname ?_⟩
      rw [← List.mem_singleton.1 hsame, ← heq]
      exact List.mem_eraseDups.1 hother

/-- What the slots hold after some names were mentioned and some fragments defined: there is one slot for each name, in
the order in which the names first came, and it holds the fragment of the name that was defined, if any. -/
structure Tracks (slots : List FragmentSlot) (mentioned : List String) (defined : List Fragment) : Prop where
  names : Members.names slots = mentioned.eraseDups
  filled : ∀ slot ∈ slots, slot.fragment? = Members.get? slot.name defined
  listed : ∀ fragment ∈ defined, fragment.name ∈ mentioned

theorem Tracks.nil : Tracks [] [] [] := ⟨rfl, nofun, nofun⟩

theorem Tracks.distinct (h : Tracks slots mentioned defined) : Members.Distinct slots := by
  unfold Members.Distinct
  rw [h.names]
  exact nodup_eraseDups mentioned

private theorem Tracks.contains_iff (h : Tracks slots mentioned defined) :
    Members.contains name slots = true ↔ name ∈ mentioned := by
  rw [Members.contains_iff, h.names, List.mem_eraseDups]

theorem Tracks.ask (h : Tracks slots mentioned defined) (name : String) :
    Tracks (ask name slots).2 (mentioned ++ [name]) defined := by
  have hlisted (fragment : Fragment) (hfragment : fragment ∈ defined) : fragment.name ∈ mentioned ++ [name] :=
    List.mem_append_left _ (h.listed fragment hfragment)
  unfold FragmentSlot.ask
  dsimp only
  split
  · next hcontains =>
    refine ⟨?_, h.filled, hlisted⟩
    rw [eraseDups_concat, if_pos (h.contains_iff.1 hcontains), h.names]
  · next hcontains =>
    have hnew : name ∉ mentioned := fun hname => hcontains (h.contains_iff.2 hname)
    refine ⟨?_, List.forall_mem_append.2 ⟨h.filled, List.forall_mem_singleton.2 ?_⟩, hlisted⟩
    · rw [eraseDups_concat, if_neg hnew, ← h.names]
      exact List.map_append
    · refine (Option.eq_none_iff_forall_ne_some.2 fun fragment hfragment => hnew ?_).symm
      have hname : fragment.name = name := Members.name_of_get? hfragment
      exact hname ▸ h.listed fragment (Members.mem_of_get? hfragment)

/-- The index that is told is that of the name. -/
theorem names_ask (name : String) (slots : List FragmentSlot) :
    (Members.names (ask name slots).2)[(ask name slots).1]? = some name := by
  unfold ask Members.names
  dsimp only
  split
  · next hcontains =>
    have hlt : slots.findIdx (HasName.name · == name) < slots.length := by
      rw [List.findIdx_lt_length]
      simpa [Members.contains] using hcontains
    have hfound := List.findIdx_getElem (w := hlt)
    rw [List.getElem?_map, List.getElem?_eq_getElem hlt, Option.map_some]
    exact congrArg some (eq_of_beq hfound)
  · next hcontains =>
    have hnone : slots.findIdx (HasName.name · == name) = slots.length := by
      rw [List.findIdx_eq_length]
      simpa [Members.contains] using hcontains
    rw [hnone, List.map_append, List.getElem?_append_right (by simp)]
    simp [HasName.name]

private theorem names_modify (slots : List FragmentSlot) (i : Nat) (fragment : Fragment) :
    Members.names (slots.modify i fun slot => { slot with fragment? := some fragment }) = Members.names slots := by
  refine List.ext_getElem? fun j => ?_
  unfold Members.names
  rw [List.getElem?_map, List.getElem?_map, List.getElem?_modify]
  cases slots[j]? with
  | none => rfl
  | some slot =>
    rw [Option.map_eq_map, Option.map_some, Option.map_some]
    split <;> rfl

/-- The slot of a fragment that is defined for the first time is filled with it. -/
theorem Tracks.define (h : Tracks slots mentioned defined) {fragment : Fragment}
    (hnew : Members.contains fragment.name defined = false) :
    Tracks (define fragment slots) (mentioned ++ [fragment.name]) (defined ++ [fragment]) := by
  have hask := h.ask fragment.name
  have hindex := names_ask fragment.name slots
  unfold FragmentSlot.define
  generalize FragmentSlot.ask fragment.name slots = asked at hask hindex
  obtain ⟨i, slots⟩ := asked
  dsimp only at hask hindex ⊢
  have hget (name : String) : Members.get? name (defined ++ [fragment]) =
      (Members.get? name defined).or (Members.get? name [fragment]) := List.find?_append
  refine ⟨(names_modify slots i fragment).trans hask.names, fun slot hslot => ?_,
    List.forall_mem_append.2 ⟨hask.listed, List.forall_mem_singleton.2 (by simp)⟩⟩
  obtain ⟨j, hj⟩ := List.mem_iff_getElem?.1 hslot
  rw [List.getElem?_modify] at hj
  obtain ⟨before, hbefore, rfl⟩ := Option.map_eq_some_iff.1 hj
  have hname : (Members.names slots)[j]? = some before.name := by
    rw [Members.names, List.getElem?_map, hbefore]
    rfl
  split
  · next heq =>
    subst heq
    obtain heq : before.name = fragment.name := Option.some.inj (hname.symm.trans hindex)
    have hnone : Members.get? fragment.name defined = none := by
      rw [← Option.isNone_iff_eq_none, ← Option.not_isSome, Members.get?_isSome, hnew]
      rfl
    rw [hget, heq, hnone]
    simp [Members.get?, HasName.name]
  · next hne =>
    have hother : fragment.name ≠ before.name := fun heq => hne <| by
      have hlt := (List.getElem?_eq_some_iff.1 hindex).1
      exact (List.getElem?_inj hlt hask.distinct).1 (hindex.trans (heq ▸ hname.symm))
    rw [hget, hask.filled before (List.mem_of_getElem? hbefore)]
    simp [Members.get?, HasName.name, hother]

/-! ### Definitions -/

theorem Tracks.link (h : Tracks slots mentioned defined) (mentions : List (String × Pos)) :
    Tracks (link mentions slots).2 (mentioned ++ mentions.map Prod.fst) defined := by
  induction mentions generalizing slots mentioned with
  | nil =>
    rw [List.map_nil, List.append_nil]
    exact h
  | cons mention rest ih =>
    have hrest := ih (h.ask mention.1)
    rw [List.append_assoc] at hrest
    exact hrest

/-- The names of slots stay where they are. -/
theorem prefix_names_ask (name : String) (slots : List FragmentSlot) :
    Members.names slots <+: Members.names (ask name slots).2 := by
  unfold ask
  dsimp only
  split
  · exact List.prefix_refl _
  · rw [Members.names, Members.names, List.map_append]
    exact List.prefix_append _ _

theorem prefix_names_link (mentions : List (String × Pos)) (slots : List FragmentSlot) :
    Members.names slots <+: Members.names (link mentions slots).2 := by
  induction mentions generalizing slots with
  | nil => exact List.prefix_refl _
  | cons mention rest ih => exact (prefix_names_ask mention.1 slots).trans (ih _)

theorem prefix_names_define (fragment : Fragment) (slots : List FragmentSlot) :
    Members.names slots <+: Members.names (define fragment slots) := by
  unfold define
  dsimp only
  rw [names_modify]
  exact prefix_names_ask fragment.name slots

private theorem getElem?_longer {names more : List String} {i : Nat} (h : names <+: more)
    (hname : names[i]? = some name) : more[i]? = some name := by
  obtain ⟨behind, rfl⟩ := h
  rw [List.getElem?_append_left (List.getElem?_eq_some_iff.1 hname).1, hname]

/-- The indices that spreads get are those of their names, and stay so. -/
theorem names_link (mentions : List (String × Pos)) (slots : List FragmentSlot) :
    let linked := link mentions slots
    linked.1.map Prod.fst = mentions ∧
      ∀ spread ∈ linked.1, (Members.names linked.2)[spread.2]? = some spread.1.1 := by
  induction mentions generalizing slots with
  | nil => exact ⟨rfl, nofun⟩
  | cons mention rest ih =>
    obtain ⟨hmentions, hlinks⟩ := ih (ask mention.1 slots).2
    refine ⟨congrArg (mention :: ·) hmentions, List.forall_mem_cons.2 ⟨?_, hlinks⟩⟩
    exact getElem?_longer (prefix_names_link rest _) (names_ask mention.1 slots)

end FragmentSlot

namespace Definition

variable {slots : List FragmentSlot} {mentioned : List String} {defined : List Fragment} {definition : Definition}
  {definitions : List Definition}

theorem names_link (definition : Definition) (slots : List FragmentSlot) :
    let linked := definition.link slots
    Members.names slots <+: Members.names linked.2 ∧ linked.1.map Prod.fst = definition.spreads ∧
      ∀ spread ∈ linked.1, (Members.names linked.2)[spread.2]? = some spread.1.1 := by
  obtain ⟨hmentions, hlinks⟩ := FragmentSlot.names_link definition.spreads slots
  have hgrown := FragmentSlot.prefix_names_link definition.spreads slots
  unfold link
  cases definition with
  | operation op => exact ⟨hgrown, hmentions, hlinks⟩
  | fragment frag =>
    have hdefine := FragmentSlot.prefix_names_define frag (FragmentSlot.link (fragment frag).spreads slots).2
    exact ⟨hgrown.trans hdefine, hmentions, fun spread hspread =>
      FragmentSlot.getElem?_longer hdefine (hlinks spread hspread)⟩

/-- All spreads are linked, each to the index of its name among those of the slots in the end. -/
theorem names_linkAll (definitions : List Definition) (slots : List FragmentSlot) :
    let linked := linkAll definitions slots
    Members.names slots <+: Members.names linked.2 ∧ linked.1.map Prod.fst = definitions.flatMap spreads ∧
      ∀ spread ∈ linked.1, (Members.names linked.2)[spread.2]? = some spread.1.1 := by
  induction definitions generalizing slots with
  | nil => exact ⟨List.prefix_refl _, rfl, nofun⟩
  | cons definition rest ih =>
    obtain ⟨hgrown, hspreads, hlinks⟩ := definition.names_link slots
    obtain ⟨hgrown', hspreads', hlinks'⟩ := ih (definition.link slots).2
    refine ⟨hgrown.trans hgrown', ?_, List.forall_mem_append.2 ⟨fun spread hspread => ?_, hlinks'⟩⟩
    · rw [List.flatMap_cons, ← hspreads, ← hspreads']
      exact List.map_append
    · exact FragmentSlot.getElem?_longer hgrown' (hlinks spread hspread)

/-- If it is a fragment that is defined, none of its name is defined already. -/
def IsNew (definition : Definition) (defined : List Fragment) : Prop :=
  ∀ fragment, definition.fragment? = some fragment → Members.contains fragment.name defined = false

theorem isNew_of_none (h : definition.fragment? = none) : definition.IsNew defined :=
  fun _ hfragment => nomatch h.symm.trans hfragment

/-- A definition fills at most the slot of its own name. -/
theorem tracks_link (h : FragmentSlot.Tracks slots mentioned defined) (hnew : definition.IsNew defined) :
    FragmentSlot.Tracks (definition.link slots).2 (mentioned ++ definition.mentions.map Prod.fst)
      (defined ++ definition.fragment?.toList) := by
  have hlink := h.link definition.spreads
  unfold link
  cases definition with
  | operation op =>
    rw [show (operation op).fragment?.toList = [] from rfl, List.append_nil]
    exact hlink
  | fragment frag =>
    have hdefine := hlink.define (hnew frag rfl)
    rw [List.append_assoc] at hdefine
    rw [mentions, List.map_append]
    exact hdefine

/-- So it is with all definitions, if no two of them define a fragment of the same name. -/
theorem tracks_linkAll (definitions : List Definition) {slots : List FragmentSlot} {mentioned : List String}
    {defined : List Fragment} (h : FragmentSlot.Tracks slots mentioned defined)
    (hdistinct : Members.Distinct (defined ++ definitions.filterMap fragment?)) :
    FragmentSlot.Tracks (linkAll definitions slots).2 (mentioned ++ (definitions.flatMap mentions).map Prod.fst)
      (defined ++ definitions.filterMap fragment?) := by
  induction definitions generalizing slots mentioned defined with
  | nil =>
    rw [List.flatMap_nil, List.map_nil, List.filterMap_nil, List.append_nil, List.append_nil]
    exact h
  | cons definition rest ih =>
    have hsplit : (definition :: rest).filterMap fragment? =
        definition.fragment?.toList ++ rest.filterMap fragment? := by
      cases definition <;> rfl
    rw [hsplit] at hdistinct
    rw [hsplit, List.flatMap_cons, List.map_append, ← List.append_assoc, ← List.append_assoc]
    refine ih (tracks_link h fun fragment hfragment => ?_) (by rwa [List.append_assoc])
    rw [hfragment] at hdistinct
    exact hdistinct.new

end Definition

/-! ### What is read -/

namespace Parser

variable {schema : Schema} {read : List Definition} {definition : Definition} {s s' : Scanner}

private theorem readSelectionSet_operation {make : List Selection → Operation}
    (h : (do let selections ← readSelectionSet schema; return .operation (make selections) : Parser Definition) s =
      .ok definition s') : definition.fragment? = none := by
  obtain ⟨selections, s₁, -, h⟩ := exists_of_bind h
  cases h
  rfl

private theorem readFragment_new {pos : Pos} (h : readFragment schema read pos s = .ok definition s') :
    definition.IsNew (read.filterMap Definition.fragment?) := by
  have hfailed {α β : Type} {cause : SyntaxCause} {f : α → Parser β} {b : β} {s s' : Scanner}
      (h : (failAt pos cause >>= f) s = .ok b s') : False := by
    obtain ⟨_, _, hfail, -⟩ := exists_of_bind h
    cases hfail
  unfold readFragment at h
  obtain ⟨name, s₁, -, h⟩ := exists_of_bind h
  dsimp only at h
  split at h
  · exact (hfailed h).elim
  obtain ⟨on, s₂, -, h⟩ := exists_of_bind h
  split at h
  · obtain ⟨_, _, -, h⟩ := exists_of_bind h
    obtain ⟨_, _, hfail, -⟩ := exists_of_bind h
    cases hfail
  obtain ⟨_, s₃, -, h⟩ := exists_of_bind h
  obtain ⟨condition, s₄, -, h⟩ := exists_of_bind h
  obtain ⟨directives, s₅, -, h⟩ := exists_of_bind h
  obtain ⟨selections, s₆, -, h⟩ := exists_of_bind h
  split at h
  · exact (hfailed h).elim
  · next hnew =>
    cases h
    intro fragment hfragment
    cases hfragment
    exact Bool.eq_false_iff.2 hnew

/-- A definition that is read defines no fragment that is defined already. -/
theorem readDefinition_new {b : UInt8} (h : readDefinition schema read b s = .ok definition s') :
    definition.IsNew (read.filterMap Definition.fragment?) := by
  unfold readDefinition at h
  obtain ⟨pos, s₁, -, h⟩ := exists_of_bind h
  split at h
  · unfold readShortQuery at h
    obtain ⟨_, _, -, h⟩ := exists_of_bind h
    exact Definition.isNew_of_none (readSelectionSet_operation h)
  · obtain ⟨keyword, s₂, -, h⟩ := exists_of_bind h
    split at h
    · exact readFragment_new h
    · cases hkind : OperationKind.ofText? keyword with
      | some kind =>
        rw [hkind] at h
        replace h : readOperation schema read kind pos s₂ = .ok definition s' := h
        unfold readOperation at h
        obtain ⟨_, _, -, h⟩ := exists_of_bind h
        obtain ⟨name, _, -, h⟩ := exists_of_bind h
        obtain ⟨variableDefs, _, -, h⟩ := exists_of_bind h
        obtain ⟨directives, _, -, h⟩ := exists_of_bind h
        obtain ⟨_, _, -, h⟩ := exists_of_bind h
        exact Definition.isNew_of_none (readSelectionSet_operation h)
      | none =>
        rw [hkind] at h
        dsimp only at h
        split at h
        · obtain ⟨_, _, -, h⟩ := exists_of_bind h
          cases h
        · cases h

end Parser

/-- No two definitions that are read one after the other define a fragment of the same name. -/
theorem Pieces.distinct_fragments {schema : Schema} {read definitions : List Definition} {source left : List UInt8}
    (h : Pieces (fun read => do Parser.readDefinition schema read (← Parser.peek)) read source definitions left)
    (hread : Members.Distinct (read.filterMap Definition.fragment?)) :
    Members.Distinct ((read ++ definitions).filterMap Definition.fragment?) := by
  induction h with
  | nil =>
    rw [List.append_nil]
    exact hread
  | @cons read items definition gap piece behind left s s' _ _ _ hitem _ _ ih =>
    obtain ⟨b, s₁, -, hdefinition⟩ := Parser.exists_of_bind hitem
    have hnew := Parser.readDefinition_new hdefinition
    rw [List.append_assoc, List.singleton_append] at ih
    refine ih ?_
    rw [List.filterMap_append]
    cases definition with
    | operation op =>
      rw [show [Definition.operation op].filterMap Definition.fragment? = [] from rfl, List.append_nil]
      exact hread
    | fragment frag => exact hread.concat (hnew frag rfl)

namespace Document

variable {schema : Schema} {document : Document} {definitions : List Definition}

/-- The fragments of a request come in the order in which their names are mentioned first. -/
private theorem keys_fragmentNames (definitions : List Definition) :
    Entries.keys (Definition.fragmentNames definitions) =
      ((definitions.flatMap Definition.mentions).map Prod.fst).eraseDups := by
  unfold Definition.fragmentNames
  generalize definitions.flatMap Definition.mentions = mentions
  induction mentions using List.reverseRecOn with
  | nil => rfl
  | append_singleton mentions mention ih =>
    rw [List.foldl_append, List.foldl_cons, List.foldl_nil, List.map_append, List.map_singleton,
      FragmentSlot.eraseDups_concat]
    generalize mentions.foldl (fun names mention =>
      if Entries.contains mention.1 names then names else names ++ [mention]) [] = names at ih ⊢
    have hcontains : Entries.contains mention.1 names = true ↔ mention.1 ∈ mentions.map Prod.fst := by
      rw [← List.mem_eraseDups, ← ih, Entries.contains, Option.isSome_iff_ne_none, Ne, Entries.get?_eq_none_iff,
        not_not]
    by_cases hmem : mention.1 ∈ mentions.map Prod.fst
    · rw [if_pos (hcontains.2 hmem), if_pos hmem, ih]
    · rw [if_neg (hcontains.not.2 hmem), if_neg hmem, Entries.keys_append, ih]
      rfl

/-- What is read from a request is made of definitions: their spreads get indices of slots, and the slots hold the
fragments of the request. -/
structure Linked (document : Document) (definitions : List Definition) : Prop where
  spreads : (Definition.linkAll definitions []).1.map Prod.fst = definitions.flatMap Definition.spreads
  /-- The slot at the index of a spread is of its name, and it holds the fragment of that name. -/
  links : ∀ spread ∈ (Definition.linkAll definitions []).1, ∃ fragment,
    (Definition.linkAll definitions []).2[spread.2]? = some { name := spread.1.1, fragment? := some fragment } ∧
      document.fragments[spread.2]? = some fragment ∧ fragment.name = spread.1.1
  slots : (Definition.linkAll definitions []).2.map FragmentSlot.fragment? = document.fragments.map some
  operations : document.operations = definitions.filterMap Definition.operation?
  fragments : document.fragments.Perm (definitions.filterMap Definition.fragment?)
  distinct : Members.Distinct document.fragments
  /-- The fragments come in the order in which their names are first spread or their definitions end. -/
  ordered : Members.names document.fragments = ((definitions.flatMap Definition.mentions).map Prod.fst).eraseDups
  anonymous : ∀ operation ∈ document.operations, operation.name = "" → document.operations = [operation]

/-- The operations of a request are those that are defined. If one of them has no name, it is the only one. -/
private theorem operations_ofDefinitions (h : ofDefinitions definitions = .ok document) :
    document.operations = definitions.filterMap Definition.operation? ∧
      ∀ operation ∈ document.operations, operation.name = "" → document.operations = [operation] := by
  unfold ofDefinitions at h
  simp only [bind, Except.bind] at h
  split at h
  · next op hop =>
    split at h
    · cases h
    · next hcount =>
      split at h
      · cases h
      · cases h
        refine ⟨rfl, fun operation hoperation _ => ?_⟩
        obtain ⟨only, honly⟩ := List.length_eq_one_iff.1
          (Nat.le_antisymm (Nat.not_lt.1 hcount) (List.length_pos_of_mem hoperation))
        rw [honly] at hoperation ⊢
        rw [List.mem_singleton.1 hoperation]
  · next hnone =>
    split at h
    · cases h
    · cases h
      refine ⟨rfl, fun operation hoperation hname => ?_⟩
      have hmem : "" ∈ Members.names (definitions.filterMap Definition.operation?) :=
        List.mem_map.2 ⟨operation, hoperation, hname⟩
      rw [← Members.contains_iff, ← Members.get?_isSome, hnone] at hmem
      cases hmem

/-- A request has the fragments that are defined, in another order. -/
private theorem perm_of_madeOf (hmade : document.MadeOf definitions) (hdistinct : Members.Distinct document.fragments)
    (hdefinitions : Members.Distinct (definitions.filterMap Definition.fragment?)) :
    document.fragments.Perm (definitions.filterMap Definition.fragment?) := by
  have hdefined (fragment : Fragment) : fragment ∈ document.fragments →
      fragment ∈ definitions.filterMap Definition.fragment? := fun hfragment =>
    List.mem_filterMap.2 ⟨.fragment fragment, hmade.fragments fragment hfragment, rfl⟩
  refine (List.perm_ext_iff_of_nodup hdistinct.of_map hdefinitions.of_map).2 fun fragment =>
    ⟨hdefined fragment, fun hfragment => ?_⟩
  obtain ⟨definition, hdefinition, hsome⟩ := List.mem_filterMap.1 hfragment
  have hmention : (fragment.name, fragment.pos) ∈ definition.mentions := by
    cases definition with
    | operation op => cases hsome
    | fragment frag =>
      cases hsome
      exact List.mem_append_right _ (List.mem_singleton.2 rfl)
  have hname := Definition.mem_keys_fragmentNames hdefinition hmention
  rw [← hmade.names] at hname
  obtain ⟨other, hother, hsame⟩ := List.mem_map.1 hname
  have heq : some other = some fragment := by
    rw [← hdefinitions.get?_of_mem (hdefined other hother), hsame]
    exact hdefinitions.get?_of_mem hfragment
  cases heq
  exact hother

/-- The fragments of a request are what the slots hold in the end, since both come in the order of the same names. -/
private theorem slots_of_madeOf {slots : List FragmentSlot} (hmade : document.MadeOf definitions)
    (hdefinitions : Members.Distinct (definitions.filterMap Definition.fragment?))
    (htracks : FragmentSlot.Tracks slots ((definitions.flatMap Definition.mentions).map Prod.fst)
      (definitions.filterMap Definition.fragment?)) :
    slots.map FragmentSlot.fragment? = document.fragments.map some := by
  have hslots : slots.map FragmentSlot.fragment? =
      (Members.names slots).map fun name => Members.get? name (definitions.filterMap Definition.fragment?) := by
    rw [Members.names, List.map_map]
    exact List.map_congr_left htracks.filled
  have hfragments : document.fragments.map some =
      (Members.names document.fragments).map fun name =>
        Members.get? name (definitions.filterMap Definition.fragment?) := by
    rw [Members.names, List.map_map]
    refine List.map_congr_left fun fragment hfragment => (hdefinitions.get?_of_mem ?_).symm
    exact List.mem_filterMap.2 ⟨.fragment fragment, hmade.fragments fragment hfragment, rfl⟩
  rw [hslots, hfragments, htracks.names, hmade.names, keys_fragmentNames]

/-- What the slots hold is the document that is made of the definitions, if no two of them define the same fragment. -/
theorem linked_of_distinct (hdefinitions : Members.Distinct (definitions.filterMap Definition.fragment?))
    (h : ofDefinitions definitions = .ok document) : document.Linked definitions := by
  have hmade := madeOf_ofDefinitions h
  have hordered := hmade.names.trans (keys_fragmentNames definitions)
  have hdistinct : Members.Distinct document.fragments := by
    unfold Members.Distinct
    rw [hordered]
    exact FragmentSlot.nodup_eraseDups _
  have htracks := Definition.tracks_linkAll definitions .nil hdefinitions
  rw [List.nil_append, List.nil_append] at htracks
  have hslots := slots_of_madeOf hmade hdefinitions htracks
  obtain ⟨-, hspreads, hlinks⟩ := Definition.names_linkAll definitions []
  obtain ⟨hoperations, hanonymous⟩ := operations_ofDefinitions h
  refine ⟨hspreads, fun spread hspread => ?_, hslots, hoperations, perm_of_madeOf hmade hdistinct hdefinitions,
    hdistinct, hordered, hanonymous⟩
  have hname := hlinks spread hspread
  rw [Members.names, List.getElem?_map] at hname
  obtain ⟨⟨name, held⟩, hslot, rfl⟩ := Option.map_eq_some_iff.1 hname
  have hheld : (document.fragments.map some)[spread.2]? = some held := by
    rw [← hslots, List.getElem?_map, hslot]
    rfl
  rw [List.getElem?_map] at hheld
  obtain ⟨fragment, hfragment, rfl⟩ := Option.map_eq_some_iff.1 hheld
  have hfilled := htracks.filled _ (List.mem_of_getElem? hslot)
  exact ⟨fragment, hslot, hfragment, Members.name_of_get? hfilled.symm⟩

/-- A request that is read is linked. The definitions that it is made of are the source, up to its end or to a byte
zero, with nothing but insignificant text between them. -/
theorem read?_linked {source : List UInt8} (h : Document.read? schema source = .ok document) :
    ∃ definitions left,
      Pieces (fun read => do Parser.readDefinition schema read (← Parser.peek)) [] (Scanner.ofBytes source).rest
        definitions left ∧ left.headD 0 = 0 ∧ document.Linked definitions := by
  unfold Document.read? at h
  split at h
  · next definitions s hread =>
    obtain ⟨items, hitems, hend, hpieces⟩ := Parser.readDefinitions_pieces schema hread
    rw [List.nil_append] at hitems
    subst hitems
    exact ⟨definitions, s.rest, hpieces, hend, linked_of_distinct (hpieces.distinct_fragments .nil) h⟩
  · cases h

private def backwardsText : String := "fragment A on Query{...B}fragment B on Query{f}{...A}"

/-- What is read from the text: `A` comes first in it, but only its end is a mention of its name. -/
private def backwards : Document where
  operations := [{ kind := .query, name := "", pos := ⟨1, 48⟩, selections := [.spread "A" [] ⟨1, 49⟩] }]
  fragments :=
    [{ name := "B", condition := "Query", pos := ⟨1, 26⟩, selections := [.field { name := "f", pos := ⟨1, 46⟩ } []] },
      { name := "A", condition := "Query", pos := ⟨1, 1⟩, selections := [.spread "B" [] ⟨1, 21⟩] }]

private theorem backwards_read : Document.read? {} backwardsText.toUTF8.toList = .ok backwards := by
  have hbytes : backwardsText.toUTF8.toList =
      [102, 114, 97, 103, 109, 101, 110, 116, 32, 65, 32, 111, 110, 32, 81, 117, 101, 114, 121, 123, 46, 46,
        46, 66, 125, 102, 114, 97, 103, 109, 101, 110, 116, 32, 66, 32, 111, 110, 32, 81, 117, 101, 114,
        121, 123, 102, 125, 123, 46, 46, 46, 65, 125] := by
    decide +kernel
  rw [hbytes]
  cbv

/-- The spread in a fragment gives a slot to another one before its own end does. -/
theorem backwards_linked :
    Document.read? {} backwardsText.toUTF8.toList = .ok backwards ∧
      Members.names backwards.fragments = ["B", "A"] ∧
      ∃ definitions left,
        Pieces (fun read => do Parser.readDefinition {} read (← Parser.peek)) []
          (Scanner.ofBytes backwardsText.toUTF8.toList).rest definitions left ∧
        left.headD 0 = 0 ∧ backwards.Linked definitions :=
  ⟨backwards_read, rfl, read?_linked backwards_read⟩

end Document

end GraphQL
