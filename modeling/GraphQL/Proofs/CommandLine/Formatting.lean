import GraphQL.CommandLine.Run
import GraphQL.Proofs.Schema.Trimmed

/-!
# Formatting twice

A schema text in its normal layout stays as it is when it is formatted again, if the first time nothing was lost
(`formatted_of_kept`). So files that were formatted pass the check that they are (`format_idempotent`).
-/

namespace GraphQL.CommandLine

variable {descriptions : Bool} {source text path : String} {effects : Effects}

private theorem load_of_declare? {schema next : Schema} {declarations : List Declaration}
    (hread : schema.read? source.toUTF8.toList = .ok declarations) (hnext : schema.declare? declarations = .ok next) :
    load schema source = .ok next := by
  unfold load
  rw [hread]
  dsimp only
  rw [hnext]
  rfl

/-- The normal layout of a text is its own. -/
theorem formatted_of_kept (h : emptySchema.KeepsText { descriptions } source.toUTF8.toList) :
    ∃ text, formatted descriptions source = .ok text ∧ formatted descriptions text = .ok text := by
  obtain ⟨declarations, schema, hread, hschema, hnew, hkept⟩ := h
  have hbase := Schema.initial_basic {}
  obtain ⟨read, next, hagain, hnext, htext⟩ :=
    (hbase.loadedOn (.initial {}) hread hschema hnew).reload_trimmed hbase rfl hkept
  refine ⟨schema.text { descriptions }, ?_, ?_⟩
  · rw [formatted, load_of_declare? hread hschema]
    rfl
  · have hload : load emptySchema (schema.text { descriptions }) = .ok next := load_of_declare? hagain hnext
    rw [formatted, hload]
    exact congrArg Except.ok htext

/-! ### Files -/

section Jobs

variable {α β : Type}

/-- A job goes on where the one before it has ended. -/
private theorem run_bind {job : Job α} {next : α → Job β} {a : α} {after : Effects}
    (h : job.run.run effects = (.ok a, after)) : (job >>= next).run.run effects = (next a).run.run after := by
  rw [ExceptT.run_bind, StateT.run_bind, h]
  rfl

private theorem run_read (h : Entries.get? path effects.files = some (.ok source)) :
    (Job.read path).run.run effects = (.ok source, effects) := by
  unfold Job.read
  rw [run_bind (show (get : Job Effects).run.run effects = (.ok effects, effects) from rfl), h]
  rfl

private theorem run_sayIf (condition : Bool) (line : String) (effects : Effects) :
    ∃ after, (Job.sayIf condition line).run.run effects = (.ok (), after) ∧ after.files = effects.files := by
  unfold Job.sayIf
  split <;> exact ⟨_, rfl, rfl⟩

end Jobs

/-- A file in its normal layout stays as it is, whether it is formatted or checked. -/
private theorem run_settled (checkOnly verbose : Bool) (hfile : Entries.get? path effects.files = some (.ok text))
    (htext : formatted descriptions text = .ok text) :
    ∃ after, (formatFile checkOnly descriptions verbose path).run.run effects = (.ok false, after) ∧
      after.files = effects.files := by
  unfold formatFile
  rw [run_bind (run_read hfile), htext]
  dsimp only
  rw [if_pos rfl]
  obtain ⟨after, hsay, hfiles⟩ := run_sayIf verbose ((if checkOnly then "OK " else "Unchanged ") ++ path) effects
  rw [run_bind hsay]
  exact ⟨after, rfl, hfiles⟩

/-- A file is formatted in place. -/
private theorem run_formatFile (verbose : Bool) (hfile : Entries.get? path effects.files = some (.ok source))
    (htext : formatted descriptions source = .ok text) :
    ∃ after, (formatFile false descriptions verbose path).run.run effects = (.ok false, after) ∧
      ∀ other, Entries.get? other after.files = if other = path then some (.ok text) else Entries.get? other effects.files := by
  by_cases hsame : source = text
  · subst hsame
    obtain ⟨after, hrun, hfiles⟩ := run_settled false verbose hfile htext
    refine ⟨after, hrun, fun other => ?_⟩
    rw [hfiles]
    split
    · next hother => rw [hother, hfile]
    · rfl
  · unfold formatFile
    rw [run_bind (run_read hfile), htext]
    dsimp only
    rw [if_neg hsame]
    refine ⟨_, rfl, fun other => ?_⟩
    split
    · next hother => exact hother ▸ Entries.get?_put_self
    · next hother => exact Entries.get?_put_of_ne (Ne.symm hother)

/-- The file has a text with a normal layout, which is its own. -/
private def Settles (descriptions : Bool) (files : Files) (path : String) : Prop :=
  ∃ source text, Entries.get? path files = some (.ok source) ∧ formatted descriptions source = .ok text ∧
    formatted descriptions text = .ok text

/-- Formatting files one after the other brings each into its normal layout, and leaves those that are in it. -/
private theorem run_format (verbose : Bool) (paths : List String) :
    ∀ effects : Effects, (∀ path ∈ paths, Settles descriptions effects.files path) →
      ∃ after, (format false descriptions verbose paths).run.run effects = (.ok 0, after) ∧
        (∀ path ∈ paths, ∀ source text, Entries.get? path effects.files = some (.ok source) →
          formatted descriptions source = .ok text → Entries.get? path after.files = some (.ok text)) ∧
        ∀ path text, Entries.get? path effects.files = some (.ok text) → formatted descriptions text = .ok text →
          Entries.get? path after.files = some (.ok text) := by
  induction paths with
  | nil => exact fun effects _ => ⟨effects, rfl, nofun, fun _ _ hfile _ => hfile⟩
  | cons path paths ih =>
    intro effects h
    obtain ⟨⟨source, text, hfile, htext, hagain⟩, hrest⟩ := List.forall_mem_cons.1 h
    obtain ⟨middle, hrun, hfiles⟩ := run_formatFile verbose hfile htext
    have hhere : Entries.get? path middle.files = some (.ok text) := by rw [hfiles, if_pos rfl]
    have hother {other : String} (hne : other ≠ path) :
        Entries.get? other middle.files = Entries.get? other effects.files := by rw [hfiles, if_neg hne]
    have hmiddle (other : String) (hmem : other ∈ paths) : Settles descriptions middle.files other := by
      by_cases hsame : other = path
      · exact hsame ▸ ⟨text, text, hhere, hagain, hagain⟩
      · rw [Settles, hother hsame]
        exact hrest other hmem
    obtain ⟨after, hafter, hall, hstays⟩ := ih middle hmiddle
    have hpath {source' text' : String} (hfile' : Entries.get? path effects.files = some (.ok source'))
        (htext' : formatted descriptions source' = .ok text') : Entries.get? path after.files = some (.ok text') := by
      cases hfile.symm.trans hfile'
      cases htext.symm.trans htext'
      exact hstays path text hhere hagain
    refine ⟨after, ?_, List.forall_mem_cons.2 ⟨fun _ _ => hpath, fun other hmem source' text' hfile' htext' => ?_⟩,
      fun other text' hfile' htext' => ?_⟩
    · unfold format
      rw [run_bind hrun, run_bind hafter]
      rfl
    -- a file that is named twice is formatted twice
    · by_cases hsame : other = path
      · subst hsame
        exact hpath hfile' htext'
      · exact hall other hmem source' text' ((hother hsame).trans hfile') htext'
    · by_cases hsame : other = path
      · subst hsame
        exact hpath hfile' htext'
      · exact hstays other text' ((hother hsame).trans hfile') htext'

/-- Files in their normal layout pass the check. -/
private theorem run_check (verbose : Bool) (paths : List String) :
    ∀ effects : Effects, (∀ path ∈ paths, ∃ text,
        Entries.get? path effects.files = some (.ok text) ∧ formatted descriptions text = .ok text) →
      ∃ after, (format true descriptions verbose paths).run.run effects = (.ok 0, after) ∧
        after.files = effects.files := by
  induction paths with
  | nil => exact fun effects _ => ⟨effects, rfl, rfl⟩
  | cons path paths ih =>
    intro effects h
    obtain ⟨⟨text, hfile, htext⟩, hrest⟩ := List.forall_mem_cons.1 h
    obtain ⟨middle, hrun, hfiles⟩ := run_settled true verbose hfile htext
    obtain ⟨after, hafter, hsame⟩ := ih middle (hfiles.symm ▸ hrest)
    refine ⟨after, ?_, hsame.trans hfiles⟩
    unfold format
    rw [run_bind hrun, run_bind hafter]
    rfl

/-- Texts that are kept have a normal layout, which is its own. Files with such texts are formatted without an error, and
pass the check that follows, which changes nothing. -/
theorem format_idempotent {descriptions : Bool} {files : Files} {paths : List String}
    (h : ∀ path ∈ paths, ∃ source, Entries.get? path files = some (.ok source) ∧ emptySchema.KeepsText { descriptions } source.toUTF8.toList)
    (verbose quiet : Bool) :
    let format (checkOnly : Bool) : Request := .run ⟨.format paths checkOnly descriptions, verbose, quiet⟩
    let done := (format false).outcome files
    let checked := (format true).outcome done.effects.files
    (∀ path ∈ paths, ∃ source text, Entries.get? path files = some (.ok source) ∧
        formatted descriptions source = .ok text ∧ formatted descriptions text = .ok text ∧
          Entries.get? path done.effects.files = some (.ok text)) ∧
      done.exit = 0 ∧ checked.exit = 0 ∧ checked.effects.files = done.effects.files := by
  have hsettles (path : String) (hpath : path ∈ paths) : Settles descriptions files path := by
    obtain ⟨source, hfile, hkept⟩ := h path hpath
    obtain ⟨text, htext, hagain⟩ := formatted_of_kept hkept
    exact ⟨source, text, hfile, htext, hagain⟩
  obtain ⟨done, hdone, hall, -⟩ := run_format verbose paths { files } hsettles
  have hwritten (path : String) (hpath : path ∈ paths) : ∃ source text, Entries.get? path files = some (.ok source) ∧
      formatted descriptions source = .ok text ∧ formatted descriptions text = .ok text ∧
        Entries.get? path done.files = some (.ok text) := by
    obtain ⟨source, text, hfile, htext, hagain⟩ := hsettles path hpath
    exact ⟨source, text, hfile, htext, hagain, hall path hpath source text hfile htext⟩
  obtain ⟨checked, hchecked, hsame⟩ := run_check verbose paths { files := done.files } fun path hpath =>
    let ⟨_, text, _, _, hagain, hfile⟩ := hwritten path hpath
    ⟨text, hfile, hagain⟩
  have hfirst : (Request.run ⟨.format paths false descriptions, verbose, quiet⟩).outcome files = ⟨0, done, none⟩ := by
    unfold Request.outcome Invocation.job
    dsimp only
    rw [hdone]
  have hsecond : (Request.run ⟨.format paths true descriptions, verbose, quiet⟩).outcome done.files =
      ⟨0, checked, none⟩ := by
    unfold Request.outcome Invocation.job
    dsimp only
    rw [hchecked]
  dsimp only
  rw [hfirst]
  dsimp only
  rw [hsecond]
  exact ⟨hwritten, rfl, rfl, hsame⟩

/-- A text whose description would not be kept, if it were shown. -/
private def catalog : String := "\"Lists\\n\" type Query\x7bfind(title:String=\"\",limit:Int=10):[ID!]\x7d"

private def catalogFiles : Files := [("a.graphql", .ok catalog)]

set_option maxRecDepth 20000 in
private theorem catalog_kept : emptySchema.KeepsText { descriptions := false } catalog.toUTF8.toList := by
  refine Schema.initial_of_builtFrom
    (P := fun schema => schema.KeepsText { descriptions := false } catalog.toUTF8.toList) ?_
  unfold Builtin.source
  exact ⟨_, rfl, by decide +kernel⟩

theorem format_catalog :
    let format (checkOnly : Bool) : Request := .run ⟨.format ["a.graphql"] checkOnly false, false, false⟩
    let done := (format false).outcome catalogFiles
    done.exit = 0 ∧ ((format true).outcome done.effects.files).exit = 0 := by
  have hfile : ∀ path ∈ ["a.graphql"], ∃ source, Entries.get? path catalogFiles = some (.ok source) ∧
      emptySchema.KeepsText { descriptions := false } source.toUTF8.toList := by
    intro path hpath
    obtain rfl := List.mem_singleton.1 hpath
    exact ⟨catalog, rfl, catalog_kept⟩
  obtain ⟨-, hdone, hchecked, -⟩ := format_idempotent hfile false false
  exact ⟨hdone, hchecked⟩

end GraphQL.CommandLine
