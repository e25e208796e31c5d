import GraphQL.Proofs.Text.Parser
import GraphQL.Proofs.Value.Literal

/-!
# Literals that are read

Where a literal is read its symbols and variables are names and no object has a key twice, and a double that stands alone
is the value of a run of bytes (`Parser.readValue_gives`).
-/

namespace GraphQL

namespace Parser

/-! ### Numbers and words -/

/-- A number is the value of the run of bytes that is read. -/
private theorem readNumber_gives (before : Pos) :
    Gives before readNumber fun v _ => ∃ run, numberValue? run = some v := by
  refine (position_gives before).bind fun pos mid _ _ => (span_moves _ mid).bind fun run mid _ _ => ?_
  refine (peek_moves mid).bind fun next mid _ _ => ?_
  split
  · exact .fail
  · split
    · next v hv => exact .pure ⟨run, hv⟩
    · exact .failAt

theorem numberValue?_isAtom {run : List UInt8} {v : Value} (h : numberValue? run = some v) : v.isAtom = true := by
  have hfloat {x : Option Binary64} (h : x.map Value.float = some v) : v.isAtom = true := by
    obtain ⟨x, -, rfl⟩ := Option.map_eq_some_iff.1 h
    rfl
  unfold numberValue? at h
  dsimp only at h
  split at h
  · split at h
    · exact hfloat h
    · split at h
      · cases h
        rfl
      · exact hfloat h
  · split at h
    · exact hfloat h
    · split at h
      · cases h
        rfl
      · exact hfloat h

/-- A word that does not start with a digit is legible. -/
private theorem wordValue_legible {word : String} (hname : IsName word)
    (hdigit : ∀ b ∈ (bytesOf word).head?, Byte.isDigit b = false) : (wordValue word).Legible := by
  unfold wordValue
  split
  · exact .atom rfl
  · split
    · exact .atom rfl
    · split
      · exact .atom rfl
      · next hnull htrue hfalse =>
        refine .enum ⟨?_, hnull, htrue, hfalse⟩
        obtain ⟨b, rest, hbytes, hb⟩ := hname.exists_cons
        have hall := hname.2
        rw [hbytes] at hall hdigit
        unfold isBareName
        rw [show word.toUTF8.toList = b :: rest from hbytes]
        simpa [hdigit b rfl] using List.forall_mem_cons.1 hall

private theorem wordValue_ne_float (word : String) (x : Binary64) : wordValue word ≠ .float x := by
  unfold wordValue
  split
  · exact nofun
  · split
    · exact nofun
    · split
      · exact nofun
      · exact nofun

/-! ### Lists and objects -/

section Composed

variable {value : Parser Value} (hvalue : ∀ before, Gives before value fun v _ => v.Legible)

include hvalue

private theorem readItems_gives (start before : Pos) :
    Gives before (readItems value start) fun items _ => ∀ v ∈ items, v.Legible := by
  refine Gives.fix (P := fun _ items _ => ∀ v ∈ items, Value.Legible v) (fun more hmore before => ?_) before
  refine (skipSpace_moves before).bind fun b mid _ _ => .ite (fun _ => ?_) fun _ => .ite (fun _ => .failAt) fun _ => ?_
  · exact (discard_moves readByte_moves mid).bind fun _ _ _ _ => .pure (List.forall_mem_nil _)
  · refine (hvalue mid).bind fun v mid _ hv => (hmore mid).bind fun items _ _ hitems => .pure ?_
    exact List.forall_mem_cons.2 ⟨hv, hitems⟩

private theorem readEntries_gives (start : Pos) (read : List (String × Value)) (before : Pos) :
    Gives before (readEntries value start read) fun entries _ =>
      (Value.object read).Legible → (Value.object entries).Legible := by
  refine Gives.fixWith (P := fun read _ entries _ => (Value.object read).Legible → (Value.object entries).Legible)
    (fun more hmore read before => ?_) read before
  refine (skipSpace_moves before).bind fun b mid _ _ => (position_gives mid).bind fun pos mid _ _ => ?_
  refine .ite (fun _ => ?_) fun _ => .ite (fun _ => .failAt) fun _ => ?_
  · exact (discard_moves readByte_moves mid).bind fun _ _ _ _ => .pure id
  · have hkey : Moves (readKey b) := fun before => .ite (fun _ => readString_moves before) fun _ => readName_moves _ before
    refine (hkey mid).bind fun key mid _ _ => (expect_moves _ mid).bind fun _ mid _ _ => ?_
    refine (hvalue mid).bind fun v mid _ hv => .ite (fun _ => .failAt) fun hnew => ?_
    refine (hmore _ mid).mono fun entries _ _ hentries hread => hentries ?_
    cases hread with
    | atom h => cases h
    | object hkeys hall =>
      refine .object (Entries.nodup_keys_concat hkeys (Bool.not_eq_true _ ▸ hnew)) ?_
      exact List.forall_mem_append.2 ⟨hall, List.forall_mem_singleton.2 hv⟩

end Composed

/-- A literal that is read is legible, and a double is the value of a run of bytes. -/
theorem readValue_gives (before : Pos) :
    Gives before readValue fun v _ => v.Legible ∧ ∀ x, v = .float x → ∃ run, numberValue? run = some v := by
  refine Gives.fix (P := fun _ v _ => Value.Legible v ∧ ∀ x, v = .float x → ∃ run, numberValue? run = some v)
    (fun value hvalue before => ?_) before
  have hlegible (before : Pos) : Gives before value fun v _ => v.Legible := (hvalue before).mono fun _ _ _ h => h.1
  refine Gives.skip fun s _ => .ite (fun _ => .here ?_) fun _ => .ite (fun _ => .here ?_) fun _ =>
    .ite (fun _ => .here ?_) fun _ => .ite (fun _ => .here ?_) fun _ => .ite (fun _ => .here ?_) fun hnumber =>
    .ite (fun hword => ?_) fun _ => .here .fail
  · exact (readString_moves _).bind fun _ _ _ _ => .pure ⟨.atom rfl, fun _ h => (by cases h)⟩
  · refine (discard_moves readByte_moves _).bind fun _ mid _ _ => (position_gives mid).bind fun pos mid _ _ => ?_
    refine (readToken_isName mid).bind fun name mid _ hname => .ite (fun _ => .failAt) fun hnonempty => ?_
    exact .pure ⟨.var (hname (Bool.not_eq_true _ ▸ hnonempty)), fun _ h => (by cases h)⟩
  · refine (position_gives _).bind fun start mid _ _ => (discard_moves readByte_moves mid).bind fun _ mid _ _ => ?_
    exact (readItems_gives hlegible start mid).bind fun items _ _ hitems => .pure ⟨.list hitems, fun _ h => (by cases h)⟩
  · refine (position_gives _).bind fun start mid _ _ => (discard_moves readByte_moves mid).bind fun _ mid _ _ => ?_
    refine (readEntries_gives hlegible start [] mid).bind fun entries _ _ hentries => .pure ⟨?_, fun _ h => (by cases h)⟩
    exact hentries (.object List.nodup_nil (List.forall_mem_nil _))
  · refine (readNumber_gives _).mono fun v _ _ hrun => ⟨?_, fun _ _ => hrun⟩
    obtain ⟨run, hrun⟩ := hrun
    exact .atom (numberValue?_isAtom hrun)
  · refine (readToken_givesFrom s).bind fun word mid hread => ?_
    obtain ⟨hname, hhead⟩ := hread.2 hword
    refine .pure ⟨wordValue_legible hname fun b hb => ?_, fun x hx => absurd hx (wordValue_ne_float word x)⟩
    rw [hhead] at hb
    cases hb
    exact (Bool.or_eq_false_iff.1 (Bool.not_eq_true _ ▸ hnumber)).2

theorem readValue_moves : Moves readValue := fun before => (readValue_gives before).moves

end Parser

end GraphQL
