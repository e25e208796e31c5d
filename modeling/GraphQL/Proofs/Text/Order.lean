import GraphQL.Proofs.Text.Bytes

/-!
# The order of texts

Texts are compared character by character. Their bytes, compared one by one, have the same order (`bytesOf_lt_iff`):
UTF-8 gives a greater character the greater bytes.
-/

namespace GraphQL

private theorem ofNat_lt_iff {m n : Nat} (hm : m < 256) (hn : n < 256) : UInt8.ofNat m < UInt8.ofNat n ↔ m < n := by
  rw [UInt8.lt_iff_toNat_lt, UInt8.toNat_ofNat', UInt8.toNat_ofNat', Nat.mod_eq_of_lt hm, Nat.mod_eq_of_lt hn]

private theorem ofNat_eq_iff {m n : Nat} (hm : m < 256) (hn : n < 256) : UInt8.ofNat m = UInt8.ofNat n ↔ m = n := by
  rw [← UInt8.toNat_inj, UInt8.toNat_ofNat', UInt8.toNat_ofNat', Nat.mod_eq_of_lt hm, Nat.mod_eq_of_lt hn]

/-- The bytes of a character are less than those of a greater one, whatever comes after both. -/
theorem utf8Bytes_lt {c d : Char} (h : c < d) (rest more : List UInt8) : utf8Bytes c ++ rest < utf8Bytes d ++ more := by
  have hlt : c.val.toNat < d.val.toNat := h
  have hrange : d.val.toNat < 0x110000 := by
    have := d.valid
    unfold UInt32.isValidChar Nat.isValidChar at this
    omega
  have hparts (n : Nat) : n / 4096 = n / 64 / 64 ∧ n / 262144 = n / 64 / 64 / 64 := by omega
  unfold utf8Bytes String.utf8EncodeChar
  generalize c.val.toNat = m at hlt ⊢
  generalize d.val.toNat = n at hlt hrange ⊢
  -- at the same number of bytes the first that differ decide, and more bytes have a greater first one
  simp only [hparts]
  split_ifs <;>
    simp (disch := omega) only [List.cons_append, List.nil_append, List.cons_lt_cons_iff, ofNat_lt_iff, ofNat_eq_iff] <;>
    omega

theorem flatMap_utf8Bytes_lt : ∀ {cs ds : List Char}, cs < ds → cs.flatMap utf8Bytes < ds.flatMap utf8Bytes
  | _, [], h => absurd h (List.not_lt_nil _)
  | [], d :: ds, _ => by
    obtain ⟨b, bs, hbytes⟩ := List.exists_cons_of_ne_nil (utf8Bytes_ne_nil d)
    rw [List.flatMap_nil, List.flatMap_cons, hbytes]
    exact List.nil_lt_cons b _
  | c :: cs, d :: ds, h => by
    rw [List.flatMap_cons, List.flatMap_cons]
    rcases List.cons_lt_cons_iff.1 h with hlt | ⟨rfl, hlt⟩
    · exact utf8Bytes_lt hlt _ _
    · exact List.append_left_lt (flatMap_utf8Bytes_lt hlt)

/-- Texts have the order of their bytes. -/
theorem bytesOf_lt_iff {a b : String} : bytesOf a < bytesOf b ↔ a < b := by
  have hlt {a b : String} (h : a < b) : bytesOf a < bytesOf b := by
    rw [bytesOf_eq_flatMap, bytesOf_eq_flatMap]
    exact flatMap_utf8Bytes_lt (String.lt_iff_toList_lt.1 h)
  refine ⟨fun h => ?_, hlt⟩
  by_contra hnot
  rcases eq_or_lt_of_le (String.not_lt.1 hnot) with rfl | hless
  · exact List.lt_irrefl _ h
  · exact List.lt_asymm h (hlt hless)

theorem bytesOf_le_iff {a b : String} : bytesOf a ≤ bytesOf b ↔ a ≤ b := by
  rw [← List.not_lt, ← String.not_lt, bytesOf_lt_iff]

end GraphQL
