import GraphQL.Text.Quoted
import Mathlib

/-!
# Texts and their bytes

The bytes of a text are those of its characters one after the other, and a text is known by them. An ASCII character is
one byte, and no byte of any other character is ASCII.
-/

namespace GraphQL

/-! ### The bytes of a text -/

/-- The bytes of a text in UTF-8. -/
def bytesOf (text : String) : List UInt8 := text.toUTF8.toList

theorem byteArray_toList (bs : ByteArray) : bs.toList = bs.data.toList := by
  have hsize : bs.data.toList.length = bs.size := by
    rw [Array.length_toList]
    rfl
  have hloop (i : Nat) (read : List UInt8) :
      ByteArray.toList.loop bs i read = read.reverse ++ bs.data.toList.drop i := by
    fun_induction ByteArray.toList.loop bs i read with
    | case1 i read hi ih =>
      have hlt : i < bs.data.toList.length := hsize ▸ hi
      have hget : bs.get! i = bs.data.toList[i] := by
        rw [Array.getElem_toList]
        exact getElem!_pos bs.data i hi
      have hdrop : bs.data.toList.drop i = bs.get! i :: bs.data.toList.drop (i + 1) := by
        rw [hget]
        exact List.drop_eq_getElem_cons hlt
      rw [ih, hdrop, List.reverse_cons, List.append_assoc]
      rfl
    | case2 i read hi =>
      rw [List.drop_eq_nil_of_le (by omega), List.append_nil]
  exact hloop 0 []

theorem bytesOf_eq_data (text : String) : bytesOf text = text.toByteArray.data.toList := byteArray_toList _

theorem bytesOf_append (a b : String) : bytesOf (a ++ b) = bytesOf a ++ bytesOf b := by
  simp [bytesOf_eq_data, String.toByteArray_append]

theorem bytesOf_eq_flatMap (text : String) : bytesOf text = text.toList.flatMap utf8Bytes := by
  rw [bytesOf_eq_data, ← String.utf8Encode_toList, List.utf8Encode, List.toList_data_toByteArray]
  rfl

theorem bytesOf_ofList (cs : List Char) : bytesOf (String.ofList cs) = cs.flatMap utf8Bytes := by
  rw [bytesOf_eq_flatMap, String.toList_ofList]

@[simp] theorem bytesOf_empty : bytesOf "" = [] := by
  rw [bytesOf_eq_flatMap]
  rfl

/-- Bytes that are a text read as it. -/
theorem utf8Text?_bytesOf (text : String) : utf8Text? (bytesOf text) = some text := by
  have h : (⟨(bytesOf text).toArray⟩ : ByteArray) = text.toByteArray := by
    rw [bytesOf_eq_data]
  unfold utf8Text? String.fromUTF8?
  rw [h, dif_pos text.isValidUTF8]
  rfl

/-! ### ASCII -/

/-- A byte of an ASCII character. -/
def Byte.isAscii (b : UInt8) : Bool := b < 0x80

theorem utf8Bytes_ascii {c : Char} (h : c.toNat < 0x80) : utf8Bytes c = [UInt8.ofNat c.toNat] := by
  have hle : c.val.toNat ≤ 0x7f := Nat.le_of_lt_succ h
  unfold utf8Bytes String.utf8EncodeChar
  simp only [hle, if_true]
  rfl

theorem not_isAscii_of_mem_utf8Bytes {c : Char} (h : 0x80 ≤ c.toNat) {b : UInt8} (hb : b ∈ utf8Bytes c) :
    Byte.isAscii b = false := by
  have hlt : ¬c.val.toNat ≤ 0x7f := Nat.not_le.2 h
  have hbyte : ∀ n : Nat, 0x80 ≤ n → n < 0x100 → Byte.isAscii (UInt8.ofNat n) = false := by
    intro n hle hn
    have hnat : (UInt8.ofNat n).toNat = n := by
      rw [UInt8.toNat_ofNat']
      exact Nat.mod_eq_of_lt hn
    unfold Byte.isAscii
    rw [decide_eq_false_iff_not, UInt8.lt_iff_toNat_lt, hnat]
    exact Nat.not_lt.2 hle
  unfold utf8Bytes String.utf8EncodeChar at hb
  simp only [hlt, if_false] at hb
  split at hb
  · simp only [List.mem_cons, List.not_mem_nil, or_false] at hb
    rcases hb with rfl | rfl <;> exact hbyte _ (by omega) (by omega)
  · split at hb <;> simp only [List.mem_cons, List.not_mem_nil, or_false] at hb
    · rcases hb with rfl | rfl | rfl <;> exact hbyte _ (by omega) (by omega)
    · rcases hb with rfl | rfl | rfl | rfl <;> exact hbyte _ (by omega) (by omega)

/-- An ASCII byte is the byte of one character only. -/
theorem toNat_of_mem_utf8Bytes {c : Char} {b : UInt8} (hb : b ∈ utf8Bytes c) (h : Byte.isAscii b) :
    c.toNat = b.toNat := by
  by_cases hascii : c.toNat < 0x80
  · rw [utf8Bytes_ascii hascii, List.mem_singleton] at hb
    rw [hb, UInt8.toNat_ofNat']
    exact (Nat.mod_eq_of_lt (Nat.lt_trans hascii (by decide))).symm
  · rw [not_isAscii_of_mem_utf8Bytes (Nat.not_lt.1 hascii) hb] at h
    cases h

theorem utf8Bytes_ne_nil (c : Char) : utf8Bytes c ≠ [] := String.utf8EncodeChar_ne_nil

theorem byteChar_ofNat {c : Char} (h : c.toNat < 0x80) : byteChar (UInt8.ofNat c.toNat) = c := by
  have hnat : (UInt8.ofNat c.toNat).toNat = c.toNat := by
    rw [UInt8.toNat_ofNat']
    exact Nat.mod_eq_of_lt (Nat.lt_trans h (by decide))
  unfold byteChar
  rw [hnat, Char.ofNat_toNat]

/-- The characters of a text whose bytes are all ASCII are ASCII. -/
theorem toNat_lt_of_isAscii {text : String} (h : ∀ b ∈ bytesOf text, Byte.isAscii b) {c : Char}
    (hc : c ∈ text.toList) : c.toNat < 0x80 := by
  by_contra hle
  obtain ⟨b, hb⟩ := List.exists_mem_of_ne_nil _ (utf8Bytes_ne_nil c)
  have hmem : b ∈ bytesOf text := by
    rw [bytesOf_eq_flatMap]
    exact List.mem_flatMap.2 ⟨c, hc, hb⟩
  have := not_isAscii_of_mem_utf8Bytes (Nat.not_lt.1 hle) hb
  rw [h b hmem] at this
  cases this

/-- ASCII bytes are the text that they are the bytes of. -/
theorem byteText_bytesOf {text : String} (h : ∀ b ∈ bytesOf text, Byte.isAscii b) : byteText (bytesOf text) = text := by
  have hchars : ∀ cs : List Char, (∀ c ∈ cs, c.toNat < 0x80) → (cs.flatMap utf8Bytes).map byteChar = cs := by
    intro cs hcs
    induction cs with
    | nil => rfl
    | cons c cs ih =>
      have hc := hcs c List.mem_cons_self
      rw [List.flatMap_cons, utf8Bytes_ascii hc, List.map_append, ih fun d hd => hcs d (List.mem_cons_of_mem _ hd)]
      simp [byteChar_ofNat hc]
  unfold byteText
  rw [bytesOf_eq_flatMap, hchars _ fun c hc => toNat_lt_of_isAscii h hc, String.ofList_toList]

/-- ASCII bytes are those of the text that they are read as. -/
theorem bytesOf_byteText {run : List UInt8} (h : ∀ b ∈ run, Byte.isAscii b) : bytesOf (byteText run) = run := by
  unfold byteText
  rw [bytesOf_ofList]
  induction run with
  | nil => rfl
  | cons b rest ih =>
    obtain ⟨hb, hrest⟩ := List.forall_mem_cons.1 h
    have hlt : b.toNat < 0x80 := by simpa [Byte.isAscii, UInt8.lt_iff_toNat_lt] using hb
    have hchar : (byteChar b).toNat = b.toNat := by
      unfold byteChar
      rw [Char.toNat_ofNat, if_pos (.inl (by omega))]
    rw [List.map_cons, List.flatMap_cons, ih hrest, utf8Bytes_ascii (hchar ▸ hlt), hchar, UInt8.ofNat_toNat]
    rfl

theorem bytesOf_eq_nil_iff {text : String} : bytesOf text = [] ↔ text = "" := by
  refine ⟨fun h => ?_, fun h => h ▸ bytesOf_empty⟩
  have := utf8Text?_bytesOf text
  rw [h, ← bytesOf_empty, utf8Text?_bytesOf] at this
  exact (Option.some.inj this).symm

/-! ### Marks -/

@[simp] theorem bytesOf_space : bytesOf " " = [0x20] := by cbv

@[simp] theorem bytesOf_newline : bytesOf "\n" = [0x0a] := by cbv

@[simp] theorem bytesOf_comma : bytesOf ", " = [0x2c, 0x20] := by cbv

@[simp] theorem bytesOf_colon : bytesOf ": " = [0x3a, 0x20] := by cbv

@[simp] theorem bytesOf_equals : bytesOf " = " = [0x20, 0x3d, 0x20] := by cbv

@[simp] theorem bytesOf_ampersand : bytesOf " & " = [0x20, 0x26, 0x20] := by cbv

@[simp] theorem bytesOf_bar : bytesOf " | " = [0x20, 0x7c, 0x20] := by cbv

@[simp] theorem bytesOf_at : bytesOf " @" = [0x20, 0x40] := by cbv

@[simp] theorem bytesOf_exclamation : bytesOf "!" = [0x21] := by cbv

@[simp] theorem bytesOf_dollar : bytesOf "$" = [0x24] := by cbv

@[simp] theorem bytesOf_openParenthesis : bytesOf "(" = [0x28] := by cbv

@[simp] theorem bytesOf_closeParenthesis : bytesOf ")" = [0x29] := by cbv

@[simp] theorem bytesOf_openBracket : bytesOf "[" = [0x5b] := by cbv

@[simp] theorem bytesOf_closeBracket : bytesOf "]" = [0x5d] := by cbv

@[simp] theorem bytesOf_openBrace : bytesOf "\x7b" = [0x7b] := by cbv

@[simp] theorem bytesOf_closeBrace : bytesOf "\x7d" = [0x7d] := by cbv

@[simp] theorem bytesOf_openBody : bytesOf " \x7b\n" = [0x20, 0x7b, 0x0a] := by cbv

@[simp] theorem bytesOf_closeBody : bytesOf "\x7d\n" = [0x7d, 0x0a] := by cbv

end GraphQL
