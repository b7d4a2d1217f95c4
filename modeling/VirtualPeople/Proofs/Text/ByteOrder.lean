import Mathlib.Data.UInt
import Mathlib.Order.Defs.LinearOrder
import Mathlib.Tactic.SplitIfs

/-!
# The order of texts is the order of their bytes

UTF-8 keeps the order of characters: of two characters the one that comes first has the bytes that
come first, and neither has bytes that the other's start with (`utf8EncodeChar_append_lt`). So
a text that stands before another has the smaller bytes too (`bytes_lt_of_lt`).
-/

namespace VirtualPeople.Text

/-- The bytes of a text in UTF-8. -/
def bytes (s : String) : List UInt8 := s.toUTF8.data.toList

theorem bytes_eq (s : String) : bytes s = s.toList.flatMap String.utf8EncodeChar := by
  rw [bytes, String.toUTF8, ← String.utf8Encode_toList, List.utf8Encode,
    List.toList_data_toByteArray]

open String (utf8EncodeChar)

theorem val_lt (c : Char) : c.val.toNat < 0x110000 := by
  rcases c.valid with h | h <;> omega

/-- The digits of a number in base 64, of which the first may be larger. -/
theorem base64 (n : Nat) : n / 4096 = 64 * (n / 262144) + n / 4096 % 64 ∧
    n / 64 = 64 * (n / 4096) + n / 64 % 64 ∧ n = 64 * (n / 64) + n % 64 := by
  omega

/-- The leading byte tells how many bytes a character has, and more of them for later characters;
of two characters with as many bytes, the first byte in which they differ tells which is later. -/
theorem utf8EncodeChar_append_lt {c d : Char} (h : c < d) (s t : List UInt8) :
    utf8EncodeChar c ++ s < utf8EncodeChar d ++ t := by
  have hlt : c.val.toNat < d.val.toNat := h
  have hlast := val_lt d
  unfold utf8EncodeChar
  generalize c.val.toNat = v at hlt
  generalize d.val.toNat = w at hlt hlast
  simp only
  split_ifs <;> simp only [List.cons_append, List.nil_append, List.cons_lt_cons_iff,
    UInt8.lt_iff_toNat_lt, ← UInt8.toNat_inj, UInt8.toNat_ofNat'] <;>
    simp (disch := omega) only [Nat.mod_eq_of_lt (b := 2 ^ 8)] <;> try omega
  have hv := base64 v
  have hw := base64 w
  have hfirst : v / 262144 % 8 = v / 262144 ∧ w / 262144 % 8 = w / 262144 := by omega
  rw [hfirst.1, hfirst.2]
  omega

theorem utf8EncodeChar_ne_nil (c : Char) : utf8EncodeChar c ≠ [] := by
  unfold utf8EncodeChar
  simp only
  split_ifs <;> exact List.cons_ne_nil _ _

theorem flatMap_utf8EncodeChar_lt : ∀ {cs ds : List Char}, cs < ds →
    cs.flatMap utf8EncodeChar < ds.flatMap utf8EncodeChar
  | _, [], h => absurd h (List.not_lt_nil _)
  | [], d :: ds, _ => by
    obtain ⟨b, bs, hb⟩ := List.exists_cons_of_ne_nil (utf8EncodeChar_ne_nil d)
    rw [List.flatMap_nil, List.flatMap_cons, hb]
    exact List.nil_lt_cons _ _
  | c :: cs, d :: ds, h => by
    rw [List.flatMap_cons, List.flatMap_cons]
    rcases List.cons_lt_cons_iff.1 h with hlt | ⟨rfl, hrest⟩
    · exact utf8EncodeChar_append_lt hlt _ _
    · exact List.append_left_lt (flatMap_utf8EncodeChar_lt hrest)

/-- Texts stand in the order of their bytes. -/
theorem bytes_lt_of_lt {a b : String} (h : a < b) : bytes a < bytes b := by
  rw [bytes_eq, bytes_eq]
  exact flatMap_utf8EncodeChar_lt (String.lt_iff.1 h)

end VirtualPeople.Text
