import Mathlib.Data.String.Basic
import Mathlib.Tactic.SplitIfs

/-! # Texts and their bytes

Texts are compared character by character.  The bytes by which they are written down say the same:
of two characters, the one that comes first has the bytes that come first, and they differ in one
that both have.

* `encoded_append_lt`: the bytes of characters, whatever follows them.
* `lt_iff_bytes_lt`: texts come in the order of their bytes. -/

namespace NumericScript.Text

open String (utf8EncodeChar)

/-- The bytes of a text in UTF-8. -/
def bytes (s : String) : List UInt8 := s.toByteArray.data.toList

theorem bytes_eq (s : String) : bytes s = s.toList.flatMap utf8EncodeChar := by
  rw [bytes, ← String.utf8Encode_toList, List.utf8Encode, List.data_toByteArray]

theorem ofNat_cons_lt {p q : Nat} (hle : p ≤ q) (hq : q < 256) {r r' : List UInt8}
    (h : p = q → r < r') : UInt8.ofNat p :: r < UInt8.ofNat q :: r' := by
  rw [List.cons_lt_cons_iff]
  obtain hlt | rfl := Nat.lt_or_eq_of_le hle
  · refine .inl (UInt8.lt_iff_toNat_lt.2 ?_)
    rwa [UInt8.toNat_ofNat_of_lt' (hlt.trans hq), UInt8.toNat_ofNat_of_lt' hq]
  · exact .inr ⟨rfl, h rfl⟩

/-- The bytes of characters come in the order of the characters, whatever follows them. -/
theorem encoded_append_lt {c d : Char} (h : c < d) (r r' : List UInt8) :
    utf8EncodeChar c ++ r < utf8EncodeChar d ++ r' := by
  have hlt : c.val.toNat < d.val.toNat := h
  have hd : d.val.toNat < 0x110000 := by
    obtain hd | hd := d.valid
    · exact hd.trans (by decide)
    · exact hd.2
  unfold utf8EncodeChar
  generalize c.val.toNat = m at *
  generalize d.val.toNat = n at *
  dsimp only
  -- One case for every two lengths.  Bytes are compared as long as they are equal, and they are not
  -- equal to the end; of different lengths, not even the first are.
  split_ifs
  all_goals
    repeat refine ofNat_cons_lt (by omega) (by omega) fun _ => ?_
    omega

theorem append_lt_append {l l' : List UInt8} (h : l < l') (r : List UInt8) : r ++ l < r ++ l' := by
  induction r with
  | nil => exact h
  | cons x r ih => exact List.cons_lt_cons_iff.2 (.inr ⟨rfl, ih⟩)

theorem flatMap_encode_lt {l l' : List Char} (h : l < l') :
    l.flatMap utf8EncodeChar < l'.flatMap utf8EncodeChar := by
  induction l generalizing l' with
  | nil =>
    cases l' with
    | nil => exact absurd h (List.lt_irrefl _)
    | cons d l' =>
      obtain ⟨x, r, hx⟩ := List.exists_cons_of_ne_nil (String.utf8EncodeChar_ne_nil (c := d))
      rw [List.flatMap_nil, List.flatMap_cons, hx]
      exact List.nil_lt_cons x _
  | cons c l ih =>
    cases l' with
    | nil => exact absurd h (List.not_lt_nil _)
    | cons d l' =>
      rw [List.flatMap_cons, List.flatMap_cons]
      obtain hlt | ⟨rfl, hl⟩ := List.cons_lt_cons_iff.1 h
      · exact encoded_append_lt hlt _ _
      · exact append_lt_append (ih hl) _

/-- Texts come in the order of their bytes. -/
theorem lt_iff_bytes_lt {s t : String} : s < t ↔ bytes s < bytes t := by
  have hmono {s t : String} (h : s < t) : bytes s < bytes t := by
    rw [bytes_eq, bytes_eq]
    exact flatMap_encode_lt (String.lt_iff_toList_lt.1 h)
  refine ⟨hmono, fun h => ?_⟩
  obtain hst | rfl | hts := lt_trichotomy s t
  · exact hst
  · exact absurd h (List.lt_irrefl _)
  · exact absurd (hmono hts) (List.lt_asymm h)

end NumericScript.Text
