import Mathlib.Data.List.Basic

/-!
# Bytes of a text in UTF-8

Only a scalar below 128 has a byte below 128, and then it is that byte.
-/
namespace Bbr.Lib

open List

theorem toNat_of_mem_utf8EncodeChar {c : Char} {b : UInt8} (h : b ∈ String.utf8EncodeChar c)
    (hb : b.toNat < 128) : c.toNat = b.toNat := by
  have hc : c.toNat = c.val.toNat := rfl
  simp only [String.utf8EncodeChar] at h
  split at h
  · have heq := mem_singleton.mp h
    rw [heq, UInt8.toNat_ofNat', hc]
    omega
  split at h
  · simp only [mem_cons, not_mem_nil, or_false] at h
    obtain rfl | rfl := h <;> simp only [UInt8.toNat_ofNat'] at hb <;> omega
  split at h
  · simp only [mem_cons, not_mem_nil, or_false] at h
    obtain rfl | rfl | rfl := h <;> simp only [UInt8.toNat_ofNat'] at hb <;> omega
  · simp only [mem_cons, not_mem_nil, or_false] at h
    obtain rfl | rfl | rfl | rfl := h <;> simp only [UInt8.toNat_ofNat'] at hb <;> omega

variable {text : List UInt8} {s : String}

theorem fromUTF8?_eq_some (h : String.fromUTF8? ⟨text.toArray⟩ = some s) :
    text = s.toList.flatMap String.utf8EncodeChar := by
  have hbytes : s.toByteArray = ⟨text.toArray⟩ := by
    rw [String.fromUTF8?] at h
    split at h
    · rw [← Option.some.inj h]
      rfl
    · cases h
  have hdata := congrArg (fun bytes => bytes.data.toList) hbytes
  rw [← String.utf8Encode_toList, utf8Encode] at hdata
  simpa using hdata.symm

theorem mem_toList_of_mem (h : String.fromUTF8? ⟨text.toArray⟩ = some s) {b : UInt8}
    (hmem : b ∈ text) (hb : b.toNat < 128) : ∃ c ∈ s.toList, c.toNat = b.toNat := by
  rw [fromUTF8?_eq_some h] at hmem
  obtain ⟨c, hc, hbyte⟩ := mem_flatMap.mp hmem
  exact ⟨c, hc, toNat_of_mem_utf8EncodeChar hbyte hb⟩

end Bbr.Lib
