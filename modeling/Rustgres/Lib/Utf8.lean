-- SUMMARY: Strings and the byte strings that encode them.
import Mathlib.Data.List.Basic

/-!
# UTF-8

A string stands for its bytes, and bytes that are valid stand for one string.
-/

namespace Utf8

def bytes (s : String) : List UInt8 := s.toByteArray.data.toList

def ofBytes (bs : List UInt8) : Option String := String.fromUTF8? ⟨bs.toArray⟩

theorem ofBytes_bytes (s : String) : ofBytes (bytes s) = some s := by
  have hvalid : (⟨(bytes s).toArray⟩ : ByteArray).IsValidUTF8 := by
    unfold bytes
    simpa using s.isValidUTF8
  unfold ofBytes String.fromUTF8?
  rw [dif_pos hvalid]
  unfold bytes String.fromUTF8
  simp

theorem bytes_of_ofBytes {bs : List UInt8} {s : String} (h : ofBytes bs = some s) : bytes s = bs := by
  unfold ofBytes String.fromUTF8? at h
  split at h
  · cases h
    unfold bytes String.fromUTF8
    simp
  · cases h

theorem bytes_inj {s s' : String} (h : bytes s = bytes s') : s = s' := by
  have hs := ofBytes_bytes s
  rw [h, ofBytes_bytes] at hs
  exact (Option.some.inj hs).symm

end Utf8
