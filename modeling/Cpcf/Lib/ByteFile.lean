import Mathlib.Data.List.Basic
import Mathlib.Tactic

/-!
A file as a sequence of bytes that is read and written at any position.

Writing overwrites what is there and makes the file longer where it ends too early; a gap that is left by writing
behind the end is filled with zeros.
-/

namespace Cpcf.Lib.ByteFile

/-- Up to `n` bytes from `pos` on. -/
def readAt (f : List UInt8) (pos n : ℕ) : List UInt8 := (f.drop pos).take n

/-- The bytes `bs` are written at `pos`. -/
def writeAt (f : List UInt8) (pos : ℕ) (bs : List UInt8) : List UInt8 :=
  if bs = [] then f else (f ++ List.replicate (pos - f.length) 0).take pos ++ (bs ++ f.drop (pos + bs.length))

variable (f : List UInt8) {pos k : ℕ} {bs : List UInt8}

theorem length_head : ((f ++ List.replicate (pos - f.length) 0).take pos).length = pos := by
  rw [List.length_take, List.length_append, List.length_replicate]
  omega

/-- What is written stands at its place, before what the file had behind it. -/
theorem drop_writeAt (h : bs ≠ []) : (writeAt f pos bs).drop pos = bs ++ f.drop (pos + bs.length) := by
  unfold writeAt
  rw [if_neg h]
  exact List.drop_left' (length_head f)

/-- The first of what was written is read. -/
theorem readAt_writeAt (bs cs : List UInt8) : readAt (writeAt f pos (bs ++ cs)) pos bs.length = bs := by
  by_cases h : bs ++ cs = []
  · rw [(List.append_eq_nil_iff.mp h).1]
    exact List.take_zero
  · rw [readAt, drop_writeAt f h, List.append_assoc]
    exact List.take_left' rfl

/-- Reading looks at no byte before its place. -/
theorem readAt_congr {f g : List UInt8} {n : ℕ} (h : f.drop k = g.drop k) (hk : k ≤ pos) :
    readAt f pos n = readAt g pos n := by
  have hpos : pos = k + (pos - k) := by omega
  rw [readAt, readAt, hpos, ← List.drop_drop, ← List.drop_drop, h]

/-- Behind what is written the file is the same. -/
theorem drop_writeAt_behind (bs : List UInt8) (hk : pos + bs.length ≤ k) : (writeAt f pos bs).drop k = f.drop k := by
  by_cases h : bs = []
  · rw [h, writeAt, if_pos rfl]
  · have hsplit : k = pos + (bs.length + (k - (pos + bs.length))) := by omega
    have hback : pos + bs.length + (k - (pos + bs.length)) = k := by omega
    rw [hsplit, ← List.drop_drop, drop_writeAt f h, ← List.drop_drop, List.drop_left, List.drop_drop, ← hsplit, hback]

/-- Bytes that are written one behind the other are written at once. -/
theorem writeAt_append (bs cs : List UInt8) :
    writeAt (writeAt f pos bs) (pos + bs.length) cs = writeAt f pos (bs ++ cs) := by
  by_cases hb : bs = []
  · have hsame : writeAt f pos [] = f := if_pos rfl
    rw [hb, hsame]
    rfl
  by_cases hc : cs = []
  · rw [hc, List.append_nil]
    exact if_pos rfl
  have hhead : ((f ++ List.replicate (pos - f.length) 0).take pos).length = pos := length_head f
  have hdrop := drop_writeAt_behind f bs (k := pos + bs.length + cs.length) (Nat.le_add_right (pos + bs.length) cs.length)
  have hpad : ((writeAt f pos bs) ++ List.replicate (pos + bs.length - (writeAt f pos bs).length) 0).take
      (pos + bs.length) = (f ++ List.replicate (pos - f.length) 0).take pos ++ bs := by
    have hlen : pos + bs.length ≤ (writeAt f pos bs).length := by
      rw [writeAt, if_neg hb, List.length_append, hhead, List.length_append]
      omega
    rw [List.take_append_of_le_length hlen, writeAt, if_neg hb, ← List.append_assoc]
    exact List.take_left' (by rw [List.length_append, hhead])
  rw [writeAt, if_neg hc, hpad, hdrop, writeAt, if_neg (by simp [hb]), List.length_append]
  simp only [List.append_assoc, Nat.add_assoc]

end Cpcf.Lib.ByteFile
