import Cpcf.Rt.StringTerminated

/-!
The buffers of several strings, and what an operation on one of them leaves of the others.

A new block lies behind all that was allocated, so what a string held is found in the longer buffer it gets, and a
text that is not in the buffer of a string is not changed by writing to it.
-/

namespace Cpcf.Rt.StringOwned

open Cpcf.Lib.Memory Cpcf.Rt.StringRef

/-- Two strings have their buffers in allocated memory, and the buffers do not overlap. -/
def Beside (h : Heap) (s d : Str) : Prop :=
  s.p + s.reserved ≤ h.brk ∧ d.p + d.reserved ≤ h.brk ∧ (s.p + s.reserved ≤ d.p ∨ d.p + d.reserved ≤ s.p)

instance (h : Heap) (s d : Str) : Decidable (Beside h s d) := inferInstanceAs (Decidable (_ ∧ _ ∧ _))

section

variable {h : Heap} {s d : Str}

theorem changeSize_below (h : Heap) (s : Str) (n : ℕ) {a : ℕ} (ha : a < h.brk) :
    (changeSize h s n).1.mem a = h.mem a := by
  rw [changeSize]
  split
  · rfl
  · exact memcpy_outside _ _ (Or.inl ha)

theorem changeSize_beside (hb : Beside h s d) (n : ℕ) : Beside (changeSize h s n).1 (changeSize h s n).2 d := by
  obtain ⟨h1, h2, h3⟩ := hb
  rw [changeSize]
  split
  · exact ⟨h1, h2, h3⟩
  · exact ⟨le_rfl, h2.trans (Nat.le_add_right _ _), Or.inr h2⟩

theorem setLength_beside (hb : Beside h s d) (n : ℕ) : Beside (setLength h s n).1 (setLength h s n).2 d := by
  rw [setLength]
  split
  · split
    · exact hb
    · exact hb
  · exact changeSize_beside hb _

theorem assign_beside (hb : Beside h s d) (x : Ref) : Beside (assign h s x).1 (assign h s x).2 d := by
  rw [assign]
  split
  · exact setLength_beside hb 0
  · exact changeSize_beside hb _

/-- A text beside the buffer is not changed by `SetLength`. -/
theorem setLength_holds (hs : Sized s) {x : Ref} (hx : Apart h s x) (n : ℕ) {xs : List UInt8}
    (hxs : Holds h.mem x.p xs) (hlen : xs.length ≤ x.getLength) : Holds (setLength h s n).1.mem x.p xs := by
  have hstop : x.stop = x.p + x.getLength := rfl
  by_cases hn : n = 0
  · rw [hn, setLength, if_pos rfl]
    split
    · have hle := hs.len_le
      have hap := hx.2
      exact hxs.poke (by omega)
    · exact hxs
  · exact hxs.congr fun a h1 h2 => (setLength_apart hx hn).1 a h1 (by omega)

/-- What a longer buffer starts with. -/
theorem setLength_read (h : Heap) (s : Str) {n k : ℕ} (hn : n ≠ 0) (hk : k ≤ n) (hlen : k ≤ s.len) :
    Holds (setLength h s n).1.mem (setLength h s n).2.p (read h.mem s.p k) := by
  rw [setLength, if_neg hn]
  dsimp only
  refine Holds.congr (m := (changeSize h s (n + 1)).1.mem) ?_ fun a h1 h2 => ?_
  · rw [changeSize]
    split
    · exact holds_read _ _ _
    · obtain ⟨l, hl⟩ := Nat.exists_eq_add_of_le hlen
      have hcopy := holds_memcpy h.mem h.brk (read h.mem s.p s.len)
      rw [hl, read_add, holds_append] at hcopy
      rw [hl, read_add]
      exact hcopy.1
  · rw [length_read] at h2
    exact poke_other _ _ (by omega)

theorem assign_text (hs : Sized s) {x : Ref} (hx : x.stop ≤ h.brk) (hnull : x.p = 0 → x.getLength = 0) :
    (assign h s x).2.text (assign h s x).1.mem = x.text h.mem := by
  rw [assign]
  split
  · rename_i hempty
    have hzero : x.getLength = 0 := by
      by_contra hpos
      refine (x.not_isEmpty_iff.mpr ⟨mt hnull hpos, ?_⟩) hempty
      rw [Ref.getLength] at hpos
      omega
    rw [Ref.text, Ref.text, empty, setLength_getLength h hs 0, hzero]
    rfl
  · have hlen : (changeSize h s (x.getLength + 1)).2.getLength = x.getLength := by
      rw [Ref.getLength, (changeSize_spec h hs x.getLength.succ_pos).1]
      rfl
    have hread : read (changeSize h s (x.getLength + 1)).1.mem x.p x.getLength = x.text h.mem :=
      read_congr fun a h1 h2 => changeSize_below h s _ (h2.trans_le hx)
    have htext : (x.text h.mem).length = x.getLength := length_read _ _ _
    have hcopy := holds_memcpy (changeSize h s (x.getLength + 1)).1.mem (changeSize h s (x.getLength + 1)).2.p
      (x.text h.mem)
    rw [Ref.text]
    dsimp only [Heap.set]
    rw [hlen, hread]
    generalize x.text h.mem = xs at *
    rw [← htext] at hcopy ⊢
    refine Holds.read_eq (hcopy.congr fun a h1 h2 => poke_other _ _ ?_)
    omega

end

end Cpcf.Rt.StringOwned
