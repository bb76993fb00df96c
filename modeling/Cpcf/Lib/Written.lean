import Cpcf.Lib.Memory

/-!
Text written by a loop.

A loop that writes a text byte after byte returns the memory and the place behind the text. `Written` tells which text
that is and that nothing before it was changed, so that the loops of an in-place rewriting are followed from their
ends: what the rest of a loop writes comes behind the byte that was written first.
-/

namespace Cpcf.Lib.Memory

/-- From `out` on the text `w` was written, and nothing before it. -/
structure Written (m : Mem) (out : ℕ) (w : List UInt8) (t : Mem × ℕ) : Prop where
  stop : t.2 = out + w.length
  holds : Holds t.1 out w
  below : ∀ a < out, t.1 a = m a

section

variable {m : Mem} {out : ℕ} {w : List UInt8} {s t : Mem × ℕ}

theorem Written.nil (m : Mem) (out : ℕ) : Written m out [] (m, out) := ⟨rfl, holds_nil, fun _ _ => rfl⟩

/-- A byte, and what was written behind it. -/
theorem Written.cons {c : UInt8} (h : Written (poke m out c) (out + 1) w t) : Written m out (c :: w) t := by
  refine ⟨?_, ⟨?_, h.holds⟩, fun a ha => ?_⟩
  · rw [h.stop, List.length_cons]
    omega
  · rw [h.below out (Nat.lt_succ_self out), poke_same]
  · rw [h.below a (by omega), poke_other _ _ (by omega)]

/-- What was written behind another text. -/
theorem Written.append {u : List UInt8} (h : Written m out w t) (h' : Written t.1 t.2 u s) :
    Written m out (w ++ u) s := by
  have hstop := h.stop
  refine ⟨?_, holds_append.mpr ⟨?_, ?_⟩, fun a ha => ?_⟩
  · rw [h'.stop, hstop, List.length_append, Nat.add_assoc]
  · exact h.holds.congr fun a _ ha => h'.below a (by omega)
  · exact hstop ▸ h'.holds
  · exact (h'.below a (by omega)).trans (h.below a ha)

/-- A byte behind what was written. -/
theorem Written.snoc (h : Written m out w t) (c : UInt8) : Written m out (w ++ [c]) (poke t.1 t.2 c, t.2 + 1) := by
  have hstop := h.stop
  refine ⟨?_, holds_append.mpr ⟨?_, ?_, holds_nil⟩, fun a ha => ?_⟩
  · simp only [hstop, List.length_append, List.length_singleton, Nat.add_assoc]
  · exact h.holds.poke (by omega)
  · exact hstop ▸ poke_same t.1 t.2 c
  · exact (poke_other _ _ (by omega)).trans (h.below a ha)

/-- The text can be read back. -/
theorem Written.read_stop (h : Written m out w t) : read t.1 out (t.2 - out) = w := by
  rw [h.stop, Nat.add_sub_cancel_left]
  exact h.holds.read_eq

/-- Something can be put behind it. -/
theorem Written.read_eq (h : Written m out w t) (c : UInt8) : read (poke t.1 t.2 c) out (t.2 - out) = w := by
  have hstop := h.stop
  rw [read_congr fun a _ ha => poke_other _ _ (by omega)]
  exact h.read_stop

end

end Cpcf.Lib.Memory
