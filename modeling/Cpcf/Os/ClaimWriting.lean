import Mathlib
import Cpcf.Os.ParallelWriter

/-!
`ParallelWriter::ClaimWriting` of `os/multi_thread.h` in the arithmetic of the code.

`Used` is an `int` to which `AtomicAdd` adds the size of every claim, also of one that fails, and the test for room is
made with `int`s. A round is what happens between two write-downs: `Used` is zero at its start, and the claims follow
one another in the order of their additions, whatever threads they come from.

While the additions stay below `2 ^ 31` this is the `claimWriting` of the machine of the writer.
-/

namespace Cpcf.Os.ClaimWriting

open Cpcf.Lib.Word Cpcf.Lib.Run
open Cpcf.Os
open Cpcf.Os.ParallelWriter (chunkHeaderSize)

/-! ### The code -/

/-- A number as a `SIZE_T`. -/
def sizeT (x : ℤ) : ℤ := x % 2 ^ 64

/-- `AtomicAdd(theAmount, theValue)`: what it returns, which is what `*theValue` becomes. -/
def atomicAdd (theAmount theValue : ℤ) : ℤ := intOf (theAmount + theValue)

/-- A round: `Used`, and the chunks that were returned, each with its size. -/
structure Round where
  used : ℤ
  chunks : List (ℤ × ℕ)
  deriving DecidableEq

/-- The start of a round. -/
def start : Round := ⟨0, []⟩

/-- `ClaimWriting(size)` in a buffer of the size `_WriteBufferSize`, with the place of the chunk. -/
def claimWriting (writeBufferSize : ℕ) (r : Round) (size : UInt32) : Round × Option ℤ :=
  let amount := sizeT (size.toNat + chunkHeaderSize)
  let used := atomicAdd (intOf amount) r.used
  let chunk := intOf (sizeT (sizeT used - amount))
  if intOf (intOf (chunk + intOf size.toNat) + intOf chunkHeaderSize) ≤ intOf writeBufferSize then
    (⟨used, r.chunks ++ [(chunk, size.toNat)]⟩, some chunk)
  else (⟨used, r.chunks⟩, none)

/-- One claim. -/
def step (writeBufferSize : ℕ) (r : Round) (size : UInt32) : Option Round := some (claimWriting writeBufferSize r size).1

/-! ### What is claimed -/

/-- The end of a chunk. -/
def stop (c : ℤ × ℕ) : ℤ := c.1 + chunkHeaderSize + c.2

/-- The chunks lie inside the buffer and have no byte in common. -/
structure Inside (writeBufferSize : ℕ) (chunks : List (ℤ × ℕ)) : Prop where
  within : ∀ c ∈ chunks, 0 ≤ c.1 ∧ stop c ≤ writeBufferSize
  apart : chunks.Pairwise fun c d => Disjoint (Set.Ico c.1 (stop c)) (Set.Ico d.1 (stop d))

/-- The condition on a claim: the sum of `Used` and the chunk is no `int` overflow, or comes out, as an `int`, larger
than the buffer. -/
def Fits (writeBufferSize : ℕ) (r : Round) (size : UInt32) : Prop :=
  r.used + size.toNat + chunkHeaderSize < 2 ^ 31 ∨ writeBufferSize < intOf (r.used + size.toNat + chunkHeaderSize)

instance (writeBufferSize : ℕ) (r : Round) (size : UInt32) : Decidable (Fits writeBufferSize r size) :=
  inferInstanceAs (Decidable (_ ∨ _))

/-! ### One claim -/

section Claim

variable {W : ℕ} {r : Round} {size : UInt32}

theorem sizeT_modEq (x : ℤ) : sizeT x ≡ x [ZMOD 2 ^ 32] := Int.emod_emod_of_dvd x (by norm_num)

/-- Whatever the intermediate sums are, the place is the old `Used`, and the test is made on the new one. -/
theorem claimWriting_eq (hW : W < 2 ^ 31) (h1 : -2 ^ 31 ≤ r.used) (h2 : r.used < 2 ^ 31) :
    claimWriting W r size =
      if intOf (r.used + size.toNat + 8) ≤ W then
        (⟨intOf (r.used + size.toNat + 8), r.chunks ++ [(r.used, size.toNat)]⟩, some r.used)
      else (⟨intOf (r.used + size.toNat + 8), r.chunks⟩, none) := by
  have hamount : sizeT (size.toNat + chunkHeaderSize) ≡ size.toNat + 8 [ZMOD 2 ^ 32] := sizeT_modEq _
  have hused : atomicAdd (intOf (sizeT (size.toNat + chunkHeaderSize))) r.used = intOf (r.used + size.toNat + 8) := by
    refine intOf_congr ?_
    calc intOf (sizeT (size.toNat + chunkHeaderSize)) + r.used
        ≡ size.toNat + 8 + r.used [ZMOD 2 ^ 32] := ((intOf_modEq _).trans hamount).add_right _
      _ = r.used + size.toNat + 8 := by ring
  have hchunk : intOf (sizeT (sizeT (intOf (r.used + size.toNat + 8)) - sizeT (size.toNat + chunkHeaderSize))) =
      r.used := by
    rw [← intOf_eq h1 h2]
    refine intOf_congr ?_
    calc sizeT (sizeT (intOf (intOf r.used + size.toNat + 8)) - sizeT (size.toNat + chunkHeaderSize))
        ≡ sizeT (intOf (intOf r.used + size.toNat + 8)) - sizeT (size.toNat + chunkHeaderSize) [ZMOD 2 ^ 32] :=
          sizeT_modEq _
      _ ≡ intOf r.used + size.toNat + 8 - (size.toNat + 8) [ZMOD 2 ^ 32] :=
          ((sizeT_modEq _).trans (intOf_modEq _)).sub hamount
      _ = intOf r.used := by ring
      _ ≡ r.used [ZMOD 2 ^ 32] := intOf_modEq _
  have htest : intOf (intOf (r.used + intOf size.toNat) + intOf chunkHeaderSize) = intOf (r.used + size.toNat + 8) := by
    refine intOf_congr ?_
    exact ((intOf_modEq _).trans ((intOf_modEq _).add_left _)).add (intOf_modEq _)
  have hbuf : intOf W = W := intOf_eq (by omega) (by omega)
  simp only [claimWriting, hused, hchunk, htest, hbuf]

/-- A claim of the machine of the writer, as long as the sum is an `int`. -/
theorem claimWriting_agrees {s : ParallelWriter.State} (hW : s.writeBufferSize < 2 ^ 31) (hr : r.used = s.front.used)
    (hlt : s.front.used + (size.toNat + chunkHeaderSize) < 2 ^ 31) :
    ((ParallelWriter.claimWriting s size.toNat).1.front.used : ℤ) = (claimWriting s.writeBufferSize r size).1.used ∧
      (ParallelWriter.claimWriting s size.toNat).2 =
        (claimWriting s.writeBufferSize r size).2.map fun chunk => s.front.pBuf + chunk.toNat + chunkHeaderSize := by
  rw [chunkHeaderSize] at hlt
  have hsum : intOf (r.used + size.toNat + 8) = r.used + size.toNat + 8 := intOf_eq (by omega) (by omega)
  have hbuf : intOf s.writeBufferSize = s.writeBufferSize := intOf_eq (by omega) (by omega)
  rw [claimWriting_eq hW (by omega) (by omega), hsum, hr, ParallelWriter.claimWriting]
  simp only [hbuf, chunkHeaderSize, Nat.cast_add, Nat.cast_ofNat]
  split
  · exact ⟨by simp only [Nat.cast_add, Nat.cast_ofNat]; omega, by rw [Option.map_some, Int.toNat_natCast]⟩
  · exact ⟨by simp only [Nat.cast_add, Nat.cast_ofNat]; omega, rfl⟩

/-- One more chunk, behind the others. -/
theorem Inside.snoc {cs : List (ℤ × ℕ)} {d : ℤ × ℕ} (h : Inside W cs) (hbehind : ∀ c ∈ cs, stop c ≤ d.1) (h0 : 0 ≤ d.1)
    (hd : stop d ≤ W) : Inside W (cs ++ [d]) := by
  constructor
  · intro c hc
    obtain hc | hc := List.mem_append.mp hc
    · exact h.within c hc
    · obtain rfl := List.mem_singleton.mp hc
      exact ⟨h0, hd⟩
  · refine List.pairwise_append.mpr ⟨h.apart, List.pairwise_singleton _ _, ?_⟩
    intro c hc e he
    obtain rfl := List.mem_singleton.mp he
    exact Set.Ico_disjoint_Ico.mpr ((min_le_left _ _).trans ((hbehind c hc).trans (le_max_right _ _)))

/-- What every claim keeps. -/
structure Kept (W : ℕ) (r : Round) : Prop where
  lower : -2 ^ 31 ≤ r.used
  upper : r.used < 2 ^ 31
  behind : Inside W r.chunks → 0 ≤ r.used ∧ ∀ c ∈ r.chunks, stop c ≤ r.used

theorem kept_start (W : ℕ) : Kept W start := ⟨by norm_num [start], by norm_num [start], fun _ => ⟨le_rfl, by simp [start]⟩⟩

theorem inside_start (W : ℕ) : Inside W start.chunks := ⟨by simp [start], List.Pairwise.nil⟩

/-- **One claim.** -/
theorem claim_inside_iff (hW : W < 2 ^ 31) (h : Kept W r) (hi : Inside W r.chunks) (size : UInt32) :
    Kept W (claimWriting W r size).1 ∧ (Inside W (claimWriting W r size).1.chunks ↔ Fits W r size) := by
  obtain ⟨h0, hbehind⟩ := h.behind hi
  obtain ⟨hlower, hupper⟩ := intOf_bounds (r.used + size.toNat + 8)
  have hstop : stop (r.used, size.toNat) = r.used + size.toNat + 8 := by
    simp only [stop, chunkHeaderSize, Nat.cast_ofNat]
    omega
  rw [claimWriting_eq hW h.lower h.upper, Fits]
  simp only [chunkHeaderSize, Nat.cast_ofNat]
  by_cases hint : r.used + size.toNat + 8 < 2 ^ 31
  · have hsum : intOf (r.used + size.toNat + 8) = r.used + size.toNat + 8 := intOf_eq (by omega) hint
    rw [hsum] at hlower hupper ⊢
    split
    · rename_i hfit
      have hnew : Inside W (r.chunks ++ [(r.used, size.toNat)]) := hi.snoc hbehind h0 (hstop.trans_le hfit)
      refine ⟨⟨hlower, hupper, fun _ => ⟨by dsimp only; omega, ?_⟩⟩, iff_of_true hnew (.inl hint)⟩
      intro c hc
      obtain hc | hc := List.mem_append.mp hc
      · have := hbehind c hc
        dsimp only
        omega
      · obtain rfl := List.mem_singleton.mp hc
        exact hstop.le
    · refine ⟨⟨hlower, hupper, fun _ => ⟨by dsimp only; omega, ?_⟩⟩, iff_of_true hi (.inl hint)⟩
      intro c hc
      have := hbehind c hc
      dsimp only
      omega
  · split
    · rename_i hfit
      -- the sum has become small: the chunk goes beyond the buffer
      have hout : ¬ Inside W (r.chunks ++ [(r.used, size.toNat)]) := by
        intro hnew
        have := (hnew.within (r.used, size.toNat) (List.mem_append_right _ (List.mem_singleton_self _))).2
        omega
      refine ⟨⟨hlower, hupper, fun hnew => absurd hnew hout⟩, iff_of_false hout ?_⟩
      rintro (hlt | hlt) <;> omega
    · rename_i hfull
      refine ⟨⟨hlower, hupper, fun _ => ⟨by dsimp only; omega, ?_⟩⟩, iff_of_true hi (.inr (not_le.mp hfull))⟩
      intro c hc
      have := (hi.within c hc).2
      dsimp only
      omega

end Claim

/-! ### A round -/

/-- **Claims stay inside the buffer.** The chunks returned in a round lie inside the buffer and apart from each other
after every claim, if and only if every claim meets the condition. -/
theorem claims_inside_iff {W : ℕ} (hW : W < 2 ^ 31) (sizes : List UInt32) :
    Along (step W) (Fits W) start sizes ↔
      ∀ as r, as <+: sizes → run (step W) start as = some r → Inside W r.chunks := by
  refine along_iff_prefixes (I := fun r => Inside W r.chunks) (J := Kept W) ?_ ?_ (kept_start W) (inside_start W) sizes
  · intro r size h
    cases h
  · intro r size t h hi ht
    obtain rfl := Option.some.inj ht
    exact claim_inside_iff hW h hi size

/-- A claim that fails between two others. -/
theorem claims_inside_three : Along (step 1024) (Fits 1024) start [8, 2000, 16] ∧
    ∀ as r, as <+: [8, 2000, 16] → run (step 1024) start as = some r → Inside 1024 r.chunks :=
  ⟨by decide, (claims_inside_iff (by decide) [8, 2000, 16]).mp (by decide)⟩

/-- The sum with the largest size comes out as `7`, and the chunk is returned. -/
theorem claim_outside : ¬ ∀ W : ℕ, W < 2 ^ 31 → ∀ (sizes : List UInt32) (r : Round),
    run (step W) start sizes = some r → Inside W r.chunks := by
  intro h
  have hrun : run (step 1024) start [0xffffffff] = some ⟨7, [(0, 4294967295)]⟩ := by decide +kernel
  have hin := h 1024 (by decide) [0xffffffff] ⟨7, [(0, 4294967295)]⟩ hrun
  have hstop := (hin.within (0, 4294967295) (List.mem_singleton_self _)).2
  norm_num [stop, chunkHeaderSize] at hstop

end Cpcf.Os.ClaimWriting
