import Mathlib.Tactic

/-!
`BooleanArray` of `rt/buffer_type.h`: `BIT_SIZE` bits in blocks of 64.

Indices and shift amounts are `UINT`. A read or a write of a block outside the array is `none`, and so is a
machine shift by the width of a block or more. `BIT_SIZE` is a template argument of at least one for which
the number of blocks is computed without a wrap: with a wrap it is zero, and there is no such array.

`blockAt` and `bitAt` are the array as functions of the index, zero behind the last block. The bits of the
last block behind `BIT_SIZE` are part of the array; the constructor leaves them as they are in memory.
-/

namespace Cpcf.Rt.BooleanArray

/-! ### The array -/

/-- `BIT_SIZE`. -/
structure BitSize where
  bits : ℕ
  pos : 1 ≤ bits
  fits : bits + 63 < 2 ^ 32

/-- `BLOCK_COUNT`. -/
def BitSize.blockCount (n : BitSize) : ℕ := (n.bits + 64 - 1) % 2 ^ 32 / 64

/-- The array. -/
structure BooleanArray (n : BitSize) where
  blocks : Vector (BitVec 64) n.blockCount
  deriving DecidableEq

/-- A difference of two `UINT`. -/
def sub (a b : ℕ) : ℕ := (a + 2 ^ 32 - b) % 2 ^ 32

/-- A sum of two `UINT`. -/
def add (a b : ℕ) : ℕ := (a + b) % 2 ^ 32

/-- `x << s`. -/
def shl (x : BitVec 64) (s : ℕ) : Option (BitVec 64) := if s < 64 then some (x <<< s) else none

/-- `x >> s`. -/
def shr (x : BitVec 64) (s : ℕ) : Option (BitVec 64) := if s < 64 then some (x >>> s) else none

/-- `_BlockBitmask(idx)`. -/
def blockBitmask (idx : ℕ) : BitVec 64 := 1#64 <<< (idx % 64)

theorem add_eq {a b : ℕ} (h : a + b < 2 ^ 32) : add a b = a + b := Nat.mod_eq_of_lt h

theorem sub_eq {a b : ℕ} (h : b ≤ a) (ha : a < 2 ^ 32) : sub a b = a - b := by
  unfold sub
  omega

section Size

variable (n : BitSize)

theorem blockCount_eq : n.blockCount = (n.bits + 63) / 64 := by
  have := n.fits
  unfold BitSize.blockCount
  omega

theorem blockCount_pos : 0 < n.blockCount := by
  have := n.pos
  rw [blockCount_eq]
  omega

theorem bits_le : n.bits ≤ 64 * n.blockCount := by
  rw [blockCount_eq]
  omega

theorem blockCount_lt : n.blockCount < 2 ^ 26 := by
  have := n.fits
  rw [blockCount_eq]
  omega

/-- The size is the number of full blocks but the last, and the rest of it. -/
theorem bits_eq (h : n.bits % 64 ≠ 0) : n.bits = 64 * (n.blockCount - 1) + n.bits % 64 := by
  rw [blockCount_eq]
  omega

theorem bits_eq_full (h : n.bits % 64 = 0) : n.bits = 64 * n.blockCount := by
  rw [blockCount_eq]
  omega

variable {n}

theorem div_lt_blockCount {j : ℕ} (h : j < n.bits) : j / 64 < n.blockCount := by
  have := bits_le n
  omega

end Size

variable {n : BitSize}

namespace BooleanArray

/-- `_Bits[i]`, zero behind the array. -/
def blockAt (a : BooleanArray n) (i : ℕ) : BitVec 64 := a.blocks[i]?.getD 0#64

/-- The bit at the index `j`, of all blocks. -/
def bitAt (a : BooleanArray n) (j : ℕ) : Bool := (a.blockAt (j / 64)).getLsbD (j % 64)

/-- `_Bits[i]` is read. -/
def read (a : BooleanArray n) (i : ℕ) : Option (BitVec 64) := a.blocks[i]?

/-- `_Bits[i]` is written. -/
def write (a : BooleanArray n) (i : ℕ) (x : BitVec 64) : Option (BooleanArray n) :=
  if h : i < n.blockCount then some ⟨a.blocks.set i x h⟩ else none

/-- `Get(idx)`. -/
def get (a : BooleanArray n) (idx : Fin n.bits) : Bool :=
  decide (a.blocks.get ⟨idx / 64, div_lt_blockCount idx.isLt⟩ &&& blockBitmask idx ≠ 0#64)

/-- `Set(idx, v)`. -/
def set (a : BooleanArray n) (idx : Fin n.bits) (v : Bool) : BooleanArray n :=
  let block := a.blocks.get ⟨idx / 64, div_lt_blockCount idx.isLt⟩
  ⟨a.blocks.set (idx / 64) (if v then block ||| blockBitmask idx else block &&& ~~~(blockBitmask idx))
    (div_lt_blockCount idx.isLt)⟩

/-- `Reset(idx)`. -/
def reset (a : BooleanArray n) (idx : Fin n.bits) : BooleanArray n := a.set idx false

/-- `_ClearTrailingBits()`. -/
def clearTrailingBits (a : BooleanArray n) : Option (BooleanArray n) := do
  let mask ← shr (BitVec.allOnes 64) (64 - n.bits % 64)
  let block ← a.read (n.blockCount - 1)
  a.write (n.blockCount - 1) (block &&& mask)

/-- The array after `False()`. -/
def allFalse : BooleanArray n := ⟨Vector.replicate n.blockCount 0#64⟩

/-- The array after `True()`. -/
def allTrue : Option (BooleanArray n) := clearTrailingBits ⟨Vector.replicate n.blockCount (BitVec.allOnes 64)⟩

/-- `operator ^= (x)`. -/
def xorAssign (a x : BooleanArray n) : BooleanArray n := ⟨Vector.zipWith (· ^^^ ·) a.blocks x.blocks⟩

/-- `operator |= (x)`. -/
def orAssign (a x : BooleanArray n) : BooleanArray n := ⟨Vector.zipWith (· ||| ·) a.blocks x.blocks⟩

/-! ### Blocks and bits -/

section Blocks

variable {a t : BooleanArray n} {i : ℕ}

theorem blockAt_eq (h : i < n.blockCount) : a.blockAt i = a.blocks[i] := by
  rw [blockAt, Vector.getElem?_eq_getElem h, Option.getD_some]

theorem blockAt_of_le (h : n.blockCount ≤ i) : a.blockAt i = 0#64 := by
  rw [blockAt, Vector.getElem?_eq_none h, Option.getD_none]

theorem read_eq (h : i < n.blockCount) : a.read i = some (a.blockAt i) := by
  rw [blockAt_eq h, read, Vector.getElem?_eq_getElem h]

theorem read_eq_none (h : n.blockCount ≤ i) : a.read i = none := Vector.getElem?_eq_none h

/-- What is read and what is not after a write. -/
theorem write_eq (h : i < n.blockCount) (x : BitVec 64) :
    ∃ t, a.write i x = some t ∧ ∀ k, t.blockAt k = if k = i then x else a.blockAt k := by
  refine ⟨⟨a.blocks.set i x h⟩, dif_pos h, ?_⟩
  intro k
  obtain hk | hk := Nat.lt_or_ge k n.blockCount
  · rw [blockAt_eq hk, blockAt_eq hk, Vector.getElem_set]
    simp only [eq_comm]
  · rw [blockAt_of_le hk, blockAt_of_le hk, if_neg (by omega)]

/-- A block under the mask of one bit. -/
theorem and_bitmask_ne (x : BitVec 64) {b : ℕ} (h : b < 64) : (x &&& 1#64 <<< b ≠ 0#64) ↔ x.getLsbD b = true := by
  have hmask : x &&& 1#64 <<< b = if x.getLsbD b then 1#64 <<< b else 0#64 := BitVec.and_twoPow x b
  rw [hmask]
  split
  · rename_i hbit
    refine iff_of_true (fun hzero => ?_) hbit
    have := congrArg (fun y => y.getLsbD b) hzero
    simp [h] at this
  · rename_i hbit
    exact iff_of_false (fun hne => hne rfl) hbit

/-- `Get` reads a bit. -/
theorem get_eq (a : BooleanArray n) (idx : Fin n.bits) : a.get idx = a.bitAt idx := by
  have hblock : a.blocks.get ⟨idx / 64, div_lt_blockCount idx.isLt⟩ = a.blockAt (idx / 64) :=
    (blockAt_eq (div_lt_blockCount idx.isLt)).symm
  have hmask := and_bitmask_ne (a.blockAt (idx / 64)) (Nat.mod_lt idx (by decide : 0 < 64))
  simp only [get, hblock, bitAt, blockBitmask, hmask, Bool.decide_eq_true]

theorem bitAt_of_le {j : ℕ} (h : 64 * n.blockCount ≤ j) : a.bitAt j = false := by
  rw [bitAt, blockAt_of_le (by omega)]
  exact BitVec.getLsbD_zero

/-- A block is zero when its bits are. -/
theorem blockAt_eq_zero {i : ℕ} (h : ∀ b < 64, a.bitAt (64 * i + b) = false) : a.blockAt i = 0#64 := by
  refine BitVec.eq_of_getLsbD_eq ?_
  intro b hb
  have hdiv : (64 * i + b) / 64 = i := by omega
  have hmod : (64 * i + b) % 64 = b := by omega
  have := h b hb
  rw [bitAt, hdiv, hmod] at this
  rw [this]
  exact BitVec.getLsbD_zero.symm

theorem bitAt_allFalse (j : ℕ) : (allFalse : BooleanArray n).bitAt j = false := by
  obtain h | h := Nat.lt_or_ge (j / 64) n.blockCount
  · rw [bitAt, blockAt_eq h, allFalse, Vector.getElem_replicate]
    exact BitVec.getLsbD_zero
  · exact bitAt_of_le (by omega)

/-- With a last block that is full the mask is shifted by its width. -/
theorem clearTrailingBits_full (h : n.bits % 64 = 0) : a.clearTrailingBits = none := by
  rw [clearTrailingBits, h]
  rfl

/-- The bits behind `BIT_SIZE` are cleared, and no others. -/
theorem clearTrailingBits_eq (h : n.bits % 64 ≠ 0) :
    ∃ t, a.clearTrailingBits = some t ∧ ∀ j, t.bitAt j = (decide (j < n.bits) && a.bitAt j) := by
  have hpos := blockCount_pos n
  have hmod : n.bits % 64 < 64 := Nat.mod_lt _ (by decide)
  have hshift : shr (BitVec.allOnes 64) (64 - n.bits % 64) = some (BitVec.allOnes 64 >>> (64 - n.bits % 64)) :=
    if_pos (by omega)
  have hlast : n.blockCount - 1 < n.blockCount := by omega
  obtain ⟨t, ht, hblock⟩ := write_eq (a := a) hlast
    (a.blockAt (n.blockCount - 1) &&& BitVec.allOnes 64 >>> (64 - n.bits % 64))
  refine ⟨t, ?_, ?_⟩
  · rw [clearTrailingBits, hshift, read_eq hlast]
    exact ht
  · intro j
    have hbits := bits_eq n h
    have hj : j % 64 < 64 := Nat.mod_lt _ (by decide)
    rw [bitAt, hblock]
    split
    · rename_i heq
      simp only [BitVec.getLsbD_and, BitVec.getLsbD_ushiftRight, BitVec.getLsbD_allOnes, ← heq, bitAt]
      rw [Bool.and_comm]
      congr 1
      exact decide_eq_decide.mpr (by omega)
    · rename_i hne
      obtain hlt | hge := Nat.lt_or_ge (j / 64) n.blockCount
      · rw [decide_eq_true (by omega), Bool.true_and]
        rfl
      · rw [blockAt_of_le hge, bitAt_of_le (by omega), Bool.and_false]
        exact BitVec.getLsbD_zero

end Blocks

end BooleanArray

end Cpcf.Rt.BooleanArray
