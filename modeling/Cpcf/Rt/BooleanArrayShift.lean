import Cpcf.Rt.BooleanArray

/-!
`LeftShift` and `RightShift` of a `BooleanArray`.

A shift goes by `offset` whole blocks and `s` bits: a block is put together from two blocks of the old array,
`offset` and one more away, and the last one from one block only. With no bits over, the second term is a
machine shift by the width of a block.

`LeftShift` leaves the block in front of `offset` as it was, and cannot clear behind `BIT_SIZE` when that is
a multiple of the width; `RightShift` brings the bits behind `BIT_SIZE` in.
-/

namespace Cpcf.Rt.BooleanArray

variable {n : BitSize}

namespace BooleanArray

/-! ### The code -/

/-- The loop of `rt::Zero` over `k` blocks from the index `i` on. -/
def zeroBlocks : ℕ → ℕ → BooleanArray n → Option (BooleanArray n)
  | _, 0, a => some a
  | i, k + 1, a => (a.write i 0#64).bind (zeroBlocks (i + 1) k)

/-- `rt::Zero(&_Bits[i], bytes)`, for whole blocks. -/
def zero (a : BooleanArray n) (i bytes : ℕ) : Option (BooleanArray n) := zeroBlocks i (bytes / 8) a

/-- The loop of `LeftShift`: the array and `i` at its end. -/
def leftLoop (offset s : ℕ) : ℕ → ℕ → BooleanArray n → Option (BooleanArray n × ℕ)
  | 0, _, _ => none
  | fuel + 1, i, a =>
    if 0 < sub i offset then do
      let hi ← a.read (sub i offset)
      let lo ← a.read (sub (sub i offset) 1)
      let x ← shl hi s
      let y ← shr lo (64 - s)
      let a ← a.write i (x ||| y)
      leftLoop offset s fuel (sub i 1) a
    else some (a, i)

/-- `if(i)rt::Zero(_Bits, (i-1)*BLOCK_SIZE/8)`. -/
def zeroFront (a : BooleanArray n) (i : ℕ) : Option (BooleanArray n) :=
  if i ≠ 0 then a.zero 0 (sub i 1 * 64 % 2 ^ 32 / 8) else some a

/-- `LeftShift(s)`. -/
def leftShift (fuel : ℕ) (a : BooleanArray n) (s : ℕ) : Option (BooleanArray n) :=
  if s = 0 then some a
  else if n.bits < s then some allFalse
  else do
    let (a, i) ← leftLoop (s / 64) (s % 64) fuel (n.blockCount - 1) a
    let x ← a.read (sub i (s / 64))
    let y ← shl x (s % 64)
    let a ← a.write i y
    let a ← a.zeroFront i
    a.clearTrailingBits

/-- The loop of `RightShift`: the array and `i` at its end. -/
def rightLoop (offset s : ℕ) : ℕ → ℕ → BooleanArray n → Option (BooleanArray n × ℕ)
  | 0, _, _ => none
  | fuel + 1, i, a =>
    if add i offset < n.blockCount - 1 then do
      let lo ← a.read (add i offset)
      let hi ← a.read (add (add i offset) 1)
      let x ← shr lo s
      let y ← shl hi (64 - s)
      let a ← a.write i (x ||| y)
      rightLoop offset s fuel (add i 1) a
    else some (a, i)

/-- `if(i + 1 < BLOCK_COUNT)rt::Zero(&_Bits[i+1], (BLOCK_COUNT - i - 1)*BLOCK_SIZE/8)`. -/
def zeroBack (a : BooleanArray n) (i : ℕ) : Option (BooleanArray n) :=
  if add i 1 < n.blockCount then a.zero (add i 1) (sub (sub n.blockCount i) 1 * 64 % 2 ^ 32 / 8) else some a

/-- `RightShift(s)`. -/
def rightShift (fuel : ℕ) (a : BooleanArray n) (s : ℕ) : Option (BooleanArray n) :=
  if s = 0 then some a
  else if n.bits < s then some allFalse
  else do
    let (a, i) ← rightLoop (s / 64) (s % 64) fuel 0 a
    let x ← a.read (add i (s / 64))
    let y ← shr x (s % 64)
    let a ← a.write i y
    a.zeroBack i

/-! ### Clearing -/

section Clearing

variable {a : BooleanArray n}

theorem zeroBlocks_eq (k : ℕ) : ∀ (i : ℕ) (a : BooleanArray n), i + k ≤ n.blockCount →
    ∃ t, zeroBlocks i k a = some t ∧ ∀ m, t.blockAt m = if i ≤ m ∧ m < i + k then 0#64 else a.blockAt m := by
  induction k with
  | zero =>
    intro i a _
    refine ⟨a, rfl, ?_⟩
    intro m
    rw [if_neg (by omega)]
  | succ k ih =>
    intro i a h
    obtain ⟨b, hb, hblock⟩ := write_eq (a := a) (i := i) (by omega) 0#64
    obtain ⟨t, ht, hrest⟩ := ih (i + 1) b (by omega)
    refine ⟨t, by rw [zeroBlocks, hb, Option.bind_some, ht], ?_⟩
    intro m
    rw [hrest, hblock]
    by_cases hm : m = i
    · rw [if_neg (by omega), if_pos hm, if_pos (by omega)]
    · rw [if_neg hm]
      simp only [show i + 1 ≤ m ∧ m < i + 1 + k ↔ i ≤ m ∧ m < i + (k + 1) by omega]

theorem zero_eq {i k : ℕ} (h : i + k ≤ n.blockCount) :
    ∃ t, a.zero i (k * 64 % 2 ^ 32 / 8) = some t ∧
      ∀ m, t.blockAt m = if i ≤ m ∧ m < i + k then 0#64 else a.blockAt m := by
  have hcount : k * 64 % 2 ^ 32 / 8 / 8 = k := by
    have := blockCount_lt n
    rw [Nat.mod_eq_of_lt (by omega), Nat.div_div_eq_div_mul, Nat.mul_div_cancel _ (by decide)]
  rw [zero, hcount]
  exact zeroBlocks_eq k i a h

/-- The blocks in front of the offset but one. -/
theorem zeroFront_eq {i : ℕ} (hi : i < n.blockCount) :
    ∃ t, a.zeroFront i = some t ∧ ∀ m, t.blockAt m = if m + 1 < i then 0#64 else a.blockAt m := by
  have hcount := blockCount_lt n
  by_cases h0 : i = 0
  · refine ⟨a, if_neg (by simp [h0]), ?_⟩
    intro m
    rw [if_neg (by omega)]
  · obtain ⟨t, ht, hblock⟩ := zero_eq (a := a) (i := 0) (k := i - 1) (by omega)
    refine ⟨t, ?_, ?_⟩
    · rw [zeroFront, if_pos h0, sub_eq (by omega) (by omega), ht]
    · intro m
      rw [hblock]
      simp only [show 0 ≤ m ∧ m < 0 + (i - 1) ↔ m + 1 < i by omega]

/-- The blocks behind `i`. -/
theorem zeroBack_eq {i : ℕ} (hi : i < n.blockCount) :
    ∃ t, a.zeroBack i = some t ∧ ∀ m, t.blockAt m = if i < m then 0#64 else a.blockAt m := by
  have hcount := blockCount_lt n
  rw [zeroBack, add_eq (by omega)]
  by_cases hlt : i + 1 < n.blockCount
  · obtain ⟨t, ht, hblock⟩ := zero_eq (a := a) (i := i + 1) (k := n.blockCount - i - 1) (by omega)
    refine ⟨t, ?_, ?_⟩
    · rw [if_pos hlt, sub_eq (a := n.blockCount) (by omega) (by omega), sub_eq (by omega) (by omega), ht]
    · intro m
      rw [hblock]
      obtain hm | hm := Nat.lt_or_ge m n.blockCount
      · simp only [show i + 1 ≤ m ∧ m < i + 1 + (n.blockCount - i - 1) ↔ i < m by omega]
      · rw [if_neg (by omega), if_pos (by omega), blockAt_of_le hm]
  · refine ⟨a, if_neg hlt, ?_⟩
    intro m
    split
    · exact blockAt_of_le (by omega)
    · rfl

end Clearing

/-! ### The loops -/

section Loops

/-- A block of the array shifted left. -/
def leftBlock (a : BooleanArray n) (offset s k : ℕ) : BitVec 64 :=
  a.blockAt (k - offset) <<< s ||| a.blockAt (k - offset - 1) >>> (64 - s)

/-- A block of the array shifted right. -/
def rightBlock (a : BooleanArray n) (offset s k : ℕ) : BitVec 64 :=
  a.blockAt (k + offset) >>> s ||| a.blockAt (k + offset + 1) <<< (64 - s)

variable (offset : ℕ) {s : ℕ}

/-- **The loop of `LeftShift`**, from the block `i` down: the blocks that are read are not written yet. -/
theorem leftLoop_eq (hs : s < 64) (d : ℕ) : ∀ (i : ℕ) (a : BooleanArray n), i = offset + d → i < n.blockCount →
    (0 < d → s ≠ 0) → ∃ t, (∀ fuel, leftLoop offset s fuel i a = if d < fuel then some (t, offset) else none) ∧
      ∀ k, t.blockAt k = if offset < k ∧ k ≤ i then leftBlock a offset s k else a.blockAt k := by
  have hcount := blockCount_lt n
  induction d with
  | zero =>
    rintro i a rfl hi -
    refine ⟨a, ?_, ?_⟩
    · intro fuel
      cases fuel with
      | zero => rfl
      | succ fuel =>
        rw [leftLoop, sub_eq (by omega) (by omega), if_neg (by omega), if_pos (Nat.succ_pos _)]
    · intro k
      rw [if_neg (by omega)]
  | succ d ih =>
    rintro i a rfl hi hs0
    obtain ⟨b, hb, hblock⟩ := write_eq (a := a) hi (leftBlock a offset s (offset + (d + 1)))
    obtain ⟨t, hrun, hrest⟩ := ih (offset + d) b rfl (by omega) fun _ => hs0 (Nat.succ_pos d)
    refine ⟨t, ?_, ?_⟩
    · intro fuel
      cases fuel with
      | zero => rfl
      | succ fuel =>
        have hback : sub (offset + (d + 1)) offset = d + 1 := by
          rw [sub_eq (by omega) (by omega)]
          omega
        have hback1 : sub (d + 1) 1 = d := sub_eq (by omega) (by omega)
        have hnext : sub (offset + (d + 1)) 1 = offset + d := sub_eq (by omega) (by omega)
        have hx : shl (a.blockAt (d + 1)) s = some (a.blockAt (d + 1) <<< s) := if_pos hs
        have hs0 := hs0 (Nat.succ_pos d)
        have hy : shr (a.blockAt d) (64 - s) = some (a.blockAt d >>> (64 - s)) := if_pos (by omega)
        have hw : a.write (offset + (d + 1)) (a.blockAt (d + 1) <<< s ||| a.blockAt d >>> (64 - s)) = some b := by
          rw [← hb, leftBlock, show offset + (d + 1) - offset - 1 = d by omega,
            show offset + (d + 1) - offset = d + 1 by omega]
        rw [leftLoop, hback, if_pos (Nat.succ_pos d), hback1, read_eq (by omega), read_eq (by omega), hnext]
        simp only [Option.bind_eq_bind, Option.bind_some, hx, hy, hw, hrun, Nat.add_lt_add_iff_right]
    · intro k
      rw [hrest]
      by_cases hk : k = offset + (d + 1)
      · rw [if_neg (by omega), hblock, if_pos hk, if_pos (by omega), hk]
      · by_cases hin : offset < k ∧ k ≤ offset + d
        · have h1 : b.blockAt (k - offset) = a.blockAt (k - offset) := by rw [hblock, if_neg (by omega)]
          have h2 : b.blockAt (k - offset - 1) = a.blockAt (k - offset - 1) := by rw [hblock, if_neg (by omega)]
          rw [if_pos hin, if_pos (by omega), leftBlock, leftBlock, h1, h2]
        · rw [if_neg hin, if_neg (by omega), hblock, if_neg hk]

/-- With no bits over, and more than one block to go, there is a machine shift by the width. -/
theorem leftLoop_zero {offset i : ℕ} (h : offset < i) (hi : i < n.blockCount) (fuel : ℕ) (a : BooleanArray n) :
    leftLoop offset 0 fuel i a = none := by
  cases fuel with
  | zero => rfl
  | succ fuel =>
    have hcount := blockCount_lt n
    have hback : sub i offset = i - offset := sub_eq (by omega) (by omega)
    have hback1 : sub (i - offset) 1 = i - offset - 1 := sub_eq (by omega) (by omega)
    rw [leftLoop, hback, if_pos (by omega), hback1, read_eq (by omega), read_eq (by omega)]
    rfl

/-- **The loop of `RightShift`**, from the block `i` up. -/
theorem rightLoop_eq (hs : s < 64) (d : ℕ) : ∀ (i : ℕ) (a : BooleanArray n), i + offset + d = n.blockCount - 1 →
    (0 < d → s ≠ 0) → ∃ t, (∀ fuel, rightLoop offset s fuel i a = if d < fuel then some (t, i + d) else none) ∧
      ∀ k, t.blockAt k = if i ≤ k ∧ k < i + d then rightBlock a offset s k else a.blockAt k := by
  have hcount := blockCount_lt n
  induction d with
  | zero =>
    intro i a hi _
    refine ⟨a, ?_, ?_⟩
    · intro fuel
      cases fuel with
      | zero => rfl
      | succ fuel => rw [rightLoop, add_eq (by omega), if_neg (by omega), if_pos (Nat.succ_pos _), Nat.add_zero]
    · intro k
      rw [if_neg (by omega)]
  | succ d ih =>
    intro i a hi hs0
    obtain ⟨b, hb, hblock⟩ := write_eq (a := a) (i := i) (by omega) (rightBlock a offset s i)
    obtain ⟨t, hrun, hrest⟩ := ih (i + 1) b (by omega) fun _ => hs0 (Nat.succ_pos d)
    refine ⟨t, ?_, ?_⟩
    · intro fuel
      cases fuel with
      | zero => rfl
      | succ fuel =>
        have hfwd : add i offset = i + offset := add_eq (by omega)
        have hfwd1 : add (i + offset) 1 = i + offset + 1 := add_eq (by omega)
        have hnext : add i 1 = i + 1 := add_eq (by omega)
        have hx : shr (a.blockAt (i + offset)) s = some (a.blockAt (i + offset) >>> s) := if_pos hs
        have hs0 := hs0 (Nat.succ_pos d)
        have hy : shl (a.blockAt (i + offset + 1)) (64 - s) = some (a.blockAt (i + offset + 1) <<< (64 - s)) :=
          if_pos (by omega)
        rw [rightBlock] at hb
        rw [rightLoop, hfwd, if_pos (by omega), hfwd1, read_eq (by omega), read_eq (by omega), hnext]
        simp only [Option.bind_eq_bind, Option.bind_some, hx, hy, hb, hrun, Nat.add_lt_add_iff_right]
        rw [Nat.add_right_comm, Nat.add_assoc]
    · intro k
      rw [hrest]
      by_cases hk : k = i
      · rw [if_neg (by omega), hblock, if_pos hk, if_pos (by omega), hk]
      · by_cases hin : i + 1 ≤ k ∧ k < i + 1 + d
        · have h1 : b.blockAt (k + offset) = a.blockAt (k + offset) := by rw [hblock, if_neg (by omega)]
          have h2 : b.blockAt (k + offset + 1) = a.blockAt (k + offset + 1) := by rw [hblock, if_neg (by omega)]
          rw [if_pos hin, if_pos (by omega), rightBlock, rightBlock, h1, h2]
        · rw [if_neg hin, if_neg (by omega), hblock, if_neg hk]

theorem rightLoop_zero {offset i : ℕ} (h : i + offset < n.blockCount - 1) (fuel : ℕ) (a : BooleanArray n) :
    rightLoop offset 0 fuel i a = none := by
  cases fuel with
  | zero => rfl
  | succ fuel =>
    have hcount := blockCount_lt n
    have hfwd : add i offset = i + offset := add_eq (by omega)
    have hfwd1 : add (i + offset) 1 = i + offset + 1 := add_eq (by omega)
    rw [rightLoop, hfwd, if_pos h, hfwd1, read_eq (by omega), read_eq (by omega)]
    rfl

end Loops

/-! ### The two shifts -/

section Shifts

variable {s : ℕ} (a : BooleanArray n)

/-- What the blocks of a left shift are as bits. -/
theorem getLsbD_leftBlock {r k b : ℕ} (hr : r < 64) (hb : b < 64) (hk : 0 < k) (hr0 : r ≠ 0) (o : ℕ) :
    (leftBlock a o r (o + k)).getLsbD b = a.bitAt (64 * k + b - r) := by
  have h1 : o + k - o = k := by omega
  simp only [leftBlock, h1, BitVec.getLsbD_or, BitVec.getLsbD_shiftLeft, BitVec.getLsbD_ushiftRight, decide_eq_true hb,
    Bool.true_and]
  obtain hbr | hbr := Nat.lt_or_ge b r
  · have hdiv : (64 * k + b - r) / 64 = k - 1 := by omega
    have hmod : (64 * k + b - r) % 64 = 64 - r + b := by omega
    rw [decide_eq_true hbr, Bool.not_true, Bool.false_and, Bool.false_or, bitAt, hdiv, hmod]
  · have hdiv : (64 * k + b - r) / 64 = k := by omega
    have hmod : (64 * k + b - r) % 64 = b - r := by omega
    have hout : (a.blockAt (k - 1)).getLsbD (64 - r + b) = false := BitVec.getLsbD_of_ge _ _ (by omega)
    rw [decide_eq_false (by omega), Bool.not_false, Bool.true_and, hout, Bool.or_false, bitAt, hdiv, hmod]

/-- What the blocks of a right shift are as bits. -/
theorem getLsbD_rightBlock {r k b : ℕ} (hr : r < 64) (hb : b < 64) (o : ℕ) :
    (rightBlock a o r k).getLsbD b = a.bitAt (64 * (k + o) + b + r) := by
  simp only [rightBlock, BitVec.getLsbD_or, BitVec.getLsbD_shiftLeft, BitVec.getLsbD_ushiftRight, decide_eq_true hb,
    Bool.true_and]
  obtain hbr | hbr := Nat.lt_or_ge b (64 - r)
  · have hdiv : (64 * (k + o) + b + r) / 64 = k + o := by omega
    have hmod : (64 * (k + o) + b + r) % 64 = r + b := by omega
    rw [decide_eq_true hbr, Bool.not_true, Bool.false_and, Bool.or_false, bitAt, hdiv, hmod]
  · have hdiv : (64 * (k + o) + b + r) / 64 = k + o + 1 := by omega
    have hmod : (64 * (k + o) + b + r) % 64 = b - (64 - r) := by omega
    have hout : (a.blockAt (k + o)).getLsbD (r + b) = false := BitVec.getLsbD_of_ge _ _ (by omega)
    rw [decide_eq_false (by omega), Bool.not_false, Bool.true_and, hout, Bool.false_or, bitAt, hdiv, hmod]

/-- **`LeftShift`** where no machine shift is by the width: the block in front of the offset is left as it was. -/
theorem leftShift_eq (hn : n.bits % 64 ≠ 0) (hs0 : s ≠ 0) (hsn : s ≤ n.bits)
    (hcarry : s % 64 ≠ 0 ∨ s / 64 = n.blockCount - 1) :
    ∃ t, (∀ fuel, leftShift fuel a s = if n.blockCount - 1 - s / 64 < fuel then some t else none) ∧
      ∀ j < n.bits, t.bitAt j = if j / 64 + 1 < s / 64 then false
        else if j / 64 < s / 64 then a.bitAt j else (decide (s ≤ j) && a.bitAt (j - s)) := by
  have hcount := blockCount_lt n
  have hbits := bits_eq n hn
  have hmod : s % 64 < 64 := Nat.mod_lt _ (by decide)
  have hoff : s / 64 ≤ n.blockCount - 1 := by omega
  have hpos := blockCount_pos n
  obtain ⟨b, hrun, hloop⟩ := leftLoop_eq (s / 64) hmod (n.blockCount - 1 - s / 64) (n.blockCount - 1) a
    (by omega) (by omega) (by omega)
  obtain ⟨c, hc, hwrite⟩ := write_eq (a := b) (i := s / 64) (by omega) (b.blockAt 0 <<< (s % 64))
  obtain ⟨d, hd, hfront⟩ := zeroFront_eq (a := c) (i := s / 64) (by omega)
  obtain ⟨t, ht, hclear⟩ := clearTrailingBits_eq (a := d) hn
  refine ⟨t, ?_, ?_⟩
  · intro fuel
    have hread : b.read (sub (s / 64) (s / 64)) = some (b.blockAt 0) := by
      rw [sub_eq le_rfl (by omega), Nat.sub_self, read_eq hpos]
    have hshl : shl (b.blockAt 0) (s % 64) = some (b.blockAt 0 <<< (s % 64)) := if_pos hmod
    rw [leftShift, if_neg hs0, if_neg (by omega), hrun]
    by_cases hfuel : n.blockCount - 1 - s / 64 < fuel
    · rw [if_pos hfuel, if_pos hfuel, Option.bind_eq_bind, Option.bind_some]
      simp only [hread, Option.bind_eq_bind, Option.bind_some, hshl, hc, hd, ht]
    · simp only [if_neg hfuel, Option.bind_eq_bind, Option.bind_none]
  · intro j hj
    rw [hclear, decide_eq_true hj, Bool.true_and, bitAt, hfront]
    by_cases h1 : j / 64 + 1 < s / 64
    · rw [if_pos h1, if_pos h1]
      exact BitVec.getLsbD_zero
    rw [if_neg h1, if_neg h1, hwrite]
    by_cases h2 : j / 64 < s / 64
    · rw [if_pos h2, if_neg (by omega), hloop, if_neg (by omega)]
      rfl
    rw [if_neg h2]
    have hb : j % 64 < 64 := Nat.mod_lt _ (by decide)
    by_cases h3 : j / 64 = s / 64
    · -- the last block of the shift is put together from one block
      have hb0 : b.blockAt 0 = a.blockAt 0 := by rw [hloop, if_neg (by omega)]
      rw [if_pos h3, hb0, BitVec.getLsbD_shiftLeft, decide_eq_true hb, Bool.true_and]
      obtain hlt | hge := Nat.lt_or_ge (j % 64) (s % 64)
      · rw [decide_eq_true hlt, decide_eq_false (by omega), Bool.not_true, Bool.false_and, Bool.false_and]
      · have hdiv : (j - s) / 64 = 0 := by omega
        have hsub : (j - s) % 64 = j % 64 - s % 64 := by omega
        rw [decide_eq_false (by omega), decide_eq_true (by omega), Bool.not_false, Bool.true_and, Bool.true_and, bitAt,
          hdiv, hsub]
    · have hk : j / 64 = s / 64 + (j / 64 - s / 64) := by omega
      have hidx : 64 * (j / 64 - s / 64) + j % 64 - s % 64 = j - s := by omega
      have hbit := getLsbD_leftBlock a hmod hb (k := j / 64 - s / 64) (by omega) (by omega) (s / 64)
      rw [← hk, hidx] at hbit
      rw [if_neg h3, hloop, if_pos (by omega), hbit, decide_eq_true (by omega), Bool.true_and]

/-- **`RightShift`** where no machine shift is by the width and no block outside the array is read. -/
theorem rightShift_eq (hs0 : s ≠ 0) (hsn : s ≤ n.bits) (hin : s / 64 ≤ n.blockCount - 1)
    (hcarry : s % 64 ≠ 0 ∨ s / 64 = n.blockCount - 1) :
    ∃ t, (∀ fuel, rightShift fuel a s = if n.blockCount - 1 - s / 64 < fuel then some t else none) ∧
      ∀ j, t.bitAt j = a.bitAt (j + s) := by
  have hcount := blockCount_lt n
  have hmod : s % 64 < 64 := Nat.mod_lt _ (by decide)
  have hpos := blockCount_pos n
  obtain ⟨d, hd⟩ : ∃ d, d = n.blockCount - 1 - s / 64 := ⟨_, rfl⟩
  obtain ⟨b, hrun, hloop⟩ := rightLoop_eq (s / 64) hmod d 0 a (by omega) (by omega)
  obtain ⟨c, hc, hwrite⟩ := write_eq (a := b) (i := d) (by omega) (b.blockAt (d + s / 64) >>> (s % 64))
  obtain ⟨t, ht, hback⟩ := zeroBack_eq (a := c) (i := d) (by omega)
  refine ⟨t, ?_, ?_⟩
  · intro fuel
    have hfwd : add d (s / 64) = d + s / 64 := add_eq (by omega)
    have hshr : shr (b.blockAt (d + s / 64)) (s % 64) = some (b.blockAt (d + s / 64) >>> (s % 64)) := if_pos hmod
    rw [rightShift, if_neg hs0, if_neg (by omega), hrun, ← hd, Nat.zero_add]
    by_cases hfuel : d < fuel
    · simp only [if_pos hfuel, Option.bind_eq_bind, Option.bind_some, hfwd, read_eq (show d + s / 64 < n.blockCount by
        omega), hshr, hc, ht]
    · simp only [if_neg hfuel, Option.bind_eq_bind, Option.bind_none]
  · intro j
    have hb : j % 64 < 64 := Nat.mod_lt _ (by decide)
    rw [bitAt, hback]
    by_cases h1 : d < j / 64
    · rw [if_pos h1, bitAt_of_le (by omega)]
      exact BitVec.getLsbD_zero
    rw [if_neg h1, hwrite]
    by_cases h2 : j / 64 = d
    · have hsame : b.blockAt (d + s / 64) = a.blockAt (d + s / 64) := by
        rw [hloop]
        split
        · rename_i hlt
          omega
        · rfl
      rw [if_pos h2, hsame, BitVec.getLsbD_ushiftRight]
      obtain hlt | hge := Nat.lt_or_ge (s % 64 + j % 64) 64
      · have hdiv : (j + s) / 64 = d + s / 64 := by omega
        have hsum : (j + s) % 64 = s % 64 + j % 64 := by omega
        rw [bitAt, hdiv, hsum]
      · rw [BitVec.getLsbD_of_ge _ _ hge, bitAt_of_le (by omega)]
    · have hidx : 64 * (j / 64 + s / 64) + j % 64 + s % 64 = j + s := by omega
      rw [if_neg h2, hloop, if_pos (by omega), getLsbD_rightBlock a hmod hb, hidx]

end Shifts

/-! ### What a shift is for -/

/-- Every bit goes to the index `s` further up, and zeros come in. -/
def ShiftedLeft (a : BooleanArray n) (s : ℕ) (t : BooleanArray n) : Prop :=
  ∀ j : Fin n.bits, t.get j = if s ≤ j then a.get ⟨j - s, (Nat.sub_le _ _).trans_lt j.isLt⟩ else false

/-- Every bit goes to the index `s` further down, and zeros come in. -/
def ShiftedRight (a : BooleanArray n) (s : ℕ) (t : BooleanArray n) : Prop :=
  ∀ j : Fin n.bits, t.get j = if h : j + s < n.bits then a.get ⟨j + s, h⟩ else false

/-- The condition on `LeftShift`: nothing is shifted or everything is shifted out; or the last block is not full,
there are bits over or only one block is left, and the block in front of the offset is zero already. -/
def LeftOk (a : BooleanArray n) (s : ℕ) : Prop :=
  s = 0 ∨ n.bits < s ∨
    n.bits % 64 ≠ 0 ∧ (s % 64 ≠ 0 ∨ s / 64 = n.blockCount - 1) ∧ (64 ≤ s → a.blockAt (s / 64 - 1) = 0#64)

/-- The condition on `RightShift`: nothing is shifted or everything is shifted out; or the shift is not by exactly all
the bits of full blocks, there are bits over or only one block is left, and no bit behind `BIT_SIZE` comes in. -/
def RightOk (a : BooleanArray n) (s : ℕ) : Prop :=
  s = 0 ∨ n.bits < s ∨
    ¬ (n.bits % 64 = 0 ∧ s = n.bits) ∧ (s % 64 ≠ 0 ∨ s / 64 = n.blockCount - 1) ∧
      ∀ q, n.bits ≤ q → s ≤ q → q < s + n.bits → a.bitAt q = false

section Shifted

variable {a t : BooleanArray n} {s : ℕ}

theorem shiftedLeft_iff : ShiftedLeft a s t ↔ ∀ j < n.bits, t.bitAt j = (decide (s ≤ j) && a.bitAt (j - s)) := by
  have hbit : ∀ j : Fin n.bits, (if s ≤ j then a.get ⟨j - s, (Nat.sub_le _ _).trans_lt j.isLt⟩ else false) =
      (decide (s ≤ j.val) && a.bitAt (j - s)) := by
    intro j
    split
    · rename_i h
      rw [decide_eq_true h, Bool.true_and, get_eq]
    · rename_i h
      rw [decide_eq_false h, Bool.false_and]
  simp only [ShiftedLeft, get_eq t, hbit]
  exact ⟨fun h j hj => h ⟨j, hj⟩, fun h j => h j j.isLt⟩

theorem shiftedRight_iff : ShiftedRight a s t ↔
    ∀ j < n.bits, t.bitAt j = (decide (j + s < n.bits) && a.bitAt (j + s)) := by
  have hbit : ∀ j : Fin n.bits, (if h : j + s < n.bits then a.get ⟨j + s, h⟩ else false) =
      (decide (j.val + s < n.bits) && a.bitAt (j + s)) := by
    intro j
    split
    · rename_i h
      rw [decide_eq_true h, Bool.true_and, get_eq]
    · rename_i h
      rw [decide_eq_false h, Bool.false_and]
  simp only [ShiftedRight, get_eq t, hbit]
  exact ⟨fun h j hj => h ⟨j, hj⟩, fun h j => h j j.isLt⟩

/-- Without bits over, and more than one block to go, `LeftShift` fails. -/
theorem leftShift_fails (hs0 : s ≠ 0) (hsn : s ≤ n.bits)
    (hbad : n.bits % 64 = 0 ∨ (s % 64 = 0 ∧ s / 64 < n.blockCount - 1)) (fuel : ℕ) : leftShift fuel a s = none := by
  rw [leftShift, if_neg hs0, if_neg (by omega)]
  obtain hfull | ⟨hmod, hlt⟩ := hbad
  · -- whatever comes before, the trailing bits cannot be cleared
    simp only [clearTrailingBits_full hfull, Option.bind_eq_bind, Option.bind_fun_none]
  · have hpos := blockCount_pos n
    rw [hmod, leftLoop_zero hlt (by omega)]
    rfl

/-- Without bits over, and more than one block to go, `RightShift` fails. -/
theorem rightShift_fails (hs0 : s ≠ 0) (hsn : s ≤ n.bits)
    (hbad : (n.bits % 64 = 0 ∧ s = n.bits) ∨ (s % 64 = 0 ∧ s / 64 < n.blockCount - 1)) (fuel : ℕ) :
    rightShift fuel a s = none := by
  rw [rightShift, if_neg hs0, if_neg (by omega)]
  obtain ⟨hfull, rfl⟩ | ⟨hmod, hlt⟩ := hbad
  · -- the first block that is read is the one behind the last
    have hcount := blockCount_lt n
    have hpos := blockCount_pos n
    have hbits := bits_eq_full n hfull
    have hoff : n.bits / 64 = n.blockCount := by omega
    cases fuel with
    | zero => rfl
    | succ fuel =>
      have hfwd : add 0 n.blockCount = n.blockCount := by rw [add_eq (by omega), Nat.zero_add]
      rw [hoff, rightLoop, hfwd, if_neg (by omega)]
      simp only [Option.bind_eq_bind, Option.bind_some, hfwd, read_eq_none le_rfl, Option.bind_none]
  · rw [hmod, rightLoop_zero (by omega)]
    rfl

/-- **`LeftShift`.** -/
theorem leftShift_iff (a : BooleanArray n) (s : ℕ) :
    (∃ fuel t, leftShift fuel a s = some t ∧ ShiftedLeft a s t) ↔ LeftOk a s := by
  by_cases hs0 : s = 0
  · subst hs0
    refine iff_of_true ⟨0, a, if_pos rfl, shiftedLeft_iff.mpr fun j _ => ?_⟩ (Or.inl rfl)
    rw [decide_eq_true (Nat.zero_le j), Bool.true_and, Nat.sub_zero]
  by_cases hsn : n.bits < s
  · refine iff_of_true ⟨0, allFalse, ?_, shiftedLeft_iff.mpr fun j hj => ?_⟩ (Or.inr (Or.inl hsn))
    · rw [leftShift, if_neg hs0, if_pos hsn]
    · rw [bitAt_allFalse, decide_eq_false (by omega), Bool.false_and]
  have hsn' : s ≤ n.bits := not_lt.mp hsn
  have hpos := blockCount_pos n
  by_cases hbad : n.bits % 64 = 0 ∨ (s % 64 = 0 ∧ s / 64 < n.blockCount - 1)
  · refine iff_of_false ?_ ?_
    · rintro ⟨fuel, t, hrun, -⟩
      rw [leftShift_fails hs0 hsn' hbad] at hrun
      exact absurd hrun (by simp)
    · rintro (h | h | ⟨hn, hcarry, -⟩)
      · exact hs0 h
      · exact hsn h
      · omega
  have hn : n.bits % 64 ≠ 0 := fun h => hbad (Or.inl h)
  have hbits := bits_eq n hn
  have hcarry : s % 64 ≠ 0 ∨ s / 64 = n.blockCount - 1 := by omega
  obtain ⟨t, hrun, hbit⟩ := leftShift_eq a hn hs0 hsn' hcarry
  have hgood : ShiftedLeft a s t ↔ (64 ≤ s → a.blockAt (s / 64 - 1) = 0#64) := by
    rw [shiftedLeft_iff]
    constructor
    · intro h hge
      refine blockAt_eq_zero ?_
      intro b hb
      have hj := h (64 * (s / 64 - 1) + b) (by omega)
      rwa [hbit _ (by omega), if_neg (by omega), if_pos (by omega), decide_eq_false (by omega), Bool.false_and] at hj
    · intro h j hj
      rw [hbit j hj]
      split
      · rw [decide_eq_false (by omega), Bool.false_and]
      · split
        · have hzero : a.blockAt (j / 64) = 0#64 := by
            rw [show j / 64 = s / 64 - 1 by omega]
            exact h (by omega)
          rw [bitAt, hzero, decide_eq_false (by omega), Bool.false_and]
          exact BitVec.getLsbD_zero
        · rfl
  constructor
  · rintro ⟨fuel, t', hrun', hshift⟩
    rw [hrun] at hrun'
    split at hrun'
    · obtain rfl := Option.some.inj hrun'
      exact Or.inr (Or.inr ⟨hn, hcarry, hgood.mp hshift⟩)
    · exact absurd hrun' (by simp)
  · rintro (h | h | ⟨-, -, hzero⟩)
    · exact absurd h hs0
    · exact absurd h hsn
    · exact ⟨n.blockCount, t, by rw [hrun, if_pos (by omega)], hgood.mpr hzero⟩

/-- **`RightShift`.** -/
theorem rightShift_iff (a : BooleanArray n) (s : ℕ) :
    (∃ fuel t, rightShift fuel a s = some t ∧ ShiftedRight a s t) ↔ RightOk a s := by
  by_cases hs0 : s = 0
  · subst hs0
    refine iff_of_true ⟨0, a, if_pos rfl, shiftedRight_iff.mpr fun j hj => ?_⟩ (Or.inl rfl)
    rw [Nat.add_zero, decide_eq_true hj, Bool.true_and]
  by_cases hsn : n.bits < s
  · refine iff_of_true ⟨0, allFalse, ?_, shiftedRight_iff.mpr fun j hj => ?_⟩ (Or.inr (Or.inl hsn))
    · rw [rightShift, if_neg hs0, if_pos hsn]
    · rw [bitAt_allFalse, decide_eq_false (by omega), Bool.false_and]
  have hsn' : s ≤ n.bits := not_lt.mp hsn
  have hpos := blockCount_pos n
  by_cases hbad : (n.bits % 64 = 0 ∧ s = n.bits) ∨ (s % 64 = 0 ∧ s / 64 < n.blockCount - 1)
  · refine iff_of_false ?_ ?_
    · rintro ⟨fuel, t, hrun, -⟩
      rw [rightShift_fails hs0 hsn' hbad] at hrun
      exact absurd hrun (by simp)
    · rintro (h | h | ⟨hall, hcarry, -⟩)
      · exact hs0 h
      · exact hsn h
      · obtain hbad | hbad := hbad
        · exact hall hbad
        · omega
  have hall : ¬ (n.bits % 64 = 0 ∧ s = n.bits) := fun h => hbad (Or.inl h)
  have hin : s / 64 ≤ n.blockCount - 1 := by
    by_cases hn : n.bits % 64 = 0
    · have := bits_eq_full n hn
      omega
    · have := bits_eq n hn
      omega
  have hcarry : s % 64 ≠ 0 ∨ s / 64 = n.blockCount - 1 := by omega
  obtain ⟨t, hrun, hbit⟩ := rightShift_eq a hs0 hsn' hin hcarry
  have hgood : ShiftedRight a s t ↔ ∀ q, n.bits ≤ q → s ≤ q → q < s + n.bits → a.bitAt q = false := by
    rw [shiftedRight_iff]
    constructor
    · intro h q hq hsq hlt
      have hj := h (q - s) (by omega)
      rwa [hbit, Nat.sub_add_cancel hsq, decide_eq_false (by omega), Bool.false_and] at hj
    · intro h j hj
      rw [hbit]
      obtain hlt | hge := Nat.lt_or_ge (j + s) n.bits
      · rw [decide_eq_true hlt, Bool.true_and]
      · rw [decide_eq_false (by omega), Bool.false_and, h (j + s) hge (by omega) (by omega)]
  constructor
  · rintro ⟨fuel, t', hrun', hshift⟩
    rw [hrun] at hrun'
    split at hrun'
    · obtain rfl := Option.some.inj hrun'
      exact Or.inr (Or.inr ⟨hall, hcarry, hgood.mp hshift⟩)
    · exact absurd hrun' (by simp)
  · rintro (h | h | ⟨-, -, hzero⟩)
    · exact absurd h hs0
    · exact absurd h hsn
    · exact ⟨n.blockCount, t, by rw [hrun, if_pos (by omega)], hgood.mpr hzero⟩

/-- **The shifts.** Each of them does what it is for, inside the array and without a machine shift by the width of a
block, if and only if its condition holds. -/
theorem shifts_iff (n : BitSize) (a : BooleanArray n) (s : ℕ) :
    ((∃ fuel t, leftShift fuel a s = some t ∧ ShiftedLeft a s t) ↔ LeftOk a s) ∧
      ((∃ fuel t, rightShift fuel a s = some t ∧ ShiftedRight a s t) ↔ RightOk a s) :=
  ⟨leftShift_iff a s, rightShift_iff a s⟩

/-- Bit 0 of 70 bits is set, and the shift is by 65: it stays set. -/
theorem leftShift_keeps_bit : ¬ ∃ fuel t,
    leftShift fuel ((allFalse : BooleanArray ⟨70, by decide, by decide⟩).set ⟨0, by decide⟩ true) 65 = some t ∧
      ShiftedLeft ((allFalse : BooleanArray ⟨70, by decide, by decide⟩).set ⟨0, by decide⟩ true) 65 t := by
  rw [leftShift_iff]
  rintro (h | h | ⟨-, -, hzero⟩)
  · exact absurd h (by decide)
  · exact absurd h (by decide)
  · exact absurd (hzero (by decide)) (by decide)

end Shifted

end BooleanArray

end Cpcf.Rt.BooleanArray
