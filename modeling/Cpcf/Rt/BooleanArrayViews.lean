import Cpcf.Rt.BooleanArray
import Cpcf.Rt.PopCount

/-!
What a `BooleanArray` shows of its bits: `VisitOnes`, `ForEach`, `ToString`, `PopCount` and `IsFalse`.

`PopCount` and `IsFalse` look at whole blocks, so the bits behind `BIT_SIZE` have to be clear: this is kept by
all operations on one bit and on two such arrays. `VisitOnes` and `ForEach` look at `BIT_SIZE % 64` bits of the
last block, so that is left out when it is full.
-/

namespace Cpcf.Rt.BooleanArray

open Cpcf.Lib.BitCount

variable {n : BitSize}

namespace BooleanArray

/-! ### The code -/

/-- `bits & (1ULL << b)`. -/
def testBlock (bits : BitVec 64) (b : ℕ) : Bool := decide (bits &&& 1#64 <<< b ≠ 0#64)

/-- One bit of the block `i` is visited; with the calls made so far and their number. -/
def visitBit (bits : BitVec 64) (i : ℕ) (st : List ℕ × ℕ) (b : ℕ) : List ℕ × ℕ :=
  if testBlock bits b then (st.1 ++ [(i * 64 + b) % 2 ^ 32], (st.2 + 1) % 2 ^ 32) else st

/-- The lowest bits of the block `i` are visited, as many as `limit`. -/
def visitBlock (bits : BitVec 64) (i limit : ℕ) (st : List ℕ × ℕ) : List ℕ × ℕ :=
  if bits ≠ 0#64 then (List.range limit).foldl (visitBit bits i) st else st

/-- `VisitOnes`: the arguments of the calls, and what is returned. -/
def visitOnes (a : BooleanArray n) : List ℕ × ℕ :=
  visitBlock (a.blockAt (n.blockCount - 1)) (n.blockCount - 1) (n.bits % 64)
    ((List.range (n.blockCount - 1)).foldl (fun st i => visitBlock (a.blockAt i) i 64 st) ([], 0))

/-- `ForEach`: the arguments of the calls. -/
def forEach (a : BooleanArray n) : List Bool :=
  (List.range (n.blockCount - 1)).flatMap (fun i => (List.range 64).map (testBlock (a.blockAt i))) ++
    (List.range (n.bits % 64)).map (testBlock (a.blockAt (n.blockCount - 1)))

/-- `ToString<one, zero>(append)`. -/
def toString (a : BooleanArray n) (one zero : UInt8) (append : List UInt8) : List UInt8 :=
  a.forEach.foldl (fun append v => append ++ [if v then one else zero]) append

/-- `PopCount()`. -/
def popCount (a : BooleanArray n) : ℕ :=
  (List.range n.blockCount).foldl (fun pc i => (pc + PopCount.popCount (a.blockAt i)) % 2 ^ 32) 0

/-- `IsFalse()`. -/
def isFalse (a : BooleanArray n) : Bool := (List.range n.blockCount).all fun i => a.blockAt i == 0#64

/-- The arrays that come from `False()` and `True()` by operations on one bit and on two such arrays. -/
inductive Reached : BooleanArray n → Prop
  | allFalse : Reached allFalse
  | allTrue {a : BooleanArray n} : allTrue = some a → Reached a
  | set {a : BooleanArray n} (idx : Fin n.bits) (v : Bool) : Reached a → Reached (a.set idx v)
  | reset {a : BooleanArray n} (idx : Fin n.bits) : Reached a → Reached (a.reset idx)
  | xorAssign {a x : BooleanArray n} : Reached a → Reached x → Reached (a.xorAssign x)
  | orAssign {a x : BooleanArray n} : Reached a → Reached x → Reached (a.orAssign x)

/-- The indices of the bits that are set. -/
def ones (a : BooleanArray n) : List (Fin n.bits) := (List.finRange n.bits).filter (a.get ·)

/-- The views show the same bits. -/
structure Agree (a : BooleanArray n) : Prop where
  visitOnes : a.visitOnes = (a.ones.map Fin.val, a.ones.length)
  forEach : a.forEach = (List.finRange n.bits).map a.get
  toString : ∀ one zero append,
    a.toString one zero append = append ++ (List.finRange n.bits).map fun i => if a.get i then one else zero
  popCount : a.popCount = a.ones.length
  isFalse : a.isFalse = true ↔ a.ones = []

/-! ### The bits behind `BIT_SIZE` -/

section Trailing

/-- The bits behind `BIT_SIZE` are clear. -/
def Clear (a : BooleanArray n) : Prop := ∀ j, n.bits ≤ j → a.bitAt j = false

variable {a x : BooleanArray n}

theorem bitAt_set (a : BooleanArray n) (idx : Fin n.bits) (v : Bool) (j : ℕ) :
    (a.set idx v).bitAt j = if j = idx then v else a.bitAt j := by
  have hdiv := div_lt_blockCount idx.isLt
  have hmod : (idx : ℕ) % 64 < 64 := Nat.mod_lt _ (by decide)
  have hj : j % 64 < 64 := Nat.mod_lt _ (by decide)
  have hblock : a.blocks.get ⟨idx / 64, hdiv⟩ = a.blockAt (idx / 64) := (blockAt_eq hdiv).symm
  have hset : (a.set idx v).blockAt (j / 64) = if j / 64 = idx / 64 then
      (if v then a.blockAt (idx / 64) ||| blockBitmask idx else a.blockAt (idx / 64) &&& ~~~(blockBitmask idx))
      else a.blockAt (j / 64) := by
    obtain ⟨t, ht, hget⟩ := write_eq (a := a) hdiv
      (if v then a.blockAt (idx / 64) ||| blockBitmask idx else a.blockAt (idx / 64) &&& ~~~(blockBitmask idx))
    have hsame : a.set idx v = t := by
      rw [write, dif_pos hdiv] at ht
      rw [← Option.some.inj ht, set, hblock]
    rw [hsame, hget]
  rw [bitAt, hset]
  by_cases heq : j = idx
  · subst heq
    rw [if_pos rfl, if_pos rfl]
    cases v <;> simp [blockBitmask, hmod]
  · rw [if_neg heq]
    split
    · rename_i hsame
      -- another bit of the same block
      have hne : ¬ j % 64 = idx % 64 := by omega
      have hmask : (blockBitmask idx).getLsbD (j % 64) = false := by
        rw [blockBitmask, ← BitVec.twoPow_eq, BitVec.getLsbD_twoPow, decide_eq_false (Ne.symm hne), Bool.and_false]
      rw [bitAt, hsame]
      rw [BitVec.getLsbD_eq_getElem hj] at hmask
      cases v <;> simp [hmask, hj]
    · rfl

theorem bitAt_xorAssign (a x : BooleanArray n) (j : ℕ) : (a.xorAssign x).bitAt j = (a.bitAt j ^^ x.bitAt j) := by
  obtain h | h := Nat.lt_or_ge (j / 64) n.blockCount
  · simp only [bitAt, blockAt_eq h, xorAssign, Vector.getElem_zipWith, BitVec.getLsbD_xor]
  · rw [bitAt_of_le (by omega), bitAt_of_le (by omega), bitAt_of_le (by omega)]
    rfl

theorem bitAt_orAssign (a x : BooleanArray n) (j : ℕ) : (a.orAssign x).bitAt j = (a.bitAt j || x.bitAt j) := by
  obtain h | h := Nat.lt_or_ge (j / 64) n.blockCount
  · simp only [bitAt, blockAt_eq h, orAssign, Vector.getElem_zipWith, BitVec.getLsbD_or]
  · rw [bitAt_of_le (by omega), bitAt_of_le (by omega), bitAt_of_le (by omega)]
    rfl

theorem Clear.set (h : Clear a) (idx : Fin n.bits) (v : Bool) : Clear (a.set idx v) := by
  intro j hj
  have := idx.isLt
  rw [bitAt_set, if_neg (by omega), h j hj]

/-- **The bits behind `BIT_SIZE` stay clear.** -/
theorem Reached.clear (h : Reached a) : Clear a := by
  induction h with
  | allFalse => exact fun j _ => bitAt_allFalse j
  | @allTrue a ha =>
    by_cases hn : n.bits % 64 = 0
    · rw [BooleanArray.allTrue, clearTrailingBits_full hn] at ha
      cases ha
    · obtain ⟨t, ht, hbit⟩ := clearTrailingBits_eq (a := ⟨Vector.replicate n.blockCount (BitVec.allOnes 64)⟩) hn
      obtain rfl : t = a := Option.some.inj (ht.symm.trans ha)
      intro j hj
      rw [hbit, decide_eq_false (by omega), Bool.false_and]
  | set idx v _ ih => exact ih.set idx v
  | reset idx _ ih => exact ih.set idx false
  | xorAssign _ _ iha ihx =>
    intro j hj
    rw [bitAt_xorAssign, iha j hj, ihx j hj]
    rfl
  | orAssign _ _ iha ihx =>
    intro j hj
    rw [bitAt_orAssign, iha j hj, ihx j hj]
    rfl

end Trailing

/-! ### Visiting the bits -/

section Visit

variable (a : BooleanArray n)

theorem testBlock_eq (bits : BitVec 64) {b : ℕ} (h : b < 64) : testBlock bits b = bits.getLsbD b := by
  have hmask := and_bitmask_ne bits h
  simp only [testBlock, hmask, Bool.decide_eq_true]

/-- The bits of the block `i` are those at the indices from `64 * i` on. -/
theorem testBlock_blockAt (i : ℕ) {b : ℕ} (h : b < 64) : testBlock (a.blockAt i) b = a.bitAt (64 * i + b) := by
  have hdiv : (64 * i + b) / 64 = i := by omega
  have hmod : (64 * i + b) % 64 = b := by omega
  rw [testBlock_eq _ h, bitAt, hdiv, hmod]

/-- The loop over the bits of a block: the calls, and their number as a `UINT`. -/
theorem foldl_visitBit (bits : BitVec 64) {i : ℕ} (hi : i < 2 ^ 26) (l : List ℕ) (hl : ∀ b ∈ l, b < 64) (calls : List ℕ) :
    l.foldl (visitBit bits i) (calls, calls.length % 2 ^ 32) =
      (calls ++ (l.filter (testBlock bits)).map (64 * i + ·),
        (calls ++ (l.filter (testBlock bits)).map (64 * i + ·)).length % 2 ^ 32) := by
  induction l generalizing calls with
  | nil => simp
  | cons b l ih =>
    obtain ⟨hb, hl⟩ := List.forall_mem_cons.mp hl
    rw [List.foldl_cons, visitBit]
    cases htest : testBlock bits b with
    | true =>
      have hidx : (i * 64 + b) % 2 ^ 32 = 64 * i + b := by omega
      have hcount : (calls.length % 2 ^ 32 + 1) % 2 ^ 32 = (calls ++ [64 * i + b]).length % 2 ^ 32 := by
        rw [List.length_append, List.length_singleton, Nat.mod_add_mod]
      rw [if_pos rfl, List.filter_cons_of_pos htest]
      simp only [hidx, hcount]
      rw [ih hl, List.map_cons, List.append_assoc, List.singleton_append]
    | false => rw [if_neg Bool.false_ne_true, List.filter_cons_of_neg (by simp [htest]), ih hl]

theorem visitBlock_eq {i limit : ℕ} (hi : i < 2 ^ 26) (hlimit : limit ≤ 64) (calls : List ℕ) :
    visitBlock (a.blockAt i) i limit (calls, calls.length % 2 ^ 32) =
      (calls ++ ((List.range limit).map (64 * i + ·)).filter (a.bitAt ·),
        (calls ++ ((List.range limit).map (64 * i + ·)).filter (a.bitAt ·)).length % 2 ^ 32) := by
  have hsmall : ∀ b ∈ List.range limit, b < 64 := fun b hb => (List.mem_range.mp hb).trans_le hlimit
  have hbits : ((List.range limit).map (64 * i + ·)).filter (a.bitAt ·) =
      ((List.range limit).filter (testBlock (a.blockAt i))).map (64 * i + ·) := by
    rw [List.filter_map]
    congr 1
    exact List.filter_congr fun b hb => (testBlock_blockAt a i (hsmall b hb)).symm
  rw [hbits, visitBlock]
  split
  · exact foldl_visitBit _ hi _ hsmall calls
  · rename_i hzero
    have hnone : (List.range limit).filter (testBlock (a.blockAt i)) = [] := by
      refine List.filter_eq_nil_iff.mpr ?_
      intro b _
      rw [not_not.mp hzero, testBlock, BitVec.zero_and]
      simp
    rw [hnone, List.map_nil, List.append_nil]

/-- The full blocks in front of the last one. -/
theorem foldl_visitBlock (k : ℕ) (hk : k ≤ n.blockCount) :
    (List.range k).foldl (fun st i => visitBlock (a.blockAt i) i 64 st) ([], 0) =
      ((List.range (64 * k)).filter (a.bitAt ·), ((List.range (64 * k)).filter (a.bitAt ·)).length % 2 ^ 32) := by
  have hcount := blockCount_lt n
  induction k with
  | zero => rfl
  | succ k ih =>
    rw [List.range_succ, List.foldl_append, ih (by omega), List.foldl_cons, List.foldl_nil,
      visitBlock_eq a (by omega) le_rfl, Nat.mul_succ, List.range_add, List.filter_append]

/-- **`VisitOnes`** sees the full blocks but the last one, and `BIT_SIZE % 64` bits of that. -/
theorem visitOnes_eq : a.visitOnes =
    ((List.range (64 * (n.blockCount - 1) + n.bits % 64)).filter (a.bitAt ·),
      ((List.range (64 * (n.blockCount - 1) + n.bits % 64)).filter (a.bitAt ·)).length) := by
  have hcount := blockCount_lt n
  have hmod : n.bits % 64 < 64 := Nat.mod_lt _ (by decide)
  have hle := List.length_filter_le (a.bitAt ·) (List.range (64 * (n.blockCount - 1) + n.bits % 64))
  rw [List.length_range] at hle
  have hlt : ((List.range (64 * (n.blockCount - 1) + n.bits % 64)).filter (a.bitAt ·)).length % 2 ^ 32 =
      ((List.range (64 * (n.blockCount - 1) + n.bits % 64)).filter (a.bitAt ·)).length := Nat.mod_eq_of_lt (by omega)
  rw [visitOnes, foldl_visitBlock a _ (Nat.sub_le _ _), visitBlock_eq a (by omega) hmod.le, ← List.filter_append,
    ← List.range_add, hlt]

/-- **`ForEach`** sees the same bits. -/
theorem forEach_eq : a.forEach = (List.range (64 * (n.blockCount - 1) + n.bits % 64)).map a.bitAt := by
  have hmod : n.bits % 64 < 64 := Nat.mod_lt _ (by decide)
  have hblock : ∀ i limit, limit ≤ 64 →
      (List.range limit).map (testBlock (a.blockAt i)) = ((List.range limit).map (64 * i + ·)).map a.bitAt := by
    intro i limit hlimit
    rw [List.map_map]
    exact List.map_congr_left fun b hb => testBlock_blockAt a i ((List.mem_range.mp hb).trans_le hlimit)
  have hfull : ∀ k, (List.range k).flatMap (fun i => (List.range 64).map (testBlock (a.blockAt i))) =
      (List.range (64 * k)).map a.bitAt := by
    intro k
    induction k with
    | zero => rfl
    | succ k ih =>
      rw [List.range_succ (n := k), List.flatMap_append, ih, List.flatMap_singleton, hblock k 64 le_rfl, Nat.mul_succ,
        List.range_add, List.map_append]
  rw [forEach, hfull, hblock _ _ hmod.le, List.range_add, List.map_append]

theorem toString_eq (one zero : UInt8) (append : List UInt8) :
    a.toString one zero append = append ++ a.forEach.map fun v => if v then one else zero := by
  rw [toString]
  induction a.forEach generalizing append with
  | nil => simp
  | cons v l ih => rw [List.foldl_cons, ih, List.map_cons, List.append_assoc, List.singleton_append]

end Visit

/-! ### Counting the bits -/

section Counting

variable (a : BooleanArray n)

theorem bitCount_blockAt (i : ℕ) : bitCount (a.blockAt i).toNat 64 =
    (((List.range 64).map (64 * i + ·)).filter (a.bitAt ·)).length := by
  rw [List.filter_map, List.length_map, bitCount]
  congr 1
  refine List.filter_congr ?_
  intro b hb
  have hb := List.mem_range.mp hb
  rw [Function.comp_apply, ← testBlock_blockAt a i hb, testBlock_eq _ hb]
  rfl

/-- **`PopCount`** counts the bits of all blocks. -/
theorem popCount_eq : a.popCount = ((List.range (64 * n.blockCount)).filter (a.bitAt ·)).length := by
  have hcount := blockCount_lt n
  have hloop : ∀ k ≤ n.blockCount,
      (List.range k).foldl (fun pc i => (pc + PopCount.popCount (a.blockAt i)) % 2 ^ 32) 0 =
        ((List.range (64 * k)).filter (a.bitAt ·)).length := by
    intro k hk
    induction k with
    | zero => rfl
    | succ k ih =>
      have hle := List.length_filter_le (a.bitAt ·) (List.range (64 * (k + 1)))
      rw [List.length_range] at hle
      have hsum : ((List.range (64 * k)).filter (a.bitAt ·)).length + PopCount.popCount (a.blockAt k) =
          ((List.range (64 * (k + 1))).filter (a.bitAt ·)).length := by
        rw [PopCount.popCount_eq, bitCount_blockAt, Nat.mul_succ, List.range_add, List.filter_append, List.length_append]
      rw [List.range_succ, List.foldl_append, ih (by omega), List.foldl_cons, List.foldl_nil, hsum,
        Nat.mod_eq_of_lt (by omega)]
  exact hloop _ le_rfl

/-- **`IsFalse`** looks at the bits of all blocks. -/
theorem isFalse_iff : a.isFalse = true ↔ ∀ j, a.bitAt j = false := by
  rw [isFalse, List.all_eq_true]
  simp only [List.mem_range, beq_iff_eq]
  constructor
  · intro h j
    obtain hj | hj := Nat.lt_or_ge (j / 64) n.blockCount
    · rw [bitAt, h _ hj]
      exact BitVec.getLsbD_zero
    · exact bitAt_of_le (by omega)
  · exact fun h i _ => blockAt_eq_zero fun b _ => h _

end Counting

/-! ### The views agree -/

section Agreement

variable {a : BooleanArray n}

theorem map_ones (a : BooleanArray n) : a.ones.map Fin.val = (List.range n.bits).filter (a.bitAt ·) := by
  have hget : (fun i : Fin n.bits => a.get i) = (a.bitAt ·) ∘ Fin.val := funext fun i => get_eq a i
  rw [ones, hget, ← List.filter_map, List.map_coe_finRange_eq_range]

theorem map_get (a : BooleanArray n) : (List.finRange n.bits).map a.get = (List.range n.bits).map a.bitAt := by
  have hget : a.get = a.bitAt ∘ Fin.val := funext fun i => get_eq a i
  rw [hget, ← List.map_map, List.map_coe_finRange_eq_range]

/-- The bits of all blocks are those below `BIT_SIZE`. -/
theorem Clear.filter (h : Clear a) :
    (List.range (64 * n.blockCount)).filter (a.bitAt ·) = (List.range n.bits).filter (a.bitAt ·) := by
  obtain ⟨k, hk⟩ := Nat.exists_eq_add_of_le (bits_le n)
  have hnone : ((List.range k).map (n.bits + ·)).filter (a.bitAt ·) = [] := by
    refine List.filter_eq_nil_iff.mpr ?_
    simp only [List.forall_mem_map]
    intro j _
    simp [h (n.bits + j) (Nat.le_add_right _ _)]
  rw [hk, List.range_add, List.filter_append, hnone, List.append_nil]

theorem agree_of_clear (h : Clear a) (hn : n.bits % 64 ≠ 0) : Agree a := by
  have hlen : a.ones.length = ((List.range n.bits).filter (a.bitAt ·)).length := by rw [← map_ones, List.length_map]
  have hbits := bits_eq n hn
  refine ⟨?_, ?_, ?_, ?_, ?_⟩
  · rw [visitOnes_eq, ← hbits, map_ones, hlen]
  · rw [forEach_eq, ← hbits, map_get]
  · intro one zero append
    rw [toString_eq, forEach_eq, ← hbits, ← map_get, List.map_map]
    rfl
  · rw [popCount_eq, h.filter, hlen]
  · rw [isFalse_iff, ← List.length_eq_zero_iff, hlen, List.length_eq_zero_iff, List.filter_eq_nil_iff]
    constructor
    · exact fun hall j _ => by simp [hall j]
    · intro hnone j
      obtain hj | hj := Nat.lt_or_ge j n.bits
      · simpa using hnone j (List.mem_range.mpr hj)
      · exact h j hj

/-- With a last block that is full `ForEach` produces 64 values too few. -/
theorem not_agree (hn : n.bits % 64 = 0) : ¬ Agree a := by
  intro h
  have hlen := congrArg List.length h.forEach
  have hbits := bits_eq_full n hn
  have hpos := blockCount_pos n
  rw [forEach_eq, List.length_map, List.length_map, List.length_range, List.length_finRange] at hlen
  omega

/-- **The views agree** in an array that is reached if and only if the last block is not full. -/
theorem agree_iff (h : Reached a) : Agree a ↔ n.bits % 64 ≠ 0 :=
  ⟨fun hagree hn => not_agree hn hagree, agree_of_clear h.clear⟩

/-- An array of 70 bits, of which the last is set. -/
theorem agree_seventy : Agree ((allFalse : BooleanArray ⟨70, by decide, by decide⟩).set ⟨69, by decide⟩ true) :=
  (agree_iff (Reached.allFalse.set ⟨69, by decide⟩ true)).mpr (by decide)

/-- An array of 64 bits, of which the last is set. -/
theorem not_agree_sixtyFour :
    Reached ((allFalse : BooleanArray ⟨64, by decide, by decide⟩).set ⟨63, by decide⟩ true) ∧
      ¬ Agree ((allFalse : BooleanArray ⟨64, by decide, by decide⟩).set ⟨63, by decide⟩ true) :=
  ⟨Reached.allFalse.set ⟨63, by decide⟩ true, not_agree (by decide)⟩

end Agreement

end BooleanArray

end Cpcf.Rt.BooleanArray
