import Mathlib.Data.Nat.Digits.Defs
import Mathlib.Tactic

/-!
Numbers as fields of `w` bits, and the number of bits that are set.

A number below `2 ^ (w * k)` is the list of its `k` fields in the base `2 ^ w`. Arithmetic in which no field
overflows, and masks that repeat in every field, are done field by field: `ofDigits_shift_and` is a shift
down under a mask that keeps nothing of the next field, and `ofDigits_halves` the sum of the two halves of
every field. The number of set bits is the sum of the numbers of set bits in the fields.
-/

namespace Cpcf.Lib.BitCount

/-- The number of bits set below the bit `k`. -/
def bitCount (x k : ℕ) : ℕ := ((List.range k).filter (x.testBit ·)).length

/-- The lowest `k` fields of `w` bits. -/
def fields (w : ℕ) : ℕ → ℕ → List ℕ
  | 0, _ => []
  | k + 1, x => x % 2 ^ w :: fields w k (x / 2 ^ w)

attribute [local simp] fields

variable {w s k x : ℕ} {L : List ℕ}

/-! ### Fields -/

@[simp] theorem length_fields (w k x : ℕ) : (fields w k x).length = k := by
  induction k generalizing x with
  | zero => rfl
  | succ k ih => rw [fields, List.length_cons, ih]

theorem lt_of_mem_fields {f : ℕ} (h : f ∈ fields w k x) : f < 2 ^ w := by
  induction k generalizing x with
  | zero => cases h
  | succ k ih =>
    obtain rfl | h := List.mem_cons.mp h
    · exact Nat.mod_lt _ (Nat.two_pow_pos w)
    · exact ih h

/-- A number is its fields. -/
theorem ofDigits_fields (h : x < 2 ^ (w * k)) : Nat.ofDigits (2 ^ w) (fields w k x) = x := by
  induction k generalizing x with
  | zero =>
    rw [Nat.mul_zero, Nat.pow_zero] at h
    rw [fields, Nat.ofDigits_nil, Nat.lt_one_iff.mp h]
  | succ k ih =>
    have hrest : x / 2 ^ w < 2 ^ (w * k) := by
      rw [Nat.div_lt_iff_lt_mul (Nat.two_pow_pos w), ← Nat.pow_add]
      rwa [Nat.mul_succ] at h
    rw [fields, Nat.ofDigits_cons, ih hrest]
    exact Nat.mod_add_div x (2 ^ w)

/-! ### Arithmetic field by field -/

section Arithmetic

theorem ofDigits_map_add (b : ℕ) (f g : ℕ → ℕ) (L : List ℕ) :
    Nat.ofDigits b (L.map f) + Nat.ofDigits b (L.map g) = Nat.ofDigits b (L.map fun a => f a + g a) := by
  induction L with
  | nil => rfl
  | cons a L ih =>
    simp only [List.map_cons, Nat.ofDigits_cons, Nat.cast_id, ← ih]
    ring

theorem ofDigits_map_sub (b : ℕ) (f g : ℕ → ℕ) (L : List ℕ) (h : ∀ a ∈ L, g a ≤ f a) :
    Nat.ofDigits b (L.map f) - Nat.ofDigits b (L.map g) = Nat.ofDigits b (L.map fun a => f a - g a) := by
  have hsum : Nat.ofDigits b (L.map fun a => f a - g a) + Nat.ofDigits b (L.map g) = Nat.ofDigits b (L.map f) := by
    rw [ofDigits_map_add]
    congr 1
    exact List.map_congr_left fun a ha => Nat.sub_add_cancel (h a ha)
  omega

/-- A mask is laid on the lowest field and on the others. -/
theorem and_field {a b : ℕ} (ha : a < 2 ^ w) (hb : b < 2 ^ w) (x y : ℕ) :
    (a + 2 ^ w * x) &&& (b + 2 ^ w * y) = (a &&& b) + 2 ^ w * (x &&& y) := by
  refine Nat.eq_of_testBit_eq ?_
  intro j
  have hab : a &&& b < 2 ^ w := Nat.and_lt_two_pow a hb
  rw [Nat.testBit_and, Nat.add_comm a, Nat.add_comm b, Nat.add_comm (a &&& b), Nat.testBit_two_pow_mul_add _ ha,
    Nat.testBit_two_pow_mul_add _ hb, Nat.testBit_two_pow_mul_add _ hab]
  split <;> rw [Nat.testBit_and]

/-- A shift down under a mask that keeps nothing of the next field. -/
theorem ofDigits_shift_and {m : ℕ} (hs : s ≤ w) (hm : m < 2 ^ (w - s)) (hL : ∀ f ∈ L, f < 2 ^ w) :
    (Nat.ofDigits (2 ^ w) L >>> s) &&& Nat.ofDigits (2 ^ w) (List.replicate L.length m) =
      Nat.ofDigits (2 ^ w) (L.map fun f => (f >>> s) &&& m) := by
  have hw : 2 ^ w = 2 ^ s * 2 ^ (w - s) := by rw [← Nat.pow_add, Nat.add_sub_cancel' hs]
  have hmw : m < 2 ^ w := hm.trans_le (Nat.pow_le_pow_right (by decide) (Nat.sub_le w s))
  induction L with
  | nil => exact Nat.and_zero _
  | cons f L ih =>
    obtain ⟨hf, hL⟩ := List.forall_mem_cons.mp hL
    have ih := ih hL
    set y := Nat.ofDigits (2 ^ w) L with hy
    rw [List.length_cons, List.replicate_succ, List.map_cons, Nat.ofDigits_cons, Nat.ofDigits_cons, Nat.ofDigits_cons,
      ← ih, ← hy]
    -- what comes down from the next field is above the mask
    have hfs : f >>> s < 2 ^ (w - s) := by
      rw [Nat.shiftRight_eq_div_pow, Nat.div_lt_iff_lt_mul (Nat.two_pow_pos s), Nat.mul_comm, ← hw]
      exact hf
    have hlow : f >>> s + 2 ^ (w - s) * (y % 2 ^ s) < 2 ^ w := by
      have : y % 2 ^ s + 1 ≤ 2 ^ s := Nat.mod_lt _ (Nat.two_pow_pos s)
      calc f >>> s + 2 ^ (w - s) * (y % 2 ^ s) < 2 ^ (w - s) * (y % 2 ^ s + 1) := by
            rw [Nat.mul_succ]
            omega
        _ ≤ 2 ^ (w - s) * 2 ^ s := Nat.mul_le_mul_left _ this
        _ = 2 ^ w := by rw [Nat.mul_comm, ← hw]
    have hshift : (f + 2 ^ w * y) >>> s = (f >>> s + 2 ^ (w - s) * (y % 2 ^ s)) + 2 ^ w * (y >>> s) := by
      have hy' : 2 ^ (w - s) * y = 2 ^ (w - s) * (y % 2 ^ s) + 2 ^ w * (y >>> s) := by
        conv_lhs => rw [← Nat.mod_add_div y (2 ^ s)]
        rw [Nat.mul_add, ← Nat.mul_assoc, Nat.mul_comm (2 ^ (w - s)) (2 ^ s), ← hw, Nat.shiftRight_eq_div_pow]
      have hdiv : (f + 2 ^ w * y) >>> s = f >>> s + 2 ^ (w - s) * y := by
        rw [Nat.shiftRight_eq_div_pow, Nat.shiftRight_eq_div_pow, hw, Nat.mul_assoc,
          Nat.add_mul_div_left _ _ (Nat.two_pow_pos s)]
      rw [hdiv, hy', Nat.add_assoc]
    have hmask : (f >>> s + 2 ^ (w - s) * (y % 2 ^ s)) &&& m = (f >>> s) &&& m := by
      have := and_field hfs hm (y % 2 ^ s) 0
      rwa [Nat.mul_zero, Nat.add_zero, Nat.and_zero, Nat.mul_zero, Nat.add_zero] at this
    rw [hshift, and_field hlow hmw, hmask]

/-- A mask that repeats in every field. -/
theorem ofDigits_and {m : ℕ} (hm : m < 2 ^ w) (hL : ∀ f ∈ L, f < 2 ^ w) :
    Nat.ofDigits (2 ^ w) L &&& Nat.ofDigits (2 ^ w) (List.replicate L.length m) =
      Nat.ofDigits (2 ^ w) (L.map fun f => f &&& m) :=
  ofDigits_shift_and (Nat.zero_le w) hm hL

/-- The two halves of every field are added, when they are small. -/
theorem ofDigits_halves {c : ℕ} (hc : 2 * c < 2 ^ s) (hL : ∀ f ∈ L, f % 2 ^ s ≤ c ∧ f / 2 ^ s ≤ c) :
    (Nat.ofDigits (2 ^ (s + s)) L + Nat.ofDigits (2 ^ (s + s)) L >>> s) &&&
        Nat.ofDigits (2 ^ (s + s)) (List.replicate L.length (2 ^ s - 1)) =
      Nat.ofDigits (2 ^ (s + s)) (L.map fun f => f % 2 ^ s + f / 2 ^ s) := by
  have hpos := Nat.two_pow_pos s
  induction L with
  | nil => exact Nat.and_zero _
  | cons f L ih =>
    obtain ⟨⟨hlo, hhi⟩, hL⟩ := List.forall_mem_cons.mp hL
    have ih := ih hL
    -- the low half of the next field
    have hnext : Nat.ofDigits (2 ^ (s + s)) L % 2 ^ s ≤ c := by
      cases L with
      | nil => simp
      | cons g L =>
        rw [Nat.ofDigits_cons, Nat.pow_add, Nat.mul_assoc, Nat.add_mul_mod_self_left]
        exact (List.forall_mem_cons.mp hL).1.1
    set y := Nat.ofDigits (2 ^ (s + s)) L with hy
    rw [List.length_cons, List.replicate_succ, List.map_cons, Nat.ofDigits_cons, Nat.ofDigits_cons, Nat.ofDigits_cons,
      ← ih, ← hy]
    have hsum : f + 2 ^ (s + s) * y + (f + 2 ^ (s + s) * y) >>> s =
        (f % 2 ^ s + f / 2 ^ s + 2 ^ s * (f / 2 ^ s + y % 2 ^ s)) + 2 ^ (s + s) * (y + y >>> s) := by
      have hdiv : (f + 2 ^ (s + s) * y) >>> s = f / 2 ^ s + 2 ^ s * y := by
        rw [Nat.shiftRight_eq_div_pow, Nat.pow_add, Nat.mul_assoc, Nat.add_mul_div_left _ _ hpos]
      have hf := Nat.mod_add_div f (2 ^ s)
      have hy' : 2 ^ s * (y % 2 ^ s + 2 ^ s * (y / 2 ^ s)) = 2 ^ s * y := by rw [Nat.mod_add_div]
      rw [hdiv, Nat.shiftRight_eq_div_pow, Nat.pow_add]
      linear_combination -hf - hy'
    have hlow : f % 2 ^ s + f / 2 ^ s < 2 ^ s := by omega
    have hfield : f % 2 ^ s + f / 2 ^ s + 2 ^ s * (f / 2 ^ s + y % 2 ^ s) < 2 ^ (s + s) := by
      have hle : f / 2 ^ s + y % 2 ^ s + 1 ≤ 2 ^ s := by omega
      calc f % 2 ^ s + f / 2 ^ s + 2 ^ s * (f / 2 ^ s + y % 2 ^ s) < 2 ^ s * (f / 2 ^ s + y % 2 ^ s + 1) := by
            rw [Nat.mul_succ]
            omega
        _ ≤ 2 ^ s * 2 ^ s := Nat.mul_le_mul_left _ hle
        _ = 2 ^ (s + s) := (Nat.pow_add 2 s s).symm
    have hones : 2 ^ s - 1 < 2 ^ (s + s) := by
      have := Nat.pow_le_pow_right (n := 2) (by decide) (Nat.le_add_right s s)
      omega
    have hmask : (f % 2 ^ s + f / 2 ^ s + 2 ^ s * (f / 2 ^ s + y % 2 ^ s)) &&& (2 ^ s - 1) = f % 2 ^ s + f / 2 ^ s := by
      rw [Nat.and_two_pow_sub_one_eq_mod, Nat.add_mul_mod_self_left, Nat.mod_eq_of_lt hlow]
    rw [hsum, and_field hfield hones, hmask]

end Arithmetic

/-! ### Counting bits -/

section Count

/-- The bits of the lowest field and of the others. -/
theorem bitCount_add (x w m : ℕ) : bitCount x (w + m) = bitCount (x % 2 ^ w) w + bitCount (x / 2 ^ w) m := by
  have hlow : (List.range w).filter (x.testBit ·) = (List.range w).filter ((x % 2 ^ w).testBit ·) := by
    refine List.filter_congr ?_
    intro i hi
    rw [Nat.testBit_mod_two_pow, decide_eq_true (List.mem_range.mp hi), Bool.true_and]
  have hhigh : ((List.range m).map (w + ·)).filter (x.testBit ·) =
      ((List.range m).filter ((x / 2 ^ w).testBit ·)).map (w + ·) := by
    rw [List.filter_map]
    congr 1
    refine List.filter_congr ?_
    intro i _
    rw [Function.comp_apply, Nat.testBit_div_two_pow, Nat.add_comm]
  rw [bitCount, List.range_add, List.filter_append, List.length_append, hlow, hhigh, List.length_map]
  rfl

/-- **The bits are those of the fields.** -/
theorem bitCount_fields (w k x : ℕ) : bitCount x (w * k) = ((fields w k x).map (bitCount · w)).sum := by
  induction k generalizing x with
  | zero => rfl
  | succ k ih => rw [Nat.mul_succ, Nat.add_comm, bitCount_add, ih, fields, List.map_cons, List.sum_cons]

end Count

end Cpcf.Lib.BitCount
