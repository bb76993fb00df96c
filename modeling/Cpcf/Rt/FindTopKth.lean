import Cpcf.Lib.WeakOrder

/-!
`Buffer_Ref::FindTopKth` of `rt/buffer_type.h`: the `k`-th smallest element of an unordered array,
by quickselect.

Indices are `SIZE_T`, so `r - 1` and `pos - 1` are taken modulo `2^64`. A read or a write that is not
inside the array is `none`, and so is a loop or a recursion that has not ended after `fuel` rounds.
The build is one without assertions: a `k` out of range goes on to `arr[0]`.

The range of a recursive call is a segment of the array between what is left alone, and `partition`
takes the segment `ys ++ [x]` to the elements of `ys` that are not above `x`, in their order, `x`, and
the others. It needs a range that does not end at the index zero: there `r - 1` is `2^64 - 1`, and the
loop leaves the array. Such a range is met on the way to the smallest element only.
-/

namespace Cpcf.Rt.FindTopKth

open Cpcf.Lib.WeakOrder

variable {α : Type}

/-! ### The code -/

/-- Addition of two `SIZE_T`. -/
def add (a b : ℕ) : ℕ := (a + b) % 2 ^ 64

/-- Subtraction of two `SIZE_T`. -/
def sub (a b : ℕ) : ℕ := (a + 2 ^ 64 - b) % 2 ^ 64

/-- `rt::Swap(arr[i], arr[j])`. -/
def swap (arr : List α) (i j : ℕ) : Option (List α) := do
  let a ← arr[i]?
  let b ← arr[j]?
  return (arr.set i b).set j a

/-- The loop of `partition`, with the pivot `x`: the array and `i` at its end. -/
def partitionLoop (lt : α → α → Bool) (x : α) (r : ℕ) : ℕ → List α → ℕ → ℕ → Option (List α × ℕ)
  | 0, _, _, _ => none
  | fuel + 1, arr, i, j =>
    if j ≤ sub r 1 then do
      let a ← arr[j]?
      if lt x a then partitionLoop lt x r fuel arr i (add j 1)
      else do
        let arr ← swap arr i j
        partitionLoop lt x r fuel arr (add i 1) (add j 1)
    else some (arr, i)

/-- `_Find::partition(arr, l, r)`. -/
def partition (lt : α → α → Bool) (fuel : ℕ) (arr : List α) (l r : ℕ) : Option (List α × ℕ) := do
  let x ← arr[r]?
  let (arr, i) ← partitionLoop lt x r fuel arr l l
  let arr ← swap arr i r
  return (arr, i)

/-- `_Find::kth(arr, l, r, k)`: the array it leaves, and where the element it returns stands. -/
def kth (lt : α → α → Bool) (steps : ℕ) : ℕ → List α → ℕ → ℕ → ℕ → Option (List α × ℕ)
  | 0, _, _, _, _ => none
  | fuel + 1, arr, l, r, k =>
    if 0 < k ∧ k ≤ add (sub r l) 1 then do
      let (arr, pos) ← partition lt steps arr l r
      if sub pos l = sub k 1 then some (arr, pos)
      else if sub k 1 < sub pos l then kth lt steps fuel arr l (sub pos 1) k
      else kth lt steps fuel arr (add pos 1) r (sub (add (sub k pos) l) 1)
    else some (arr, 0)

/-- `FindTopKth(k)`. -/
def findTopKth (lt : α → α → Bool) (fuel : ℕ) (arr : List α) (k : ℕ) : Option (List α × ℕ) :=
  kth lt fuel fuel arr 0 (sub arr.length 1) k

/-! ### The arithmetic of indices -/

section Arithmetic

variable {a b : ℕ}

theorem add_eq (h : a + b < 2 ^ 64) : add a b = a + b := Nat.mod_eq_of_lt h

theorem sub_eq (h : b ≤ a) (ha : a < 2 ^ 64) : sub a b = a - b := by
  unfold sub
  omega

/-- `r - 1` at the index zero. -/
theorem sub_zero_one : sub 0 1 = 2 ^ 64 - 1 := rfl

/-- The rank on the right of the pivot. -/
theorem rank_right {k pos l : ℕ} (hl : l ≤ pos) (hk : pos - l < k) (hpos : pos < 2 ^ 64) (hlt : k < 2 ^ 64) :
    sub (add (sub k pos) l) 1 = k - (pos - l) - 1 := by
  obtain ⟨d, rfl⟩ := Nat.exists_eq_add_of_le hl
  rw [Nat.add_sub_cancel_left] at hk ⊢
  obtain ⟨r, rfl⟩ := Nat.exists_eq_add_of_lt hk
  have hsub : d + r + 1 + 2 ^ 64 - (l + d) + l = r + 1 + 2 ^ 64 := by omega
  have hone : r + 1 + 2 ^ 64 - 1 = r + 2 ^ 64 := by omega
  have hr : r + 1 < 2 ^ 64 := by omega
  unfold sub add
  rw [Nat.mod_add_mod, hsub, Nat.add_mod_right, Nat.mod_eq_of_lt hr, hone, Nat.add_mod_right, Nat.mod_eq_of_lt (by omega)]
  omega

end Arithmetic

/-! ### One exchange -/

section Swap

variable (u v w : List α) (a b : α)

theorem swap_between : swap (u ++ a :: v ++ b :: w) u.length (u.length + v.length + 1) =
    some (u ++ b :: v ++ a :: w) := by
  have hi : (u ++ a :: v ++ b :: w)[u.length]? = some a := by simp
  have hlen : u.length + v.length + 1 = (u ++ a :: v).length := by
    rw [List.length_append, List.length_cons, Nat.add_assoc]
  have hj : (u ++ a :: v ++ b :: w)[u.length + v.length + 1]? = some b := by
    rw [hlen, List.getElem?_append_right le_rfl, Nat.sub_self]
    rfl
  have hset : (u ++ a :: v ++ b :: w).set u.length b = u ++ b :: v ++ b :: w := by simp
  have hlen' : u.length + v.length + 1 = (u ++ b :: v).length := by
    rw [List.length_append, List.length_cons, Nat.add_assoc]
  have hset' : (u ++ b :: v ++ b :: w).set (u.length + v.length + 1) a = u ++ b :: v ++ a :: w := by
    rw [hlen', List.set_append_right _ _ le_rfl, Nat.sub_self]
    rfl
  simp only [swap, hi, hj, hset, hset', Option.bind_eq_bind, Option.bind_some, Option.pure_def]

/-- An element is exchanged with itself. -/
theorem swap_self : swap (u ++ a :: w) u.length u.length = some (u ++ a :: w) := by
  simp [swap]

theorem length_of_swap {arr arr' : List α} {i j : ℕ} (h : swap arr i j = some arr') : arr'.length = arr.length := by
  simp only [swap, Option.bind_eq_bind, Option.bind_eq_some_iff, Option.pure_def, Option.some.injEq] at h
  obtain ⟨x, -, y, -, rfl⟩ := h
  rw [List.length_set, List.length_set]

/-- The first of the elements above the pivot goes behind them, for the element that comes next. -/
theorem swap_front (hi : List α) (t : α) : ∃ hi' : List α, hi'.Perm hi ∧
    swap (u ++ hi ++ t :: w) u.length (u.length + hi.length) = some (u ++ t :: hi' ++ w) := by
  cases hi with
  | nil => exact ⟨[], List.Perm.nil, by simpa using swap_self u w t⟩
  | cons h hs =>
    refine ⟨hs ++ [h], List.perm_append_singleton h hs, ?_⟩
    have := swap_between u hs w h t
    rw [List.length_cons, ← Nat.add_assoc, this, List.append_assoc, List.append_assoc, List.cons_append,
      List.cons_append, List.append_assoc]
    rfl

end Swap

/-! ### The partition -/

section Partition

variable {lt : α → α → Bool} {x : α} {r : ℕ}

/-- **The loop.** Behind `pre` stand the elements found not above the pivot, those found above it, and the
elements to come; the pivot is the first element of `post`, and not at the index zero. -/
theorem partitionLoop_eq (lt : α → α → Bool) (x : α) (hr : 0 < r) (hr' : r < 2 ^ 64) (post todo : List α) :
    ∀ pre hi : List α, pre.length + hi.length + todo.length = r → ∃ hi' : List α,
      hi'.Perm (hi ++ todo.filter (lt x ·)) ∧ ∀ fuel, partitionLoop lt x r fuel (pre ++ hi ++ todo ++ post) pre.length
        (pre.length + hi.length) = if todo.length < fuel then
          some (pre ++ todo.filter (!lt x ·) ++ hi' ++ post, pre.length + (todo.filter (!lt x ·)).length) else none := by
  have hlast : sub r 1 = r - 1 := sub_eq hr hr'
  induction todo with
  | nil =>
    intro pre hi hlen
    refine ⟨hi, by simp, ?_⟩
    intro fuel
    rw [List.length_nil, Nat.add_zero] at hlen
    cases fuel with
    | zero => rfl
    | succ fuel =>
      rw [partitionLoop, hlast, if_neg (by omega), List.length_nil, if_pos (Nat.succ_pos fuel)]
      simp
  | cons t todo ih =>
    intro pre hi hlen
    rw [List.length_cons] at hlen
    have hget : (pre ++ hi ++ t :: todo ++ post)[pre.length + hi.length]? = some t := by
      rw [← List.length_append, List.append_assoc, List.getElem?_append_right le_rfl, Nat.sub_self]
      rfl
    have hj : add (pre.length + hi.length) 1 = pre.length + hi.length + 1 := add_eq (by omega)
    cases ht : lt x t with
    | true =>
      obtain ⟨hi', hperm, hloop⟩ := ih pre (hi ++ [t]) (by rw [List.length_append, List.length_singleton]; omega)
      refine ⟨hi', ?_, ?_⟩
      · rw [List.filter_cons_of_pos ht]
        simpa using hperm
      · intro fuel
        cases fuel with
        | zero => rfl
        | succ fuel =>
          have hrest := hloop fuel
          rw [List.length_append, List.length_singleton, ← Nat.add_assoc, ← List.append_assoc pre, List.append_assoc
            (pre ++ hi), List.singleton_append] at hrest
          rw [partitionLoop, hlast, if_pos (by omega), hget, Option.bind_eq_bind, Option.bind_some, if_pos ht, hj,
            hrest, List.filter_cons_of_neg (by simp [ht]), List.length_cons]
          simp only [Nat.add_lt_add_iff_right]
    | false =>
      obtain ⟨hi₁, hperm₁, hswap⟩ := swap_front pre (todo ++ post) hi t
      obtain ⟨hi', hperm, hloop⟩ := ih (pre ++ [t]) hi₁ (by
        rw [List.length_append, List.length_singleton, hperm₁.length_eq]
        omega)
      refine ⟨hi', ?_, ?_⟩
      · rw [List.filter_cons_of_neg (by simp [ht])]
        exact hperm.trans (hperm₁.append_right _)
      · intro fuel
        cases fuel with
        | zero => rfl
        | succ fuel =>
          have hrest := hloop fuel
          rw [List.length_append, List.length_singleton, hperm₁.length_eq, Nat.add_right_comm] at hrest
          have hi1 : add pre.length 1 = pre.length + 1 := add_eq (by omega)
          have hshape : pre ++ [t] ++ hi₁ ++ todo ++ post = pre ++ t :: hi₁ ++ (todo ++ post) := by simp
          have hshape' : pre ++ hi ++ t :: (todo ++ post) = pre ++ hi ++ t :: todo ++ post := by simp
          rw [hshape] at hrest
          rw [hshape'] at hswap
          rw [partitionLoop, hlast, if_pos (by omega), hget, Option.bind_eq_bind, Option.bind_some, ht,
            if_neg Bool.false_ne_true, hswap, Option.bind_eq_bind, Option.bind_some, hj, hi1, hrest,
            List.filter_cons_of_pos (by simp [ht]), List.length_cons, List.length_cons]
          simp only [Nat.add_lt_add_iff_right, List.append_assoc, List.nil_append, List.cons_append,
            Nat.add_right_comm pre.length 1, ← Nat.add_assoc]

/-- **`partition`** of the segment `ys ++ [x]`, which does not end at the index zero. -/
theorem partition_eq (lt : α → α → Bool) (x : α) (pre ys post : List α) (hpos : 0 < pre.length + ys.length)
    (hlen : pre.length + ys.length < 2 ^ 64) : ∃ hi : List α, hi.Perm (ys.filter (lt x ·)) ∧
      ∀ fuel, partition lt fuel (pre ++ (ys ++ [x]) ++ post) pre.length (pre.length + ys.length) =
        if ys.length < fuel then some (pre ++ (ys.filter (!lt x ·) ++ x :: hi) ++ post,
          pre.length + (ys.filter (!lt x ·)).length) else none := by
  obtain ⟨hi, hperm, hloop⟩ := partitionLoop_eq lt x hpos hlen (x :: post) ys pre [] (by simp)
  rw [List.nil_append] at hperm
  obtain ⟨hi', hperm', hswap⟩ := swap_front (pre ++ ys.filter (!lt x ·)) post hi x
  refine ⟨hi', hperm'.trans hperm, ?_⟩
  intro fuel
  have hget : (pre ++ (ys ++ [x]) ++ post)[pre.length + ys.length]? = some x := by
    rw [← List.length_append, ← List.append_assoc, List.append_assoc (pre ++ ys), List.getElem?_append_right le_rfl,
      Nat.sub_self]
    rfl
  have hrun := hloop fuel
  rw [List.append_nil, List.length_nil, Nat.add_zero] at hrun
  have hshape : pre ++ (ys ++ [x]) ++ post = pre ++ ys ++ x :: post := by simp
  -- the pivot stands behind all elements of the segment
  have hcount : (pre ++ ys.filter (!lt x ·)).length + hi.length = pre.length + ys.length := by
    have := List.length_eq_length_filter_add (l := ys) (lt x ·)
    rw [List.length_append, hperm.length_eq]
    omega
  rw [hcount, List.length_append] at hswap
  rw [partition, hget, Option.bind_eq_bind, Option.bind_some, hshape, hrun]
  by_cases hfuel : ys.length < fuel
  · rw [if_pos hfuel, if_pos hfuel, Option.bind_eq_bind, Option.bind_some]
    simp only [hswap, Option.bind_eq_bind, Option.bind_some, Option.pure_def]
    rw [List.append_assoc pre]
  · rw [if_neg hfuel, if_neg hfuel]
    rfl

/-- A range that ends at the index zero: the loop goes on until it leaves the array. -/
theorem partitionLoop_zero (fuel : ℕ) : ∀ (arr : List α) (i j : ℕ), j ≤ arr.length → arr.length < 2 ^ 64 →
    partitionLoop lt x 0 fuel arr i j = none := by
  induction fuel with
  | zero => exact fun _ _ _ _ _ => rfl
  | succ fuel ih =>
    intro arr i j hj hlen
    rw [partitionLoop, sub_zero_one, if_pos (by omega)]
    obtain hj | rfl := hj.lt_or_eq
    · have hadd : add j 1 = j + 1 := add_eq (by omega)
      rw [List.getElem?_eq_getElem hj, Option.bind_eq_bind, Option.bind_some, hadd]
      split
      · exact ih arr i (j + 1) hj hlen
      · cases hs : swap arr i j with
        | none => rfl
        | some arr' =>
          have harr := length_of_swap hs
          exact ih arr' (add i 1) (j + 1) (by omega) (by omega)
    · rw [List.getElem?_eq_none le_rfl]
      rfl

theorem partition_zero (fuel : ℕ) {arr : List α} (hlen : arr.length < 2 ^ 64) : partition lt fuel arr 0 0 = none := by
  rw [partition]
  cases arr[0]? with
  | none => rfl
  | some a =>
    rw [Option.bind_eq_bind, Option.bind_some, partitionLoop_zero fuel arr 0 0 (Nat.zero_le _) hlen]
    rfl

end Partition

/-! ### The smallest element -/

section Smallest

variable {lt : α → α → Bool}

/-- Some element in front of the first smallest element is not above any element behind that. -/
def Guarded (lt : α → α → Bool) (xs : List α) : Prop :=
  ∃ u m w, xs = u ++ m :: w ∧ (∀ a ∈ u, lt m a = true) ∧ (∀ b ∈ w, lt b m = false) ∧
    ∃ a ∈ u, ∀ b ∈ w, lt b a = false

/-- What is guarded after a partition was guarded before; and where the pivot is below all other elements
there is no second partition. -/
theorem guarded_pivot (h : StrictWeak lt) (ys : List α) (x : α) : Guarded lt (ys ++ [x]) ↔
    (ys ≠ [] ∧ ys.filter (!lt x ·) = []) ∨ Guarded lt (ys.filter (!lt x ·)) := by
  constructor
  · rintro ⟨u, m, w, heq, hu, hw, a, ha, hguard⟩
    obtain rfl | ⟨w', b, rfl⟩ := List.eq_nil_or_concat' w
    · -- the pivot is the first smallest element
      obtain ⟨rfl, hx⟩ := List.append_inj' heq rfl
      obtain rfl : x = m := by simpa using hx
      refine Or.inl ⟨List.ne_nil_of_mem ha, List.filter_eq_nil_iff.mpr ?_⟩
      intro b hb
      simp [hu b hb]
    · rw [← List.cons_append, ← List.append_assoc] at heq
      obtain ⟨rfl, hx⟩ := List.append_inj' heq rfl
      obtain rfl : x = b := by simpa using hx
      have hxm : lt x m = false := hw x (by simp)
      have hxa : lt x a = false := hguard x (by simp)
      refine Or.inr ⟨u.filter (!lt x ·), m, w'.filter (!lt x ·), ?_, ?_, ?_, a, ?_, ?_⟩
      · rw [List.filter_append, List.filter_cons_of_pos (by simp [hxm])]
      · exact fun b hb => hu b (List.mem_of_mem_filter hb)
      · exact fun b hb => hw b (by simp [List.mem_of_mem_filter hb])
      · exact List.mem_filter.mpr ⟨ha, by simp [hxa]⟩
      · exact fun b hb => hguard b (by simp [List.mem_of_mem_filter hb])
  · rintro (⟨hne, hnil⟩ | ⟨u', m, w', heq, hu, hw, a, ha, hguard⟩)
    · obtain ⟨a, ha⟩ := List.exists_mem_of_ne_nil ys hne
      refine ⟨ys, x, [], rfl, ?_, by simp, a, ha, by simp⟩
      intro b hb
      simpa using List.filter_eq_nil_iff.mp hnil b hb
    · obtain ⟨l₁, l₂, rfl, rfl, hl₂⟩ := List.filter_eq_append_iff.mp heq
      obtain ⟨z, t, rfl, hz, hm, rfl⟩ := List.filter_eq_cons_iff.mp hl₂
      have hxm : lt x m = false := by simpa using hm
      obtain ⟨hal, hxa⟩ := List.mem_filter.mp ha
      have hxa : lt x a = false := by simpa using hxa
      -- an element left out by the filter is above the pivot, and so above what is not above the pivot
      have hout : ∀ b c, lt x b = true → lt x c = false → lt b c = false :=
        fun b c hb hc => h.asymm c b (h.lt_of_le_of_lt hc hb)
      refine ⟨l₁ ++ z, m, t ++ [x], by simp, ?_, ?_, a, by simp [hal], ?_⟩
      · intro b hb
        cases hxb : lt x b with
        | true => exact h.lt_of_le_of_lt hxm hxb
        | false =>
          obtain hb | hb := List.mem_append.mp hb
          · exact hu b (List.mem_filter.mpr ⟨hb, by simp [hxb]⟩)
          · exact absurd hxb (by simpa using hz b hb)
      · intro b hb
        obtain hb | rfl := by simpa using hb
        · cases hxb : lt x b with
          | true => exact hout b m hxb hxm
          | false => exact hw b (List.mem_filter.mpr ⟨hb, by simp [hxb]⟩)
        · exact hxm
      · intro b hb
        obtain hb | rfl := by simpa using hb
        · cases hxb : lt x b with
          | true => exact hout b a hxb hxa
          | false => exact hguard b (List.mem_filter.mpr ⟨hb, by simp [hxb]⟩)
        · exact hxa

theorem not_guarded_singleton (x : α) : ¬ Guarded lt [x] := by
  rintro ⟨u, m, w, heq, -, -, a, ha, -⟩
  have hlen := congrArg List.length heq
  have := List.length_pos_of_mem ha
  simp only [List.length_append, List.length_cons, List.length_nil] at hlen
  omega

end Smallest

/-! ### Quickselect -/

section Select

variable {lt : α → α → Bool}

/-- The elements around the pivot. -/
theorem perm_around {ys hi : List α} {x : α} (hperm : hi.Perm (ys.filter (lt x ·))) :
    (ys.filter (!lt x ·) ++ x :: hi).Perm (ys ++ [x]) := by
  have hsplit := (List.perm_append_comm.trans (List.filter_append_perm (lt x ·) ys))
  calc (ys.filter (!lt x ·) ++ x :: hi).Perm (x :: (ys.filter (!lt x ·) ++ hi)) := List.perm_middle
    _ |>.Perm (x :: (ys.filter (!lt x ·) ++ ys.filter (lt x ·))) := ((hperm.append_left _).cons x)
    _ |>.Perm (x :: ys) := hsplit.cons x
    _ |>.Perm (ys ++ [x]) := (List.perm_append_singleton x ys).symm

/-- One call of `kth`: the pivot is the `p`-th element of the range after the partition. -/
theorem kth_succ {steps fuel l r k p : ℕ} {arr arr' : List α} (hp : partition lt steps arr l r = some (arr', l + p))
    (hk : 0 < k) (hkr : k ≤ r - l + 1) (hpr : l + p ≤ r) (hr : r + 1 < 2 ^ 64) :
    kth lt steps (fuel + 1) arr l r k = if p = k - 1 then some (arr', l + p)
      else if k - 1 < p then kth lt steps fuel arr' l (l + p - 1) k
      else kth lt steps fuel arr' (l + p + 1) r (k - p - 1) := by
  have hrange : add (sub r l) 1 = r - l + 1 := by
    rw [sub_eq (by omega) (by omega)]
    exact add_eq (by omega)
  have hpos : sub (l + p) l = p := by
    rw [sub_eq (by omega) (by omega)]
    omega
  have hk1 : sub k 1 = k - 1 := sub_eq hk (by omega)
  have hnext : add (l + p) 1 = l + p + 1 := add_eq (by omega)
  rw [kth, hrange, if_pos ⟨hk, hkr⟩, hp, Option.bind_eq_bind, Option.bind_some]
  simp only [hpos, hk1, hnext]
  by_cases heq : p = k - 1
  · rw [if_pos heq, if_pos heq]
  rw [if_neg heq, if_neg heq]
  by_cases hlt : k - 1 < p
  · rw [if_pos hlt, if_pos hlt, sub_eq (by omega) (by omega)]
  · have hrank : sub (add (sub k (l + p)) l) 1 = k - p - 1 := by
      rw [rank_right (by omega) (by omega) (by omega) (by omega), Nat.add_sub_cancel_left]
    rw [if_neg hlt, if_neg hlt, hrank]

/-- **A range on which `kth` ends.** -/
theorem kth_some (h : StrictWeak lt) (steps fuel : ℕ) : ∀ (pre seg post : List α) (k : ℕ), 0 < k →
    k ≤ seg.length → 0 < pre.length ∨ 1 < k ∨ Guarded lt seg → pre.length + seg.length < 2 ^ 64 →
    seg.length ≤ steps → seg.length ≤ fuel → ∃ (seg' : List α) (pos : ℕ) (v : α), seg'.Perm seg ∧
      kth lt steps fuel (pre ++ seg ++ post) pre.length (pre.length + seg.length - 1) k =
        some (pre ++ seg' ++ post, pre.length + pos) ∧ seg'[pos]? = some v ∧ IsKth lt k seg v := by
  induction fuel with
  | zero =>
    intro pre seg post k hk hks _ _ _ hfuel
    omega
  | succ fuel ih =>
    intro pre seg post k hk hks hguard hlen hsteps hfuel
    obtain rfl | ⟨ys, x, rfl⟩ := List.eq_nil_or_concat' seg
    · rw [List.length_nil] at hks
      omega
    rw [List.length_append, List.length_singleton] at hks hlen hsteps hfuel ⊢
    -- the range does not end at the index zero
    have hpos : 0 < pre.length + ys.length := by
      by_contra hzero
      obtain rfl : ys = [] := List.eq_nil_of_length_eq_zero (by omega)
      obtain hpre | hk1 | hguard := hguard
      · omega
      · rw [List.length_nil] at hks
        omega
      · exact not_guarded_singleton x hguard
    obtain ⟨hi, hperm, hpart⟩ := partition_eq lt x pre ys post hpos (by omega)
    have hpart := hpart steps
    rw [if_pos (by omega)] at hpart
    have haround := perm_around hperm
    set lo := ys.filter (!lt x ·) with hlo
    have hle : ∀ a ∈ lo, lt x a = false := fun a ha => by simpa using List.of_mem_filter ha
    have hge : ∀ b ∈ hi, lt b x = false := fun b hb =>
      h.asymm x b (List.of_mem_filter (p := (lt x ·)) (hperm.subset hb))
    have hcount : lo.length + hi.length = ys.length := by
      have := haround.length_eq
      simp only [List.length_append, List.length_cons, List.length_nil] at this
      omega
    have hr : pre.length + (ys.length + 1) - 1 = pre.length + ys.length := by omega
    rw [hr, kth_succ hpart hk (by omega) (by omega) (by omega)]
    by_cases heq : lo.length = k - 1
    · rw [if_pos heq]
      refine ⟨lo ++ x :: hi, lo.length, x, haround, rfl, ?_, ?_⟩
      · rw [List.getElem?_append_right le_rfl, Nat.sub_self]
        rfl
      · have hkth := isKth_pivot h hle hge
        rw [show lo.length + 1 = k by omega] at hkth
        exact hkth.perm haround
    rw [if_neg heq]
    by_cases hlt : k - 1 < lo.length
    · have hguard' : 0 < pre.length ∨ 1 < k ∨ Guarded lt lo := by
        refine hguard.imp_right (Or.imp_right ?_)
        intro hg
        obtain ⟨-, hnil⟩ | hg := (guarded_pivot h ys x).mp hg
        · rw [← hlo] at hnil
          rw [hnil, List.length_nil] at hlt
          omega
        · exact hg
      obtain ⟨seg', pos, v, hseg, hrun, hget, hkth⟩ := ih pre lo (x :: hi ++ post) k hk (by omega) hguard' (by omega)
        (by omega) (by omega)
      refine ⟨seg' ++ x :: hi, pos, v, (hseg.append_right _).trans haround, ?_, ?_, ?_⟩
      · have hshape : pre ++ (lo ++ x :: hi) ++ post = pre ++ lo ++ (x :: hi ++ post) := by simp
        rw [if_pos hlt, hshape, hrun]
        simp
      · obtain ⟨hlt, -⟩ := List.getElem?_eq_some_iff.mp hget
        rw [List.getElem?_append_left hlt, hget]
      · exact (hkth.below h hle hge).perm haround
    · obtain ⟨seg', pos, v, hseg, hrun, hget, hkth⟩ := ih (pre ++ (lo ++ [x])) hi post (k - lo.length - 1) (by omega)
        (by omega) (Or.inl (by simp)) (by simp; omega) (by omega) (by omega)
      refine ⟨lo ++ x :: seg', lo.length + 1 + pos, v, ((hseg.cons x).append_left lo).trans haround, ?_, ?_, ?_⟩
      · have hshape : pre ++ (lo ++ x :: hi) ++ post = pre ++ (lo ++ [x]) ++ hi ++ post := by simp
        have hl : pre.length + lo.length + 1 = (pre ++ (lo ++ [x])).length := by simp [Nat.add_assoc]
        have hr' : pre.length + ys.length = (pre ++ (lo ++ [x])).length + hi.length - 1 := by
          rw [← hl]
          omega
        rw [if_neg hlt, hshape, hl, hr', hrun, ← hl]
        simp [Nat.add_assoc]
      · rw [List.getElem?_append_right (by omega), show lo.length + 1 + pos - lo.length = pos + 1 by omega,
          List.getElem?_cons_succ, hget]
      · have hkth := hkth.above h hle hge (by omega)
        rw [show lo.length + 1 + (k - lo.length - 1) = k by omega] at hkth
        exact hkth.perm haround

/-- **The smallest element that is not guarded**: the range shrinks to the index zero alone, and the loop
leaves the array. -/
theorem kth_none (h : StrictWeak lt) (steps fuel : ℕ) : ∀ seg post : List α, seg ≠ [] → ¬ Guarded lt seg →
    seg.length + post.length < 2 ^ 64 → kth lt steps fuel (seg ++ post) 0 (seg.length - 1) 1 = none := by
  induction fuel with
  | zero => exact fun _ _ _ _ _ => rfl
  | succ fuel ih =>
    intro seg post hne hguard hlen
    obtain rfl | ⟨ys, x, rfl⟩ := List.eq_nil_or_concat' seg
    · exact absurd rfl hne
    rw [guarded_pivot h, not_or] at hguard
    obtain ⟨hlo, hguard⟩ := hguard
    rw [List.length_append, List.length_singleton] at hlen ⊢
    rw [Nat.add_sub_cancel]
    by_cases hys : ys = []
    · subst hys
      rw [kth, List.length_nil, if_pos ⟨Nat.zero_lt_one, by decide⟩,
        partition_zero steps (by simp only [List.length_append, List.length_nil] at hlen ⊢; omega)]
      rfl
    have hlo : ys.filter (!lt x ·) ≠ [] := fun hnil => hlo ⟨hys, hnil⟩
    have hpos := List.length_pos_iff.mpr hlo
    have hposy := List.length_pos_iff.mpr hys
    obtain ⟨hi, hperm, hpart⟩ := partition_eq lt x [] ys post (by simpa using hposy)
      (by rw [List.length_nil]; omega)
    have hpart := hpart steps
    simp only [List.nil_append, List.length_nil, Nat.zero_add] at hpart
    have hcount : (ys.filter (!lt x ·)).length + hi.length = ys.length := by
      have := (perm_around hperm).length_eq
      simp only [List.length_append, List.length_cons, List.length_nil] at this
      omega
    split at hpart
    · have hshape : ys.filter (!lt x ·) ++ x :: hi ++ post = ys.filter (!lt x ·) ++ (x :: hi ++ post) := by simp
      have hp : partition lt steps (ys ++ [x] ++ post) 0 ys.length =
          some (ys.filter (!lt x ·) ++ x :: hi ++ post, 0 + (ys.filter (!lt x ·)).length) := by
        rw [hpart, Nat.zero_add]
      rw [kth_succ hp Nat.zero_lt_one (by omega) (by omega) (by omega), if_neg (by omega), if_pos hpos, Nat.zero_add,
        hshape]
      refine ih _ _ hlo hguard ?_
      simp only [List.length_append, List.length_cons]
      omega
    · have hrange : 1 ≤ add (sub ys.length 0) 1 := by
        rw [sub_eq (Nat.zero_le _) (by omega), add_eq (by omega)]
        exact Nat.le_add_left 1 _
      rw [kth, if_pos ⟨Nat.zero_lt_one, hrange⟩, hpart]
      rfl

/-- **Quickselect.** The call ends inside the array, leaves a rearrangement of the elements and returns the
`k`-th smallest if and only if it does not look for the smallest element of an array where that is not
guarded. -/
theorem findTopKth_iff (h : StrictWeak lt) (xs : List α) (k : ℕ) (hk : 1 ≤ k) (hks : k ≤ xs.length)
    (hlen : xs.length < 2 ^ 64) :
    (∃ (fuel : ℕ) (ys : List α) (pos : ℕ) (v : α), findTopKth lt fuel xs k = some (ys, pos) ∧ ys.Perm xs ∧
      ys[pos]? = some v ∧ IsKth lt k xs v) ↔ 1 < k ∨ Guarded lt xs := by
  have hlast : sub xs.length 1 = xs.length - 1 := sub_eq (by omega) hlen
  constructor
  · rintro ⟨fuel, ys, pos, v, hrun, -⟩
    by_contra hcond
    rw [not_or] at hcond
    obtain rfl : k = 1 := by omega
    have hne : xs ≠ [] := List.length_pos_iff.mp (by omega)
    have hnone := kth_none h fuel fuel xs [] hne hcond.2 (by simpa using hlen)
    rw [List.append_nil] at hnone
    rw [findTopKth, hlast, hnone] at hrun
    exact absurd hrun (by simp)
  · intro hcond
    obtain ⟨ys, pos, v, hperm, hrun, hget, hkth⟩ := kth_some h xs.length xs.length [] xs [] k hk hks
      (Or.inr hcond) (by simpa using hlen) le_rfl le_rfl
    simp only [List.nil_append, List.append_nil, List.length_nil, Nat.zero_add] at hrun
    exact ⟨xs.length, ys, pos, v, by rw [findTopKth, hlast, hrun], hperm, hget, hkth⟩

/-- The second smallest element of `3, 1, 2`. -/
theorem findTopKth_second : ∃ (fuel : ℕ) (ys : List ℕ) (pos v : ℕ),
    findTopKth (fun a b => decide (a < b)) fuel [3, 1, 2] 2 = some (ys, pos) ∧ ys.Perm [3, 1, 2] ∧ ys[pos]? = some v ∧
      IsKth (fun a b => decide (a < b)) 2 [3, 1, 2] v :=
  (findTopKth_iff (strictWeak_lt ℕ) [3, 1, 2] 2 (by decide) (by decide) (by decide)).mpr (Or.inl (by decide))

/-- The smallest element of `3, 1, 2` is not found: the first partition leaves `1` alone at the index zero. -/
theorem findTopKth_first_lost : ¬ ∃ (fuel : ℕ) (ys : List ℕ) (pos v : ℕ),
    findTopKth (fun a b => decide (a < b)) fuel [3, 1, 2] 1 = some (ys, pos) ∧ ys.Perm [3, 1, 2] ∧ ys[pos]? = some v ∧
      IsKth (fun a b => decide (a < b)) 1 [3, 1, 2] v := by
  rintro ⟨fuel, ys, pos, v, hrun, -⟩
  have hguard : ¬ Guarded (fun a b => decide (a < b)) [3, 1, 2] := by
    rw [show [3, 1, 2] = [3, 1] ++ [2] from rfl, guarded_pivot (strictWeak_lt ℕ), not_or]
    exact ⟨by decide, not_guarded_singleton 1⟩
  have hnone := kth_none (strictWeak_lt ℕ) fuel fuel [3, 1, 2] [] (by decide) hguard (by decide)
  exact absurd (hnone.symm.trans hrun) (by simp)

end Select

end Cpcf.Rt.FindTopKth
