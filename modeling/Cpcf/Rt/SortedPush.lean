import Cpcf.Lib.WeakOrder
import Cpcf.Rt.BufferExList

/-!
`SortedPush` of `rt/buffer_type.h`, on an array of fixed length and on a growable one.

`Buffer_Ref::SortedPush` drops the last element, and refuses a value above it. `BufferEx::SortedPush` adds
an element; the loop there is without a bound, as the first element is not above the value. Both move the
elements above the value one place back, from the end, and so put the value behind all elements equal to
it. `rt::Copy` and the constructor leave a copy of the value.
-/

namespace Cpcf.Rt.SortedPush

open Cpcf.Lib.Cells Cpcf.Lib.WeakOrder Cpcf.Rt.BufferEx

variable {α : Type}

/-! ### The code -/

/-- An array of fixed length: the cells behind the pointer and how many there are. -/
structure Ref (α : Type) where
  cells : ℕ → α
  len : ℕ

def Ref.contents (s : Ref α) : List α := slice s.cells 0 s.len

/-- The loop of `Buffer_Ref::SortedPush` with `j` elements in front of the free place: where the value
goes, and the elements moved. -/
def moveUp (lt : α → α → Bool) (x : α) : ℕ → (ℕ → α) → ℕ × (ℕ → α)
  | 0, f => (0, f)
  | j + 1, f => if lt x (f j) then moveUp lt x j (Function.update f (j + 1) (f j)) else (j + 1, f)

/-- `Buffer_Ref::SortedPush(x)`: the array, and the index that is returned. -/
def refSortedPush (lt : α → α → Bool) (s : Ref α) (x : α) : Ref α × ℤ :=
  if s.len = 0 ∨ lt (s.cells (s.len - 1)) x then (s, -1)
  else
    let (p, cells) := moveUp lt x (s.len - 1) s.cells
    ({ s with cells := Function.update cells p x }, p)

/-- `BufferEx::SortedPush(x)`, with the index that is returned. -/
def bufferExSortedPush (w : ℕ) (lt : α → α → Bool) (s : State α) (x : α) (answers : Answers α) : State α × ℤ :=
  if s.len = 0 ∨ lt x (s.cells 0) then (pushFront w s x answers, 0)
  else
    match if s.reserved = s.len then reserve w s ((s.len * 2 + 1) % 2 ^ 64) answers.first else (s, true) with
    | (s, true) =>
      let (p, cells) := siftDown lt x (s.len - 1) s.cells
      ({ s with cells := Function.update cells p x, len := (s.len + 1) % 2 ^ 64 }, p)
    | (s, false) => (s, -1)

/-- It is the operation of the growable array. -/
theorem sortedPush_eq (w : ℕ) (lt : α → α → Bool) (s : State α) (x : α) (answers : Answers α) :
    sortedPush w s lt x answers =
      ((bufferExSortedPush w lt s x answers).1, decide (0 ≤ (bufferExSortedPush w lt s x answers).2)) := by
  unfold sortedPush bufferExSortedPush
  split
  · rfl
  · split
    · rename_i heq
      simp only [heq]
      rw [decide_eq_true (Int.natCast_nonneg _)]
    · rename_i heq
      simp only [heq]
      rfl

/-! ### The loops -/

section Loop

variable {lt : α → α → Bool} {x : α}

/-- The loop with the first element as a sentinel. -/
theorem siftDown_eq_moveUp (j : ℕ) (f : ℕ → α) : siftDown lt x j f = moveUp lt x (j + 1) f := by
  induction j generalizing f with
  | zero => rfl
  | succ j ih => rw [siftDown, moveUp, ih]

/-- **The loop.** The elements above the value are one place further. -/
theorem moveUp_eq (j : ℕ) : ∀ (f : ℕ → α) (u w : List α), slice f 0 j = u ++ w → Inserted lt x u w →
    ∃ g, moveUp lt x j f = (u.length, g) ∧ slice g 0 u.length = u ∧ slice g (u.length + 1) w.length = w ∧
      ∀ k, j < k → g k = f k := by
  induction j with
  | zero =>
    intro f u w hf _
    obtain ⟨rfl, rfl⟩ := List.append_eq_nil_iff.mp hf.symm
    exact ⟨f, rfl, rfl, rfl, fun _ _ => rfl⟩
  | succ j ih =>
    intro f u w hf hi
    have hcut : slice f 0 (j + 1) = slice f 0 j ++ [f j] := by rw [slice_add, slice_one, Nat.zero_add]
    obtain rfl | ⟨w, b, rfl⟩ := List.eq_nil_or_concat' w
    · -- nothing is above the value
      rw [List.append_nil] at hf
      have hmem : f j ∈ u := by rw [← hf, hcut]; simp
      have hlen : u.length = j + 1 := by rw [← hf, length_slice]
      refine ⟨f, ?_, by rw [hlen, hf], rfl, fun _ _ => rfl⟩
      rw [moveUp, hi.front _ hmem, if_neg Bool.false_ne_true, hlen]
    · rw [hcut, ← List.append_assoc] at hf
      obtain ⟨hpre, hb⟩ := List.append_inj' hf rfl
      obtain rfl : f j = b := by simpa using hb
      have hsame : slice (Function.update f (j + 1) (f j)) 0 j = u ++ w := by
        rw [← hpre]
        exact slice_congr fun i hij => Function.update_of_ne (by omega) _ _
      obtain ⟨g, hrun, hu, hw, hrest⟩ := ih _ u w hsame ⟨hi.front, fun c hc => hi.behind c (by simp [hc])⟩
      have hlen : u.length + w.length = j := by rw [← List.length_append, ← hpre, length_slice]
      refine ⟨g, ?_, hu, ?_, ?_⟩
      · rw [moveUp, hi.behind _ (by simp), if_pos rfl, hrun]
      · have hlast : g (u.length + 1 + w.length) = f j := by
          rw [Nat.add_right_comm, hlen, hrest _ (Nat.lt_succ_self j), Function.update_self]
        rw [List.length_append, List.length_singleton, slice_add, hw, slice_one, hlast]
      · intro k hk
        rw [hrest k (by omega), Function.update_of_ne (by omega)]

/-- The value is put at its place. -/
theorem slice_update_moved {g : ℕ → α} {u w : List α} (hu : slice g 0 u.length = u)
    (hw : slice g (u.length + 1) w.length = w) :
    slice (Function.update g u.length x) 0 (u.length + 1 + w.length) = u ++ x :: w := by
  have hu' : slice (Function.update g u.length x) 0 u.length = u := by
    conv_rhs => rw [← hu]
    exact slice_congr fun i hi => Function.update_of_ne (by omega) _ _
  have hw' : slice (Function.update g u.length x) (u.length + 1) w.length = w := by
    conv_rhs => rw [← hw]
    exact slice_congr fun i _ => Function.update_of_ne (by omega) _ _
  rw [Nat.add_assoc, slice_add, Nat.zero_add, hu', Nat.add_comm 1, slice, hw', Function.update_self]

end Loop

/-! ### The array of fixed length -/

section Fixed

variable {lt : α → α → Bool} {s : Ref α} {x : α}

theorem length_refContents (s : Ref α) : s.contents.length = s.len := length_slice _ _ _

/-- The value takes its place, and the last element is gone. -/
theorem refSortedPush_inserted {u w : List α} (hne : s.len ≠ 0) (hlast : lt (s.cells (s.len - 1)) x = false)
    (hcut : s.contents.dropLast = u ++ w) (hi : Inserted lt x u w) : ∃ t, refSortedPush lt s x = (t, (u.length : ℤ)) ∧
      t.len = s.len ∧ t.contents = u ++ x :: w := by
  have hfront : slice s.cells 0 (s.len - 1) = u ++ w := by
    rw [← hcut, List.dropLast_eq_take, length_refContents, Ref.contents, take_slice _ (Nat.sub_le _ _)]
  obtain ⟨g, hrun, hu, hw, -⟩ := moveUp_eq (s.len - 1) s.cells u w hfront hi
  have hcond : ¬ (s.len = 0 ∨ lt (s.cells (s.len - 1)) x = true) := by simp [hne, hlast]
  have hlen : u.length + 1 + w.length = s.len := by
    have := congrArg List.length hfront
    rw [length_slice, List.length_append] at this
    omega
  refine ⟨⟨Function.update g u.length x, s.len⟩, ?_, rfl, ?_⟩
  · rw [refSortedPush, if_neg hcond, hrun]
  · rw [Ref.contents, ← hlen]
    exact slice_update_moved hu hw

end Fixed

/-! ### The growable array -/

section Growable

variable {lt : α → α → Bool} {w : ℕ} {s : State α} {x : α} {answers : Answers α}

/-- The value does not go to the front, the array is full, and the allocator has nothing. -/
def Refused (lt : α → α → Bool) (s : State α) (x : α) (answers : Answers α) : Prop :=
  (s.len ≠ 0 ∧ lt x (s.cells 0) = false) ∧ s.reserved = s.len ∧ answers.first = none

instance (lt : α → α → Bool) (s : State α) (x : α) (answers : Answers α) : Decidable (Refused lt s x answers) :=
  inferInstanceAs (Decidable ((_ ∧ _) ∧ _ ∧ _))

theorem bufferExSortedPush_refused (hok : SortedOk w s answers) (h : Refused lt s x answers) :
    bufferExSortedPush w lt s x answers = (s, -1) := by
  obtain ⟨⟨hne, hfirst⟩, hfull, hnone⟩ := h
  have hsize := (hok.2 hfull).1
  have hreserve : reserve w s ((s.len * 2 + 1) % 2 ^ 64) answers.first = (s, false) := by
    rw [Nat.mod_eq_of_lt hsize, hnone, reserve, if_pos (by omega)]
    rfl
  rw [bufferExSortedPush, if_neg (by simp [hne, hfirst]), if_pos hfull, hreserve]

/-- The value takes its place. -/
theorem bufferExSortedPush_inserted (h : StrictWeak lt) (hw : 0 < w) (hcap : CapOk w s) (hok : SortedOk w s answers)
    (hfront : s.len = 0 ∨ lt x (s.cells 0) = true → AddDone w s 1 answers) (hnot : ¬ Refused lt s x answers)
    (hasc : Ascending lt s.contents) : ∃ t u w', bufferExSortedPush w lt s x answers = (t, (u.length : ℤ)) ∧
      s.contents = u ++ w' ∧ Inserted lt x u w' ∧ t.contents = u ++ x :: w' := by
  by_cases hcond : s.len = 0 ∨ lt x (s.cells 0) = true
  · refine ⟨pushFront w s x answers, [], s.contents, by rw [bufferExSortedPush, if_pos hcond]; rfl, rfl,
      ⟨by simp, ?_⟩, contents_pushFront hw x (hfront hcond)⟩
    intro b hb
    cases hn : s.len with
    | zero =>
      rw [State.contents, hn] at hb
      exact absurd hb (by simp [slice])
    | succ n =>
      have hlt := hcond.resolve_left (by omega)
      rw [State.contents, hn, slice] at hasc hb
      obtain rfl | hb := List.mem_cons.mp hb
      · exact hlt
      · exact h.lt_of_lt_of_le hlt ((List.pairwise_cons.mp hasc).1 b hb)
  · obtain ⟨hne, hfirst⟩ := not_or.mp hcond
    -- there is room, and the elements are where they were
    have hroom : ∃ s', (if s.reserved = s.len then reserve w s ((s.len * 2 + 1) % 2 ^ 64) answers.first else (s, true)) =
        (s', true) ∧ s'.len = s.len ∧ slice s'.cells 0 s.len = s.contents := by
      split
      · rename_i hfull
        have hsome : answers.first.isSome = true := by
          rw [Option.isSome_iff_ne_none]
          exact fun hnone => hnot ⟨⟨hne, by simpa using hfirst⟩, hfull, hnone⟩
        rw [Nat.mod_eq_of_lt (hok.2 hfull).1]
        exact reserve_done (Or.inr hsome)
      · exact ⟨s, rfl, rfl, rfl⟩
    obtain ⟨s', hgrow, hlen, hsame⟩ := hroom
    obtain ⟨u, w', hcut, hi⟩ := hasc.exists_inserted h x
    rw [hcut] at hsame
    obtain ⟨g, hrun, hu, hw', -⟩ := moveUp_eq s.len s'.cells u w' hsame hi
    have hcount : u.length + w'.length = s.len := by rw [← List.length_append, ← hsame, length_slice]
    have hsift : siftDown lt x (s.len - 1) s'.cells = (u.length, g) := by
      rw [siftDown_eq_moveUp, Nat.sub_add_cancel (Nat.pos_of_ne_zero hne), hrun]
    have hsum : (s.len + 1) % 2 ^ 64 = s.len + 1 := by
      refine Nat.mod_eq_of_lt ?_
      by_cases hfull : s.reserved = s.len
      · have := (hok.2 hfull).1
        omega
      · have hle : s.len + 1 ≤ s.alloc := by
          have := hcap.len_le
          have := hcap.reserved_le
          omega
        exact hle.trans_lt (lt_of_mul_lt hw hcap.fits)
    refine ⟨{ s' with cells := Function.update g u.length x, len := s.len + 1 }, u, w', ?_, hcut, hi, ?_⟩
    · rw [bufferExSortedPush, if_neg hcond, hgrow]
      simp only [hsift, hlen, hsum]
    · rw [State.contents, ← hcount, Nat.add_right_comm]
      exact slice_update_moved hu hw'

/-- Nothing is written outside the memory. -/
theorem capOk_bufferExSortedPush (hw : 0 < w) (h : CapOk w s) (hok : SortedOk w s answers) :
    CapOk w (bufferExSortedPush w lt s x answers).1 := by
  have := capOk_sortedPush hw h lt x hok
  rwa [sortedPush_eq] at this

end Growable

/-! ### Sorted insertion -/

/-- **Sorted insertion.** The array of fixed length stays ascending and has the value for its last element,
unless there is nothing in it or the value is above the last element. The growable array stays ascending and
has the value in addition, unless it is full, the value does not go to the front and the allocator has nothing. -/
theorem sortedPush_inserts {lt : α → α → Bool} (h : StrictWeak lt) (x : α) :
    (∀ s : Ref α, Ascending lt s.contents →
      if s.len = 0 ∨ lt (s.cells (s.len - 1)) x = true then refSortedPush lt s x = (s, -1)
      else ∃ (t : Ref α) (p : ℕ), refSortedPush lt s x = (t, (p : ℤ)) ∧ t.len = s.len ∧ Ascending lt t.contents ∧
        t.contents.Perm (x :: s.contents.dropLast) ∧ StandsAt lt x t.contents p) ∧
    (∀ (w : ℕ) (s : State α) (answers : Answers α), 0 < w → CapOk w s → SortedOk w s answers →
      (s.len = 0 ∨ lt x (s.cells 0) = true → AddDone w s 1 answers) →
      Ascending lt s.contents → CapOk w (bufferExSortedPush w lt s x answers).1 ∧
        (Refused lt s x answers → bufferExSortedPush w lt s x answers = (s, -1)) ∧
        (¬ Refused lt s x answers → ∃ (t : State α) (p : ℕ), bufferExSortedPush w lt s x answers = (t, (p : ℤ)) ∧
          Ascending lt t.contents ∧ t.contents.Perm (x :: s.contents) ∧ StandsAt lt x t.contents p)) := by
  refine ⟨?_, ?_⟩
  · intro s hasc
    split
    · rename_i hcond
      rw [refSortedPush, if_pos hcond]
    · rename_i hcond
      obtain ⟨hne, hlast⟩ := not_or.mp hcond
      have hsub : Ascending lt s.contents.dropLast := hasc.sublist (List.dropLast_sublist _)
      obtain ⟨u, w, hcut, hi⟩ := hsub.exists_inserted h x
      obtain ⟨t, hrun, hlen, hcont⟩ := refSortedPush_inserted hne (by simpa using hlast) hcut hi
      rw [hcut] at hsub
      refine ⟨t, u.length, hrun, hlen, ?_, ?_, ?_⟩
      · exact hcont ▸ hi.ascending h hsub
      · rw [hcont, hcut]
        exact List.perm_middle
      · exact hcont ▸ hi.standsAt
  · intro w s answers hw hcap hok hfront hasc
    refine ⟨capOk_bufferExSortedPush hw hcap hok, bufferExSortedPush_refused hok, ?_⟩
    intro hnot
    obtain ⟨t, u, w', hrun, hcut, hi, hcont⟩ := bufferExSortedPush_inserted h hw hcap hok hfront hnot hasc
    rw [hcut] at hasc
    refine ⟨t, u.length, hrun, ?_, ?_, ?_⟩
    · exact hcont ▸ hi.ascending h hasc
    · rw [hcont, hcut]
      exact List.perm_middle
    · exact hcont ▸ hi.standsAt

/-- `1` among `0, 1, 2`, in both arrays. -/
theorem sortedPush_one :
    (∃ (t : Ref ℕ) (p : ℕ), refSortedPush (fun a b => decide (a < b)) ⟨id, 3⟩ 1 = (t, (p : ℤ)) ∧ t.len = 3 ∧
      Ascending (fun a b => decide (a < b)) t.contents ∧ t.contents.Perm [1, 0, 1] ∧
      StandsAt (fun a b => decide (a < b)) 1 t.contents p) ∧
    ∃ (t : State ℕ) (p : ℕ), bufferExSortedPush 4 (fun a b => decide (a < b)) ⟨id, 4, 3, 4⟩ 1 ⟨none, none⟩ = (t, (p : ℤ)) ∧
      Ascending (fun a b => decide (a < b)) t.contents ∧ t.contents.Perm [1, 0, 1, 2] ∧
      StandsAt (fun a b => decide (a < b)) 1 t.contents p := by
  obtain ⟨href, hex⟩ := sortedPush_inserts (strictWeak_lt ℕ) 1
  have href := href ⟨id, 3⟩ (by decide)
  rw [if_neg (by decide)] at href
  have hok : SortedOk 4 (⟨id, 4, 3, 4⟩ : State ℕ) ⟨none, none⟩ := ⟨Or.inl (by decide), fun hfull => absurd hfull (by decide)⟩
  exact ⟨href, (hex 4 ⟨id, 4, 3, 4⟩ ⟨none, none⟩ (by decide) ⟨by decide, by decide, by decide⟩ hok
    (fun hfront => absurd hfront (by decide)) (by decide)).2.2 (by decide)⟩

/-- A full array, and no memory for `2` behind `1`: the array is left as it is, and `-1` returned. -/
theorem sortedPush_no_memory : Ascending (fun a b => decide (a < b)) (⟨fun _ => 1, 1, 1, 1⟩ : State ℕ).contents ∧
    ¬ ∃ (t : State ℕ) (p : ℕ), bufferExSortedPush 4 (fun a b => decide (a < b)) ⟨fun _ => 1, 1, 1, 1⟩ 2 ⟨none, none⟩ =
      (t, (p : ℤ)) ∧ Ascending (fun a b => decide (a < b)) t.contents ∧ t.contents.Perm [2, 1] ∧
      StandsAt (fun a b => decide (a < b)) 2 t.contents p := by
  refine ⟨by decide, ?_⟩
  rintro ⟨t, p, hrun, -⟩
  have hrefused : bufferExSortedPush 4 (fun a b => decide (a < b)) (⟨fun _ => 1, 1, 1, 1⟩ : State ℕ) 2 ⟨none, none⟩ =
      (⟨fun _ => 1, 1, 1, 1⟩, -1) :=
    bufferExSortedPush_refused ⟨Or.inr ⟨fun h => absurd h (by decide), fun _ h => absurd h (by decide)⟩,
      fun _ => ⟨by decide, Or.inr fun h => absurd h (by decide)⟩⟩ (by decide)
  have hindex : (-1 : ℤ) = p := congrArg Prod.snd (hrefused.symm.trans hrun)
  omega

end Cpcf.Rt.SortedPush
