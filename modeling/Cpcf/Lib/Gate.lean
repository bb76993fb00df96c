import Cpcf.Lib.Run
import Cpcf.Lib.Threads

/-!
A counter as a gate.

A thread that wants to go in raises the counter and looks at what came out: up to the limit it is
inside, past the limit it is refused and has to go back. Both ways out lower the counter again. Between
its two steps a thread that was refused is counted as well, so that the counter says how many threads are
inside or on their way back.
-/

namespace Cpcf.Lib.Gate

open Cpcf.Lib.Run Cpcf.Lib.Threads

variable {ι : Type}

/-- Where a thread stands. -/
inductive Place
  | outside
  /-- The counter was raised past the limit. -/
  | refused
  | inside
deriving DecidableEq

namespace Place

def isInside : Place → Bool
  | inside => true
  | _ => false

def isRefused : Place → Bool
  | refused => true
  | _ => false

/-- Was the counter raised, and not lowered yet? -/
def isCounted : Place → Bool
  | outside => false
  | _ => true

end Place

structure State (ι : Type) where
  count : ℤ
  place : ι → Place

/-- The steps: a thread wants to go in, one that was refused goes back, one that is inside leaves. -/
inductive Action (ι : Type)
  | raise (i : ι)
  | back (i : ι)
  | leave (i : ι)

section Machine

variable [DecidableEq ι]

def step (limit : ℤ) (s : State ι) : Action ι → Option (State ι)
  | .raise i =>
    if s.place i = .outside then
      some ⟨s.count + 1, Function.update s.place i (if s.count + 1 ≤ limit then .inside else .refused)⟩
    else none
  | .back i =>
    if s.place i = .refused then some ⟨s.count - 1, Function.update s.place i .outside⟩ else none
  | .leave i =>
    if s.place i = .inside then some ⟨s.count - 1, Function.update s.place i .outside⟩ else none

def start : State ι := ⟨0, fun _ => .outside⟩

end Machine

/-! ### The invariant -/

section Invariant

variable [Fintype ι]

/-- How many threads are inside. -/
def State.inside (s : State ι) : ℕ := tally s.place Place.isInside

/-- How many threads are on their way back. -/
def State.refused (s : State ι) : ℕ := tally s.place Place.isRefused

/-- The counter is right, and the limit is kept. -/
structure Inv (limit : ℤ) (s : State ι) : Prop where
  count_eq : s.count = s.inside + s.refused
  inside_le : (s.inside : ℤ) ≤ limit

theorem counted_eq (s : State ι) : tally s.place Place.isCounted = s.inside + s.refused := by
  unfold State.inside State.refused
  rw [tally_eq_sum, tally_eq_sum, tally_eq_sum, ← Finset.sum_add_distrib]
  refine Finset.sum_congr rfl fun i _ => ?_
  cases s.place i <;> rfl

theorem inv_start {limit : ℤ} (h : 0 ≤ limit) : Inv limit (start (ι := ι)) := by
  have hin : (start (ι := ι)).inside = 0 := tally_eq_zero.mpr fun _ => rfl
  have hre : (start (ι := ι)).refused = 0 := tally_eq_zero.mpr fun _ => rfl
  exact ⟨by rw [hin, hre]; rfl, by rw [hin]; exact h⟩

variable [DecidableEq ι] {limit : ℤ} {s t : State ι}

/-- What becomes of the two numbers when one thread moves. -/
theorem inside_update (s : State ι) (c : ℤ) (i : ι) (x : Place) :
    (State.mk c (Function.update s.place i x)).inside + (if (s.place i).isInside = true then 1 else 0) =
      s.inside + (if x.isInside = true then 1 else 0) :=
  tally_update s.place Place.isInside i x

theorem refused_update (s : State ι) (c : ℤ) (i : ι) (x : Place) :
    (State.mk c (Function.update s.place i x)).refused + (if (s.place i).isRefused = true then 1 else 0) =
      s.refused + (if x.isRefused = true then 1 else 0) :=
  tally_update s.place Place.isRefused i x

omit [Fintype ι] in
/-- A step that can be taken, by the thread that takes it. -/
theorem step_eq_some {a : Action ι} (h : step limit s a = some t) :
    (∃ i, a = .raise i ∧ s.place i = .outside ∧
      t = ⟨s.count + 1, Function.update s.place i (if s.count + 1 ≤ limit then .inside else .refused)⟩) ∨
    (∃ i, a = .back i ∧ s.place i = .refused ∧ t = ⟨s.count - 1, Function.update s.place i .outside⟩) ∨
    (∃ i, a = .leave i ∧ s.place i = .inside ∧ t = ⟨s.count - 1, Function.update s.place i .outside⟩) := by
  cases a with
  | raise i =>
    obtain ⟨hp, ht⟩ := Option.ite_none_right_eq_some.mp h
    exact .inl ⟨i, rfl, hp, (Option.some.inj ht).symm⟩
  | back i =>
    obtain ⟨hp, ht⟩ := Option.ite_none_right_eq_some.mp h
    exact .inr (.inl ⟨i, rfl, hp, (Option.some.inj ht).symm⟩)
  | leave i =>
    obtain ⟨hp, ht⟩ := Option.ite_none_right_eq_some.mp h
    exact .inr (.inr ⟨i, rfl, hp, (Option.some.inj ht).symm⟩)

theorem inv_step {a : Action ι} (hs : Inv limit s) (h : step limit s a = some t) : Inv limit t := by
  obtain ⟨hcount, hle⟩ := hs
  obtain ⟨i, -, hp, rfl⟩ | ⟨i, -, hp, rfl⟩ | ⟨i, -, hp, rfl⟩ := step_eq_some h
  · by_cases hin : s.count + 1 ≤ limit
    · rw [if_pos hin]
      have h1 := inside_update s (s.count + 1) i .inside
      have h2 := refused_update s (s.count + 1) i .inside
      simp only [hp, Place.isInside, Place.isRefused, if_true, Bool.false_eq_true, if_false] at h1 h2
      constructor
      · dsimp only
        omega
      · omega
    · rw [if_neg hin]
      have h1 := inside_update s (s.count + 1) i .refused
      have h2 := refused_update s (s.count + 1) i .refused
      simp only [hp, Place.isInside, Place.isRefused, if_true, Bool.false_eq_true, if_false] at h1 h2
      constructor
      · dsimp only
        omega
      · omega
  · have h1 := inside_update s (s.count - 1) i .outside
    have h2 := refused_update s (s.count - 1) i .outside
    simp only [hp, Place.isInside, Place.isRefused, if_true, Bool.false_eq_true, if_false] at h1 h2
    constructor
    · dsimp only
      omega
    · omega
  · have h1 := inside_update s (s.count - 1) i .outside
    have h2 := refused_update s (s.count - 1) i .outside
    simp only [hp, Place.isInside, Place.isRefused, if_true, Bool.false_eq_true, if_false] at h1 h2
    constructor
    · dsimp only
      omega
    · omega

/-- **The gate keeps its limit**, whatever the order of the steps. -/
theorem reachable_inv (hlimit : 0 ≤ limit) (h : Reachable (step limit) anyStep start s) : Inv limit s :=
  h.invariant (inv_start hlimit) fun _ _ _ hs _ hst => inv_step hs hst

omit [DecidableEq ι] in
/-- When no thread is counted the counter is zero. -/
theorem Inv.count_eq_zero (h : Inv limit s) : s.count = 0 ↔ ∀ i, s.place i = .outside := by
  have hsum := counted_eq s
  have hzero : tally s.place Place.isCounted = 0 ↔ ∀ i, s.place i = .outside := by
    rw [tally_eq_zero]
    refine forall_congr' fun i => ?_
    cases s.place i <;> simp [Place.isCounted]
  rw [← hzero, h.count_eq, hsum]
  omega

end Invariant

end Cpcf.Lib.Gate
