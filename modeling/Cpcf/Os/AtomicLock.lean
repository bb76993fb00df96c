import Cpcf.Lib.Gate

/-!
`AtomicLock` of `os/multi_thread.h`: a lock that does not wait.

`TryLock` raises `_iAtom` and has the lock when that gives 1; otherwise it lowers `_iAtom` again, in a second step.
`Unlock` lowers it. `Reset` may stand in place of `Unlock` and writes a zero, whatever the other threads have added.
-/

namespace Cpcf.Os.AtomicLock

open Cpcf.Lib Cpcf.Lib.Run

variable {ι : Type}

/-! ### The machine -/

/-- Where a thread stands. -/
inductive Place
  | idle
  /-- `TryLock` did not get 1: `AtomicDecrement` comes next. -/
  | failing
  /-- `TryLock` has returned true. -/
  | holding
deriving DecidableEq

structure State (ι : Type) where
  iAtom : ℤ
  place : ι → Place

/-- The steps of `TryLock`, and what may follow when it has returned true. -/
inductive Action (ι : Type)
  | tryLock (i : ι)
  | giveUp (i : ι)
  | unlock (i : ι)
  | reset (i : ι)
deriving DecidableEq

section Machine

variable [DecidableEq ι]

def State.goto (s : State ι) (i : ι) (p : Place) : State ι := { s with place := Function.update s.place i p }

def step (s : State ι) : Action ι → Option (State ι)
  | .tryLock i =>
    if s.place i = .idle then
      some ({ s with iAtom := s.iAtom + 1 }.goto i (if s.iAtom + 1 = 1 then .holding else .failing))
    else none
  | .giveUp i => if s.place i = .failing then some ({ s with iAtom := s.iAtom - 1 }.goto i .idle) else none
  | .unlock i => if s.place i = .holding then some ({ s with iAtom := s.iAtom - 1 }.goto i .idle) else none
  | .reset i => if s.place i = .holding then some ({ s with iAtom := 0 }.goto i .idle) else none

def start : State ι := ⟨0, fun _ => .idle⟩

end Machine

/-- `Reset` is called while no `TryLock` has still to take its raise back. -/
def Quiet (s : State ι) : Action ι → Prop
  | .reset _ => ∀ j, s.place j ≠ .failing
  | _ => True

instance [Fintype ι] (s : State ι) : DecidablePred (Quiet s)
  | .reset _ => inferInstanceAs (Decidable (∀ _, _))
  | .tryLock _ => isTrue trivial
  | .giveUp _ => isTrue trivial
  | .unlock _ => isTrue trivial

/-! ### The lock is a gate for one -/

def Place.gate : Place → Gate.Place
  | idle => .outside
  | failing => .refused
  | holding => .inside

def State.gate (s : State ι) : Gate.State ι := ⟨s.iAtom, fun i => (s.place i).gate⟩

variable [DecidableEq ι] {s t : State ι}

theorem gate_goto (s : State ι) (i : ι) (p : Place) :
    (s.goto i p).gate = ⟨s.iAtom, Function.update s.gate.place i p.gate⟩ := by
  refine congrArg (Gate.State.mk s.iAtom) (funext fun j => ?_)
  by_cases hj : j = i
  · subst hj
    simp only [State.goto, Function.update_self]
  · simp only [State.goto, Function.update_of_ne hj, State.gate]

variable [Fintype ι]

omit [DecidableEq ι] in
/-- One thread is inside, and none on its way back: the counter is 1. -/
theorem iAtom_of_holding (hinv : Gate.Inv 1 s.gate) {i : ι} (hi : s.place i = .holding)
    (hquiet : ∀ j, s.place j ≠ .failing) : s.iAtom = 1 := by
  have hcount : s.iAtom = s.gate.inside + s.gate.refused := hinv.count_eq
  have hle := hinv.inside_le
  have hrefused : s.gate.refused = 0 := by
    refine Threads.tally_eq_zero.mpr fun j => ?_
    have hj := hquiet j
    simp only [State.gate]
    cases hp : s.place j with
    | failing => exact absurd hp hj
    | idle => rfl
    | holding => rfl
  have hinside : s.gate.inside ≠ 0 := by
    intro hzero
    have hout := Threads.tally_eq_zero.mp hzero i
    simp only [State.gate, hi] at hout
    cases hout
  omega

/-- A step is one of the gate for one thread. -/
theorem step_gate {a : Action ι} (hinv : Gate.Inv 1 s.gate) (hq : Quiet s a) (h : step s a = some t) :
    ∃ b, Gate.step 1 s.gate b = some t.gate ∧ Gate.Inv 1 t.gate := by
  suffices hstep : ∃ b, Gate.step 1 s.gate b = some t.gate by
    obtain ⟨b, hb⟩ := hstep
    exact ⟨b, hb, Gate.inv_step hinv hb⟩
  have hnonneg : 0 ≤ s.iAtom := by
    have hcount : s.iAtom = s.gate.inside + s.gate.refused := hinv.count_eq
    omega
  cases a with
  | tryLock i =>
    obtain ⟨hp, ht⟩ := Option.ite_none_right_eq_some.mp h
    obtain rfl := Option.some.inj ht
    refine ⟨.raise i, ?_⟩
    rw [Gate.step, if_pos (by simp [State.gate, hp, Place.gate]), gate_goto]
    by_cases hone : s.iAtom + 1 = 1
    · have hle : s.gate.count + 1 ≤ 1 := hone.le
      simp only [hone, hle, if_true, Place.gate]
      rw [show s.gate.count + 1 = 1 from hone]
      rfl
    · have hle : ¬ s.gate.count + 1 ≤ 1 := fun hle => hone (by change s.iAtom + 1 ≤ 1 at hle; omega)
      simp only [hone, hle, if_false, Place.gate]
      rfl
  | giveUp i =>
    obtain ⟨hp, ht⟩ := Option.ite_none_right_eq_some.mp h
    obtain rfl := Option.some.inj ht
    refine ⟨.back i, ?_⟩
    rw [Gate.step, if_pos (by simp [State.gate, hp, Place.gate]), gate_goto]
    rfl
  | unlock i =>
    obtain ⟨hp, ht⟩ := Option.ite_none_right_eq_some.mp h
    obtain rfl := Option.some.inj ht
    refine ⟨.leave i, ?_⟩
    rw [Gate.step, if_pos (by simp [State.gate, hp, Place.gate]), gate_goto]
    rfl
  | reset i =>
    obtain ⟨hp, ht⟩ := Option.ite_none_right_eq_some.mp h
    obtain rfl := Option.some.inj ht
    refine ⟨.leave i, ?_⟩
    have hone : s.gate.count = 1 := iAtom_of_holding hinv hp hq
    rw [Gate.step, if_pos (by simp [State.gate, hp, Place.gate]), gate_goto, hone]
    rfl

/-- How many threads have the lock, and how many have still to take their raise back. -/
def State.holders (s : State ι) : ℕ := Threads.tally s.place fun p => p == .holding

def State.failing (s : State ι) : ℕ := Threads.tally s.place fun p => p == .failing

omit [DecidableEq ι] in
theorem inside_gate (s : State ι) : s.gate.inside = s.holders := by
  unfold Gate.State.inside State.holders Threads.tally
  refine congrArg Finset.card (Finset.filter_congr fun i _ => ?_)
  simp only [State.gate]
  cases s.place i <;> decide

omit [DecidableEq ι] in
theorem refused_gate (s : State ι) : s.gate.refused = s.failing := by
  unfold Gate.State.refused State.failing Threads.tally
  refine congrArg Finset.card (Finset.filter_congr fun i _ => ?_)
  simp only [State.gate]
  cases s.place i <;> decide

/-- **The lock excludes.** Whatever the threads do, as long as `Reset` is called only while no `TryLock` has still to
take its raise back: two threads never have the lock at once, `_iAtom` is the number of threads that have it or have
still to take their raise back, and it is zero exactly when no thread is in either place. -/
theorem atomicLock_excludes (h : Reachable step Quiet start s) :
    (∀ i j, s.place i = .holding → s.place j = .holding → i = j) ∧ s.iAtom = s.holders + s.failing ∧
      (s.iAtom = 0 ↔ ∀ i, s.place i = .idle) := by
  have hinv : Gate.Inv 1 s.gate := by
    refine h.invariant (I := fun s => Gate.Inv 1 s.gate) (Gate.inv_start zero_le_one) fun s a t hs hq hst => ?_
    obtain ⟨-, -, ht⟩ := step_gate hs hq hst
    exact ht
  refine ⟨fun i j hi hj => ?_, ?_, ?_⟩
  · have hle : s.holders ≤ 1 := by
      rw [← inside_gate]
      exact_mod_cast hinv.inside_le
    have hmem : ∀ k, s.place k = .holding → k ∈ Finset.univ.filter fun k => (s.place k == .holding) = true := by
      intro k hk
      simp [hk]
    exact Finset.card_le_one.mp hle i (hmem i hi) j (hmem j hj)
  · rw [← inside_gate, ← refused_gate]
    exact hinv.count_eq
  · have hzero : s.iAtom = 0 ↔ ∀ i, s.gate.place i = .outside := hinv.count_eq_zero
    rw [hzero]
    refine forall_congr' fun i => ?_
    simp only [State.gate]
    cases s.place i <;> simp [Place.gate]

/-- Two threads try, the one that has the lock resets it when the other one is out again, and that one has it next. -/
def quietRun {ι : Type} (i j : ι) : List (Action ι) := [.tryLock i, .tryLock j, .giveUp j, .reset i, .tryLock j]

theorem atomicLock_excludes_quiet : ∃ s : State (Fin 2), run step start (quietRun 0 1) = some s ∧ s.place 1 = .holding ∧
    ∀ i j, s.place i = .holding → s.place j = .holding → i = j := by
  have hrun : (run step start (quietRun (0 : Fin 2) 1)).map (fun s => s.place 1) = some .holding := by decide
  obtain ⟨s, hs, hv⟩ := Option.map_eq_some_iff.mp hrun
  exact ⟨s, hs, hv, (atomicLock_excludes (Reachable.start.of_run (quietRun 0 1) (by decide) hs)).1⟩

/-- A `Reset` while another thread is failing lets two threads in. -/
theorem reset_lets_two_in : ∃ s : State (Fin 3),
    run step start [.tryLock 0, .tryLock 1, .reset 0, .tryLock 2, .giveUp 1, .tryLock 0] = some s ∧
      s.place 0 = .holding ∧ s.place 2 = .holding := by
  have hrun : (run step (start (ι := Fin 3)) [.tryLock 0, .tryLock 1, .reset 0, .tryLock 2, .giveUp 1, .tryLock 0]).map
      (fun s => (s.place 0, s.place 2)) = some (.holding, .holding) := by decide
  obtain ⟨s, hs, hv⟩ := Option.map_eq_some_iff.mp hrun
  exact ⟨s, hs, Prod.mk.inj hv⟩

end Cpcf.Os.AtomicLock
