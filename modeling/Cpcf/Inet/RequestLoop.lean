import Cpcf.Lib.Gate

/-!
The worker threads of `TinyHttpd`, and how many requests they handle at a time.

Every worker runs `_request_handling_thread`: it accepts a connection, receives until `OnDataRecv` has a whole request,
and handles the request. With `m_IsConcurrencyRestricted` it raises `__ConcurrencyCount` before it handles the request
and lowers it afterwards; a request that finds the counter too high is answered with 503. `Start` makes
`m_Concurrency` threads for each listener, which is one more than the limit when the restriction is on.
-/

namespace Cpcf.Inet.RequestLoop

open Cpcf.Lib Cpcf.Lib.Run

/-! ### The threads -/

/-- Where a worker stands. -/
inductive Place
  /-- `WAIT_NEXT_REQUEST`. -/
  | accepting
  /-- The loop that receives. -/
  | receiving
  /-- `REQUEST_IS_READY`. -/
  | ready
  /-- The counter was raised too far: `AtomicDecrement` comes next. -/
  | exceeding
  /-- `SendHttpError(503)` and `Close()`. -/
  | answering503
  /-- The request is looked up and handled. -/
  | handling
  /-- `_SocketAccepted.Close()`. -/
  | closing
  /-- The listener is closed and the thread has returned. -/
  | ended
deriving DecidableEq

/-- What `accept` comes to: the listener is closed, there is no socket or it is empty, or there is one. -/
inductive Accepted
  | closed
  | invalid
  | socket

/-- What a `Recv` and the `OnDataRecv` behind it come to. -/
inductive Received
  | HTTP_OK
  | HTTP_FALSE
  /-- No bytes, or another answer of `OnDataRecv`. -/
  | failed

/-- One step of a worker, with what comes from outside. -/
inductive Action (ι : Type)
  | accept (i : ι) (x : Accepted)
  | receive (i : ι) (x : Received)
  | go (i : ι)

/-- `m_IsConcurrencyRestricted` and `m_Concurrency`. -/
structure Config where
  isConcurrencyRestricted : Bool
  concurrency : ℤ

/-- The number of requests at a time that `Start(.., concurrency)` is called for. -/
def limitOf (numberOfProcessors concurrency : ℕ) : ℕ :=
  if concurrency = 0 then min (numberOfProcessors * 2) 16 else concurrency

/-- `Start`. -/
def configOf (isConcurrencyRestricted : Bool) (numberOfProcessors concurrency : ℕ) : Config where
  isConcurrencyRestricted := isConcurrencyRestricted
  concurrency := limitOf numberOfProcessors concurrency + if isConcurrencyRestricted then 1 else 0

/-- `__ConcurrencyCount` and the workers of all listeners. -/
structure State (ι : Type) where
  concurrencyCount : ℤ
  place : ι → Place

section Machine

variable {ι : Type} [DecidableEq ι]

def State.goto (s : State ι) (i : ι) (p : Place) : State ι := { s with place := Function.update s.place i p }

def acceptNext : Accepted → Place
  | .closed => .ended
  | .invalid => .accepting
  | .socket => .receiving

def receiveNext : Received → Place
  | .HTTP_OK => .ready
  | .HTTP_FALSE => .receiving
  | .failed => .accepting

/-- The next step of a worker that needs nothing from outside. -/
def stepWorker (c : Config) (s : State ι) (i : ι) : Place → Option (State ι)
  | .ready =>
    if c.isConcurrencyRestricted then
      let count := s.concurrencyCount + 1
      -- `AtomicIncrement(&__ConcurrencyCount)>=(int)m_Concurrency`
      some ({ s with concurrencyCount := count }.goto i (if count ≥ c.concurrency then .exceeding else .handling))
    else some (s.goto i .handling)
  | .exceeding => some ({ s with concurrencyCount := s.concurrencyCount - 1 }.goto i .answering503)
  | .answering503 => some (s.goto i .accepting)
  | .handling =>
    if c.isConcurrencyRestricted then
      some ({ s with concurrencyCount := s.concurrencyCount - 1 }.goto i .closing)
    else some (s.goto i .closing)
  | .closing => some (s.goto i .accepting)
  | _ => none

def step (c : Config) (s : State ι) : Action ι → Option (State ι)
  | .accept i x => if s.place i = .accepting then some (s.goto i (acceptNext x)) else none
  | .receive i x => if s.place i = .receiving then some (s.goto i (receiveNext x)) else none
  | .go i => stepWorker c s i (s.place i)

/-- After `Start`. -/
def start : State ι := ⟨0, fun _ => .accepting⟩

end Machine

/-! ### The counter is a gate -/

/-- The place of a worker at the gate. -/
def Place.gate : Place → Gate.Place
  | exceeding => .refused
  | handling => .inside
  | _ => .outside

variable {ι : Type}

/-- The gate behind the counter. -/
def State.gate (s : State ι) : Gate.State ι := ⟨s.concurrencyCount, fun i => (s.place i).gate⟩

variable [DecidableEq ι] {limit : ℤ} {s t : State ι}

theorem gate_update (s : State ι) (i : ι) (p : Place) :
    (fun j => (Function.update s.place i p j).gate) = Function.update (fun j => (s.place j).gate) i p.gate := by
  funext j
  by_cases hj : j = i
  · subst hj
    rw [Function.update_self, Function.update_self]
  · rw [Function.update_of_ne hj, Function.update_of_ne hj]

/-- A worker that stays on its side of the gate does not move it. -/
theorem gate_goto {i : ι} {p : Place} (h : p.gate = (s.place i).gate) : (s.goto i p).gate = s.gate := by
  simp only [State.gate, State.goto, gate_update, h, Function.update_eq_self]

/-- **A step of a worker is one of the gate or none.** -/
theorem step_gate {a : Action ι} (h : step ⟨true, limit + 1⟩ s a = some t) :
    t.gate = s.gate ∨ ∃ b, Gate.step limit s.gate b = some t.gate := by
  cases a with
  | accept i x =>
    obtain ⟨hp, ht⟩ := Option.ite_none_right_eq_some.mp h
    obtain rfl := Option.some.inj ht
    refine .inl (gate_goto ?_)
    rw [hp]
    cases x <;> rfl
  | receive i x =>
    obtain ⟨hp, ht⟩ := Option.ite_none_right_eq_some.mp h
    obtain rfl := Option.some.inj ht
    refine .inl (gate_goto ?_)
    rw [hp]
    cases x <;> rfl
  | go i =>
    replace h : stepWorker ⟨true, limit + 1⟩ s i (s.place i) = some t := h
    cases hp : s.place i with
    | accepting => simp [hp, stepWorker] at h
    | receiving => simp [hp, stepWorker] at h
    | ended => simp [hp, stepWorker] at h
    | ready =>
      rw [hp] at h
      obtain rfl := Option.some.inj h
      refine .inr ⟨.raise i, ?_⟩
      have hout : s.gate.place i = .outside := by simp [State.gate, hp, Place.gate]
      rw [Gate.step, if_pos hout]
      simp only [State.gate, State.goto, gate_update]
      by_cases hle : s.concurrencyCount + 1 ≤ limit
      · have hlow : ¬ s.concurrencyCount + 1 ≥ limit + 1 := by omega
        simp only [hle, hlow, if_true, if_false, Place.gate]
      · have hhigh : s.concurrencyCount + 1 ≥ limit + 1 := by omega
        simp only [hle, hhigh, if_true, if_false, Place.gate]
    | exceeding =>
      rw [hp] at h
      obtain rfl := Option.some.inj h
      refine .inr ⟨.back i, ?_⟩
      have hout : s.gate.place i = .refused := by simp [State.gate, hp, Place.gate]
      rw [Gate.step, if_pos hout]
      simp only [State.gate, State.goto, gate_update]
      rfl
    | handling =>
      rw [hp] at h
      obtain rfl := Option.some.inj h
      refine .inr ⟨.leave i, ?_⟩
      have hout : s.gate.place i = .inside := by simp [State.gate, hp, Place.gate]
      rw [Gate.step, if_pos hout]
      simp only [State.gate, State.goto, gate_update]
      rfl
    | answering503 =>
      rw [hp] at h
      obtain rfl := Option.some.inj h
      exact .inl (gate_goto (by rw [hp]; rfl))
    | closing =>
      rw [hp] at h
      obtain rfl := Option.some.inj h
      exact .inl (gate_goto (by rw [hp]; rfl))

/-- What the workers reach, the gate reaches. -/
theorem reachable_gate (h : Reachable (step ⟨true, limit + 1⟩) anyStep start s) :
    Reachable (Gate.step limit) anyStep Gate.start s.gate := by
  induction h with
  | start => exact .start
  | next _ _ hst ih =>
    obtain heq | ⟨b, hb⟩ := step_gate hst
    · exact heq ▸ ih
    · exact ih.next trivial hb

/-! ### How many requests are handled -/

variable [Fintype ι]

/-- How many requests are being handled. -/
def State.handled (s : State ι) : ℕ := Threads.tally s.place fun p => p == .handling

/-- How many workers have raised the counter in vain and not lowered it yet. -/
def State.exceeding (s : State ι) : ℕ := Threads.tally s.place fun p => p == .exceeding

omit [DecidableEq ι] in
theorem inside_gate (s : State ι) : s.gate.inside = s.handled := by
  unfold Gate.State.inside State.handled Threads.tally
  refine congrArg Finset.card (Finset.filter_congr fun i _ => ?_)
  simp only [State.gate]
  cases s.place i <;> decide

omit [DecidableEq ι] in
theorem refused_gate (s : State ι) : s.gate.refused = s.exceeding := by
  unfold Gate.State.refused State.exceeding Threads.tally
  refine congrArg Finset.card (Finset.filter_congr fun i _ => ?_)
  simp only [State.gate]
  cases s.place i <;> decide

/-- **The limit on the requests.** With the restriction on, for any number of listeners and workers and every order of
their steps, no more requests are handled at a time than `Start` was called for, the counter is the number of requests
that are handled and of workers that are about to take their raise back, and a request that is ready is refused exactly
when there are at least so many of these. -/
theorem handled_le_limit {numberOfProcessors concurrency : ℕ}
    (h : Reachable (step (configOf true numberOfProcessors concurrency)) anyStep (start (ι := ι)) s) :
    s.handled ≤ limitOf numberOfProcessors concurrency ∧ s.concurrencyCount = s.handled + s.exceeding ∧
      ∀ i, s.place i = .ready → ∃ t, step (configOf true numberOfProcessors concurrency) s (.go i) = some t ∧
        (t.place i = .exceeding ↔ limitOf numberOfProcessors concurrency ≤ s.handled + s.exceeding) ∧
          (t.place i = .exceeding → t.handled = s.handled) := by
  have hinv := Gate.reachable_inv (Int.natCast_nonneg _) (reachable_gate h)
  have hle := hinv.inside_le
  have hcount := hinv.count_eq
  rw [inside_gate] at hle hcount
  rw [refused_gate] at hcount
  refine ⟨by exact_mod_cast hle, hcount, ?_⟩
  intro i hp
  have hcount : s.concurrencyCount = s.handled + s.exceeding := hcount
  refine ⟨_, by rw [step, hp]; rfl, ?_, ?_⟩
  · simp only [State.goto, Function.update_self, configOf, if_true]
    split <;> rename_i hge
    · simp only [true_iff]
      omega
    · simp only [reduceCtorEq, false_iff]
      omega
  · simp only [State.goto, Function.update_self]
    intro hex
    rw [hex]
    have hupdate := Threads.tally_update s.place (fun p => p == .handling) i .exceeding
    simp only [hp, show (Place.ready == Place.handling) = false from rfl,
      show (Place.exceeding == Place.handling) = false from rfl, Bool.false_eq_true, if_false, add_zero] at hupdate
    exact hupdate

/-- A worker accepts a connection, receives a request and passes the counter. -/
def takeUp (i : ι) : List (Action ι) := [.accept i .socket, .receive i .HTTP_OK, .go i]

/-- The second of two requests at a time, where one is allowed. -/
theorem handled_le_limit_one : ∃ s : State (Fin 2),
    run (step (configOf true 4 1)) start (takeUp 0 ++ (takeUp 1).take 2) = some s ∧ s.handled ≤ 1 ∧
      ∃ t, step (configOf true 4 1) s (.go 1) = some t ∧ t.place 1 = .exceeding ∧ t.handled = s.handled := by
  have hrun : (run (step (configOf true 4 1)) start (takeUp (0 : Fin 2) ++ (takeUp 1).take 2)).map
      (fun s => (s.place 1, s.concurrencyCount)) = some (.ready, 1) := by decide
  obtain ⟨s, hs, hv⟩ := Option.map_eq_some_iff.mp hrun
  obtain ⟨hready, hone⟩ := Prod.mk.inj hv
  obtain ⟨hle, hcount, hgo⟩ := handled_le_limit (reachable_of_run _ hs)
  obtain ⟨t, ht, hiff, hsame⟩ := hgo 1 hready
  have hlimit : limitOf 4 1 = 1 := rfl
  rw [hlimit] at hle hiff
  have hex : t.place 1 = .exceeding := hiff.mpr (by omega)
  exact ⟨s, hs, hle, t, ht, hex, hsame hex⟩

/-- A worker that is about to take its raise back keeps a request out although none is handled any more. -/
theorem refused_in_vain : ∃ s : State (Fin 3),
    run (step (configOf true 4 1)) start (takeUp 0 ++ takeUp 1 ++ [.go 0] ++ takeUp 2) = some s ∧
      s.place 2 = .exceeding ∧ s.handled = 0 := by
  have hrun : (run (step (configOf true 4 1)) start (takeUp (0 : Fin 3) ++ takeUp 1 ++ [.go 0] ++ takeUp 2)).map
      (fun s => (s.place 2, s.handled)) = some (.exceeding, 0) := by decide
  obtain ⟨s, hs, hv⟩ := Option.map_eq_some_iff.mp hrun
  exact ⟨s, hs, Prod.mk.inj hv⟩

end Cpcf.Inet.RequestLoop
