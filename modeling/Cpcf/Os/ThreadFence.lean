import Cpcf.Lib.Run
import Cpcf.Lib.Threads
import Cpcf.Lib.Word

/-!
`ThreadFence` of `os/multi_thread.h`: threads that meet again and again.

There are two fences, used in turn; `_toggle` says which one this round uses. `WaitOthers` raises the
count of the fence and waits for its event, unless it is the last thread of the round: that one turns
`_toggle`, makes the other fence ready and sets the event of the old one (`ReleaseOthers`).

Every access to `_toggle` and to a count is a step of its own. What `Event` does under its mutex is one
step, up to `pthread_cond_wait`, which gives the mutex back while the thread sleeps; a sleeping thread
is woken by `Set`, or for no reason at all. The constructor of `Event` sets `bSet` but not `bIsPulsed`,
and `SetThreadCount` makes only the first fence ready.
-/

namespace Cpcf.Os.ThreadFence

open Cpcf.Lib.Run Cpcf.Lib.Threads Cpcf.Lib.Word

/-! ### The machine -/

variable {ι : Type}

/-- Where a thread stands in `WaitOthers(true)`. -/
inductive Place
  | idle
  /-- `_toggle` was read: the count of this fence comes next. -/
  | entered (tg : ℕ)
  /-- There are others to come: `_toggle` comes next, for the event. -/
  | counted
  /-- `WaitSignal` of this fence's event is called. -/
  | waiting (e : ℕ)
  /-- In `pthread_cond_wait`. -/
  | asleep (e : ℕ)
  /-- Back from `pthread_cond_wait`. -/
  | woken (e : ℕ)
  /-- The last one to arrive: `ReleaseOthers` reads `_toggle`. -/
  | last
  /-- `_toggle` is about to be turned. -/
  | turning (tg : ℕ)
  /-- `_toggle` was turned, and is read again before each of the three things to do. -/
  | turned
  | resetting (e : ℕ)
  | resetDone
  | zeroing (tg : ℕ)
  | zeroDone
  | setting (e : ℕ)
deriving DecidableEq

/-- A thread: where it stands, and how many rounds it has left behind. -/
structure Thread where
  place : Place
  round : ℕ
deriving DecidableEq

/-- The fences and the threads. -/
structure State (ι : Type) where
  numReached : ℕ → ℤ
  bSet : ℕ → Bool
  bIsPulsed : ℕ → Bool
  toggle : ℕ
  numThread : ℤ
  threads : ι → Thread
  /-- How often `_toggle` was turned. -/
  turns : ℕ

/-- A step of one thread, or a thread that wakes up for no reason. -/
inductive Action (ι : Type)
  | move (i : ι)
  | wake (i : ι)

section Machine

variable [DecidableEq ι]

/-- A thread goes to another place of the same call. -/
def State.goto (s : State ι) (i : ι) (p : Place) : State ι :=
  { s with threads := Function.update s.threads i ⟨p, (s.threads i).round⟩ }

/-- `WaitOthers` returns, and the thread will call it again. -/
def State.leave (s : State ι) (i : ι) : State ι :=
  { s with threads := Function.update s.threads i ⟨.idle, (s.threads i).round + 1⟩ }

/-- `pthread_cond_broadcast`. -/
def wakeUp (e : ℕ) (t : Thread) : Thread := if t.place = .asleep e then ⟨.woken e, t.round⟩ else t

/-- The next step of the thread `i`. -/
def stepThread (s : State ι) (i : ι) : Place → Option (State ι)
  | .idle => some (s.goto i (.entered s.toggle))
  | .entered tg =>
    let reached := (s.numReached tg + 1).bmod (2 ^ 32)
    let s := { s with numReached := Function.update s.numReached tg reached }
    if reached < s.numThread then some (s.goto i .counted)
    else if reached = s.numThread then some (s.goto i .last)
    else some (s.leave i)
  | .counted => some (s.goto i (.waiting s.toggle))
  -- `while(!bSet)`
  | .waiting e => if s.bSet e then some (s.leave i) else some (s.goto i (.asleep e))
  | .asleep _ => none
  | .woken e =>
    if s.bIsPulsed e then some ({ s with bIsPulsed := Function.update s.bIsPulsed e false }.leave i)
    else if s.bSet e then some (s.leave i)
    else some (s.goto i (.asleep e))
  | .last => some (s.goto i (.turning s.toggle))
  | .turning tg => some ({ s with toggle := (tg + 1) &&& 1, turns := s.turns + 1 }.goto i .turned)
  | .turned => some (s.goto i (.resetting s.toggle))
  | .resetting e => some ({ s with bSet := Function.update s.bSet e false }.goto i .resetDone)
  | .resetDone => some (s.goto i (.zeroing s.toggle))
  | .zeroing tg => some ({ s with numReached := Function.update s.numReached tg 0 }.goto i .zeroDone)
  | .zeroDone => some (s.goto i (.setting ((s.toggle + 1) &&& 1)))
  | .setting e =>
    some ({ s with bSet := Function.update s.bSet e true, threads := fun j => wakeUp e (s.threads j) }.leave i)

/-- A sleeping thread wakes up for no reason. -/
def stepWake (s : State ι) (i : ι) : Place → Option (State ι)
  | .asleep e => some (s.goto i (.woken e))
  | _ => none

/-- A step. -/
def step (s : State ι) : Action ι → Option (State ι)
  | .move i => stepThread s i (s.threads i).place
  | .wake i => stepWake s i (s.threads i).place

/-- After `SetThreadCount`, with what the memory held where nothing was written to it. -/
def start (n : ℕ) (reached1 : ℤ) (bIsPulsed : ℕ → Bool) : State ι where
  numReached := fun tg => if tg = 0 then 0 else reached1
  bSet := fun _ => false
  bIsPulsed := bIsPulsed
  toggle := 0
  numThread := n
  threads := fun _ => ⟨.idle, 0⟩
  turns := 0

end Machine

/-! ### What the fence is for -/

/-- Is the count of this round raised? -/
def Place.arrived : Place → Bool
  | .idle | .entered _ => false
  | _ => true

/-- In how many rounds a thread has arrived. -/
def Thread.arrivals (t : Thread) : ℕ := t.round + if t.place.arrived then 1 else 0

/-- Is a thread in `WaitSignal` of the event `e`? -/
def Thread.WaitsOn (t : Thread) (e : ℕ) : Prop := t.place = .waiting e ∨ t.place = .asleep e ∨ t.place = .woken e

/-- Is a thread asleep, or bound to fall asleep? -/
def Blocked (s : State ι) (i : ι) : Prop :=
  ∃ e, (s.threads i).place = .asleep e ∨ (s.threads i).WaitsOn e ∧ s.bSet e = false

/-- When `_toggle` is turned no thread is between raising the count and reading `_toggle` for the event,
and `bIsPulsed` does not end a wait for an event that is not set. -/
def TimelyAt (s : State ι) : Place → Prop
  | .turning _ => ∀ j, (s.threads j).place ≠ .counted
  | .woken e => s.bIsPulsed e = true → s.bSet e = true
  | _ => True

/-- The condition on a step. -/
def Timely (s : State ι) : Action ι → Prop
  | .move i => TimelyAt s (s.threads i).place
  | .wake _ => True

instance [Fintype ι] (s : State ι) : ∀ p, Decidable (TimelyAt s p)
  | .turning _ => inferInstanceAs (Decidable (∀ j, (s.threads j).place ≠ .counted))
  | .woken e => inferInstanceAs (Decidable (s.bIsPulsed e = true → s.bSet e = true))
  | .idle | .entered _ | .counted | .waiting _ | .asleep _ | .last | .turned | .resetting _ | .resetDone
  | .zeroing _ | .zeroDone | .setting _ => isTrue trivial

instance [Fintype ι] (s : State ι) : ∀ a, Decidable (Timely s a)
  | .move i => inferInstanceAs (Decidable (TimelyAt s (s.threads i).place))
  | .wake _ => isTrue trivial

/-! ### The invariant -/

/-- Is a thread about to turn `_toggle`? -/
def Place.releases : Place → Bool
  | .last | .turning _ => true
  | _ => false

/-- A thread of the round that uses the fence `tg`. -/
def Present (tg : ℕ) : Place → Prop
  | .idle | .counted | .last => True
  | .entered tg' | .turning tg' => tg' = tg
  | .waiting e | .asleep e | .woken e => e = tg
  | _ => False

/-- A thread of the round before, whose event is set. -/
def Leaving (s : State ι) (t : Thread) : Prop :=
  t.round + 1 = s.turns ∧ s.bSet ((s.turns + 1) % 2) = true ∧
    (t.place = .waiting ((s.turns + 1) % 2) ∨ t.place = .woken ((s.turns + 1) % 2))

/-- Has a thread arrived in the round `r`? -/
def arrivedIn (r : ℕ) (t : Thread) : Bool := t.round = r && t.place.arrived

section Inv

variable [Fintype ι]

/-- The threads of the round arrive, and those of the round before leave. -/
structure Gathering (s : State ι) : Prop where
  unset : s.bSet (s.turns % 2) = false
  count : s.numReached (s.turns % 2) = tally s.threads (arrivedIn s.turns)
  threads : ∀ i, (s.threads i).round = s.turns ∧ Present (s.turns % 2) (s.threads i).place ∨ Leaving s (s.threads i)
  /-- The last one to arrive is the one that releases the others. -/
  complete : (∀ i, arrivedIn s.turns (s.threads i) = true) → ∃ k, (s.threads k).place.releases = true
  releases : ∀ k, (s.threads k).place.releases = true → ∀ i, arrivedIn s.turns (s.threads i) = true
  unique : ∀ k k', (s.threads k).place.releases = true → (s.threads k').place.releases = true → k = k'

/-- How far the thread that has turned `_toggle` has come. -/
def ReleaseOk (s : State ι) : Place → Prop
  | .turned => True
  | .resetting e => e = s.turns % 2
  | .resetDone => s.bSet (s.turns % 2) = false
  | .zeroing tg => tg = s.turns % 2 ∧ s.bSet (s.turns % 2) = false
  | .zeroDone => s.bSet (s.turns % 2) = false ∧ s.numReached (s.turns % 2) = 0
  | .setting e => e = (s.turns + 1) % 2 ∧ s.bSet (s.turns % 2) = false ∧ s.numReached (s.turns % 2) = 0
  | _ => False

/-- The thread `k` has turned `_toggle`, and all others wait for the event it will set. -/
structure Releasing (s : State ι) (k : ι) : Prop where
  unset : s.bSet ((s.turns + 1) % 2) = false
  rounds : ∀ i, (s.threads i).round + 1 = s.turns
  release : ReleaseOk s (s.threads k).place
  others : ∀ i, i ≠ k → (s.threads i).WaitsOn ((s.turns + 1) % 2)

/-- What holds in every state of a run in which `Timely` is met. -/
structure Inv (s : State ι) : Prop where
  numThread_eq : s.numThread = Fintype.card ι
  toggle_eq : s.toggle = s.turns % 2
  phase : Gathering s ∨ ∃ k, Releasing s k

theorem inv_start (hcard : 0 < Fintype.card ι) (reached1 : ℤ) (bIsPulsed : ℕ → Bool) :
    Inv (start (ι := ι) (Fintype.card ι) reached1 bIsPulsed) where
  numThread_eq := rfl
  toggle_eq := rfl
  phase := by
    have hz : tally (fun _ : ι => (⟨.idle, 0⟩ : Thread)) (arrivedIn 0) = 0 := tally_eq_zero.mpr fun _ => rfl
    refine Or.inl ⟨rfl, by simp [start, hz], fun i => Or.inl ⟨rfl, trivial⟩, ?_, ?_, ?_⟩
    · intro hall
      obtain ⟨i⟩ := Fintype.card_pos_iff.mp hcard
      cases hall i
    · intro k hk
      cases hk
    · intro k k' hk
      cases hk

variable [DecidableEq ι] {s t : State ι} {i : ι}

/-! #### While the threads gather -/

/-- A thread moves within its round, or leaves the round before. -/
theorem Gathering.moved (h : Gathering s) (f : ℕ → Bool) {u : Thread}
    (harr : arrivedIn s.turns u = arrivedIn s.turns (s.threads i))
    (hrel : u.place.releases = (s.threads i).place.releases)
    (hu : u.round = s.turns ∧ Present (s.turns % 2) u.place ∨ Leaving s u) :
    Gathering { s with bIsPulsed := f, threads := Function.update s.threads i u } := by
  have harr' : ∀ j, arrivedIn s.turns (Function.update s.threads i u j) = arrivedIn s.turns (s.threads j) := by
    intro j
    by_cases hj : j = i
    · rw [hj, Function.update_self, harr]
    · rw [Function.update_of_ne hj]
  have hrel' : ∀ j, (Function.update s.threads i u j).place.releases = (s.threads j).place.releases := by
    intro j
    by_cases hj : j = i
    · rw [hj, Function.update_self, hrel]
    · rw [Function.update_of_ne hj]
  refine ⟨h.unset, ?_, ?_, ?_, ?_, ?_⟩
  · exact h.count.trans (by rw [tally_congr harr'])
  · intro j
    by_cases hj : j = i
    · subst hj
      simp only [Function.update_self]
      exact hu
    · simp only [Function.update_of_ne hj]
      exact h.threads j
  · simp only [harr', hrel']
    exact h.complete
  · simp only [harr', hrel']
    exact h.releases
  · simp only [hrel']
    exact h.unique

theorem Gathering.goto (h : Gathering s) {p : Place} (hr : (s.threads i).round = s.turns)
    (harr : p.arrived = (s.threads i).place.arrived) (hrel : p.releases = (s.threads i).place.releases)
    (hp : Present (s.turns % 2) p) : Gathering (s.goto i p) := by
  refine h.moved s.bIsPulsed ?_ hrel (Or.inl ⟨hr, hp⟩)
  simp only [arrivedIn, harr]

/-- A thread of the round before leaves it. -/
theorem Gathering.leave (h : Gathering s) (f : ℕ → Bool) (hl : Leaving s (s.threads i)) :
    Gathering ({ s with bIsPulsed := f }.leave i) := by
  obtain ⟨hround, -, hplace⟩ := hl
  refine h.moved f ?_ ?_ (Or.inl ⟨hround, trivial⟩)
  · have hne : (s.threads i).round ≠ s.turns := by omega
    simp [arrivedIn, Place.arrived, hne]
  · rcases hplace with hp | hp <;> rw [hp] <;> rfl

omit [DecidableEq ι] in
/-- Before a thread arrives nobody releases the others. -/
theorem Gathering.none_releases (h : Gathering s) (hp : (s.threads i).place.arrived = false) (k : ι) :
    (s.threads k).place.releases = false := by
  by_contra hk
  have := h.releases k (by simpa using hk) i
  simp [arrivedIn, hp] at this

/-- A thread arrives at `p`; when all others have, it is the one that releases them. -/
theorem Gathering.arrive (h : Gathering s) (hn : s.numThread = Fintype.card ι) (hr : (s.threads i).round = s.turns)
    (hnot : (s.threads i).place.arrived = false) {p : Place} (hp : p.arrived = true)
    (hpres : Present (s.turns % 2) p) (hrel : p.releases = true ↔ s.numReached (s.turns % 2) + 1 = s.numThread) :
    Gathering (State.goto
      { s with
        numReached := Function.update s.numReached (s.turns % 2) (s.numReached (s.turns % 2) + 1) } i p) := by
  have hnone := h.none_releases hnot
  have honly : ∀ j, (Function.update s.threads i ⟨p, (s.threads i).round⟩ j).place.releases = true →
      j = i ∧ p.releases = true := by
    intro j hj
    by_cases hne : j = i
    · subst hne
      rw [Function.update_self] at hj
      exact ⟨rfl, hj⟩
    · rw [Function.update_of_ne hne, hnone j] at hj
      cases hj
  -- the count goes up with the number of those that have arrived
  have hall : tally (Function.update s.threads i ⟨p, (s.threads i).round⟩) (arrivedIn s.turns) =
      tally s.threads (arrivedIn s.turns) + 1 := by
    have hu := tally_update s.threads (arrivedIn s.turns) i ⟨p, (s.threads i).round⟩
    simpa [arrivedIn, hr, hp, hnot] using hu
  have hcount := h.count
  refine ⟨h.unset, ?_, ?_, ?_, ?_, ?_⟩
  · simp only [State.goto, Function.update_self, hall, hcount]
    push_cast
    rfl
  · intro j
    by_cases hj : j = i
    · subst hj
      simp only [State.goto, Function.update_self]
      exact Or.inl ⟨hr, hpres⟩
    · simp only [State.goto, Function.update_of_ne hj]
      exact h.threads j
  · intro harr
    have hfull := tally_eq_card.mpr harr
    simp only [State.goto] at hfull
    refine ⟨i, ?_⟩
    simp only [State.goto, Function.update_self]
    rw [hrel, hcount, hn]
    omega
  · intro k hk
    have heq := hrel.mp (honly k hk).2
    refine tally_eq_card.mp ?_
    simp only [State.goto]
    omega
  · intro k k' hk hk'
    rw [(honly k hk).1, (honly k' hk').1]

/-- What a step of a thread leaves alone while the threads gather. -/
def SameRound (s t : State ι) : Prop := t.numThread = s.numThread ∧ t.toggle = s.toggle ∧ t.turns = s.turns

theorem Gathering.stepEntered (hcard : Fintype.card ι < 2 ^ 31) (h : Gathering s) (hn : s.numThread = Fintype.card ι)
    (hr : (s.threads i).round = s.turns) (hp : (s.threads i).place = .entered (s.turns % 2))
    (ht : stepThread s i (.entered (s.turns % 2)) = some t) : Gathering t ∧ SameRound s t := by
  have hnot : (s.threads i).place.arrived = false := by rw [hp]; rfl
  have hlt : tally s.threads (arrivedIn s.turns) < Fintype.card ι := by
    refine tally_lt_card (i := i) ?_
    simp [arrivedIn, hnot]
  have hcount := h.count
  have hb : (s.numReached (s.turns % 2) + 1).bmod (2 ^ 32) = s.numReached (s.turns % 2) + 1 :=
    bmod_int (by omega) (by omega)
  simp only [stepThread, hb] at ht
  split at ht
  · rename_i hless
    obtain rfl := Option.some.inj ht
    refine ⟨h.arrive hn hr hnot (p := .counted) rfl trivial ?_, rfl, rfl, rfl⟩
    simp only [Place.releases, Bool.false_eq_true, false_iff]
    exact hless.ne
  · rename_i hnl
    have heq : s.numReached (s.turns % 2) + 1 = s.numThread := by omega
    rw [if_pos heq] at ht
    obtain rfl := Option.some.inj ht
    exact ⟨h.arrive hn hr hnot (p := .last) rfl trivial (by simp [Place.releases, heq]), rfl, rfl, rfl⟩

/-- A thread in `WaitSignal` looks at the event: it leaves if its round is over. -/
theorem Gathering.look (h : Gathering s) (f : ℕ → Bool) {e : ℕ} (hw : (s.threads i).WaitsOn e) :
    (s.bSet e = true → Gathering (State.leave { s with bIsPulsed := f } i)) ∧
      (s.bSet e = false → Gathering (s.goto i (.asleep e))) := by
  rcases h.threads i with ⟨hr, hpres⟩ | hl
  · -- the event of this round is not set
    have he : e = s.turns % 2 := by
      rcases hw with hw | hw | hw <;> rw [hw] at hpres <;> exact hpres
    subst he
    refine ⟨fun hset => absurd hset (by rw [h.unset]; simp), fun _ => h.goto hr ?_ ?_ rfl⟩
    · rcases hw with hw | hw | hw <;> rw [hw] <;> rfl
    · rcases hw with hw | hw | hw <;> rw [hw] <;> rfl
  · refine ⟨fun _ => h.leave f hl, fun hunset => ?_⟩
    obtain ⟨-, hset, hplace⟩ := hl
    have he : e = (s.turns + 1) % 2 := by
      unfold Thread.WaitsOn at hw
      rcases hplace with hplace | hplace <;> simpa [hplace, eq_comm] using hw
    rw [← he, hunset] at hset
    cases hset

/-- The last thread turns `_toggle` while all others wait for the event of their round. -/
theorem Gathering.turn (h : Gathering s) (hp : (s.threads i).place = .turning (s.turns % 2))
    (hok : ∀ j, (s.threads j).place ≠ .counted) :
    Releasing (State.goto { s with toggle := (s.turns % 2 + 1) &&& 1, turns := s.turns + 1 } i .turned) i := by
  have hrel : (s.threads i).place.releases = true := by rw [hp]; rfl
  have harr := h.releases i hrel
  have hround : ∀ j, (s.threads j).round = s.turns := by
    intro j
    have := harr j
    simp only [arrivedIn, Bool.and_eq_true, decide_eq_true_eq] at this
    exact this.1
  have hsame : (s.turns + 1 + 1) % 2 = s.turns % 2 := by omega
  refine ⟨?_, ?_, ?_, ?_⟩
  · simp only [State.goto, hsame]
    exact h.unset
  · intro j
    by_cases hj : j = i
    · subst hj
      simp only [State.goto, Function.update_self, hround]
    · simp only [State.goto, Function.update_of_ne hj, hround]
  · simp only [State.goto, Function.update_self]
    trivial
  · intro j hj
    simp only [State.goto, Function.update_of_ne hj, hsame]
    have hnr : (s.threads j).place.releases ≠ true := fun hjr => hj (h.unique j i hjr hrel)
    have hpres : Present (s.turns % 2) (s.threads j).place := by
      rcases h.threads j with hpres | hl
      · exact hpres.2
      · have := hl.1
        have := hround j
        omega
    have hja := harr j
    have hjc := hok j
    -- the other places are before the arrival, or after the turn
    unfold Thread.WaitsOn
    cases hpl : (s.threads j).place with
    | waiting e =>
      rw [hpl] at hpres
      exact Or.inl (congrArg _ hpres)
    | asleep e =>
      rw [hpl] at hpres
      exact Or.inr (Or.inl (congrArg _ hpres))
    | woken e =>
      rw [hpl] at hpres
      exact Or.inr (Or.inr (congrArg _ hpres))
    | counted => exact absurd hpl hjc
    | last => exact absurd (by rw [hpl]; rfl) hnr
    | turning tg => exact absurd (by rw [hpl]; rfl) hnr
    | idle => simp [arrivedIn, hpl, Place.arrived] at hja
    | entered tg => simp [arrivedIn, hpl, Place.arrived] at hja
    | _ =>
      rw [hpl] at hpres
      exact hpres.elim

/-! #### While the others are released -/

omit [Fintype ι] in
/-- The thread that releases the others does what does not concern them. -/
theorem Releasing.proceed {k : ι} (h : Releasing s k) {p : Place} {numReached : ℕ → ℤ} {bSet : ℕ → Bool}
    (hset : bSet ((s.turns + 1) % 2) = s.bSet ((s.turns + 1) % 2))
    (hp : ReleaseOk { s with numReached := numReached, bSet := bSet } p) :
    Releasing (State.goto { s with numReached := numReached, bSet := bSet } k p) k := by
  refine ⟨hset.trans h.unset, ?_, ?_, ?_⟩
  · intro j
    by_cases hj : j = k
    · subst hj
      simp only [State.goto, Function.update_self]
      exact h.rounds j
    · simp only [State.goto, Function.update_of_ne hj]
      exact h.rounds j
  · simp only [State.goto, Function.update_self]
    cases p <;> exact hp
  · intro j hj
    simp only [State.goto, Function.update_of_ne hj]
    exact h.others j hj

omit [Fintype ι] in
/-- Another thread falls asleep or wakes up. -/
theorem Releasing.goto {k : ι} (h : Releasing s k) (hne : i ≠ k) {p : Place}
    (hp : Thread.WaitsOn ⟨p, (s.threads i).round⟩ ((s.turns + 1) % 2)) : Releasing (s.goto i p) k := by
  refine ⟨h.unset, ?_, ?_, ?_⟩
  · intro j
    by_cases hj : j = i
    · subst hj
      simp only [State.goto, Function.update_self]
      exact h.rounds j
    · simp only [State.goto, Function.update_of_ne hj]
      exact h.rounds j
  · simp only [State.goto, Function.update_of_ne hne.symm]
    have hrel := h.release
    cases hpl : (s.threads k).place <;> rw [hpl] at hrel <;> exact hrel
  · intro j hj
    by_cases hji : j = i
    · subst hji
      simp only [State.goto, Function.update_self]
      exact hp
    · simp only [State.goto, Function.update_of_ne hji]
      exact h.others j hj

/-- The event is set: all others can leave, and the next round is open. -/
theorem Releasing.set {k : ι} (h : Releasing s k) (hp : (s.threads k).place = .setting ((s.turns + 1) % 2)) :
    Gathering (State.leave
      { s with
        bSet := Function.update s.bSet ((s.turns + 1) % 2) true
        threads := fun j => wakeUp ((s.turns + 1) % 2) (s.threads j) } k) := by
  have hrel := h.release
  rw [hp] at hrel
  obtain ⟨-, hunset, hzero⟩ := hrel
  have hdiff : s.turns % 2 ≠ (s.turns + 1) % 2 := by omega
  have hk : wakeUp ((s.turns + 1) % 2) (s.threads k) = s.threads k := by simp [wakeUp, hp]
  have hround : ∀ j, (wakeUp ((s.turns + 1) % 2) (s.threads j)).round + 1 = s.turns := by
    intro j
    rw [wakeUp]
    split <;> exact h.rounds j
  have hnot : ∀ j, arrivedIn s.turns (Function.update (fun j => wakeUp ((s.turns + 1) % 2) (s.threads j)) k
      ⟨.idle, (wakeUp ((s.turns + 1) % 2) (s.threads k)).round + 1⟩ j) = false := by
    intro j
    by_cases hj : j = k
    · subst hj
      simp [arrivedIn, Place.arrived]
    · have := hround j
      rw [Function.update_of_ne hj]
      have hne : (wakeUp ((s.turns + 1) % 2) (s.threads j)).round ≠ s.turns := by omega
      simp [arrivedIn, hne]
  have hwoken : ∀ j, j ≠ k → (wakeUp ((s.turns + 1) % 2) (s.threads j)).place = .waiting ((s.turns + 1) % 2) ∨
      (wakeUp ((s.turns + 1) % 2) (s.threads j)).place = .woken ((s.turns + 1) % 2) := by
    intro j hj
    rcases h.others j hj with hw | hw | hw
    · exact Or.inl (by simp [wakeUp, hw])
    · exact Or.inr (by simp [wakeUp, hw])
    · exact Or.inr (by simp [wakeUp, hw])
  have hnrel : ∀ j, (Function.update (fun j => wakeUp ((s.turns + 1) % 2) (s.threads j)) k
      ⟨.idle, (wakeUp ((s.turns + 1) % 2) (s.threads k)).round + 1⟩ j).place.releases = false := by
    intro j
    by_cases hj : j = k
    · subst hj
      simp [Place.releases]
    · rw [Function.update_of_ne hj]
      rcases hwoken j hj with hw | hw <;> rw [hw] <;> rfl
  refine ⟨?_, ?_, ?_, ?_, ?_, ?_⟩
  · simp only [State.leave, Function.update_of_ne hdiff]
    exact hunset
  · simp only [State.leave, hzero]
    rw [tally_eq_zero.mpr hnot]
    rfl
  · intro j
    by_cases hj : j = k
    · subst hj
      simp only [State.leave, Function.update_self]
      exact Or.inl ⟨hround j, trivial⟩
    · simp only [State.leave, Function.update_of_ne hj]
      refine Or.inr ⟨hround j, ?_, hwoken j hj⟩
      simp only [Function.update_self]
  · intro hall
    have := hnot k
    simp only [State.leave] at hall
    rw [hall k] at this
    cases this
  · intro j hj
    simp only [State.leave] at hj
    rw [hnrel j] at hj
    cases hj
  · intro j j' hj
    simp only [State.leave] at hj
    rw [hnrel j] at hj
    cases hj

/-! ### Runs -/

omit [DecidableEq ι] in
theorem Inv.next (hi : Inv s) (hs : SameRound s t) (hphase : Gathering t ∨ ∃ k, Releasing t k) : Inv t where
  numThread_eq := hs.1.trans hi.numThread_eq
  toggle_eq := by rw [hs.2.1, hs.2.2, hi.toggle_eq]
  phase := hphase

theorem inv_gathering (hcard : Fintype.card ι < 2 ^ 31) (hi : Inv s) (hg : Gathering s)
    (hok : Timely s (.move i)) (h : step s (.move i) = some t) : Inv t := by
  have hround : ∀ {p : Place}, (s.threads i).place = p → (∀ e, p ≠ .waiting e) → (∀ e, p ≠ .woken e) →
      (s.threads i).round = s.turns ∧ Present (s.turns % 2) p := by
    intro p hp h1 h2
    rcases hg.threads i with hpres | ⟨-, -, hl | hl⟩
    · exact hp ▸ hpres
    · exact absurd (hp.symm.trans hl) (h1 _)
    · exact absurd (hp.symm.trans hl) (h2 _)
  have hgoto : ∀ {p : Place}, t = s.goto i p → Gathering t → Inv t := by
    intro p ht hgt
    exact hi.next (ht ▸ ⟨rfl, rfl, rfl⟩) (Or.inl hgt)
  simp only [step] at h
  cases hp : (s.threads i).place with
  | idle =>
    rw [hp] at h
    obtain rfl := Option.some.inj h
    obtain ⟨hr, -⟩ := hround hp (by simp) (by simp)
    exact hgoto rfl (hg.goto hr (by rw [hp]; rfl) (by rw [hp]; rfl) hi.toggle_eq)
  | entered tg =>
    obtain ⟨hr, rfl⟩ := hround hp (by simp) (by simp)
    rw [hp] at h
    obtain ⟨hgt, hsame⟩ := hg.stepEntered hcard hi.numThread_eq hr hp h
    exact hi.next hsame (Or.inl hgt)
  | counted =>
    rw [hp] at h
    obtain rfl := Option.some.inj h
    obtain ⟨hr, -⟩ := hround hp (by simp) (by simp)
    exact hgoto rfl (hg.goto hr (by rw [hp]; rfl) (by rw [hp]; rfl) hi.toggle_eq)
  | waiting e =>
    rw [hp] at h
    have hlook := hg.look s.bIsPulsed (Or.inl hp)
    simp only [stepThread] at h
    split at h
    · rename_i hset
      obtain rfl := Option.some.inj h
      exact hi.next ⟨rfl, rfl, rfl⟩ (Or.inl (hlook.1 hset))
    · rename_i hset
      obtain rfl := Option.some.inj h
      exact hgoto rfl (hlook.2 (by simpa using hset))
  | asleep e =>
    rw [hp] at h
    cases h
  | woken e =>
    rw [hp] at h
    have hlook := fun f => hg.look f (Or.inr (Or.inr hp))
    have hpulse : s.bIsPulsed e = true → s.bSet e = true := by simpa only [Timely, hp, TimelyAt] using hok
    simp only [stepThread] at h
    split at h
    · rename_i hpulsed
      obtain rfl := Option.some.inj h
      exact hi.next ⟨rfl, rfl, rfl⟩ (Or.inl ((hlook _).1 (hpulse hpulsed)))
    · split at h
      · rename_i hset
        obtain rfl := Option.some.inj h
        exact hi.next ⟨rfl, rfl, rfl⟩ (Or.inl ((hlook s.bIsPulsed).1 hset))
      · rename_i hset
        obtain rfl := Option.some.inj h
        exact hgoto rfl ((hlook s.bIsPulsed).2 (by simpa using hset))
  | last =>
    rw [hp] at h
    obtain rfl := Option.some.inj h
    obtain ⟨hr, -⟩ := hround hp (by simp) (by simp)
    exact hgoto rfl (hg.goto hr (by rw [hp]; rfl) (by rw [hp]; rfl) hi.toggle_eq)
  | turning tg =>
    obtain ⟨-, rfl⟩ := hround hp (by simp) (by simp)
    have hnone : ∀ j, (s.threads j).place ≠ .counted := by simpa only [Timely, hp, TimelyAt] using hok
    rw [hp] at h
    obtain rfl := Option.some.inj h
    refine ⟨hi.numThread_eq, ?_, Or.inr ⟨i, hg.turn hp hnone⟩⟩
    simp only [State.goto, Nat.and_one_is_mod]
    omega
  | _ => exact (hround hp (by simp) (by simp)).2.elim

omit [Fintype ι] in
/-- A thread that waits while the others are released does not see its event set. -/
theorem Releasing.step_other {k : ι} (h : Releasing s k) (hne : i ≠ k) (hok : Timely s (.move i))
    (ht : step s (.move i) = some t) : Releasing t k ∧ SameRound s t := by
  have hsleep := h.goto hne (p := .asleep ((s.turns + 1) % 2)) (Or.inr (Or.inl rfl))
  simp only [step] at ht
  rcases h.others i hne with hw | hw | hw
  · rw [hw] at ht
    simp only [stepThread, h.unset, Bool.false_eq_true, if_false] at ht
    obtain rfl := Option.some.inj ht
    exact ⟨hsleep, rfl, rfl, rfl⟩
  · rw [hw] at ht
    cases ht
  · have hpulse : s.bIsPulsed ((s.turns + 1) % 2) = false := by
      have hok' : s.bIsPulsed ((s.turns + 1) % 2) = true → s.bSet ((s.turns + 1) % 2) = true := by
        simpa only [Timely, hw, TimelyAt] using hok
      by_contra hp
      have hset := hok' (by simpa using hp)
      rw [h.unset] at hset
      cases hset
    rw [hw] at ht
    simp only [stepThread, hpulse, h.unset, Bool.false_eq_true, if_false] at ht
    obtain rfl := Option.some.inj ht
    exact ⟨hsleep, rfl, rfl, rfl⟩

theorem inv_releasing (hi : Inv s) {k : ι} (hk : Releasing s k) (hok : Timely s (.move i))
    (h : step s (.move i) = some t) : Inv t := by
  by_cases hne : i = k
  · subst hne
    have hrel := hk.release
    have hother : (s.toggle + 1) &&& 1 = (s.turns + 1) % 2 := by
      rw [Nat.and_one_is_mod, hi.toggle_eq]
      omega
    have hdiff : (s.turns + 1) % 2 ≠ s.turns % 2 := by omega
    have hnext : ∀ {t : State ι}, Releasing t i → SameRound s t → Inv t := by
      intro t ht hs
      exact hi.next hs (Or.inr ⟨i, ht⟩)
    simp only [step] at h
    cases hp : (s.threads i).place with
    | turned =>
      rw [hp] at h
      obtain rfl := Option.some.inj h
      exact hnext (hk.proceed (p := .resetting s.toggle) rfl hi.toggle_eq) ⟨rfl, rfl, rfl⟩
    | resetting e =>
      rw [hp] at h hrel
      obtain rfl : e = s.turns % 2 := hrel
      obtain rfl := Option.some.inj h
      refine hnext (hk.proceed (p := .resetDone) ?_ ?_) ⟨rfl, rfl, rfl⟩
      · rw [Function.update_of_ne hdiff]
      · simp only [ReleaseOk, Function.update_self]
    | resetDone =>
      rw [hp] at h hrel
      obtain rfl := Option.some.inj h
      exact hnext (hk.proceed (p := .zeroing s.toggle) rfl ⟨hi.toggle_eq, hrel⟩) ⟨rfl, rfl, rfl⟩
    | zeroing tg =>
      rw [hp] at h hrel
      obtain ⟨rfl, hunset⟩ := hrel
      obtain rfl := Option.some.inj h
      refine hnext (hk.proceed (p := .zeroDone) rfl ⟨hunset, ?_⟩) ⟨rfl, rfl, rfl⟩
      simp only [Function.update_self]
    | zeroDone =>
      rw [hp] at h hrel
      obtain rfl := Option.some.inj h
      exact hnext (hk.proceed (p := .setting _) rfl ⟨hother, hrel⟩) ⟨rfl, rfl, rfl⟩
    | setting e =>
      rw [hp] at h hrel
      obtain rfl : e = (s.turns + 1) % 2 := hrel.1
      obtain rfl := Option.some.inj h
      exact hi.next ⟨rfl, rfl, rfl⟩ (Or.inl (hk.set hp))
    | _ =>
      rw [hp] at hrel
      exact hrel.elim
  · obtain ⟨hk', hs⟩ := hk.step_other hne hok h
    exact hi.next hs (Or.inr ⟨k, hk'⟩)

/-- A sleeping thread wakes up, and nothing has changed. -/
theorem inv_wake (hi : Inv s) (h : step s (.wake i) = some t) : Inv t := by
  simp only [step] at h
  cases hp : (s.threads i).place with
  | asleep e =>
    rw [hp] at h
    obtain rfl := Option.some.inj h
    refine hi.next ⟨rfl, rfl, rfl⟩ ?_
    rcases hi.phase with hg | ⟨k, hk⟩
    · rcases hg.threads i with ⟨hr, hpres⟩ | ⟨-, -, hl⟩
      · rw [hp] at hpres
        exact Or.inl (hg.goto hr (by rw [hp]; rfl) (by rw [hp]; rfl) hpres)
      · simp [hp] at hl
    · have hne : i ≠ k := by
        rintro rfl
        have hrel := hk.release
        rw [hp] at hrel
        exact hrel
      have he : e = (s.turns + 1) % 2 := by
        simpa [Thread.WaitsOn, hp] using hk.others i hne
      exact Or.inr ⟨k, hk.goto hne (Or.inr (Or.inr (congrArg _ he)))⟩
  | _ =>
    rw [hp] at h
    cases h

theorem inv_step (hcard : Fintype.card ι < 2 ^ 31) {a : Action ι} (hi : Inv s) (hok : Timely s a)
    (h : step s a = some t) : Inv t := by
  cases a with
  | move i =>
    rcases hi.phase with hg | ⟨k, hk⟩
    · exact inv_gathering hcard hi hg hok h
    · exact inv_releasing hi hk hok h
  | wake i => exact inv_wake hi h

theorem reachable_inv (hpos : 0 < Fintype.card ι) (hcard : Fintype.card ι < 2 ^ 31) {reached1 : ℤ}
    {bIsPulsed : ℕ → Bool} (h : Reachable step Timely (start (Fintype.card ι) reached1 bIsPulsed) s) : Inv s :=
  h.invariant (inv_start hpos reached1 bIsPulsed) fun _ _ _ hi hok hst => inv_step hcard hi hok hst

omit [DecidableEq ι] in
/-- A thread waits for the event of its round. -/
theorem Inv.event_eq (hi : Inv s) {i : ι} {e : ℕ} (hw : (s.threads i).WaitsOn e) : e = (s.threads i).round % 2 := by
  rcases hi.phase with hg | ⟨k, hk⟩
  · rcases hg.threads i with ⟨hr, hpres⟩ | ⟨hr, -, hl⟩
    · rcases hw with hw | hw | hw <;> rw [hw] at hpres <;> rw [hr] <;> exact hpres
    · unfold Thread.WaitsOn at hw
      have he : e = (s.turns + 1) % 2 := by rcases hl with hl | hl <;> simpa [hl, eq_comm] using hw
      omega
  · have hr := hk.rounds i
    have hne : i ≠ k := by
      rintro rfl
      have hrel := hk.release
      rcases hw with hw | hw | hw <;> rw [hw] at hrel <;> exact hrel
    have ho := hk.others i hne
    unfold Thread.WaitsOn at hw ho
    have he : e = (s.turns + 1) % 2 := by
      rcases hw with hw | hw | hw <;> simpa [hw] using ho
    omega

omit [DecidableEq ι] in
/-- Not all threads are blocked: the last one to arrive is on its way to release the others. -/
theorem Inv.not_blocked (hi : Inv s) : ¬ ∀ i, Blocked s i := by
  intro hall
  have hwaits : ∀ i, ∃ e, (s.threads i).WaitsOn e ∧ ((s.threads i).place = .asleep e ∨ s.bSet e = false) := by
    intro i
    obtain ⟨e, hb | ⟨hw, hb⟩⟩ := hall i
    · exact ⟨e, Or.inr (Or.inl hb), Or.inl hb⟩
    · exact ⟨e, hw, Or.inr hb⟩
  rcases hi.phase with hg | ⟨k, hk⟩
  · have harr : ∀ i, arrivedIn s.turns (s.threads i) = true := by
      intro i
      obtain ⟨e, hw, hb⟩ := hwaits i
      rcases hg.threads i with ⟨hr, -⟩ | ⟨-, hset, hl⟩
      · rcases hw with hw | hw | hw <;> simp [arrivedIn, hr, hw, Place.arrived]
      · unfold Thread.WaitsOn at hw
        rcases hl with hl | hl <;> simp_all
    obtain ⟨k, hk⟩ := hg.complete harr
    obtain ⟨e, hw, -⟩ := hwaits k
    rcases hw with hw | hw | hw <;> rw [hw] at hk <;> cases hk
  · obtain ⟨e, hw, -⟩ := hwaits k
    have hrel := hk.release
    rcases hw with hw | hw | hw <;> rw [hw] at hrel <;> exact hrel

omit [DecidableEq ι] in
/-- A round is left behind by nobody before all have arrived in it. -/
theorem Inv.round_le_arrivals (hi : Inv s) (i j : ι) : (s.threads i).round ≤ (s.threads j).arrivals := by
  rw [Thread.arrivals]
  rcases hi.phase with hg | ⟨k, hk⟩
  · have h1 : (s.threads i).round ≤ s.turns := by
      rcases hg.threads i with ⟨hr, -⟩ | ⟨hr, -⟩ <;> omega
    rcases hg.threads j with ⟨hr, -⟩ | ⟨hr, -, hl⟩
    · omega
    · have harr : (s.threads j).place.arrived = true := by rcases hl with hl | hl <;> rw [hl] <;> rfl
      rw [harr, if_pos rfl]
      omega
  · have h1 := hk.rounds i
    have h2 := hk.rounds j
    omega

/-- **The thread fence.** In every run of `N ≥ 2` threads in which no thread stands between raising the count
and reading `_toggle` when `_toggle` is turned, and in which `bIsPulsed` ends no wait for an event that is
not set: a thread waits for the event of its own round, not all threads are blocked, and no thread leaves a
round before all have arrived in it. -/
theorem thread_fence (hN : 2 ≤ Fintype.card ι) (hint : Fintype.card ι < 2 ^ 31) (reached1 : ℤ)
    (bIsPulsed : ℕ → Bool) (s : State ι)
    (h : Reachable step Timely (start (Fintype.card ι) reached1 bIsPulsed) s) :
    (∀ i e, (s.threads i).WaitsOn e → e = (s.threads i).round % 2) ∧ (¬ ∀ i, Blocked s i) ∧
      ∀ i j, (s.threads i).round ≤ (s.threads j).arrivals := by
  have hi := reachable_inv (by omega) hint h
  exact ⟨fun i e => hi.event_eq, hi.not_blocked, hi.round_le_arrivals⟩

end Inv

/-! ### The window in `WaitOthers` -/

/-- Two threads. -/
def thread0 : Fin 2 := ⟨0, Nat.two_pos⟩

def thread1 : Fin 2 := ⟨1, Nat.one_lt_two⟩

/-- A thread has raised the count but not read `_toggle` again when the last one turns it: it waits for the
event of the next round, and so does the other one. -/
def missed : List (Action (Fin 2)) :=
  List.replicate 2 (.move thread0) ++ List.replicate 10 (.move thread1) ++ List.replicate 2 (.move thread0) ++
    List.replicate 4 (.move thread1)

theorem thread_fence_fails :
    (∃ s, run step (start 2 0 fun _ => false) missed = some s ∧ s.threads 0 = ⟨.asleep 1, 0⟩ ∧
      s.threads 1 = ⟨.asleep 1, 1⟩) ∧
    (¬ ∀ s : State (Fin 2), Reachable step anyStep (start 2 0 fun _ => false) s →
      ∀ i e, (s.threads i).WaitsOn e → e = (s.threads i).round % 2) ∧
    ¬ ∀ s : State (Fin 2), Reachable step anyStep (start 2 0 fun _ => false) s →
      ¬ ∀ i, ∃ e, (s.threads i).place = .asleep e := by
  have hrun : ∃ s, run step (start 2 0 fun _ => false) missed = some s ∧ s.threads 0 = ⟨.asleep 1, 0⟩ ∧
      s.threads 1 = ⟨.asleep 1, 1⟩ := ⟨_, rfl, rfl, rfl⟩
  obtain ⟨s, hs, h0, h1⟩ := hrun
  have hreach := reachable_of_run missed hs
  refine ⟨⟨s, hs, h0, h1⟩, ?_, ?_⟩
  · intro hall
    have := hall s hreach 0 1 (Or.inr (Or.inl (by rw [h0])))
    rw [h0] at this
    cases this
  · intro hall
    refine hall s hreach fun i => ⟨1, ?_⟩
    fin_cases i
    · exact congrArg Thread.place h0
    · exact congrArg Thread.place h1

/-- Two threads meet once, and go on to the next round. -/
def meeting : List (Action (Fin 2)) :=
  List.replicate 4 (.move thread0) ++ [.wake thread0] ++ List.replicate 10 (.move thread1) ++
    List.replicate 2 (.move thread0)

theorem thread_fence_meeting :
    ∃ s, run step (start 2 7 fun _ => false) meeting = some s ∧ s.threads 0 = ⟨.entered 1, 1⟩ ∧
      s.threads 1 = ⟨.idle, 1⟩ ∧ (¬ ∀ i, Blocked s i) ∧ ∀ i j, (s.threads i).round ≤ (s.threads j).arrivals :=
  ⟨_, rfl, rfl, rfl, (thread_fence (ι := Fin 2) (by decide) (by decide) 7 (fun _ => false) _
    (Reachable.start.of_run meeting (by decide) rfl)).2⟩

end Cpcf.Os.ThreadFence
