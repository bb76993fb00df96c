import Cpcf.Lib.Run
import Cpcf.Lib.Threads

/-!
`TimeLimitedThreadSafeAccess` of `os/multi_thread.h`: two objects, of which consumers lock the front
one and a managing thread modifies the back one.

`Lock` reads `_front` and raises the lock count of the object in two steps. `Update` waits until the
count of the back object is zero, and `Commit` swaps the two pointers by `rt::Swap`, which exchanges
them in two halves of 32 bits: a consumer that reads `_front` in between may get the halves of two
different addresses.
-/

namespace Cpcf.Os.DoubleBuffer

open Cpcf.Lib.Run Cpcf.Lib.Threads

variable {ι : Type}

/-! ### The machine -/

/-- A pointer, as the two halves `rt::Swap` exchanges. -/
structure Ptr where
  lo : ℕ
  hi : ℕ
deriving DecidableEq

/-- Where the managing thread stands. -/
inductive Manager
  | idle
  /-- The loop of `Update` has read `_back`. -/
  | checking (p : Ptr)
  /-- The lock count was zero: `return _back` comes next. -/
  | returning
  /-- `Update` has returned the object, which is being modified. -/
  | modifying (p : Ptr)
  /-- `Commit`: the lower half of `_front` is read, -/
  | loadedLo (t : ℕ)
  /-- written, -/
  | storedLo (t : ℕ)
  /-- and the lower half of `_back` is written. -/
  | swappedLo
  /-- The upper half of `_front` is read -/
  | loadedHi (t : ℕ)
  /-- and written. -/
  | storedHi (t : ℕ)
deriving DecidableEq

/-- Where a consumer stands. -/
inductive Consumer
  | idle
  /-- `Lock` has read `_front`. -/
  | taken (p : Ptr)
  /-- `Lock` has returned. -/
  | holding (p : Ptr)
deriving DecidableEq

/-- The object and its threads. `locks` is the `_lock_count` at an address. -/
structure State (ι : Type) where
  front : Ptr
  back : Ptr
  locks : Ptr → ℕ
  manager : Manager
  consumers : ι → Consumer

/-- One step of one thread. -/
inductive Action (ι : Type)
  | manage
  | consume (i : ι)
deriving DecidableEq

/-- The next step of the managing thread. -/
def stepManager (s : State ι) : Manager → State ι
  | .idle => { s with manager := .checking s.back }
  -- `while(_back->_lock_count)os::Sleep(0);`
  | .checking p => { s with manager := if s.locks p = 0 then .returning else .idle }
  | .returning => { s with manager := .modifying s.back }
  | .modifying _ => { s with manager := .loadedLo s.front.lo }
  | .loadedLo t => { s with manager := .storedLo t, front := { s.front with lo := s.back.lo } }
  | .storedLo t => { s with manager := .swappedLo, back := { s.back with lo := t } }
  | .swappedLo => { s with manager := .loadedHi s.front.hi }
  | .loadedHi t => { s with manager := .storedHi t, front := { s.front with hi := s.back.hi } }
  | .storedHi t => { s with manager := .idle, back := { s.back with hi := t } }

/-- The next step of the consumer `i`. -/
def stepConsumer [DecidableEq ι] (s : State ι) (i : ι) : Consumer → State ι
  | .idle => { s with consumers := Function.update s.consumers i (.taken s.front) }
  | .taken p =>
    { s with
      consumers := Function.update s.consumers i (.holding p)
      locks := Function.update s.locks p ((s.locks p + 1) % 2 ^ 32) }
  | .holding p =>
    { s with
      consumers := Function.update s.consumers i .idle
      locks := Function.update s.locks p ((s.locks p + (2 ^ 32 - 1)) % 2 ^ 32) }

/-- A step: every thread can always go on. -/
def step [DecidableEq ι] (s : State ι) : Action ι → Option (State ι)
  | .manage => some (stepManager s s.manager)
  | .consume i => some (stepConsumer s i (s.consumers i))

/-- The constructor: `_front = &_obj[0]; _back = &_obj[1];`. -/
def start (obj0 obj1 : Ptr) : State ι where
  front := obj0
  back := obj1
  locks := fun _ => 0
  manager := .idle
  consumers := fun _ => .idle

/-! ### The condition -/

/-- The object whose lock count `Update` is about to read. -/
def Manager.checked : Manager → Option Ptr
  | .checking p => some p
  | _ => none

/-- When `Update` finds the lock count at zero, no consumer stands between reading the pointer to that
object and raising its count. -/
def Timely (s : State ι) (a : Action ι) : Prop :=
  a = .manage → ∀ p ∈ s.manager.checked, s.locks p = 0 → ∀ i, s.consumers i ≠ .taken p

instance [Fintype ι] [DecidableEq ι] (s : State ι) (a : Action ι) : Decidable (Timely s a) :=
  inferInstanceAs (Decidable (a = .manage → ∀ p ∈ s.manager.checked, s.locks p = 0 → ∀ i, s.consumers i ≠ .taken p))

/-! ### The invariant -/

/-- No consumer has the object `p`, or is about to have it. -/
def Free (s : State ι) (p : Ptr) : Prop := ∀ i, s.consumers i ≠ .taken p ∧ s.consumers i ≠ .holding p

/-- The two pointers at each place of the managing thread; `x` was the front before the swap and `y`
the back. -/
def PointersOk (s : State ι) (x y : Ptr) : Manager → Prop
  | .idle => s.front = x ∧ s.back = y
  | .checking p => s.front = x ∧ s.back = y ∧ p = y
  | .returning => s.front = x ∧ s.back = y ∧ Free s y
  | .modifying p => s.front = x ∧ s.back = y ∧ p = y ∧ Free s y
  | .loadedLo t => s.front = x ∧ s.back = y ∧ t = x.lo
  | .storedLo t => s.front = ⟨y.lo, x.hi⟩ ∧ s.back = y ∧ t = x.lo
  | .swappedLo => s.front = ⟨y.lo, x.hi⟩ ∧ s.back = ⟨x.lo, y.hi⟩
  | .loadedHi t => s.front = ⟨y.lo, x.hi⟩ ∧ s.back = ⟨x.lo, y.hi⟩ ∧ t = x.hi
  | .storedHi t => s.front = y ∧ s.back = ⟨x.lo, y.hi⟩ ∧ t = x.hi

/-- Is the place of a consumer one where it holds `p`? -/
def holds (p : Ptr) (c : Consumer) : Bool := c = .holding p

section Inv

variable [Fintype ι]

/-- The pointers are two different ones, and every lock count is the number of holders. -/
structure Inv (s : State ι) : Prop where
  pointers : ∃ x y, x ≠ y ∧ PointersOk s x y s.manager
  locks : ∀ p, s.locks p = tally s.consumers (holds p) % 2 ^ 32

theorem inv_start {obj0 obj1 : Ptr} (h : obj0 ≠ obj1) : Inv (start (ι := ι) obj0 obj1) where
  pointers := ⟨obj0, obj1, h, rfl, rfl⟩
  locks p := by
    have : tally (fun _ : ι => Consumer.idle) (holds p) = 0 := tally_eq_zero.mpr fun _ => rfl
    simp [start, this]

variable {s : State ι}

/-- A step of the managing thread that meets the condition keeps the invariant. -/
theorem inv_stepManager (hcard : Fintype.card ι < 2 ^ 32) (hi : Inv s)
    (hok : Timely s .manage) : Inv (stepManager s s.manager) := by
  obtain ⟨x, y, hxy, hptr⟩ := hi.pointers
  cases hm : s.manager with
  | idle =>
    rw [hm] at hptr
    obtain ⟨hf, hb⟩ := hptr
    exact ⟨⟨x, y, hxy, hf, hb, hb⟩, hi.locks⟩
  | checking p =>
    rw [hm] at hptr
    obtain ⟨hf, hb, rfl⟩ := hptr
    refine ⟨⟨x, p, hxy, ?_⟩, hi.locks⟩
    simp only [stepManager]
    split
    · rename_i hzero
      refine ⟨hf, hb, fun i => ⟨hok rfl p (by rw [hm]; rfl) hzero i, fun hh => ?_⟩⟩
      -- the count is the number of holders, which does not turn over
      have hle := tally_le_card s.consumers (holds p)
      have hnone : tally s.consumers (holds p) = 0 := by
        have := hi.locks p
        omega
      have hfalse := tally_eq_zero.mp hnone i
      rw [show s.consumers i = .holding p from hh] at hfalse
      simp [holds] at hfalse
    · exact ⟨hf, hb⟩
  | returning =>
    rw [hm] at hptr
    obtain ⟨hf, hb, hfree⟩ := hptr
    exact ⟨⟨x, y, hxy, hf, hb, hb, hfree⟩, hi.locks⟩
  | modifying p =>
    rw [hm] at hptr
    obtain ⟨hf, hb, -, -⟩ := hptr
    exact ⟨⟨x, y, hxy, hf, hb, congrArg Ptr.lo hf⟩, hi.locks⟩
  | loadedLo t =>
    rw [hm] at hptr
    obtain ⟨hf, hb, ht⟩ := hptr
    refine ⟨⟨x, y, hxy, ?_, hb, ht⟩, hi.locks⟩
    simp [stepManager, hf, hb]
  | storedLo t =>
    rw [hm] at hptr
    obtain ⟨hf, hb, ht⟩ := hptr
    refine ⟨⟨x, y, hxy, hf, ?_⟩, hi.locks⟩
    simp [stepManager, hb, ht]
  | swappedLo =>
    rw [hm] at hptr
    obtain ⟨hf, hb⟩ := hptr
    exact ⟨⟨x, y, hxy, hf, hb, by rw [hf]⟩, hi.locks⟩
  | loadedHi t =>
    rw [hm] at hptr
    obtain ⟨hf, hb, ht⟩ := hptr
    refine ⟨⟨x, y, hxy, ?_, hb, ht⟩, hi.locks⟩
    simp [stepManager, hf, hb]
  | storedHi t =>
    rw [hm] at hptr
    obtain ⟨hf, hb, ht⟩ := hptr
    -- the pointers have changed places
    refine ⟨⟨y, x, hxy.symm, hf, ?_⟩, hi.locks⟩
    simp [stepManager, hb, ht]

end Inv

section Consumer

variable {s : State ι}

/-- The consumers matter to the pointers only by what is free. -/
theorem PointersOk.of_free {t : State ι} {x y : Ptr} {m : Manager} (h : PointersOk s x y m) (hf : t.front = s.front)
    (hb : t.back = s.back) (hfree : s.front = x → Free s y → Free t y) : PointersOk t x y m := by
  cases m <;> simp only [PointersOk, hf, hb] at h ⊢
  case returning => exact ⟨h.1, h.2.1, hfree h.1 h.2.2⟩
  case modifying => exact ⟨h.1, h.2.1, h.2.2.1, hfree h.1 h.2.2.2⟩
  all_goals exact h

variable [DecidableEq ι]

/-- A consumer that goes where `y` is not keeps `y` free. -/
theorem Free.update {y : Ptr} (h : Free s y) (i : ι) {c : Consumer} (h1 : c ≠ .taken y) (h2 : c ≠ .holding y)
    (l : Ptr → ℕ) : Free { s with consumers := Function.update s.consumers i c, locks := l } y := by
  intro j
  by_cases hj : j = i
  · subst hj
    simpa using ⟨h1, h2⟩
  · simpa [Function.update_of_ne hj] using h j

variable [Fintype ι]

theorem tally_holds_update (s : State ι) (i : ι) (c : Consumer) (p : Ptr) :
    tally (Function.update s.consumers i c) (holds p) + (if s.consumers i = .holding p then 1 else 0) =
      tally s.consumers (holds p) + (if c = .holding p then 1 else 0) := by
  simpa [holds] using tally_update s.consumers (holds p) i c

/-- A step of a consumer keeps the invariant. -/
theorem inv_stepConsumer (hi : Inv s) (i : ι) : Inv (stepConsumer s i (s.consumers i)) := by
  obtain ⟨x, y, hxy, hptr⟩ := hi.pointers
  cases hc : s.consumers i with
  | idle =>
    refine ⟨⟨x, y, hxy, hptr.of_free rfl rfl ?_⟩, ?_⟩
    · intro hf hfree
      exact hfree.update i (by simpa [hf] using hxy) (by simp) _
    · intro p
      have hcount := tally_holds_update s i (.taken s.front) p
      simp only [hc, reduceCtorEq, ite_false, Nat.add_zero] at hcount
      simp only [stepConsumer, hcount]
      exact hi.locks p
  | taken p =>
    refine ⟨⟨x, y, hxy, hptr.of_free rfl rfl ?_⟩, ?_⟩
    · intro hf hfree
      refine hfree.update i (by simp) ?_ _
      have := (hfree i).1
      rw [hc] at this
      simpa using this
    · intro q
      have hcount := tally_holds_update s i (.holding p) q
      have hl := hi.locks q
      simp only [hc, reduceCtorEq, ite_false, Nat.add_zero] at hcount
      simp only [stepConsumer, hcount, Consumer.holding.injEq, Function.update_apply]
      by_cases hq : q = p
      · subst hq
        simp only [if_true]
        omega
      · simpa [hq, Ne.symm hq] using hl
  | holding p =>
    refine ⟨⟨x, y, hxy, hptr.of_free rfl rfl ?_⟩, ?_⟩
    · intro hf hfree
      exact hfree.update i (by simp) (by simp) _
    · intro q
      have hcount := tally_holds_update s i .idle q
      have hl := hi.locks q
      simp only [hc, reduceCtorEq, ite_false, Nat.add_zero, Consumer.holding.injEq] at hcount
      simp only [stepConsumer, Function.update_apply]
      by_cases hq : q = p
      · subst hq
        simp only [if_true] at hcount ⊢
        omega
      · simp only [Ne.symm hq, hq, if_false, Nat.add_zero] at hcount ⊢
        rw [hcount]
        exact hl

/-! ### Whole runs -/

theorem reachable_inv (hcard : Fintype.card ι < 2 ^ 32) {obj0 obj1 : Ptr} (hne : obj0 ≠ obj1)
    (h : Reachable step Timely (start obj0 obj1) s) : Inv s := by
  refine h.invariant (inv_start hne) ?_
  intro s a t hi hok hs
  cases a with
  | manage =>
    obtain rfl := Option.some.inj hs
    exact inv_stepManager hcard hi hok
  | consume i =>
    obtain rfl := Option.some.inj hs
    exact inv_stepConsumer hi i

/-- **The double buffer.** In every run of fewer than `2^32` consumers in which no consumer stands between
reading `_front` and raising the lock count of the object whose count `Update` finds at zero, no consumer
holds the object that `Update` has returned. -/
theorem double_buffer_exclusive (hcard : Fintype.card ι < 2 ^ 32) (obj0 obj1 : Ptr) (hne : obj0 ≠ obj1)
    (s : State ι) (h : Reachable step Timely (start obj0 obj1) s) (p : Ptr) (hp : s.manager = .modifying p) :
    ∀ i, s.consumers i ≠ .holding p := by
  obtain ⟨x, y, -, hptr⟩ := (reachable_inv hcard hne h).pointers
  rw [hp] at hptr
  obtain ⟨-, -, rfl, hfree⟩ := hptr
  exact fun i => (hfree i).2

end Consumer

/-! ### The window in `Lock` -/

/-- Two objects side by side. -/
def obj0 : Ptr := ⟨0x1000, 0⟩

/-- The second one. -/
def obj1 : Ptr := ⟨0x1040, 0⟩

/-- A consumer reads `_front`, a whole `Commit` and the next `Update` follow, and the consumer goes on. -/
def overtaken : List (Action (Fin 1)) :=
  [.manage, .manage, .manage, .consume 0, .manage, .manage, .manage, .manage, .manage, .manage, .manage, .manage, .manage,
    .consume 0]

theorem double_buffer_exclusive_fails :
    (∃ s, run step (start obj0 obj1) overtaken = some s ∧ s.manager = .modifying obj0 ∧
      s.consumers 0 = .holding obj0) ∧
    ¬ ∀ s : State (Fin 1), Reachable step anyStep (start obj0 obj1) s → ∀ p, s.manager = .modifying p →
      ∀ i, s.consumers i ≠ .holding p := by
  have hrun : ∃ s, run step (start obj0 obj1) overtaken = some s ∧ s.manager = .modifying obj0 ∧
      s.consumers 0 = .holding obj0 := ⟨_, rfl, rfl, rfl⟩
  refine ⟨hrun, fun hall => ?_⟩
  obtain ⟨s, hs, hm, hc⟩ := hrun
  exact hall s (reachable_of_run overtaken hs) obj0 hm 0 hc

/-- A consumer holds the front object while the back object is modified. -/
def inTime : List (Action (Fin 1)) := [.consume 0, .consume 0, .manage, .manage, .manage]

theorem double_buffer_exclusive_inTime :
    ∃ s, run step (start obj0 obj1) inTime = some s ∧ s.manager = .modifying obj1 ∧ s.consumers 0 = .holding obj0 ∧
      ∀ i, s.consumers i ≠ .holding obj1 :=
  ⟨_, rfl, rfl, rfl, double_buffer_exclusive (by decide) obj0 obj1 (by decide) _
    (Reachable.start.of_run inTime (by decide) rfl) obj1 rfl⟩

end Cpcf.Os.DoubleBuffer
