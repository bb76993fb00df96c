import Mathlib
import Cpcf.Lib.BitPack
import Cpcf.Lib.Run
import Cpcf.Lib.Threads
import Cpcf.Lib.Word

/-!
`ProducerConsumerQueue` of `os/multi_thread.h`: a ring of slots between any number of producers and
one consumer.

A producer raises `_Count` and gives up if the ring is full; otherwise it advances `_Tail`, which
gives it a slot of its own, writes the slot and sets the slot's flag in `_BufFin`. The consumer looks
at the flag of the slot at `_Head`, and gives a slot back by clearing the flag, advancing `_Head` and
lowering `_Count`, in this order. Every access to a shared variable is a step of its own; `_Head` is
written by the consumer alone, which reads it where it uses it.

Beside the machine's state stands the history of the run: the claims in the order in which `_Tail` was
advanced, each with its slot and, once its producer has finished, its item.
-/

namespace Cpcf.Os.ProducerConsumerQueue

open Cpcf.Lib.Run Cpcf.Lib.Threads Cpcf.Lib.BitPack Cpcf.Lib.Word

/-! ### The capacity -/

/-- `~x` of a `UINT`. -/
def complement (x : ℕ) : ℕ := 0xffffffff ^^^ x

/-- The loop of `Reset` that rounds the capacity up to a power of two. -/
def roundUp : ℕ → ℕ → ℕ → ℕ
  | 0, _, capacity => capacity
  | n + 1, mask, capacity =>
    if capacity &&& complement mask ≠ 0 then
      if capacity &&& mask ≠ 0 then ((capacity &&& complement mask) <<< 1) % 2 ^ 32
      else capacity &&& complement mask
    else roundUp n (mask >>> 1) capacity

/-- The number of slots after `Reset(capacity)`. -/
def resetSize (capacity : ℕ) : ℕ := if capacity ≠ 0 then roundUp 30 0x3fffffff (max 2 capacity) else 0

/-- What is above a mask of `j` bits. -/
theorem and_complement {x j : ℕ} (hx : x < 2 ^ 32) : x &&& complement (2 ^ j - 1) = 2 ^ j * (x / 2 ^ j) := by
  have hfull : 0xffffffff = 2 ^ 32 - 1 := by norm_num
  rw [complement, hfull, and_xor_mask hx]

theorem roundUp_eq {n x : ℕ} (hn : n ≤ 30) (h2 : 2 ≤ x) (hx : x < 2 ^ (n + 1)) (hx' : x ≤ 2 ^ 30) :
    ∃ k, 1 ≤ k ∧ k ≤ 30 ∧ roundUp n (2 ^ n - 1) x = 2 ^ k := by
  induction n with
  | zero => omega
  | succ n ih =>
    have hlt : x < 2 ^ 32 := by omega
    have hmask : (2 ^ (n + 1) - 1) >>> 1 = 2 ^ n - 1 := by
      have : 0 < 2 ^ n := by positivity
      rw [Nat.shiftRight_eq_div_pow, pow_succ]
      omega
    rw [roundUp, and_complement hlt, Nat.and_two_pow_sub_one_eq_mod, hmask]
    rcases Nat.lt_or_ge x (2 ^ (n + 1)) with hsmall | hbig
    · rw [Nat.div_eq_of_lt hsmall]
      simpa using ih (by omega) hsmall
    · -- `x` lies between this power of two and the next
      have hdiv : x / 2 ^ (n + 1) = 1 := by
        refine Nat.div_eq_of_lt_le (by omega) ?_
        rw [pow_succ] at hx
        omega
      have hne : 2 ^ (n + 1) * 1 ≠ 0 := by positivity
      rw [hdiv, if_pos hne, Nat.mul_one]
      by_cases hmod : x % 2 ^ (n + 1) = 0
      · exact ⟨n + 1, by omega, hn, by simp [hmod]⟩
      · have hle : n + 1 ≤ 29 := by
          by_contra hge
          obtain rfl : n = 29 := by omega
          have : x = 2 ^ 30 := by omega
          exact hmod (by rw [this]; rfl)
        refine ⟨n + 2, by omega, by omega, ?_⟩
        rw [if_pos hmod, Nat.shiftLeft_eq, ← pow_succ]
        refine Nat.mod_eq_of_lt ?_
        exact Nat.pow_lt_pow_right (by norm_num) (by omega)

/-- The ring has a power of two of slots. -/
theorem resetSize_eq {capacity : ℕ} (h1 : 1 ≤ capacity) (h : capacity ≤ 2 ^ 30) :
    ∃ k, 1 ≤ k ∧ k ≤ 30 ∧ resetSize capacity = 2 ^ k := by
  rw [resetSize, if_pos (by omega)]
  exact roundUp_eq le_rfl (le_max_left _ _) (by omega) (by omega)

/-! ### The machine -/

variable {ι T : Type}

/-- Where a producer stands. -/
inductive Producer
  | idle
  /-- `_Count` was raised above the size. -/
  | failing
  /-- There is room: `_Tail` comes next. -/
  | admitted
  /-- `Produce_Begin` has returned the slot of the claim number `n`, which is being written. -/
  | writing (n slot : ℕ)
deriving DecidableEq

/-- Where the consumer stands. -/
inductive Consumer
  | idle
  /-- `_SizeInConsumerView` has read `_Head`. -/
  | headRead (h : ℕ)
  /-- The size was not zero: the flag comes next. -/
  | nonEmpty
  /-- `Head` has returned the slot. -/
  | holding (slot : ℕ)
  /-- `Consume` has cleared the flag. -/
  | cleared
  /-- `Consume` has advanced `_Head`. -/
  | advanced
deriving DecidableEq

/-- The queue, its threads and the history. -/
structure State (ι T : Type) where
  size : ℕ
  buf : ℕ → T
  bufFin : ℕ → Bool
  count : ℤ
  head : ℕ
  tail : ℕ
  producers : ι → Producer
  consumer : Consumer
  /-- How many claims there are: how often `_Tail` was advanced. -/
  claimed : ℕ
  /-- The slot of each claim. -/
  slot : ℕ → ℕ
  /-- The item of each claim whose producer has finished. -/
  item : ℕ → Option T
  /-- How many slots were given back. -/
  consumed : ℕ
  /-- The items `Consume` was called on. -/
  received : List T

/-- One step of one thread; a producer that has a slot may also write to it, and a consumer that has one
may call `Head` again. -/
inductive Action (ι T : Type)
  | produce (i : ι)
  | write (i : ι) (x : T)
  | consume
  | lookAgain

/-- `_SizeInConsumerView`, for the values read. -/
def sizeInConsumerView (size h t : ℕ) : ℕ := if t ≥ h then t - h else (size + t + 2 ^ 32 - h) % 2 ^ 32

/-- The next step of the producer `i`. -/
def stepProducer [DecidableEq ι] (s : State ι T) (i : ι) : Producer → State ι T
  | .idle =>
    -- `INT c = os::AtomicIncrement(&_Count)`
    let c := (s.count + 1).bmod (2 ^ 32)
    { s with
      count := c
      producers := Function.update s.producers i (if c > s.size then .failing else .admitted) }
  | .failing =>
    { s with count := (s.count - 1).bmod (2 ^ 32), producers := Function.update s.producers i .idle }
  | .admitted =>
    let new_tail := (s.tail + 1) % 2 ^ 32
    let pos := ((new_tail + (2 ^ 32 - 1)) % 2 ^ 32) &&& (s.size - 1)
    { s with
      tail := new_tail
      producers := Function.update s.producers i (.writing s.claimed pos)
      claimed := s.claimed + 1
      slot := Function.update s.slot s.claimed pos }
  | .writing n pos =>
    { s with
      bufFin := Function.update s.bufFin pos true
      producers := Function.update s.producers i .idle
      item := Function.update s.item n (some (s.buf pos)) }

/-- The next step of the consumer, which calls `Consume` when `Head` has returned an item. -/
def stepConsumer (s : State ι T) : Consumer → State ι T
  | .idle => { s with consumer := .headRead s.head }
  | .headRead h => { s with consumer := if sizeInConsumerView s.size h s.tail = 0 then .idle else .nonEmpty }
  | .nonEmpty =>
    let pos := s.head &&& (s.size - 1)
    { s with consumer := if s.bufFin pos then .holding pos else .idle }
  | .holding _ =>
    let pos := s.head &&& (s.size - 1)
    { s with consumer := .cleared, bufFin := Function.update s.bufFin pos false, received := s.received ++ [s.buf pos] }
  | .cleared => { s with consumer := .advanced, head := (s.head + 1) % 2 ^ 32, consumed := s.consumed + 1 }
  | .advanced => { s with consumer := .idle, count := (s.count - 1).bmod (2 ^ 32) }

/-- A write to the slot a producer has. -/
def writeSlot (s : State ι T) (x : T) : Producer → Option (State ι T)
  | .writing _ pos => some { s with buf := Function.update s.buf pos x }
  | _ => none

/-- The consumer does not call `Consume` yet. -/
def lookAgain (s : State ι T) : Consumer → Option (State ι T)
  | .holding _ => some { s with consumer := .idle }
  | _ => none

/-- A step of the queue. -/
def step [DecidableEq ι] (s : State ι T) : Action ι T → Option (State ι T)
  | .produce i => some (stepProducer s i (s.producers i))
  | .write i x => writeSlot s x (s.producers i)
  | .consume => some (stepConsumer s s.consumer)
  | .lookAgain => lookAgain s s.consumer

/-- The queue after `Reset(capacity)`. -/
def start (capacity : ℕ) (buf : ℕ → T) : State ι T where
  size := resetSize capacity
  buf := buf
  bufFin := fun _ => false
  count := 0
  head := 0
  tail := 0
  producers := fun _ => .idle
  consumer := .idle
  claimed := 0
  slot := fun _ => 0
  item := fun _ => none
  consumed := 0
  received := []

/-! ### The invariant -/

/-- Is a producer admitted and without a slot yet? -/
def isAdmitted (p : Producer) : Bool := p = .admitted

/-- Has a producer raised the count in vain? -/
def isFailing (p : Producer) : Bool := p = .failing

/-- Has the consumer advanced `_Head` and not yet lowered `_Count`? -/
def Consumer.late (c : Consumer) : ℕ := if c = .advanced then 1 else 0

/-- Has the consumer taken the item at `_Head`, which it has not advanced yet? -/
def Consumer.ahead (c : Consumer) : ℕ := if c = .cleared then 1 else 0

/-- What is known at each place of the consumer. -/
def ConsumerOk (s : State ι T) : Consumer → Prop
  | .idle => True
  | .headRead h => h = s.head
  | .nonEmpty => s.consumed < s.claimed
  | .holding pos => pos = s.consumed % s.size ∧ (s.item s.consumed).isSome
  | .cleared => (s.item s.consumed).isSome
  | .advanced => True

section Inv

variable [Fintype ι]

/-- The counters count what they are for, and the flags tell which items are complete. -/
structure Inv (s : State ι T) : Prop where
  size_eq : ∃ k, 1 ≤ k ∧ k ≤ 30 ∧ s.size = 2 ^ k
  head_eq : s.head = s.consumed % 2 ^ 32
  tail_eq : s.tail = s.claimed % 2 ^ 32
  count_eq : s.count = (s.claimed : ℤ) - s.consumed + tally s.producers isAdmitted + tally s.producers isFailing +
    s.consumer.late
  /-- Everything admitted has room. -/
  room : s.claimed + tally s.producers isAdmitted + s.consumer.late ≤ s.consumed + s.size
  slots : ∀ n < s.claimed, s.slot n = n % s.size
  items_lt : ∀ n, (s.item n).isSome → n < s.claimed
  done : ∀ n < s.consumed, (s.item n).isSome
  /-- Every slot is the slot of one number from `consumed` on. -/
  flags : ∀ n, s.consumed ≤ n → n < s.consumed + s.size →
    (s.bufFin (n % s.size) = true ↔ (s.item n).isSome ∧ s.consumed + s.consumer.ahead ≤ n)
  cells : ∀ n x, s.consumed ≤ n → s.item n = some x → s.buf (n % s.size) = x
  received : s.received.map some = (List.range (s.consumed + s.consumer.ahead)).map s.item
  writers : ∀ i n pos, s.producers i = .writing n pos → n < s.claimed ∧ pos = n % s.size ∧ s.item n = none
  distinct : ∀ i j n pos pos', s.producers i = .writing n pos → s.producers j = .writing n pos' → i = j
  consumer : ConsumerOk s s.consumer

theorem inv_start {capacity : ℕ} (h1 : 1 ≤ capacity) (hcap : capacity ≤ 2 ^ 30) (buf : ℕ → T) :
    Inv (start (ι := ι) capacity buf) where
  size_eq := resetSize_eq h1 hcap
  head_eq := rfl
  tail_eq := rfl
  count_eq := by
    have h1 : tally (fun _ : ι => Producer.idle) isAdmitted = 0 := tally_eq_zero.mpr fun _ => rfl
    have h2 : tally (fun _ : ι => Producer.idle) isFailing = 0 := tally_eq_zero.mpr fun _ => rfl
    simp [start, h1, h2, Consumer.late]
  room := by
    have h1 : tally (fun _ : ι => Producer.idle) isAdmitted = 0 := tally_eq_zero.mpr fun _ => rfl
    simp [start, h1, Consumer.late]
  slots n hn := absurd hn (by simp [start])
  items_lt n hn := absurd hn (by simp [start])
  done n hn := absurd hn (by simp [start])
  flags n _ _ := by simp [start]
  cells n x _ hx := absurd hx (by simp [start])
  received := rfl
  writers i n pos h := by cases h
  distinct i j n pos pos' h := by cases h
  consumer := trivial

/-! #### What follows from it -/

section Facts

variable {s : State ι T}

theorem Inv.size_pos (hi : Inv s) : 0 < s.size := by
  obtain ⟨k, -, -, hk⟩ := hi.size_eq
  rw [hk]
  positivity

theorem Inv.size_le (hi : Inv s) : s.size ≤ 2 ^ 30 := by
  obtain ⟨k, -, hk30, hk⟩ := hi.size_eq
  rw [hk]
  exact Nat.pow_le_pow_right (by norm_num) hk30

/-- A slot is found from a counter that may have turned over. -/
theorem Inv.slot_eq (hi : Inv s) (n : ℕ) : (n % 2 ^ 32) &&& (s.size - 1) = n % s.size := by
  obtain ⟨k, -, hk30, hk⟩ := hi.size_eq
  rw [hk, Nat.and_two_pow_sub_one_eq_mod]
  exact Nat.mod_mod_of_dvd n (pow_dvd_pow 2 (by omega))

theorem Inv.consumed_le (hi : Inv s) : s.consumed ≤ s.claimed := by
  by_contra hlt
  exact absurd (hi.items_lt _ (hi.done s.claimed (by omega))) (lt_irrefl _)

/-- Numbers within one turn of the ring have different slots. -/
theorem mod_inj {size c m n : ℕ} (hm : c ≤ m) (hm' : m < c + size) (hn : c ≤ n) (hn' : n < c + size)
    (h : m % size = n % size) : m = n := by
  rcases Nat.le_total m n with hle | hle
  · have hz := Nat.sub_mod_eq_zero_of_mod_eq h.symm
    rw [Nat.mod_eq_of_lt (by omega)] at hz
    omega
  · have hz := Nat.sub_mod_eq_zero_of_mod_eq h
    rw [Nat.mod_eq_of_lt (by omega)] at hz
    omega

theorem Inv.lt_turn (hi : Inv s) {n : ℕ} (hn : n < s.claimed) : n < s.consumed + s.size := by
  have := hi.room
  omega

/-- A claim whose producer has not finished is not given back. -/
theorem Inv.pending (hi : Inv s) {n : ℕ} (hn : s.item n = none) : s.consumed ≤ n := by
  by_contra hlt
  have := hi.done n (by omega)
  simp [hn] at this

end Facts

/-! #### The steps of a producer -/

section Producer

variable [DecidableEq ι] {s : State ι T} {i : ι}

theorem tally_admitted (s : State ι T) (i : ι) (p : Producer) :
    tally (Function.update s.producers i p) isAdmitted + (if s.producers i = .admitted then 1 else 0) =
      tally s.producers isAdmitted + (if p = .admitted then 1 else 0) := by
  simpa [isAdmitted] using tally_update s.producers isAdmitted i p

theorem tally_failing (s : State ι T) (i : ι) (p : Producer) :
    tally (Function.update s.producers i p) isFailing + (if s.producers i = .failing then 1 else 0) =
      tally s.producers isFailing + (if p = .failing then 1 else 0) := by
  simpa [isFailing] using tally_update s.producers isFailing i p

omit [Fintype ι] in
/-- The writers after a producer has gone to a place where it does not write. -/
theorem writing_update {p : Producer} (hp : ∀ n pos, p ≠ .writing n pos) {j : ι} {n pos : ℕ}
    (h : Function.update s.producers i p j = .writing n pos) : j ≠ i ∧ s.producers j = .writing n pos := by
  by_cases hj : j = i
  · subst hj
    rw [Function.update_self] at h
    exact absurd h (hp n pos)
  · rw [Function.update_of_ne hj] at h
    exact ⟨hj, h⟩

/-- The count is raised: there is room, or it will be lowered again. -/
theorem inv_enter (hcard : Fintype.card ι < 2 ^ 30) (hi : Inv s) (hp : s.producers i = .idle) :
    Inv (stepProducer s i .idle) := by
  have hroom := hi.room
  have hcount := hi.count_eq
  have hsize := hi.size_le
  have hcle := hi.consumed_le
  have hlt : tally s.producers isFailing < Fintype.card ι := tally_lt_card (i := i) (by rw [hp]; rfl)
  have hc : (s.count + 1).bmod (2 ^ 32) = s.count + 1 := bmod_int (by omega) (by omega)
  have hA := tally_admitted s i (if s.count + 1 > s.size then .failing else .admitted)
  have hF := tally_failing s i (if s.count + 1 > s.size then .failing else .admitted)
  simp only [stepProducer, hc]
  split at hA <;> rename_i hfull <;>
    simp only [hp, hfull, if_true, if_false, reduceCtorEq, Nat.add_zero] at hA hF ⊢
  all_goals
    refine { hi with count_eq := ?_, room := ?_, writers := ?_, distinct := ?_ }
    · simp only [hA, hF]
      push_cast
      omega
    · simp only [hA]
      omega
    · intro j n pos h
      exact hi.writers j n pos (writing_update (by simp) h).2
    · intro j j' n pos pos' h h'
      exact hi.distinct j j' n pos pos' (writing_update (by simp) h).2 (writing_update (by simp) h').2

/-- A producer that found no room lowers the count again. -/
theorem inv_giveUp (hcard : Fintype.card ι < 2 ^ 30) (hi : Inv s) (hp : s.producers i = .failing) :
    Inv (stepProducer s i .failing) := by
  have hroom := hi.room
  have hcount := hi.count_eq
  have hsize := hi.size_le
  have hcle := hi.consumed_le
  have hle : tally s.producers isFailing ≤ Fintype.card ι := tally_le_card _ _
  have hA := tally_admitted s i .idle
  have hF := tally_failing s i .idle
  simp only [hp, if_true, if_false, reduceCtorEq, Nat.add_zero] at hA hF
  have hc : (s.count - 1).bmod (2 ^ 32) = s.count - 1 := bmod_int (by omega) (by omega)
  simp only [stepProducer, hc]
  refine { hi with count_eq := ?_, room := ?_, writers := ?_, distinct := ?_ }
  · simp only [hA, ← hF, hcount]
    push_cast
    omega
  · simpa only [hA] using hroom
  · intro j n pos h
    exact hi.writers j n pos (writing_update (by simp) h).2
  · intro j j' n pos pos' h h'
    exact hi.distinct j j' n pos pos' (writing_update (by simp) h).2 (writing_update (by simp) h').2

omit [DecidableEq ι] in
/-- The slot a new claim gets. -/
theorem Inv.claim_slot (hi : Inv s) :
    (((s.tail + 1) % 2 ^ 32 + (2 ^ 32 - 1)) % 2 ^ 32) &&& (s.size - 1) = s.claimed % s.size := by
  have hback : ((s.claimed % 2 ^ 32 + 1) % 2 ^ 32 + (2 ^ 32 - 1)) % 2 ^ 32 = s.claimed % 2 ^ 32 := by omega
  rw [hi.tail_eq, hback, hi.slot_eq]

omit [DecidableEq ι] in
theorem Inv.item_claimed (hi : Inv s) : s.item s.claimed = none := by
  cases h : s.item s.claimed with
  | none => rfl
  | some x => exact absurd (hi.items_lt s.claimed (by simp [h])) (lt_irrefl _)

/-- An admitted producer advances the tail: the slot of the new claim is free. -/
theorem inv_claim (hi : Inv s) (hp : s.producers i = .admitted) : Inv (stepProducer s i .admitted) := by
  have hroom := hi.room
  have hcount := hi.count_eq
  have hnone := hi.item_claimed
  have hA := tally_admitted s i (.writing s.claimed (s.claimed % s.size))
  have hF := tally_failing s i (.writing s.claimed (s.claimed % s.size))
  simp only [hp, if_true, if_false, reduceCtorEq, Nat.add_zero] at hA hF
  simp only [stepProducer, hi.claim_slot]
  refine { hi with tail_eq := ?_, count_eq := ?_, room := ?_, slots := ?_, items_lt := ?_, writers := ?_,
                   distinct := ?_, consumer := ?_ }
  · simp only [hi.tail_eq]
    omega
  · simp only [hF, hcount, ← hA]
    push_cast
    omega
  · simp only
    omega
  · intro n hn
    rcases Nat.lt_succ_iff_lt_or_eq.mp hn with hlt | rfl
    · simp only [Function.update_of_ne hlt.ne, hi.slots n hlt]
    · simp only [Function.update_self]
  · intro n hn
    exact (hi.items_lt n hn).trans (Nat.lt_succ_self _)
  · intro j n pos h
    by_cases hj : j = i
    · subst hj
      simp only [Function.update_self, Producer.writing.injEq] at h
      obtain ⟨rfl, rfl⟩ := h
      exact ⟨Nat.lt_succ_self _, rfl, hnone⟩
    · simp only [Function.update_of_ne hj] at h
      obtain ⟨hlt, hpos, hno⟩ := hi.writers j n pos h
      exact ⟨hlt.trans (Nat.lt_succ_self _), hpos, hno⟩
  · -- no claim made before has the number of the new one
    intro j j' n pos pos' h h'
    by_cases hj : j = i <;> by_cases hj' : j' = i
    · rw [hj, hj']
    · subst hj
      simp only [Function.update_self, Producer.writing.injEq] at h
      simp only [Function.update_of_ne hj'] at h'
      have := (hi.writers j' n pos' h').1
      omega
    · subst hj'
      simp only [Function.update_self, Producer.writing.injEq] at h'
      simp only [Function.update_of_ne hj] at h
      have := (hi.writers j n pos h).1
      omega
    · simp only [Function.update_of_ne hj] at h
      simp only [Function.update_of_ne hj'] at h'
      exact hi.distinct j j' n pos pos' h h'
  · have hc := hi.consumer
    simp only
    cases hcons : s.consumer with
    | nonEmpty =>
      rw [hcons] at hc
      exact Nat.lt_succ_of_lt hc
    | _ =>
      rw [hcons] at hc
      exact hc

omit [DecidableEq ι] in
/-- A claim being written lies in the present turn of the ring, and was not taken. -/
theorem Inv.writing_range (hi : Inv s) {n pos : ℕ} (h : s.producers i = .writing n pos) :
    s.consumed + s.consumer.ahead ≤ n ∧ n < s.consumed + s.size := by
  obtain ⟨hlt, -, hnone⟩ := hi.writers i n pos h
  refine ⟨?_, hi.lt_turn hlt⟩
  have hle := hi.pending hnone
  rw [Consumer.ahead]
  split
  · rename_i hc
    -- the item at `_Head` is there, so `n` is not the claim that was taken
    have hsome := hi.consumer
    rw [hc] at hsome
    have hne : n ≠ s.consumed := by
      rintro rfl
      rw [ConsumerOk, hnone] at hsome
      cases hsome
    omega
  · omega

/-- A producer finishes: it sets the flag of its slot. -/
theorem inv_finish (hi : Inv s) {n pos : ℕ} (hp : s.producers i = .writing n pos) :
    Inv (stepProducer s i (.writing n pos)) := by
  obtain ⟨hlt, rfl, hnone⟩ := hi.writers i n pos hp
  obtain ⟨hlo, hhi⟩ := hi.writing_range hp
  have hA := tally_admitted s i .idle
  have hF := tally_failing s i .idle
  simp only [hp, if_false, reduceCtorEq, Nat.add_zero] at hA hF
  simp only [stepProducer]
  have hsome : ∀ m, (s.item m).isSome → (Function.update s.item n (some (s.buf (n % s.size))) m).isSome := by
    intro m hm
    by_cases h : m = n
    · subst h
      simp
    · rwa [Function.update_of_ne h]
  refine { hi with count_eq := ?_, room := ?_, items_lt := ?_, done := ?_, flags := ?_, cells := ?_, received := ?_,
                   writers := ?_, distinct := ?_, consumer := ?_ }
  · simp only [hA, hF, hi.count_eq]
  · simpa only [hA] using hi.room
  · intro m hm
    by_cases h : m = n
    · exact h ▸ hlt
    · simp only [Function.update_of_ne h] at hm
      exact hi.items_lt m hm
  · exact fun m hm => hsome m (hi.done m hm)
  · intro m (hm : s.consumed ≤ m) (hm' : m < s.consumed + s.size)
    by_cases h : m = n
    · subst h
      simp only [Function.update_self, Option.isSome_some, true_and, true_iff]
      exact hlo
    · have hne : m % s.size ≠ n % s.size := fun heq => h (mod_inj hm hm' (by omega) hhi heq)
      simp only [Function.update_of_ne h, Function.update_of_ne hne]
      exact hi.flags m hm hm'
  · intro m x hm hx
    by_cases h : m = n
    · subst h
      simpa using hx
    · simp only [Function.update_of_ne h] at hx
      exact hi.cells m x hm hx
  · rw [hi.received]
    refine List.map_congr_left ?_
    intro m hm
    have hne : m ≠ n := by
      have := List.mem_range.mp hm
      omega
    exact (Function.update_of_ne hne _ _).symm
  · intro j m pos' h
    obtain ⟨hj, h⟩ := writing_update (by simp) h
    obtain ⟨hm, hpos, hno⟩ := hi.writers j m pos' h
    have hne : m ≠ n := fun heq => hj (hi.distinct j i n pos' _ (heq ▸ h) hp)
    exact ⟨hm, hpos, by simpa only [Function.update_of_ne hne] using hno⟩
  · intro j j' m pos' pos'' h h'
    exact hi.distinct j j' m pos' pos'' (writing_update (by simp) h).2 (writing_update (by simp) h').2
  · have hc := hi.consumer
    simp only
    cases hcons : s.consumer with
    | holding pos =>
      rw [hcons] at hc
      exact ⟨hc.1, hsome _ hc.2⟩
    | cleared =>
      rw [hcons] at hc
      exact hsome _ hc
    | _ =>
      rw [hcons] at hc
      exact hc

theorem inv_stepProducer (hcard : Fintype.card ι < 2 ^ 30) (hi : Inv s) :
    Inv (stepProducer s i (s.producers i)) := by
  cases hp : s.producers i with
  | idle => exact inv_enter hcard hi hp
  | failing => exact inv_giveUp hcard hi hp
  | admitted => exact inv_claim hi hp
  | writing n pos => exact inv_finish hi hp

omit [DecidableEq ι] in
/-- A producer writes to its slot, which holds no finished item. -/
theorem inv_writeSlot (hi : Inv s) {x : T} {t : State ι T} (h : writeSlot s x (s.producers i) = some t) : Inv t := by
  cases hp : s.producers i with
  | writing n pos =>
    rw [hp] at h
    obtain rfl := Option.some.inj h
    obtain ⟨hlt, rfl, hnone⟩ := hi.writers i n pos hp
    obtain ⟨hlo, hhi⟩ := hi.writing_range hp
    refine { hi with cells := ?_ }
    intro m y (hm : s.consumed ≤ m) (hy : s.item m = some y)
    have hne : m % s.size ≠ n % s.size := by
      intro heq
      have hm' := hi.lt_turn (hi.items_lt m (by simp [hy]))
      obtain rfl := mod_inj hm hm' (by omega) hhi heq
      rw [hnone] at hy
      cases hy
    simp only [Function.update_of_ne hne]
    exact hi.cells m y hm hy
  | _ =>
    rw [hp] at h
    cases h

end Producer

/-! #### The steps of the consumer -/

section Consumer

variable {s : State ι T}

/-- The consumer goes to a place where it has changed nothing. -/
theorem Inv.move (hi : Inv s) {c : Consumer} (hlate : c.late = s.consumer.late) (hahead : c.ahead = s.consumer.ahead)
    (hc : ConsumerOk s c) : Inv { s with consumer := c } := by
  refine { hi with count_eq := ?_, room := ?_, flags := ?_, received := ?_, consumer := ?_ }
  · simpa only [hlate] using hi.count_eq
  · simpa only [hlate] using hi.room
  · simpa only [hahead] using hi.flags
  · simpa only [hahead] using hi.received
  · cases c <;> exact hc

/-- The size in the consumer's view is zero only when nothing is claimed. -/
theorem Inv.sizeInConsumerView_eq_zero (hi : Inv s) :
    sizeInConsumerView s.size s.head s.tail = 0 ↔ s.consumed = s.claimed := by
  have hroom := hi.room
  have hsize := hi.size_le
  have hpos := hi.size_pos
  have hle := hi.consumed_le
  rw [sizeInConsumerView, hi.head_eq, hi.tail_eq]
  split <;> constructor <;> intro h <;> omega

/-- The flag at the head says whether the oldest claim that was not given back is finished. -/
theorem Inv.headFlag (hi : Inv s) (ha : s.consumer.ahead = 0) :
    s.bufFin (s.head &&& (s.size - 1)) = true ↔ (s.item s.consumed).isSome := by
  have hpos := hi.size_pos
  rw [hi.head_eq, hi.slot_eq, hi.flags s.consumed le_rfl (by omega), ha]
  simp

theorem inv_take (hi : Inv s) {pos : ℕ} (hc : s.consumer = .holding pos) : Inv (stepConsumer s (.holding pos)) := by
  have hpos := hi.size_pos
  have hok := hi.consumer
  have hahead : s.consumer.ahead = 0 := by rw [hc]; rfl
  have hlate : s.consumer.late = 0 := by rw [hc]; rfl
  rw [hc] at hok
  obtain ⟨-, hsome⟩ := hok
  obtain ⟨x, hx⟩ := Option.isSome_iff_exists.mp hsome
  have hcell := hi.cells _ x le_rfl hx
  have hcount := hi.count_eq
  have hroom := hi.room
  rw [hlate] at hcount hroom
  have hslot : s.head &&& (s.size - 1) = s.consumed % s.size := by rw [hi.head_eq, hi.slot_eq]
  simp only [stepConsumer, hslot, hcell]
  refine { hi with count_eq := hcount, room := hroom, flags := ?_, received := ?_,
                   consumer := hsome }
  · intro n (hn : s.consumed ≤ n) (hn' : n < s.consumed + s.size)
    by_cases h : n = s.consumed
    · subst h
      simp [Consumer.ahead]
    · have hne : n % s.size ≠ s.consumed % s.size := fun heq => h (mod_inj hn hn' le_rfl (by omega) heq)
      simp only [Function.update_of_ne hne, hi.flags n hn hn', hahead]
      simp only [Consumer.ahead, if_true]
      constructor
      · exact fun hm => ⟨hm.1, by omega⟩
      · exact fun hm => ⟨hm.1, by omega⟩
  · have hrec := hi.received
    rw [hahead, Nat.add_zero] at hrec
    simp [Consumer.ahead, List.range_succ, hrec, hx]

theorem inv_advance (hi : Inv s) (hc : s.consumer = .cleared) : Inv (stepConsumer s .cleared) := by
  have hpos := hi.size_pos
  have hahead : s.consumer.ahead = 1 := by rw [hc]; rfl
  have hlate : s.consumer.late = 0 := by rw [hc]; rfl
  have hsome : (s.item s.consumed).isSome := by
    have hok := hi.consumer
    rwa [hc] at hok
  have hcount := hi.count_eq
  have hroom := hi.room
  have hlt := hi.items_lt _ hsome
  rw [hlate] at hcount hroom
  simp only [stepConsumer]
  refine { hi with head_eq := ?_, count_eq := ?_, room := ?_, done := ?_, flags := ?_, cells := ?_, received := ?_,
                   consumer := trivial }
  · simp only [hi.head_eq]
    omega
  · simp only [Consumer.late, if_true, hcount]
    push_cast
    omega
  · simp only [Consumer.late, if_true]
    omega
  · intro n hn
    rcases Nat.lt_succ_iff_lt_or_eq.mp hn with h | rfl
    · exact hi.done n h
    · exact hsome
  · intro n (hn : s.consumed + 1 ≤ n) (hn' : n < s.consumed + 1 + s.size)
    have hz : Consumer.ahead .advanced = 0 := rfl
    simp only [hz, Nat.add_zero]
    rcases Nat.lt_or_ge n (s.consumed + s.size) with hin | hout
    · rw [hi.flags n (by omega) hin, hahead]
    · -- the slot given back: it is free, and no claim has its next number yet
      obtain rfl : n = s.consumed + s.size := by omega
      have hmod : (s.consumed + s.size) % s.size = s.consumed % s.size := Nat.add_mod_right _ _
      rw [hmod, hi.flags s.consumed le_rfl (by omega), hahead]
      constructor
      · intro hm
        omega
      · intro hm
        have := hi.items_lt _ hm.1
        omega
  · intro n x hn hx
    exact hi.cells n x (Nat.le_of_succ_le hn) hx
  · have hrec := hi.received
    rw [hahead] at hrec
    exact hrec

theorem inv_release (hcard : Fintype.card ι < 2 ^ 30) (hi : Inv s) (hc : s.consumer = .advanced) :
    Inv (stepConsumer s .advanced) := by
  have hlate : s.consumer.late = 1 := by rw [hc]; rfl
  have hahead : s.consumer.ahead = 0 := by rw [hc]; rfl
  have hcount := hi.count_eq
  have hroom := hi.room
  have hsize := hi.size_le
  have hle := hi.consumed_le
  have hF : tally s.producers isFailing ≤ Fintype.card ι := tally_le_card _ _
  rw [hlate] at hcount hroom
  have hb : (s.count - 1).bmod (2 ^ 32) = s.count - 1 := bmod_int (by omega) (by omega)
  simp only [stepConsumer, hb]
  refine { hi with count_eq := ?_, room := ?_, flags := ?_, received := ?_, consumer := trivial }
  · simp only [Consumer.late, reduceCtorEq, if_false]
    omega
  · simp only [Consumer.late, reduceCtorEq, if_false]
    omega
  · have hflags := hi.flags
    rw [hahead] at hflags
    exact hflags
  · have hrec := hi.received
    rw [hahead] at hrec
    exact hrec

theorem inv_stepConsumer (hcard : Fintype.card ι < 2 ^ 30) (hi : Inv s) : Inv (stepConsumer s s.consumer) := by
  have hmove := fun c => hi.move (c := c)
  cases hc : s.consumer with
  | idle =>
    rw [hc] at hmove
    exact hmove _ rfl rfl rfl
  | headRead h =>
    have hok := hi.consumer
    rw [hc] at hmove hok
    rw [ConsumerOk] at hok
    simp only [stepConsumer, hok, hi.sizeInConsumerView_eq_zero]
    split
    · exact hmove _ rfl rfl trivial
    · rename_i hne
      have := hi.consumed_le
      exact hmove _ rfl rfl (by rw [ConsumerOk]; omega)
  | nonEmpty =>
    have hflag := hi.headFlag (by rw [hc]; rfl)
    rw [hc] at hmove
    simp only [stepConsumer]
    split
    · rename_i hset
      refine hmove _ rfl rfl ⟨?_, hflag.mp hset⟩
      rw [hi.head_eq, hi.slot_eq]
    · exact hmove _ rfl rfl trivial
  | holding pos => exact inv_take hi hc
  | cleared => exact inv_advance hi hc
  | advanced => exact inv_release hcard hi hc

theorem inv_lookAgain (hi : Inv s) {t : State ι T} (h : lookAgain s s.consumer = some t) : Inv t := by
  have hmove := fun c => hi.move (c := c)
  cases hc : s.consumer with
  | holding pos =>
    rw [hc] at h hmove
    obtain rfl := Option.some.inj h
    exact hmove _ rfl rfl trivial
  | _ =>
    rw [hc] at h
    cases h

end Consumer

/-! ### Runs -/

variable [DecidableEq ι] {s : State ι T}

theorem inv_step (hcard : Fintype.card ι < 2 ^ 30) {t : State ι T} {a : Action ι T} (hi : Inv s)
    (h : step s a = some t) : Inv t := by
  cases a with
  | produce i =>
    obtain rfl := Option.some.inj h
    exact inv_stepProducer hcard hi
  | write i x => exact inv_writeSlot hi h
  | consume =>
    obtain rfl := Option.some.inj h
    exact inv_stepConsumer hcard hi
  | lookAgain => exact inv_lookAgain hi h

theorem reachable_inv (hcard : Fintype.card ι < 2 ^ 30) {capacity : ℕ} (h1 : 1 ≤ capacity) (hcap : capacity ≤ 2 ^ 30)
    {buf : ℕ → T} (h : Reachable step anyStep (start capacity buf) s) : Inv s :=
  h.invariant (inv_start h1 hcap buf) fun _ _ _ hi _ hst => inv_step hcard hi hst

/-- Is a claim not given back yet? -/
def State.Pending (s : State ι T) (n : ℕ) : Prop := s.consumed ≤ n ∧ n < s.claimed

omit [DecidableEq ι] in
theorem Inv.pending_slot (hi : Inv s) {n : ℕ} (hn : s.Pending n) : s.slot n = n % s.size := hi.slots n hn.2

omit [DecidableEq ι] in
/-- Two claims that were not given back have different slots. -/
theorem Inv.pending_slot_inj (hi : Inv s) {m n : ℕ} (hm : s.Pending m) (hn : s.Pending n)
    (h : s.slot m = s.slot n) : m = n := by
  rw [hi.pending_slot hm, hi.pending_slot hn] at h
  exact mod_inj hm.1 (hi.lt_turn hm.2) hn.1 (hi.lt_turn hn.2) h

omit [DecidableEq ι] in
/-- A producer writes to the slot of its claim, and the flag of the slot is clear. -/
theorem Inv.writer (hi : Inv s) {i : ι} {n pos : ℕ} (h : s.producers i = .writing n pos) :
    s.Pending n ∧ pos = s.slot n ∧ s.item n = none ∧ s.bufFin pos = false := by
  obtain ⟨hlt, hpos, hnone⟩ := hi.writers i n pos h
  have hpend : s.Pending n := ⟨hi.pending hnone, hlt⟩
  refine ⟨hpend, by rw [hpos, hi.pending_slot hpend], hnone, ?_⟩
  rw [← Bool.not_eq_true, hpos, hi.flags n hpend.1 (hi.lt_turn hlt), hnone]
  simp

omit [DecidableEq ι] in
/-- A finished item that was not taken stands in its slot. -/
theorem Inv.standing (hi : Inv s) {n : ℕ} {x : T} (hn : s.consumed + s.consumer.ahead ≤ n)
    (hx : s.item n = some x) : s.buf (s.slot n) = x ∧ s.bufFin (s.slot n) = true := by
  have hlt := hi.items_lt n (by simp [hx])
  have hpend : s.Pending n := ⟨by omega, hlt⟩
  rw [hi.pending_slot hpend]
  refine ⟨hi.cells n x hpend.1 hx, ?_⟩
  rw [hi.flags n hpend.1 (hi.lt_turn hlt)]
  exact ⟨by simp [hx], hn⟩

/-- **The lock-free queue.** In every state of every run: claims that were not given back have slots of
their own and a producer writes to the slot of its claim alone, whose flag is clear; `Head` returns the
slot of the oldest claim, whose producer has finished, and does not overlook it; what the consumer has
received are the items of the first claims, in the order in which the tail was advanced, and every other
finished item stands in its slot. -/
theorem pcqueue_safe (hcard : Fintype.card ι < 2 ^ 30) (capacity : ℕ) (h1 : 1 ≤ capacity) (hcap : capacity ≤ 2 ^ 30)
    (buf : ℕ → T) (s : State ι T) (h : Reachable step anyStep (start capacity buf) s) :
    (∀ m n, s.Pending m → s.Pending n → s.slot m = s.slot n → m = n) ∧
      (∀ i n pos, s.producers i = .writing n pos →
        s.Pending n ∧ pos = s.slot n ∧ s.item n = none ∧ s.bufFin pos = false ∧
          ∀ j m pos', s.producers j = .writing m pos' → j ≠ i → pos' ≠ pos) ∧
      (∀ pos, s.consumer = .holding pos →
        pos = s.slot s.consumed ∧ ∃ x, s.item s.consumed = some x ∧ s.buf pos = x) ∧
      ((s.item s.consumed).isSome →
        (∀ h, s.consumer = .headRead h → (stepConsumer s s.consumer).consumer = .nonEmpty) ∧
          (s.consumer = .nonEmpty → (stepConsumer s s.consumer).consumer = .holding (s.slot s.consumed))) ∧
      ∃ k, s.consumed ≤ k ∧ k ≤ s.consumed + 1 ∧ s.received.map some = (List.range k).map s.item ∧
        ∀ n x, k ≤ n → s.item n = some x → s.buf (s.slot n) = x ∧ s.bufFin (s.slot n) = true := by
  have hi := reachable_inv hcard h1 hcap h
  have hslot : ∀ x, s.item s.consumed = some x → s.slot s.consumed = s.consumed % s.size := by
    intro x hx
    exact hi.slots _ (hi.items_lt _ (by simp [hx]))
  refine ⟨fun m n hm hn => hi.pending_slot_inj hm hn, ?_, ?_, ?_, ?_⟩
  · intro i n pos hp
    obtain ⟨hpend, hpos, hnone, hflag⟩ := hi.writer hp
    refine ⟨hpend, hpos, hnone, hflag, ?_⟩
    rintro j m pos' hj hne rfl
    obtain ⟨hpend', hpos', -⟩ := hi.writer hj
    obtain rfl := hi.pending_slot_inj hpend hpend' (hpos.symm.trans hpos')
    exact hne (hi.distinct j i _ _ _ hj hp)
  · intro pos hc
    have hok := hi.consumer
    rw [hc] at hok
    obtain ⟨rfl, hsome⟩ := hok
    obtain ⟨x, hx⟩ := Option.isSome_iff_exists.mp hsome
    exact ⟨(hslot x hx).symm, x, hx, hi.cells _ x le_rfl hx⟩
  · intro hsome
    obtain ⟨x, hx⟩ := Option.isSome_iff_exists.mp hsome
    constructor
    · intro hd hc
      have hok := hi.consumer
      rw [hc] at hok
      rw [ConsumerOk] at hok
      have hne : s.consumed ≠ s.claimed := (hi.items_lt _ hsome).ne
      simp only [hc, stepConsumer, hok, hi.sizeInConsumerView_eq_zero, hne, if_false]
    · intro hc
      have hflag := (hi.headFlag (by rw [hc]; rfl)).mpr hsome
      simp only [hc, stepConsumer, hflag, if_true]
      rw [hi.head_eq, hi.slot_eq, hslot x hx]
  · refine ⟨s.consumed + s.consumer.ahead, Nat.le_add_right _ _, ?_, hi.received, ?_⟩
    · have : s.consumer.ahead ≤ 1 := by
        rw [Consumer.ahead]
        split <;> omega
      omega
    · exact fun n x hn hx => hi.standing hn hx

/-- Two producers claim the slots of a ring of two; the second finishes first. -/
def overtake : List (Action (Fin 2) ℕ) :=
  [.produce 0, .produce 1, .produce 0, .produce 1, .write 1 8, .produce 1, .consume, .consume, .consume, .write 0 7,
    .produce 0, .consume, .consume, .consume, .consume, .produce 0]

theorem pcqueue_safe_overtake :
    ∃ s, run step (start 1 fun _ => 0) overtake = some s ∧ s.size = 2 ∧ s.claimed = 2 ∧ s.received = [7] ∧
      s.producers 0 = .failing ∧ s.buf (s.slot 1) = 8 ∧
      ∃ k, s.consumed ≤ k ∧ k ≤ s.consumed + 1 ∧ s.received.map some = (List.range k).map s.item ∧
        ∀ n x, k ≤ n → s.item n = some x → s.buf (s.slot n) = x ∧ s.bufFin (s.slot n) = true :=
  ⟨_, rfl, rfl, rfl, rfl, rfl, rfl,
    (pcqueue_safe (by decide) 1 (by decide) (by decide) (fun _ => 0) _ (reachable_of_run overtake rfl)).2.2.2.2⟩

end Inv

end Cpcf.Os.ProducerConsumerQueue
