import Cpcf.Lib.BitPack
import Cpcf.Lib.Run

/-!
`DroppableQueue` of `os/multi_thread.h`: four slots between one producer and one consumer.

Both sides index the slots by counters of 32 bits that only their owner writes. Every access to a
counter is a step of its own, so that the other side may move between a test and the use of it. A
counter is read twice by its own side, once to compare and once to index, without changing in
between; of the two reads of a comparison only the one of the other side's counter matters.

The history of a run is kept beside the machine's state: what was produced, what became visible and
what the consumer has seen.
-/

namespace Cpcf.Os.DroppableQueue

open Cpcf.Lib.Run Cpcf.Lib.BitPack

variable {T : Type}

/-! ### The machine -/

/-- Where the producer stands. -/
inductive Producer
  | idle
  /-- `Produce_Begin` has returned the slot, which is being written. -/
  | writing (slot : ℕ)
  /-- `Produce_End` has read `_Head`. -/
  | headRead (h : ℕ)
  /-- The comparison was passed: `_Tail++` comes next. -/
  | bumping
  /-- `_Tail++` has read `_Tail`. -/
  | storing (t : ℕ)
deriving DecidableEq

/-- Where the consumer stands. -/
inductive Consumer (T : Type)
  | idle
  /-- `Consume_Begin` has read `_Head`. -/
  | headRead (h : ℕ)
  /-- The comparison was passed: `_Bufs[_Head&3]` comes next. -/
  | nonEmpty
  /-- `Consume_Begin` has returned the slot; `last` is what was read from it. -/
  | reading (slot : ℕ) (last : Option T)
  /-- `_Head++` has read `_Head`. -/
  | storing (h : ℕ) (last : Option T)

/-- What the consumer has read from the slot it holds. -/
def Consumer.last : Consumer T → Option T
  | .reading _ last => last
  | .storing _ last => last
  | _ => none

/-- The queue, the two threads and the history. -/
structure State (T : Type) where
  head : ℕ
  tail : ℕ
  bufs : ℕ → T
  producer : Producer
  consumer : Consumer T
  /-- The items handed to `Produce_End`. -/
  produced : List T
  /-- The items `_Tail++` made visible. -/
  visible : List T
  /-- How many items were given back by `Consume_End`. -/
  consumed : ℕ
  /-- What was read of these. -/
  seen : List T

/-- One step of one of the two threads. -/
inductive Action (T : Type)
  | produceBegin
  | write (x : T)
  | produceEndHead
  | produceEndTail
  | loadTail
  | storeTail
  | consumeHead
  | consumeTail
  | consumeSlot
  | read
  | loadHead
  | storeHead

/-- A step of the producer. -/
def stepProducer (s : State T) : Action T → Producer → Option (State T)
  | .produceBegin, .idle => some { s with producer := .writing (s.tail &&& 3) }
  | .write x, .writing slot => some { s with bufs := Function.update s.bufs slot x }
  -- the item is complete when `Produce_End` is called
  | .produceEndHead, .writing slot =>
    some { s with producer := .headRead s.head, produced := s.produced ++ [s.bufs slot] }
  | .produceEndTail, .headRead h =>
    some { s with producer := if h &&& 3 ≠ ((s.tail + 1) % 2 ^ 32) &&& 3 then .bumping else .idle }
  | .loadTail, .bumping => some { s with producer := .storing s.tail }
  | .storeTail, .storing t =>
    some { s with producer := .idle, tail := (t + 1) % 2 ^ 32, visible := s.visible ++ [s.bufs (t &&& 3)] }
  | _, _ => none

/-- A step of the consumer. -/
def stepConsumer (s : State T) : Action T → Consumer T → Option (State T)
  | .consumeHead, .idle => some { s with consumer := .headRead s.head }
  | .consumeTail, .headRead h => some { s with consumer := if h = s.tail then .idle else .nonEmpty }
  | .consumeSlot, .nonEmpty => some { s with consumer := .reading (s.head &&& 3) none }
  | .read, .reading slot _ => some { s with consumer := .reading slot (some (s.bufs slot)) }
  | .loadHead, .reading _ last => some { s with consumer := .storing s.head last }
  | .storeHead, .storing h last =>
    some { s with
      consumer := .idle, head := (h + 1) % 2 ^ 32, consumed := s.consumed + 1, seen := s.seen ++ last.toList }
  | _, _ => none

/-- A step of the queue. -/
def step (s : State T) (a : Action T) : Option (State T) :=
  (stepProducer s a s.producer).or (stepConsumer s a s.consumer)

/-- The queue with equal counters. -/
def start (base : ℕ) (bufs : ℕ → T) : State T where
  head := base % 2 ^ 32
  tail := base % 2 ^ 32
  bufs := bufs
  producer := .idle
  consumer := .idle
  produced := []
  visible := []
  consumed := 0
  seen := []

/-! ### The invariant -/

/-- The last item produced is complete in the slot at the tail and not yet visible. -/
def Pending (base : ℕ) (s : State T) : Prop :=
  ∃ earlier, s.produced = earlier ++ [s.bufs ((base + s.visible.length) % 4)] ∧ s.visible.Sublist earlier

/-- What is known at each place of the producer. -/
def ProducerOk (base : ℕ) (s : State T) : Producer → Prop
  | .idle => s.visible.Sublist s.produced
  | .writing slot => slot = (base + s.visible.length) % 4 ∧ s.visible.Sublist s.produced
  -- the head may have moved on since it was read
  | .headRead h => Pending base s ∧ ∃ c ≤ s.consumed, h = (base + c) % 2 ^ 32 ∧ s.visible.length ≤ c + 3 ∧
      c ≤ s.visible.length
  | .bumping => Pending base s ∧ s.visible.length + 1 ≤ s.consumed + 3
  | .storing t => Pending base s ∧ s.visible.length + 1 ≤ s.consumed + 3 ∧ t = s.tail

/-- What was read is the oldest visible item. -/
def LastOk (s : State T) (last : Option T) : Prop := ∀ x ∈ last, s.visible[s.consumed]? = some x

/-- What is known at each place of the consumer. -/
def ConsumerOk (base : ℕ) (s : State T) : Consumer T → Prop
  | .idle => True
  | .headRead h => h = s.head
  | .nonEmpty => s.consumed < s.visible.length
  | .reading slot last => s.consumed < s.visible.length ∧ slot = (base + s.consumed) % 4 ∧ LastOk s last
  | .storing h last => s.consumed < s.visible.length ∧ h = s.head ∧ LastOk s last

/-- The counters are three apart at most, and every visible item stands in its slot. -/
structure Inv (base : ℕ) (s : State T) : Prop where
  head_eq : s.head = (base + s.consumed) % 2 ^ 32
  tail_eq : s.tail = (base + s.visible.length) % 2 ^ 32
  consumed_le : s.consumed ≤ s.visible.length
  room : s.visible.length ≤ s.consumed + 3
  cells : ∀ k, s.consumed ≤ k → ∀ h : k < s.visible.length, s.bufs ((base + k) % 4) = s.visible[k]
  producer : ProducerOk base s s.producer
  consumer : ConsumerOk base s s.consumer
  seen : s.seen.Sublist (s.visible.take s.consumed)

theorem inv_start (base : ℕ) (bufs : ℕ → T) : Inv base (start base bufs) where
  head_eq := by simp [start]
  tail_eq := by simp [start]
  consumed_le := le_rfl
  room := by simp [start]
  cells k _ h := absurd h (by simp [start])
  producer := List.Sublist.refl _
  consumer := trivial
  seen := List.Sublist.refl _

theorem and_three (n : ℕ) : n &&& 3 = n % 4 := and_mask (k := 2) n rfl

theorem slot_eq (n : ℕ) : (n % 2 ^ 32) &&& 3 = n % 4 := by
  rw [and_three]
  omega

section Step

variable {base : ℕ} {s t : State T} {a : Action T}

theorem visible_sublist_produced (hi : Inv base s) : s.visible.Sublist s.produced := by
  have h := hi.producer
  revert h
  cases s.producer with
  | idle => exact fun h => h
  | writing slot => exact fun h => h.2
  | headRead h =>
    rintro ⟨⟨earlier, hp, hsub⟩, -⟩
    exact hp ▸ hsub.trans (List.sublist_append_left _ _)
  | bumping =>
    rintro ⟨⟨earlier, hp, hsub⟩, -⟩
    exact hp ▸ hsub.trans (List.sublist_append_left _ _)
  | storing t =>
    rintro ⟨⟨earlier, hp, hsub⟩, -⟩
    exact hp ▸ hsub.trans (List.sublist_append_left _ _)

/-- The consumer does not mind one more visible item. -/
theorem ConsumerOk.of_append {c : Consumer T} {x : T} (h : ConsumerOk base s c) (hh : t.head = s.head)
    (hc : t.consumed = s.consumed) (hv : t.visible = s.visible ++ [x]) : ConsumerOk base t c := by
  have hlast : ∀ last, s.consumed < s.visible.length → LastOk s last → LastOk t last := by
    intro last hlt hl x hx
    rw [hc, hv, List.getElem?_append_left hlt]
    exact hl x hx
  have hlen : t.visible.length = s.visible.length + 1 := by rw [hv]; simp
  cases c with
  | idle => trivial
  | headRead h' => exact h.trans hh.symm
  | nonEmpty =>
    change t.consumed < t.visible.length
    rw [hc, hlen]
    exact Nat.lt_succ_of_lt h
  | reading slot last => exact ⟨by rw [hc, hlen]; exact Nat.lt_succ_of_lt h.1, hc ▸ h.2.1, hlast last h.1 h.2.2⟩
  | storing h' last => exact ⟨by rw [hc, hlen]; exact Nat.lt_succ_of_lt h.1, h.2.1.trans hh.symm, hlast last h.1 h.2.2⟩

/-- The producer does not mind one more item given back. -/
theorem ProducerOk.of_consume {p : Producer} (h : ProducerOk base s p) (hb : t.bufs = s.bufs)
    (ht : t.tail = s.tail) (hv : t.visible = s.visible) (hp : t.produced = s.produced)
    (hc : s.consumed ≤ t.consumed) : ProducerOk base t p := by
  have hpend : Pending base s → Pending base t := by
    rintro ⟨earlier, he, hsub⟩
    exact ⟨earlier, by rw [hp, hb, hv, he], hv ▸ hsub⟩
  cases p with
  | idle =>
    change t.visible.Sublist t.produced
    rw [hv, hp]
    exact h
  | writing slot => exact ⟨hv ▸ h.1, by rw [hv, hp]; exact h.2⟩
  | headRead h' =>
    obtain ⟨hp', c, hcle, rfl, hc3, hcv⟩ := h
    exact ⟨hpend hp', c, hcle.trans hc, rfl, hv ▸ hc3, hv ▸ hcv⟩
  | bumping => exact ⟨hpend h.1, by have := h.2; rw [hv]; omega⟩
  | storing t' => exact ⟨hpend h.1, by have := h.2.1; rw [hv]; omega, ht ▸ h.2.2⟩

/-- Making the pending item visible keeps the invariant. -/
theorem inv_storeTail (hi : Inv base s) (hpend : Pending base s) (hle : s.visible.length + 1 ≤ s.consumed + 3) :
    Inv base { s with
      producer := .idle, tail := (s.tail + 1) % 2 ^ 32, visible := s.visible ++ [s.bufs (s.tail &&& 3)] } := by
  obtain ⟨earlier, he, hsub⟩ := hpend
  have hslot : s.tail &&& 3 = (base + s.visible.length) % 4 := by rw [hi.tail_eq, slot_eq]
  have hcle := hi.consumed_le
  constructor
  case head_eq => exact hi.head_eq
  case tail_eq =>
    simp only [List.length_append, List.length_singleton]
    rw [hi.tail_eq]
    omega
  case consumed_le =>
    simp only [List.length_append, List.length_singleton]
    omega
  case room => simpa using hle
  case cells =>
    intro k hk hlt
    rcases Nat.lt_or_ge k s.visible.length with hlt' | hge
    · simp only [List.getElem_append_left hlt']
      exact hi.cells k hk hlt'
    · obtain rfl : k = s.visible.length := by
        simp only [List.length_append, List.length_singleton] at hlt
        omega
      simp [hslot]
  case producer =>
    change (s.visible ++ [s.bufs (s.tail &&& 3)]).Sublist s.produced
    rw [he, hslot]
    exact hsub.append (List.Sublist.refl _)
  case consumer => exact hi.consumer.of_append rfl rfl rfl
  case seen =>
    simp only [List.take_append_of_le_length hcle]
    exact hi.seen

/-- A step of the producer keeps the invariant. -/
theorem inv_stepProducer (hi : Inv base s) (h : stepProducer s a s.producer = some t) : Inv base t := by
  have hprod := hi.producer
  have hroom := hi.room
  have htail := hi.tail_eq
  unfold stepProducer at h
  split at h
  case h_1 hp =>
    obtain rfl := Option.some.inj h
    rw [hp] at hprod
    refine { hi with producer := ⟨?_, hprod⟩ }
    rw [htail, slot_eq]
  case h_2 x slot hp =>
    obtain rfl := Option.some.inj h
    rw [hp] at hprod
    obtain ⟨rfl, hsub⟩ := hprod
    -- the slot written is not the slot of a visible item
    refine { hi with cells := ?_, producer := ?_ }
    · intro k hk hlt
      change s.consumed ≤ k at hk
      change k < s.visible.length at hlt
      have hne : (base + k) % 4 ≠ (base + s.visible.length) % 4 := by omega
      exact (Function.update_of_ne hne _ _).trans (hi.cells k hk hlt)
    · rw [hp]
      exact ⟨rfl, hsub⟩
  case h_3 slot hp =>
    obtain rfl := Option.some.inj h
    rw [hp] at hprod
    obtain ⟨rfl, hsub⟩ := hprod
    exact { hi with producer := ⟨⟨s.produced, rfl, hsub⟩, s.consumed, le_rfl, hi.head_eq, hroom, hi.consumed_le⟩ }
  case h_4 h' hp =>
    obtain rfl := Option.some.inj h
    rw [hp] at hprod
    obtain ⟨hpend, c, hc, rfl, hc3, hcv⟩ := hprod
    refine { hi with producer := ?_ }
    simp only
    split
    · rename_i hne
      have hslot : ((base + s.visible.length) % 2 ^ 32 + 1) % 4 = (base + s.visible.length + 1) % 4 := by
        rw [Nat.add_mod, Nat.mod_mod_of_dvd _ (by decide : 4 ∣ 2 ^ 32), ← Nat.add_mod]
      rw [slot_eq, slot_eq, htail, hslot] at hne
      refine ⟨hpend, ?_⟩
      change s.visible.length + 1 ≤ s.consumed + 3
      omega
    · obtain ⟨earlier, he, hsub⟩ := hpend
      exact he ▸ hsub.trans (List.sublist_append_left _ _)
  case h_5 hp =>
    obtain rfl := Option.some.inj h
    rw [hp] at hprod
    exact { hi with producer := ⟨hprod.1, hprod.2, rfl⟩ }
  case h_6 t' hp =>
    obtain rfl := Option.some.inj h
    rw [hp] at hprod
    obtain ⟨hpend, hle, rfl⟩ := hprod
    exact inv_storeTail hi hpend hle
  case h_7 => cases h

/-- A step of the consumer keeps the invariant. -/
theorem inv_stepConsumer (hi : Inv base s) (h : stepConsumer s a s.consumer = some t) : Inv base t := by
  have hcons := hi.consumer
  have hhead := hi.head_eq
  have htail := hi.tail_eq
  have hroom := hi.room
  have hcle := hi.consumed_le
  unfold stepConsumer at h
  split at h
  case h_1 hc =>
    obtain rfl := Option.some.inj h
    exact { hi with consumer := rfl }
  case h_2 h' hc =>
    obtain rfl := Option.some.inj h
    rw [hc] at hcons
    obtain rfl : h' = s.head := hcons
    refine { hi with consumer := ?_ }
    simp only
    split
    · trivial
    · -- the counters are less than a turn apart, so different counters mean that there is an item
      change s.consumed < s.visible.length
      rename_i hne
      by_contra hge
      obtain heq : s.consumed = s.visible.length := by omega
      exact hne (by rw [hhead, htail, heq])
  case h_3 hc =>
    obtain rfl := Option.some.inj h
    rw [hc] at hcons
    refine { hi with consumer := ⟨hcons, ?_, by simp [LastOk]⟩ }
    rw [hhead, slot_eq]
  case h_4 slot last hc =>
    obtain rfl := Option.some.inj h
    rw [hc] at hcons
    obtain ⟨hlt, rfl, -⟩ := hcons
    refine { hi with consumer := ⟨hlt, rfl, ?_⟩ }
    intro x hx
    obtain rfl : s.bufs ((base + s.consumed) % 4) = x := by simpa using hx
    change s.visible[s.consumed]? = _
    rw [List.getElem?_eq_getElem hlt, hi.cells _ le_rfl hlt]
  case h_5 slot last hc =>
    obtain rfl := Option.some.inj h
    rw [hc] at hcons
    exact { hi with consumer := ⟨hcons.1, rfl, hcons.2.2⟩ }
  case h_6 h' last hc =>
    obtain rfl := Option.some.inj h
    rw [hc] at hcons
    obtain ⟨hlt, rfl, hlast⟩ := hcons
    constructor
    case head_eq =>
      simp only
      rw [hhead]
      omega
    case tail_eq => exact htail
    case consumed_le => exact hlt
    case room =>
      simp only
      omega
    case cells => exact fun k hk => hi.cells k (Nat.le_of_succ_le hk)
    case producer => exact hi.producer.of_consume rfl rfl rfl rfl (Nat.le_succ _)
    case consumer => trivial
    case seen =>
      simp only
      rw [List.take_add_one, List.getElem?_eq_getElem hlt]
      refine hi.seen.append ?_
      cases last with
      | none => simp
      | some x =>
        have := hlast x rfl
        rw [List.getElem?_eq_getElem hlt] at this
        simpa using (Option.some.inj this).symm
  case h_7 => cases h

theorem inv_step (hi : Inv base s) (h : step s a = some t) : Inv base t := by
  rcases Option.or_eq_some_iff.mp h with h | ⟨-, h⟩
  · exact inv_stepProducer hi h
  · exact inv_stepConsumer hi h

end Step

/-! ### Whole runs -/

theorem reachable_inv {base : ℕ} {bufs : ℕ → T} {s : State T} (h : Reachable step anyStep (start base bufs) s) :
    Inv base s :=
  h.invariant (inv_start base bufs) fun _ _ _ hi _ hs => inv_step hi hs

/-- **The droppable queue.** In every state of every run the slot being read is not the slot being
written, every item that is visible and not given back stands in its slot as it was made visible, and
what the consumer has seen is a subsequence of what was produced. -/
theorem droppable_queue_safe (base : ℕ) (bufs : ℕ → T) (s : State T)
    (h : Reachable step anyStep (start base bufs) s) :
    (∀ slot slot' last, s.producer = .writing slot → s.consumer = .reading slot' last → slot ≠ slot') ∧
      (∀ k, s.consumed ≤ k → ∀ hk : k < s.visible.length, s.bufs ((base + k) % 4) = s.visible[k]) ∧
      (s.seen ++ s.consumer.last.toList).Sublist s.produced := by
  have hi := reachable_inv h
  have hroom := hi.room
  refine ⟨?_, hi.cells, ?_⟩
  · intro slot slot' last hp hc
    have h1 := hi.producer
    have h2 := hi.consumer
    rw [hp] at h1
    rw [hc] at h2
    obtain ⟨rfl, -⟩ := h1
    obtain ⟨hlt, rfl, -⟩ := h2
    omega
  · have hlast : s.consumer.last.toList.Sublist (s.visible.drop s.consumed) := by
      have h2 := hi.consumer
      have key : ∀ last, s.consumed < s.visible.length → LastOk s last →
          last.toList.Sublist (s.visible.drop s.consumed) := by
        intro last hlt hl
        cases last with
        | none => simp
        | some x =>
          have := hl x rfl
          rw [List.getElem?_eq_getElem hlt] at this
          rw [List.drop_eq_getElem_cons hlt, Option.some.inj this]
          simp
      revert h2
      cases s.consumer with
      | idle => simp [Consumer.last]
      | headRead h => simp [Consumer.last]
      | nonEmpty => simp [Consumer.last]
      | reading slot last => exact fun h2 => key last h2.1 h2.2.2
      | storing h last => exact fun h2 => key last h2.1 h2.2.2
    have hall := hi.seen.append hlast
    rw [List.take_append_drop] at hall
    exact hall.trans (visible_sublist_produced hi)

/-- One item goes through the queue while the counters turn over. -/
def turnOver : List (Action ℕ) :=
  [.produceBegin, .write 7, .produceEndHead, .produceEndTail, .loadTail, .storeTail, .consumeHead, .consumeTail,
    .produceBegin, .consumeSlot, .write 8, .read]

theorem droppable_queue_safe_turnOver :
    ∃ s, run step (start (2 ^ 32 - 1) fun _ => 0) turnOver = some s ∧ s.tail = 0 ∧ s.producer = .writing 0 ∧
      s.consumer.last = some 7 ∧ (s.seen ++ s.consumer.last.toList).Sublist s.produced :=
  ⟨_, rfl, rfl, rfl, rfl,
    (droppable_queue_safe (2 ^ 32 - 1) (fun _ => 0) _ (reachable_of_run turnOver rfl)).2.2⟩

end Cpcf.Os.DroppableQueue
