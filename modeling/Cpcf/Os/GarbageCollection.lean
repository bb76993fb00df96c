import Cpcf.Lib.Run

/-!
`os::GarbageCollection`: objects that are deleted later.

An object comes with a time to live, which `DeleteObject` rounds up to seconds. One thread sleeps five times for
200 ms and then takes a second off every pending object: those that have time left are moved to the front of the
array, the others are deleted. A deletion function may call `DeleteObject` again while the thread goes over the array:
the lock is recursive, and what it asks for is put at the end of the array and met in the same pass.
-/

namespace Cpcf.Os.GarbageCollection

open Cpcf.Lib.Run

variable {Obj : Type}

/-! ### The objects -/

/-- `(TTL_msec+999)/1000`, in a `DWORD`. -/
def ttlOf (msec : UInt32) : ℕ := ((msec + 999) / 1000).toNat

/-- `_GarbagItem`, with what it was asked for, when, and how many passes it has seen. -/
structure Item (Obj : Type) where
  pObj : Obj
  TTL : ℕ
  msec : UInt32
  born : ℕ
  seen : ℕ

/-- `Tick`; the item stays while its `TTL` is not zero. -/
def Item.tick (x : Item Obj) : Item Obj := { x with TTL := if x.TTL ≠ 0 then x.TTL - 1 else x.TTL, seen := x.seen + 1 }

/-- What `DeleteObject` was called for. -/
def Item.request (x : Item Obj) : Obj × UInt32 × ℕ := (x.pObj, x.msec, x.born)

/-- Who deleted an object: `DeleteObject` itself, a pass of the thread, or the thread when it was told to exit. -/
inductive Reason
  | atOnce
  | pass
  | exit
deriving DecidableEq

/-- A call of a deletion function. -/
structure Deletion (Obj : Type) where
  item : Item Obj
  time : ℕ
  reason : Reason

/-! ### The thread -/

/-- Where the deletion thread stands. -/
inductive Thread
  /-- `_hThread` is `NULL`. -/
  | none
  /-- In `Sleep(200)` for the `i`-th time, since a time. -/
  | sleeping (i since : ℕ)
  /-- In the pass, with its two indices. -/
  | collecting (i opened : ℕ)
  /-- Behind `DELETION_EXITING`. -/
  | exiting (i : ℕ)
  /-- `_DeletionThread` has returned, and `_hThread` is not `NULL` yet. -/
  | returned
deriving DecidableEq

structure State (Obj : Type) where
  now : ℕ
  pending : List (Item Obj)
  thread : Thread
  wantExit : Bool
  deleted : List (Deletion Obj)
  /-- What `DeleteObject` was called for so far. -/
  given : List (Obj × UInt32 × ℕ)

/-- `_PendingGarbagCCS` is free. -/
def State.lockFree (s : State Obj) : Bool :=
  match s.thread with
  | .collecting _ _ => false
  | .exiting _ => false
  | _ => true

/-- A deletion function is called. -/
def State.delete (s : State Obj) (x : Item Obj) (why : Reason) : State Obj :=
  { s with deleted := s.deleted ++ [⟨x, s.now, why⟩] }

/-- `Create`, if the thread is not running; it may fail. -/
def State.create (s : State Obj) (created : Bool) : State Obj :=
  match s.thread with
  | .none => if created then { s with thread := .sleeping 0 s.now, wantExit := false } else s
  | _ => s

/-- `DeleteObject`. -/
def State.deleteObject (s : State Obj) (created : Bool) (x : Obj) (msec : UInt32) : State Obj :=
  if msec = 0 then { s.delete ⟨x, 0, msec, s.now, 0⟩ .atOnce with given := s.given ++ [(x, msec, s.now)] }
  else
    { s.create created with
      pending := s.pending ++ [⟨x, ttlOf msec, msec, s.now, 0⟩], given := s.given ++ [(x, msec, s.now)] }

/-- The calls of `DeleteObject` that a deletion function makes. -/
def State.nested (s : State Obj) (calls : List (Obj × UInt32)) : State Obj :=
  calls.foldl (fun s c => s.deleteObject true c.1 c.2) s

/-- What happens next: time goes by, a thread calls `DeleteObject` (with a null pointer, or not) or `Exit`, the
deletion thread wakes up, goes one item further (with the calls that a deletion function makes, where one is called), or
ends. -/
inductive Action (Obj : Type)
  | elapse (msec : ℕ)
  | deleteObject (x : Option Obj) (msec : UInt32) (created : Bool)
  | exit
  | wake
  | visit (calls : List (Obj × UInt32))
  | ended

/-- A turn of the loop of a pass, or its end with `ShrinkSize(open)`. -/
def State.collect (s : State Obj) (i opened : ℕ) (calls : List (Obj × UInt32)) : State Obj :=
  match s.pending[i]? with
  | some x =>
    let x := x.tick
    let pending := s.pending.set i x
    if x.TTL ≠ 0 then { s with pending := pending.set opened x, thread := .collecting (i + 1) (opened + 1) }
    else (State.delete { s with pending := pending, thread := .collecting (i + 1) opened } x .pass).nested calls
  | none => { s with pending := s.pending.take opened, thread := .sleeping 0 s.now }

/-- A turn of the loop behind `DELETION_EXITING`, or its end with `SetSize()`. -/
def State.clear (s : State Obj) (i : ℕ) (calls : List (Obj × UInt32)) : State Obj :=
  match s.pending[i]? with
  | some x => (State.delete { s with thread := .exiting (i + 1) } x .exit).nested calls
  | none => { s with pending := [], thread := .returned }

/-- Behind a `Sleep(200)`. -/
def State.wake (s : State Obj) (i : ℕ) : State Obj :=
  if s.wantExit then { s with thread := .exiting 0 }
  else if i + 1 < 5 then { s with thread := .sleeping (i + 1) s.now }
  else { s with thread := .collecting 0 0 }

def step (s : State Obj) : Action Obj → Option (State Obj)
  | .elapse d => some { s with now := s.now + d }
  | .deleteObject none _ _ => some s
  | .deleteObject (some x) msec created =>
    if msec = 0 ∨ s.lockFree = true then some (s.deleteObject created x msec) else none
  | .exit => some (if s.thread = .none then s else { s with wantExit := true })
  | .wake =>
    match s.thread with
    | .sleeping i since => if since + 200 ≤ s.now then some (s.wake i) else none
    | _ => none
  | .visit calls =>
    match s.thread with
    | .collecting i opened => some (s.collect i opened calls)
    | .exiting i => some (s.clear i calls)
    | _ => none
  | .ended => if s.thread = .returned then some { s with thread := .none } else none

def start : State Obj := ⟨0, [], .none, false, [], []⟩

/-! ### The objects that are still to be deleted -/

/-- The items in the array whose objects are not deleted yet. -/
def State.live (s : State Obj) : List (Item Obj) :=
  match s.thread with
  | .collecting i opened => s.pending.take opened ++ s.pending.drop i
  | .exiting i => s.pending.drop i
  | _ => s.pending

/-- The indices of a pass are in order. -/
def State.Indexed (s : State Obj) : Prop :=
  match s.thread with
  | .collecting i opened => opened ≤ i ∧ i ≤ s.pending.length
  | .exiting i => i ≤ s.pending.length
  | _ => True

/-- What is known of an item that was not deleted yet. -/
structure Item.Kept (x : Item Obj) (now : ℕ) : Prop where
  counted : x.TTL + x.seen = ttlOf x.msec
  some_left : x.seen = 0 ∨ 0 < x.TTL
  msec_ne_zero : x.msec ≠ 0
  born_le : x.born ≤ now

/-- The next pass may be at the time `t`: the item is a second old for every pass it has seen. -/
def Item.Due (x : Item Obj) (t : ℕ) : Prop := x.seen = 0 ∨ x.born + 1000 * x.seen ≤ t

/-- How old the items are at least. -/
def State.Aged (s : State Obj) : Prop :=
  match s.thread with
  | .none => ∀ x ∈ s.pending, x.seen = 0
  | .sleeping i since => i < 5 ∧ ∀ x ∈ s.pending, x.Due (since + 200 * (5 - i))
  | .collecting i opened =>
    (∀ x ∈ s.pending.take opened, x.Due (s.now + 1000)) ∧ ∀ x ∈ s.pending.drop i, x.Due s.now
  | .exiting _ => True
  | .returned => ∀ x ∈ s.pending, x.seen = 0

/-- What is known of an item whose object a pass has deleted: it was met as often as it was to be, and not early. -/
structure Deletion.InTime (d : Deletion Obj) : Prop where
  seen_eq : d.item.seen = max 1 (ttlOf d.item.msec)
  late : d.item.born + 1000 * (d.item.seen - 1) ≤ d.time

/-- What holds of every state. -/
structure Inv (s : State Obj) : Prop where
  indexed : s.Indexed
  perm : (s.live.map Item.request ++ s.deleted.map (·.item.request)).Perm s.given
  kept : ∀ x ∈ s.live, x.Kept s.now
  aged : s.Aged
  inTime : ∀ d ∈ s.deleted, d.reason = .pass → d.InTime

/-! ### One step -/

section Steps

variable {s : State Obj} {x : Item Obj} {t : ℕ}

theorem ttlOf_eq (msec : UInt32) : ttlOf msec = (msec.toNat + 999) % 2 ^ 32 / 1000 := by
  rw [ttlOf, UInt32.toNat_div, UInt32.toNat_add]
  rfl

theorem Item.Due.mono (h : x.Due t) {u : ℕ} (hle : t ≤ u) : x.Due u := h.imp_right fun h => h.trans hle

theorem Item.Kept.mono {now : ℕ} (h : x.Kept now) {u : ℕ} (hle : now ≤ u) : x.Kept u :=
  ⟨h.counted, h.some_left, h.msec_ne_zero, h.born_le.trans hle⟩

/-- A new item. -/
theorem kept_new (p : Obj) {msec : UInt32} (h : msec ≠ 0) (now : ℕ) : Item.Kept ⟨p, ttlOf msec, msec, now, 0⟩ now :=
  ⟨rfl, .inl rfl, h, le_rfl⟩

theorem Item.Due.of_kept (h : x.Due s.now) (hk : x.Kept s.now) : x.born + 1000 * x.seen ≤ s.now := by
  obtain h | h := h
  · rw [h]
    exact hk.born_le
  · exact h

/-- An item behind the end of the array. -/
theorem live_push (hi : s.Indexed) (x : Item Obj) : State.live { s with pending := s.pending ++ [x] } = s.live ++ [x] := by
  unfold State.Indexed at hi
  unfold State.live
  cases hs : s.thread with
  | none => rfl
  | sleeping i since => rfl
  | returned => rfl
  | exiting i =>
    rw [hs] at hi
    exact List.drop_append_of_le_length hi
  | collecting i opened =>
    rw [hs] at hi
    dsimp only at hi ⊢
    rw [List.take_append_of_le_length (hi.1.trans hi.2), List.drop_append_of_le_length hi.2, List.append_assoc]

theorem indexed_push (hi : s.Indexed) (x : Item Obj) : State.Indexed { s with pending := s.pending ++ [x] } := by
  unfold State.Indexed at hi ⊢
  cases hs : s.thread with
  | none => trivial
  | sleeping i since => trivial
  | returned => trivial
  | exiting i =>
    rw [hs] at hi
    dsimp only at hi ⊢
    rw [List.length_append]
    omega
  | collecting i opened =>
    rw [hs] at hi
    dsimp only at hi ⊢
    rw [List.length_append]
    exact ⟨hi.1, by omega⟩

theorem aged_push (hi : s.Indexed) (ha : s.Aged) (hx : x.seen = 0) :
    State.Aged { s with pending := s.pending ++ [x] } := by
  unfold State.Indexed at hi
  unfold State.Aged at ha ⊢
  cases hs : s.thread with
  | none =>
    rw [hs] at ha
    exact fun y hy => (List.mem_append.mp hy).elim (ha y) fun h => List.mem_singleton.mp h ▸ hx
  | returned =>
    rw [hs] at ha
    exact fun y hy => (List.mem_append.mp hy).elim (ha y) fun h => List.mem_singleton.mp h ▸ hx
  | exiting i => trivial
  | sleeping i since =>
    rw [hs] at ha
    exact ⟨ha.1, fun y hy => (List.mem_append.mp hy).elim (ha.2 y) fun h => .inl (List.mem_singleton.mp h ▸ hx)⟩
  | collecting i opened =>
    rw [hs] at ha hi
    dsimp only at ha hi ⊢
    rw [List.take_append_of_le_length (hi.1.trans hi.2), List.drop_append_of_le_length hi.2]
    exact ⟨ha.1, fun y hy => (List.mem_append.mp hy).elim (ha.2 y) fun h => .inl (List.mem_singleton.mp h ▸ hx)⟩

/-- A new thread has the same array before it. -/
theorem inv_create (h : Inv s) (created : Bool) : Inv (s.create created) := by
  unfold State.create
  cases hs : s.thread with
  | none =>
    cases created with
    | false => exact h
    | true =>
      have hlive : s.live = s.pending := by rw [State.live, hs]
      have ha := h.aged
      rw [State.Aged, hs] at ha
      exact ⟨trivial, hlive ▸ h.perm, hlive ▸ h.kept, ⟨by decide, fun x hx => .inl (ha x hx)⟩, h.inTime⟩
  | sleeping i since => exact h
  | collecting i opened => exact h
  | exiting i => exact h
  | returned => exact h

theorem create_eq (created : Bool) :
    s.create created = { s with thread := (s.create created).thread, wantExit := (s.create created).wantExit } := by
  unfold State.create
  split
  · split <;> rfl
  · rfl

/-- `DeleteObject`, whoever calls it. -/
theorem inv_deleteObject (h : Inv s) (created : Bool) (p : Obj) (msec : UInt32) :
    Inv (s.deleteObject created p msec) := by
  unfold State.deleteObject
  split
  · refine ⟨h.indexed, ?_, h.kept, h.aged, ?_⟩
    · have hperm := h.perm.append_right [(p, msec, s.now)]
      rw [List.append_assoc] at hperm
      dsimp only [State.delete]
      rw [List.map_append]
      exact hperm
    · intro d hd hpass
      obtain hd | hd := List.mem_append.mp hd
      · exact h.inTime d hd hpass
      · rw [List.mem_singleton.mp hd] at hpass
        cases hpass
  · rename_i hne
    have hc := inv_create h created
    rw [create_eq] at hc ⊢
    generalize (s.create created).thread = thread at hc
    generalize (s.create created).wantExit = wantExit at hc
    have hlive := live_push hc.indexed ⟨p, ttlOf msec, msec, s.now, 0⟩
    refine ⟨indexed_push hc.indexed _, ?_, ?_, aged_push hc.indexed hc.aged rfl, hc.inTime⟩
    · have hperm := hc.perm.append_right [(p, msec, s.now)]
      refine List.Perm.trans ?_ hperm
      refine (List.Perm.of_eq (congrArg (fun l => List.map Item.request l ++ _) hlive)).trans ?_
      rw [List.map_append, List.append_assoc, List.append_assoc]
      exact List.perm_append_comm.append_left _
    · intro x hx
      obtain hx | hx := List.mem_append.mp (hlive ▸ hx)
      · exact hc.kept x hx
      · rw [List.mem_singleton.mp hx]
        exact kept_new p hne s.now

theorem inv_nested (h : Inv s) (calls : List (Obj × UInt32)) : Inv (s.nested calls) := by
  induction calls generalizing s with
  | nil => exact h
  | cons c calls ih => exact ih (inv_deleteObject h true c.1 c.2)

/-! ### The pass -/

/-- The item that stays is put behind those that stayed before it. -/
theorem take_moved {α : Type} {l : List α} {i o : ℕ} (y : α) (ho : o ≤ i) (hi : i < l.length) :
    ((l.set i y).set o y).take (o + 1) = l.take o ++ [y] := by
  have hlen : o < ((l.set i y).set o y).length := by
    rw [List.length_set, List.length_set]
    omega
  rw [List.take_add_one, List.getElem?_eq_getElem hlen, List.getElem_set_self, List.take_set_of_le le_rfl,
    List.take_set_of_le ho]
  rfl

theorem drop_moved {α : Type} {l : List α} {i o : ℕ} (y : α) (ho : o ≤ i) :
    ((l.set i y).set o y).drop (i + 1) = l.drop (i + 1) := by
  rw [List.drop_set_of_lt (by omega), List.drop_set_of_lt (by omega)]

theorem tick_request (x : Item Obj) : x.tick.request = x.request := rfl

/-- An item that stays is a second older than it needs to be. -/
theorem kept_tick {now : ℕ} (h : x.Kept now) (hstays : x.tick.TTL ≠ 0) : x.tick.Kept now := by
  have hcounted := h.counted
  have hpos : 0 < x.tick.TTL := Nat.pos_of_ne_zero hstays
  refine ⟨?_, .inr hpos, h.msec_ne_zero, h.born_le⟩
  simp only [Item.tick] at hstays ⊢
  split at hstays <;> rename_i hne
  · rw [if_pos hne]
    omega
  · exact absurd (not_not.mp hne) hstays

/-- An item that does not stay was met as often as it was to be, and not early. -/
theorem inTime_tick {now : ℕ} (h : x.Kept now) (hage : x.born + 1000 * x.seen ≤ now) (hleaves : x.tick.TTL = 0)
    (why : Reason) : Deletion.InTime ⟨x.tick, now, why⟩ := by
  have hcounted := h.counted
  have hleft := h.some_left
  refine ⟨?_, ?_⟩
  · simp only [Item.tick] at hleaves ⊢
    split at hleaves <;> omega
  · simpa [Item.tick] using hage

theorem inv_elapse (h : Inv s) (d : ℕ) : Inv { s with now := s.now + d } := by
  refine ⟨h.indexed, h.perm, fun x hx => (h.kept x hx).mono (Nat.le_add_right _ _), ?_, h.inTime⟩
  have ha := h.aged
  unfold State.Aged at ha ⊢
  cases hs : s.thread with
  | none =>
    rw [hs] at ha
    exact ha
  | sleeping i since =>
    rw [hs] at ha
    exact ha
  | returned =>
    rw [hs] at ha
    exact ha
  | exiting i => trivial
  | collecting i opened =>
    rw [hs] at ha
    dsimp only at ha ⊢
    exact ⟨fun x hx => (ha.1 x hx).mono (by omega), fun x hx => (ha.2 x hx).mono (by omega)⟩

theorem inv_wake (h : Inv s) {i since : ℕ} (hs : s.thread = .sleeping i since) (hnow : since + 200 ≤ s.now) :
    Inv (s.wake i) := by
  have hlive : s.live = s.pending := by rw [State.live, hs]
  have ha := h.aged
  rw [State.Aged, hs] at ha
  obtain ⟨hi, hdue⟩ := ha
  have hperm := hlive ▸ h.perm
  have hkept := hlive ▸ h.kept
  unfold State.wake
  split
  · exact ⟨Nat.zero_le _, hperm, hkept, trivial, h.inTime⟩
  split
  · rename_i hlt
    refine ⟨trivial, hperm, hkept, ⟨hlt, fun x hx => (hdue x hx).mono ?_⟩, h.inTime⟩
    omega
  · rename_i hlast
    refine ⟨⟨le_rfl, Nat.zero_le _⟩, hperm, hkept, ⟨by simp, fun x hx => (hdue x hx).mono ?_⟩, h.inTime⟩
    dsimp only
    omega

/-- A turn of the pass. -/
theorem inv_collect (h : Inv s) {i opened : ℕ} (hs : s.thread = .collecting i opened) (calls : List (Obj × UInt32)) :
    Inv (s.collect i opened calls) := by
  have hlive : s.live = s.pending.take opened ++ s.pending.drop i := by rw [State.live, hs]
  have ha := h.aged
  rw [State.Aged, hs] at ha
  obtain ⟨htaken, hrest⟩ := ha
  have hin := h.indexed
  rw [State.Indexed, hs] at hin
  obtain ⟨hoi, hil⟩ := hin
  have hperm := h.perm
  have hkept := h.kept
  rw [hlive] at hperm hkept
  unfold State.collect
  cases hx : s.pending[i]? with
  | none =>
    have hdrop : s.pending.drop i = [] := List.drop_eq_nil_of_le (List.getElem?_eq_none_iff.mp hx)
    rw [hdrop, List.append_nil] at hperm hkept
    exact ⟨trivial, hperm, hkept, ⟨by decide, fun x hx => (htaken x hx).mono (by omega)⟩, h.inTime⟩
  | some x =>
    obtain ⟨hlt, hget⟩ := List.getElem?_eq_some_iff.mp hx
    have hdrop : s.pending.drop i = x :: s.pending.drop (i + 1) := by rw [← hget]; exact List.drop_eq_getElem_cons hlt
    rw [hdrop] at hperm hkept hrest
    have hkx := hkept x (List.mem_append_right _ List.mem_cons_self)
    have hage := (hrest x List.mem_cons_self).of_kept hkx
    dsimp only
    split
    · rename_i hstays
      have htake := take_moved x.tick hoi hlt
      have hdropped := drop_moved (l := s.pending) x.tick hoi
      refine ⟨⟨by omega, by simpa using hlt⟩, ?_, ?_, ⟨?_, ?_⟩, h.inTime⟩
      · dsimp only [State.live]
        rw [htake, hdropped]
        simpa [tick_request] using hperm
      · dsimp only [State.live]
        rw [htake, hdropped]
        intro y hy
        simp only [List.append_assoc, List.mem_append, List.mem_singleton] at hy
        obtain hy | rfl | hy := hy
        · exact hkept y (List.mem_append_left _ hy)
        · exact kept_tick hkx hstays
        · exact hkept y (List.mem_append_right _ (List.mem_cons_of_mem _ hy))
      · dsimp only
        rw [htake]
        intro y hy
        simp only [List.mem_append, List.mem_singleton] at hy
        obtain hy | rfl := hy
        · exact htaken y hy
        · refine .inr ?_
          simp only [Item.tick]
          omega
      · dsimp only
        rw [hdropped]
        exact fun y hy => hrest y (List.mem_cons_of_mem _ hy)
    · rename_i hleaves
      have htake : (s.pending.set i x.tick).take opened = s.pending.take opened := List.take_set_of_le hoi
      have hdropped : (s.pending.set i x.tick).drop (i + 1) = s.pending.drop (i + 1) :=
        List.drop_set_of_lt (Nat.lt_succ_self i)
      apply inv_nested
      refine ⟨⟨by omega, by simpa [State.delete] using hlt⟩, ?_, ?_, ⟨?_, ?_⟩, ?_⟩
      · dsimp only [State.live, State.delete]
        rw [htake, hdropped]
        refine List.Perm.trans ?_ hperm
        simp only [List.map_append, List.map_cons, List.map_nil, List.append_assoc, tick_request, List.cons_append]
        refine List.Perm.append_left _ ?_
        rw [← List.append_assoc]
        exact List.perm_append_singleton _ _
      · dsimp only [State.live, State.delete]
        rw [htake, hdropped]
        intro y hy
        exact hkept y ((List.mem_append.mp hy).elim (List.mem_append_left _)
          fun h => List.mem_append_right _ (List.mem_cons_of_mem _ h))
      · dsimp only [State.delete]
        rw [htake]
        exact htaken
      · dsimp only [State.delete]
        rw [hdropped]
        exact fun y hy => hrest y (List.mem_cons_of_mem _ hy)
      · intro d hd hpass
        obtain hd | hd := List.mem_append.mp hd
        · exact h.inTime d hd hpass
        · rw [List.mem_singleton.mp hd]
          exact inTime_tick hkx hage (not_not.mp hleaves) .pass

/-- A turn of the loop behind `DELETION_EXITING`. -/
theorem inv_clear (h : Inv s) {i : ℕ} (hs : s.thread = .exiting i) (calls : List (Obj × UInt32)) :
    Inv (s.clear i calls) := by
  have hlive : s.live = s.pending.drop i := by rw [State.live, hs]
  have hperm := h.perm
  have hkept := h.kept
  rw [hlive] at hperm hkept
  unfold State.clear
  cases hx : s.pending[i]? with
  | none =>
    have hdrop : s.pending.drop i = [] := List.drop_eq_nil_of_le (List.getElem?_eq_none_iff.mp hx)
    rw [hdrop] at hperm
    exact ⟨trivial, hperm, by simp [State.live], by simp [State.Aged], h.inTime⟩
  | some x =>
    obtain ⟨hlt, hget⟩ := List.getElem?_eq_some_iff.mp hx
    have hdrop : s.pending.drop i = x :: s.pending.drop (i + 1) := by rw [← hget]; exact List.drop_eq_getElem_cons hlt
    rw [hdrop] at hperm hkept
    dsimp only
    apply inv_nested
    refine ⟨hlt, ?_, fun y hy => hkept y (List.mem_cons_of_mem _ hy), trivial, ?_⟩
    · dsimp only [State.live, State.delete]
      refine List.Perm.trans ?_ hperm
      rw [List.map_append, ← List.append_assoc]
      exact List.perm_append_singleton _ _
    · intro d hd hpass
      obtain hd | hd := List.mem_append.mp hd
      · exact h.inTime d hd hpass
      · rw [List.mem_singleton.mp hd] at hpass
        cases hpass

theorem inv_start : Inv (start : State Obj) :=
  ⟨trivial, List.Perm.nil, by simp [State.live, start], by simp [State.Aged, start], by simp [start]⟩

/-- **Every step keeps the invariant.** -/
theorem inv_step {a : Action Obj} {s' : State Obj} (h : Inv s) (hstep : step s a = some s') : Inv s' := by
  cases a with
  | elapse d =>
    obtain rfl := Option.some.inj hstep
    exact inv_elapse h d
  | deleteObject x msec created =>
    cases x with
    | none =>
      obtain rfl := Option.some.inj hstep
      exact h
    | some p =>
      obtain ⟨-, hs'⟩ := Option.ite_none_right_eq_some.mp hstep
      obtain rfl := Option.some.inj hs'
      exact inv_deleteObject h created p msec
  | exit =>
    obtain rfl := Option.some.inj hstep
    split
    · exact h
    · exact ⟨h.indexed, h.perm, h.kept, h.aged, h.inTime⟩
  | wake =>
    rw [step] at hstep
    split at hstep <;> rename_i hs
    · obtain ⟨hnow, hs'⟩ := Option.ite_none_right_eq_some.mp hstep
      obtain rfl := Option.some.inj hs'
      exact inv_wake h hs hnow
    · cases hstep
  | visit calls =>
    rw [step] at hstep
    split at hstep <;> rename_i hs
    · obtain rfl := Option.some.inj hstep
      exact inv_collect h hs calls
    · obtain rfl := Option.some.inj hstep
      exact inv_clear h hs calls
    · cases hstep
  | ended =>
    obtain ⟨hs, hs'⟩ := Option.ite_none_right_eq_some.mp hstep
    obtain rfl := Option.some.inj hs'
    have hlive : s.live = s.pending := by rw [State.live, hs]
    have ha := h.aged
    rw [State.Aged, hs] at ha
    exact ⟨trivial, hlive ▸ h.perm, hlive ▸ h.kept, ha, h.inTime⟩

/-! ### What a step hands in -/

/-- The objects that `DeleteObject` is called for. -/
def Action.objects : Action Obj → List Obj
  | .deleteObject (some p) _ _ => [p]
  | .visit calls => calls.map Prod.fst
  | _ => []

/-- An action on other objects. -/
def Action.map {Obj' : Type} (f : Obj → Obj') : Action Obj → Action Obj'
  | .elapse d => .elapse d
  | .deleteObject x msec created => .deleteObject (x.map f) msec created
  | .exit => .exit
  | .wake => .wake
  | .visit calls => .visit (calls.map fun c => (f c.1, c.2))
  | .ended => .ended

theorem objects_map {Obj' : Type} (f : Obj → Obj') (a : Action Obj) : (a.map f).objects = a.objects.map f := by
  cases a with
  | deleteObject x msec created => cases x <;> rfl
  | visit calls => simp [Action.map, Action.objects, Function.comp_def]
  | elapse d => rfl
  | exit => rfl
  | wake => rfl
  | ended => rfl

/-- What was handed in and deleted before stays, no other objects are handed in, and what is deleted at once was handed
in for that. -/
structure Adds (s t : State Obj) (objects : List Obj) : Prop where
  now_le : s.now ≤ t.now
  given : ∃ l, t.given = s.given ++ l ∧ ∀ g ∈ l, g.1 ∈ objects
  deleted : ∃ l, t.deleted = s.deleted ++ l ∧ ∀ d ∈ l, d.reason = .atOnce → d.item.msec = 0 ∧ d.item.born = d.time

theorem adds_of_eq {t : State Obj} (objects : List Obj) (hnow : s.now ≤ t.now) (hgiven : t.given = s.given)
    (hdeleted : t.deleted = s.deleted) : Adds s t objects :=
  ⟨hnow, ⟨[], by rw [hgiven, List.append_nil], fun _ hg => absurd hg List.not_mem_nil⟩,
    ⟨[], by rw [hdeleted, List.append_nil], fun _ hd => absurd hd List.not_mem_nil⟩⟩

theorem Adds.trans {t u : State Obj} {xs ys : List Obj} (h : Adds s t xs) (h' : Adds t u ys) : Adds s u (xs ++ ys) := by
  obtain ⟨l, hl, hmem⟩ := h.given
  obtain ⟨l', hl', hmem'⟩ := h'.given
  obtain ⟨m, hm, hd⟩ := h.deleted
  obtain ⟨m', hm', hd'⟩ := h'.deleted
  refine ⟨h.now_le.trans h'.now_le, ⟨l ++ l', by rw [hl', hl, List.append_assoc], ?_⟩,
    ⟨m ++ m', by rw [hm', hm, List.append_assoc], ?_⟩⟩
  · intro g hg
    exact List.mem_append.mpr ((List.mem_append.mp hg).imp (hmem g) (hmem' g))
  · exact fun d hmem => (List.mem_append.mp hmem).elim (hd d) (hd' d)

theorem adds_delete (x : Item Obj) {why : Reason} (h : why ≠ .atOnce) : Adds s (s.delete x why) [] := by
  refine ⟨le_rfl, ⟨[], (List.append_nil _).symm, fun _ hg => absurd hg List.not_mem_nil⟩, ⟨_, rfl, ?_⟩⟩
  intro d hd hwhy
  obtain rfl := List.mem_singleton.mp hd
  exact absurd hwhy h

theorem given_deleteObject (created : Bool) (p : Obj) (msec : UInt32) :
    (s.deleteObject created p msec).given = s.given ++ [(p, msec, s.now)] := by
  unfold State.deleteObject
  split <;> rfl

theorem adds_deleteObject (created : Bool) (p : Obj) (msec : UInt32) :
    Adds s (s.deleteObject created p msec) [p] := by
  refine ⟨?_, ⟨_, given_deleteObject created p msec, by simp⟩, ?_⟩
  · unfold State.deleteObject
    split
    · exact le_rfl
    · rw [create_eq]
  · unfold State.deleteObject
    split
    · rename_i hzero
      refine ⟨_, rfl, fun d hd _ => ?_⟩
      obtain rfl := List.mem_singleton.mp hd
      exact ⟨hzero, rfl⟩
    · rw [create_eq]
      exact ⟨[], (List.append_nil _).symm, fun _ hd => absurd hd List.not_mem_nil⟩

theorem adds_nested (calls : List (Obj × UInt32)) : Adds s (s.nested calls) (calls.map Prod.fst) := by
  induction calls generalizing s with
  | nil => exact adds_of_eq [] le_rfl rfl rfl
  | cons c calls ih => exact (adds_deleteObject true c.1 c.2).trans ih

/-- An item is deleted, with the calls that its deletion function makes. -/
theorem adds_visited {t : State Obj} (hnow : t.now = s.now) (hgiven : t.given = s.given)
    (hdeleted : t.deleted = s.deleted) (x : Item Obj) (why : Reason) (h : why ≠ .atOnce) (calls : List (Obj × UInt32)) :
    Adds s ((t.delete x why).nested calls) (calls.map Prod.fst) :=
  ((adds_of_eq [] hnow.ge hgiven hdeleted).trans (adds_delete x h)).trans (adds_nested calls)

/-- A step hands in its objects and no others. -/
theorem step_adds {a : Action Obj} {t : State Obj} (h : step s a = some t) : Adds s t a.objects := by
  cases a with
  | elapse d =>
    obtain rfl := Option.some.inj h
    exact adds_of_eq _ (Nat.le_add_right _ _) rfl rfl
  | deleteObject x msec created =>
    cases x with
    | none =>
      obtain rfl := Option.some.inj h
      exact adds_of_eq _ le_rfl rfl rfl
    | some p =>
      obtain ⟨-, ht⟩ := Option.ite_none_right_eq_some.mp h
      obtain rfl := Option.some.inj ht
      exact adds_deleteObject created p msec
  | exit =>
    obtain rfl := Option.some.inj h
    split
    · exact adds_of_eq _ le_rfl rfl rfl
    · exact adds_of_eq _ le_rfl rfl rfl
  | wake =>
    rw [step] at h
    split at h
    · obtain ⟨-, ht⟩ := Option.ite_none_right_eq_some.mp h
      obtain rfl := Option.some.inj ht
      unfold State.wake
      split
      · exact adds_of_eq _ le_rfl rfl rfl
      · split
        · exact adds_of_eq _ le_rfl rfl rfl
        · exact adds_of_eq _ le_rfl rfl rfl
    · cases h
  | visit calls =>
    rw [step] at h
    split at h
    · rename_i i opened _
      obtain rfl := Option.some.inj h
      unfold State.collect
      split
      · rename_i x _
        dsimp only
        split
        · exact adds_of_eq _ le_rfl rfl rfl
        · refine adds_visited ?_ ?_ ?_ x.tick .pass (by decide) calls <;> rfl
      · exact adds_of_eq _ le_rfl rfl rfl
    · rename_i i _
      obtain rfl := Option.some.inj h
      unfold State.clear
      split
      · rename_i x _
        refine adds_visited ?_ ?_ ?_ x .exit (by decide) calls <;> rfl
      · exact adds_of_eq _ le_rfl rfl rfl
    · cases h
  | ended =>
    obtain ⟨-, ht⟩ := Option.ite_none_right_eq_some.mp h
    obtain rfl := Option.some.inj ht
    exact adds_of_eq _ le_rfl rfl rfl

end Steps

/-! ### Every run -/

theorem reachable_inv {s : State Obj} (h : Reachable step anyStep start s) : Inv s :=
  h.invariant inv_start fun _ _ _ hs _ hst => inv_step hs hst

/-- Five times 200 ms. -/
def second : List (Action Obj) := (List.replicate 5 [.elapse 200, .wake]).flatten

/-- An object with 1500 ms, and another one that its deletion function hands in with 1000 ms: both are deleted in the
second pass. -/
def handedIn : List (Action ℕ) :=
  [.elapse 3, .deleteObject (some 7) 1500 true] ++ second ++ [.visit [], .visit []] ++ second ++
    [.visit [(8, 1000)], .visit []]

/-- The thread will still go over the array. -/
def Thread.collects : Thread → Bool
  | .none => false
  | .returned => false
  | _ => true

/-- Whatever is to be deleted has a thread that will. -/
def State.Cared (s : State Obj) : Prop := s.live ≠ [] → s.thread.collects = true

/-- An object is not handed in between the last pass of a thread and its end, and a thread that is needed can be
created. -/
def Attended (s : State Obj) : Action Obj → Prop
  | .deleteObject (some _) msec created =>
    msec = 0 ∨ s.thread ≠ .returned ∧ (s.thread = .none → created = true)
  | _ => True

section Cared

variable {s t : State Obj}

theorem deleteObject_thread (hs : s.thread ≠ .none) (created : Bool) (p : Obj) (msec : UInt32) :
    (s.deleteObject created p msec).thread = s.thread := by
  unfold State.deleteObject
  split
  · rfl
  · dsimp only
    unfold State.create
    split
    · contradiction
    · rfl

theorem nested_thread (hs : s.thread ≠ .none) (calls : List (Obj × UInt32)) : (s.nested calls).thread = s.thread := by
  induction calls generalizing s with
  | nil => rfl
  | cons c calls ih =>
    have hfirst := deleteObject_thread hs true c.1 c.2
    exact (ih (by rw [hfirst]; exact hs)).trans hfirst

theorem cared_of_collects (h : s.thread.collects = true) : s.Cared := fun _ => h

theorem collects_collect (i opened : ℕ) (calls : List (Obj × UInt32)) :
    (s.collect i opened calls).thread.collects = true := by
  unfold State.collect
  split
  · dsimp only
    split
    · rfl
    · rw [nested_thread (by simp [State.delete])]
      rfl
  · rfl

theorem cared_clear (i : ℕ) (calls : List (Obj × UInt32)) : (s.clear i calls).Cared := by
  unfold State.clear
  split
  · apply cared_of_collects
    rw [nested_thread (by simp [State.delete])]
    rfl
  · exact fun h => absurd rfl h

/-- What is handed in has a thread if and only if the condition is met. -/
theorem cared_deleteObject (h : s.Cared) (created : Bool) (p : Obj) (msec : UInt32) :
    (s.deleteObject created p msec).Cared ↔ Attended s (.deleteObject (some p) msec created) := by
  by_cases hzero : msec = 0
  · refine iff_of_true ?_ (.inl hzero)
    rw [State.deleteObject, if_pos hzero]
    exact h
  · have hadd : (s.deleteObject created p msec).pending ≠ [] := by simp [State.deleteObject, hzero]
    have hthread : (s.deleteObject created p msec).thread = (s.create created).thread := by
      rw [State.deleteObject, if_neg hzero]
    simp only [Attended, hzero, false_or]
    cases hs : s.thread with
    | none =>
      cases created with
      | true => exact iff_of_true (cared_of_collects (by rw [hthread, State.create, hs]; rfl)) (by simp)
      | false =>
        have hnone : (s.deleteObject false p msec).thread = .none := by rw [hthread, State.create, hs]; exact hs
        refine iff_of_false (fun hc => ?_) (by simp)
        have hlive : (s.deleteObject false p msec).live ≠ [] := by rw [State.live, hnone]; exact hadd
        have := hc hlive
        rw [hnone] at this
        cases this
    | returned =>
      have hsame : (s.deleteObject created p msec).thread = .returned := by
        rw [deleteObject_thread (by rw [hs]; simp), hs]
      refine iff_of_false (fun hc => ?_) (by simp)
      have hlive : (s.deleteObject created p msec).live ≠ [] := by rw [State.live, hsame]; exact hadd
      have := hc hlive
      rw [hsame] at this
      cases this
    | sleeping i since =>
      exact iff_of_true (cared_of_collects (by rw [deleteObject_thread (by rw [hs]; simp), hs]; rfl)) (by simp)
    | collecting i opened =>
      exact iff_of_true (cared_of_collects (by rw [deleteObject_thread (by rw [hs]; simp), hs]; rfl)) (by simp)
    | exiting i =>
      exact iff_of_true (cared_of_collects (by rw [deleteObject_thread (by rw [hs]; simp), hs]; rfl)) (by simp)

theorem cared_step {a : Action Obj} (h : s.Cared) (hstep : step s a = some t) : t.Cared ↔ Attended s a := by
  cases a with
  | elapse d =>
    obtain rfl := Option.some.inj hstep
    exact iff_of_true h trivial
  | deleteObject x msec created =>
    cases x with
    | none =>
      obtain rfl := Option.some.inj hstep
      exact iff_of_true h trivial
    | some p =>
      obtain ⟨-, hs'⟩ := Option.ite_none_right_eq_some.mp hstep
      obtain rfl := Option.some.inj hs'
      exact cared_deleteObject h created p msec
  | exit =>
    obtain rfl := Option.some.inj hstep
    refine iff_of_true ?_ trivial
    split
    · exact h
    · exact h
  | wake =>
    rw [step] at hstep
    split at hstep
    · obtain ⟨-, hs'⟩ := Option.ite_none_right_eq_some.mp hstep
      obtain rfl := Option.some.inj hs'
      refine iff_of_true (cared_of_collects ?_) trivial
      unfold State.wake
      split
      · rfl
      · split <;> rfl
    · cases hstep
  | visit calls =>
    rw [step] at hstep
    split at hstep
    · obtain rfl := Option.some.inj hstep
      exact iff_of_true (cared_of_collects (collects_collect _ _ _)) trivial
    · obtain rfl := Option.some.inj hstep
      exact iff_of_true (cared_clear _ _) trivial
    · cases hstep
  | ended =>
    obtain ⟨hs, hs'⟩ := Option.ite_none_right_eq_some.mp hstep
    obtain rfl := Option.some.inj hs'
    refine iff_of_true ?_ trivial
    intro hlive
    have hlive' : s.live ≠ [] := by rw [State.live, hs]; exact hlive
    have := h hlive'
    rw [hs] at this
    cases this

/-- **Who is left behind.** In all states of a run whatever is to be deleted has a thread that will delete it if and only
if no object is handed in between the last pass of a thread and its end and every thread that is needed is created. -/
theorem cared_iff_attended (acts : List (Action Obj)) :
    Along step Attended start acts ↔ ∀ as s, as <+: acts → run step start as = some s → s.Cared := by
  refine along_iff_prefixes (I := State.Cared) (J := fun _ => True) ?_ ?_ trivial (fun h => absurd rfl h) acts
  · intro s a hnone
    cases a with
    | deleteObject x msec created =>
      cases x with
      | none => trivial
      | some p =>
        have hlock : ¬(msec = 0 ∨ s.lockFree = true) := fun hor => by simp [step, hor] at hnone
        have hfree : s.lockFree = false := by simpa using fun hf => hlock (.inr hf)
        refine .inr ⟨fun hs => ?_, fun hs => ?_⟩ <;> simp [State.lockFree, hs] at hfree
    | elapse d => trivial
    | exit => trivial
    | wake => trivial
    | visit calls => trivial
    | ended => trivial
  · exact fun s a t _ h hstep => ⟨trivial, cared_step h hstep⟩

/-- The thread is told to exit and has gone over the array for the last time when an object is handed in. -/
theorem left_behind : ∃ s, run step start ([.deleteObject (some 1) 1000 true, .elapse 200, .exit, .wake, .visit [],
    .visit [], .deleteObject (some 2) 1000 true, .ended] : List (Action ℕ)) = some s ∧ s.thread = .none ∧
      s.pending.map Item.pObj = [2] := by
  have hrun : (run step start ([.deleteObject (some 1) 1000 true, .elapse 200, .exit, .wake, .visit [], .visit [],
      .deleteObject (some 2) 1000 true, .ended] : List (Action ℕ))).map (fun s => (s.thread, s.pending.map Item.pObj)) =
        some (.none, [2]) := by decide
  obtain ⟨s, hs, hv⟩ := Option.map_eq_some_iff.mp hrun
  exact ⟨s, hs, Prod.mk.inj hv⟩

end Cared

end Cpcf.Os.GarbageCollection
