import Mathlib.Data.Finset.Insert
import Mathlib.Data.Finset.Lattice.Basic
import Mathlib.Tactic
import Cpcf.Lib.Run

/-!
`inet::SocketEvent`: the sockets that `select` is asked about, in the build that is not for Windows.

The sets that are handed to `select` are kept between two waits and only added to, so what an operation drops it has to
clear there. `RemoveAll` does not, and `Assign` clears the pointers to the sets in place of the sets.
-/

namespace Cpcf.Inet

open Cpcf.Lib.Run

/-! ### Sets of descriptors -/

/-- `INVALID_SOCKET`. -/
def invalidSocket : ℤ := -1

/-- How many descriptors an `fd_set` has room for. -/
def fdSetSize : ℤ := 1024

/-- A descriptor that an `fd_set` has a bit for. -/
def InRange (x : ℤ) : Prop := 0 ≤ x ∧ x < fdSetSize

instance (x : ℤ) : Decidable (InRange x) := inferInstanceAs (Decidable (_ ∧ _))

/-- `FD_SET`. A descriptor without a bit is written outside the set. -/
def FD_SET (x : ℤ) (set : Finset ℤ) : Option (Finset ℤ) := if InRange x then some (insert x set) else none

/-- `FD_CLR`. -/
def FD_CLR (x : ℤ) (set : Finset ℤ) : Option (Finset ℤ) := if InRange x then some (set.erase x) else none

/-- `my_fd_set`. The set is `none` as long as nothing is allocated. -/
structure MyFdSet where
  lastGetevent : ℤ
  fdSet : Option (Finset ℤ)

namespace MyFdSet

/-- `assign_socket`: each socket is put into the set, which is not cleared before. -/
def assignSocket (set : Finset ℤ) (sockets : List ℤ) : Option (Finset ℤ) := sockets.foldlM (fun set x => FD_SET x set) set

/-- What `WaitForEvents` does with a set before it calls `select`. -/
def refresh (f : MyFdSet) (sockets : List ℤ) : Option MyFdSet :=
  match f.fdSet with
  | none => some f
  | some set => (assignSocket set sockets).map fun set => ⟨-1, some set⟩

/-- `FD_CLR` on a set if there is one. -/
def clear (f : MyFdSet) (x : ℤ) : Option MyFdSet :=
  match f.fdSet with
  | none => some f
  | some set => (FD_CLR x set).map fun set => { f with fdSet := some set }

/-- What `select` leaves of a set: those descriptors that are ready. -/
def select (f : MyFdSet) (ready : Finset ℤ) : MyFdSet := { f with fdSet := f.fdSet.map (· ∩ ready) }

/-- The loop of `get_next_event`, from socket number `i` on. -/
def seek (set : Finset ℤ) : ℕ → List ℤ → ℕ × ℤ
  | i, [] => (i, invalidSocket)
  | i, x :: xs => if x ∈ set then (i, x) else seek set (i + 1) xs

/-- `get_next_event`. The index is compared with a `SIZE_T`, so a negative one is beyond the end. -/
def getNextEvent (f : MyFdSet) (sockets : List ℤ) : MyFdSet × ℤ :=
  match f.fdSet with
  | none => (f, invalidSocket)
  | some set =>
    if f.lastGetevent + 1 < 0 then ({ f with lastGetevent := f.lastGetevent + 1 }, invalidSocket)
    else
      let (i, x) := seek set (f.lastGetevent + 1).toNat (sockets.drop (f.lastGetevent + 1).toNat)
      ({ f with lastGetevent := i }, x)

/-- The sockets that calling `get_next_event` gives until it gives `INVALID_SOCKET`, for at most `n` calls. -/
def events (sockets : List ℤ) : ℕ → MyFdSet → List ℤ
  | 0, _ => []
  | n + 1, f =>
    let (f, x) := getNextEvent f sockets
    if x = invalidSocket then [] else x :: events sockets n f

end MyFdSet

/-! ### The operations -/

/-- `_tagSocketEventType`. -/
inductive Signal
  | readIsReady
  | writeIsReady
  | exception
  deriving DecidableEq, Repr

/-- The bit of a signal in `signal_type`. -/
def Signal.bit : Signal → UInt32
  | readIsReady => 1
  | writeIsReady => 2
  | exception => 4

/-- The signals that are chosen at construction. -/
def Chosen (signal_type : UInt32) (σ : Signal) : Prop := signal_type &&& σ.bit ≠ 0

instance (signal_type : UInt32) (σ : Signal) : Decidable (Chosen signal_type σ) := inferInstanceAs (Decidable (_ ≠ _))

/-- `SocketEvent`. -/
structure SocketEvent where
  fdSetRead : MyFdSet
  fdSetWrite : MyFdSet
  fdSetException : MyFdSet
  sockets : List ℤ
  fdMax : ℤ

namespace SocketEvent

/-- The set of a signal. -/
def set (e : SocketEvent) : Signal → MyFdSet
  | .readIsReady => e.fdSetRead
  | .writeIsReady => e.fdSetWrite
  | .exception => e.fdSetException

/-- `SocketEvent::SocketEvent`. The constructor leaves `_last_getevent` as it is in memory. -/
def new (signal_type : UInt32) (memory : Signal → ℤ) : SocketEvent where
  fdSetRead := ⟨memory .readIsReady, if Chosen signal_type .readIsReady then some ∅ else none⟩
  fdSetWrite := ⟨memory .writeIsReady, if Chosen signal_type .writeIsReady then some ∅ else none⟩
  fdSetException := ⟨memory .exception, if Chosen signal_type .exception then some ∅ else none⟩
  sockets := []
  fdMax := 0

/-- `_UpdateFDMax`. -/
def updateFDMax (e : SocketEvent) : SocketEvent := { e with fdMax := e.sockets.foldl max 0 }

/-- `Add`. -/
def add (e : SocketEvent) (x : ℤ) : SocketEvent :=
  if x ∈ e.sockets then e else { e with sockets := e.sockets ++ [x], fdMax := max e.fdMax x }

/-- `Assign`. `rt::Zero` is given the pointer to a set, so it clears the pointer. -/
def assign (e : SocketEvent) (p : List ℤ) : SocketEvent :=
  updateFDMax { e with
    sockets := p
    fdSetRead := { e.fdSetRead with fdSet := none }
    fdSetWrite := { e.fdSetWrite with fdSet := none }
    fdSetException := { e.fdSetException with fdSet := none } }

/-- The loop of `Remove`: the socket that moves into the place of an erased one is passed over. -/
def eraseLoop (x : ℤ) : List ℤ → List ℤ
  | [] => []
  | [y] => if x = y then [] else [y]
  | y :: z :: ys => if x = y then z :: eraseLoop x ys else y :: eraseLoop x (z :: ys)

/-- `Remove`. -/
def remove (e : SocketEvent) (x : ℤ) : Option SocketEvent := do
  let r ← e.fdSetRead.clear x
  let w ← e.fdSetWrite.clear x
  let ex ← e.fdSetException.clear x
  some (updateFDMax ⟨r, w, ex, eraseLoop x e.sockets, e.fdMax⟩)

/-- `RemoveAll`. -/
def removeAll (e : SocketEvent) : SocketEvent := { e with sockets := [] }

/-- What `select` is called with. -/
structure SelectCall where
  nfds : ℤ
  given : Signal → Option (Finset ℤ)

/-- `WaitForEvents`, where those of the sockets are ready that `ready` has: the call of `select` if there is one. -/
def waitForEvents (e : SocketEvent) (ready : Signal → Finset ℤ) : Option (SocketEvent × Option SelectCall) :=
  if e.sockets.length = 0 then some (e, none)
  else do
    let r ← e.fdSetRead.refresh e.sockets
    let w ← e.fdSetWrite.refresh e.sockets
    let ex ← e.fdSetException.refresh e.sockets
    let e : SocketEvent := { e with fdSetRead := r, fdSetWrite := w, fdSetException := ex }
    some ({ e with
      fdSetRead := r.select (ready .readIsReady)
      fdSetWrite := w.select (ready .writeIsReady)
      fdSetException := ex.select (ready .exception) },
      some ⟨e.fdMax + 1, fun σ => (e.set σ).fdSet⟩)

/-- The sockets that `GetNextSocketEvent_*` gives for a signal, for at most `n` calls. -/
def nextSocketEvents (e : SocketEvent) (σ : Signal) (n : ℕ) : List ℤ := (e.set σ).events e.sockets n

/-! ### Runs -/

/-- A `SocketEvent` and the sockets added or assigned and not removed since. -/
structure State where
  event : SocketEvent
  registered : Finset ℤ

/-- A call of one of the operations. -/
inductive Op
  | add (x : ℤ)
  | remove (x : ℤ)
  | removeAll
  | assign (p : List ℤ)
  | waitForEvents (ready : Signal → Finset ℤ)

/-- One call. -/
def step (s : State) : Op → Option State
  | .add x => some ⟨s.event.add x, insert x s.registered⟩
  | .remove x => (s.event.remove x).map fun e => ⟨e, s.registered.erase x⟩
  | .removeAll => some ⟨s.event.removeAll, ∅⟩
  | .assign p => some ⟨s.event.assign p, p.toFinset⟩
  | .waitForEvents ready => (s.event.waitForEvents ready).map fun (e, _) => ⟨e, s.registered⟩

/-- Nothing is registered yet. -/
def start (signal_type : UInt32) (memory : Signal → ℤ) : State := ⟨.new signal_type memory, ∅⟩

/-! ### The sets -/

end SocketEvent

theorem FD_SET_of_inRange {x : ℤ} (h : InRange x) (set : Finset ℤ) : FD_SET x set = some (insert x set) := if_pos h

theorem FD_CLR_of_inRange {x : ℤ} (h : InRange x) (set : Finset ℤ) : FD_CLR x set = some (set.erase x) := if_pos h

namespace MyFdSet

theorem assignSocket_eq {sockets : List ℤ} (h : ∀ x ∈ sockets, InRange x) (set : Finset ℤ) :
    assignSocket set sockets = some (set ∪ sockets.toFinset) := by
  induction sockets generalizing set with
  | nil => simp [assignSocket]
  | cons x xs ih =>
    have hx := FD_SET_of_inRange (h x (by simp)) set
    have hxs := ih (fun y hy => h y (by simp [hy])) (insert x set)
    unfold assignSocket at hxs ⊢
    rw [List.foldlM_cons, hx, Option.bind_eq_bind, Option.bind_some, hxs]
    congr 1
    ext y
    simp only [Finset.mem_union, Finset.mem_insert, List.mem_toFinset, List.mem_cons]
    tauto

/-- A refreshed set has the sockets and what it had before, and is about to be gone through from the start. -/
theorem refresh_eq (f : MyFdSet) {sockets : List ℤ} (h : f.fdSet ≠ none → ∀ x ∈ sockets, InRange x) :
    ∃ g, f.refresh sockets = some g ∧ g.fdSet = f.fdSet.map (· ∪ sockets.toFinset) ∧
      (f.fdSet ≠ none → g.lastGetevent = -1) := by
  unfold refresh
  rcases hf : f.fdSet with _ | set
  · exact ⟨f, rfl, by simp [hf], by simp⟩
  · refine ⟨⟨-1, some (set ∪ sockets.toFinset)⟩, ?_, rfl, fun _ => rfl⟩
    simp only [assignSocket_eq (h (by simp [hf])) set, Option.map_some]

theorem clear_eq (f : MyFdSet) {x : ℤ} (h : f.fdSet ≠ none → InRange x) :
    ∃ g, f.clear x = some g ∧ g.fdSet = f.fdSet.map (·.erase x) := by
  unfold clear
  rcases hf : f.fdSet with _ | set
  · exact ⟨f, rfl, by simp [hf]⟩
  · exact ⟨{ f with fdSet := some (set.erase x) }, by simp [FD_CLR_of_inRange (h (by simp [hf]))], rfl⟩

theorem seek_spec (set : Finset ℤ) : ∀ (i : ℕ) (xs : List ℤ),
    ((xs.filter (· ∈ set) = [] ∧ (seek set i xs).2 = invalidSocket) ∨
      ∃ x ys, xs.filter (· ∈ set) = x :: ys.filter (· ∈ set) ∧ x ∈ xs ∧ (seek set i xs).2 = x ∧
        i ≤ (seek set i xs).1 ∧ ys = xs.drop ((seek set i xs).1 - i + 1))
  | _, [] => .inl ⟨rfl, rfl⟩
  | i, x :: xs => by
    by_cases hx : x ∈ set
    · exact .inr ⟨x, xs, by simp [hx], by simp, by simp [seek, hx], by simp [seek, hx], by simp [seek, hx]⟩
    · rw [List.filter_cons_of_neg (by simpa using hx), seek, if_neg hx]
      rcases seek_spec set (i + 1) xs with h | ⟨y, ys, hfilter, hmem, hval, hle, hys⟩
      · exact .inl h
      · refine .inr ⟨y, ys, hfilter, by simp [hmem], hval, by omega, ?_⟩
        rw [hys, show (seek set (i + 1) xs).1 - i + 1 = (seek set (i + 1) xs).1 - (i + 1) + 1 + 1 by omega,
          List.drop_succ_cons]

/-- Going through a set gives the sockets in it that come after the last one given. -/
theorem events_eq {set : Finset ℤ} {sockets : List ℤ} (hvalid : ∀ x ∈ sockets, x ≠ invalidSocket) :
    ∀ {n i : ℕ} {f : MyFdSet}, f.fdSet = some set → f.lastGetevent + 1 = i → sockets.length - i < n →
      f.events sockets n = (sockets.drop i).filter (· ∈ set)
  | 0, _, _, _, _, hn => by omega
  | n + 1, i, f, hf, hi, hn => by
    have hnext : f.getNextEvent sockets =
        ({ f with lastGetevent := (seek set i (sockets.drop i)).1 }, (seek set i (sockets.drop i)).2) := by
      unfold getNextEvent
      simp [hf, hi]
    rw [events, hnext]
    rcases seek_spec set i (sockets.drop i) with ⟨hfilter, hval⟩ | ⟨x, ys, hfilter, hmem, hval, hle, hys⟩
    · simp only [hval, if_true, hfilter]
    · simp only [hval, if_neg (hvalid x (List.mem_of_mem_drop hmem)), hfilter]
      have hlt : i < sockets.length := by
        by_contra h
        simp [List.drop_eq_nil_of_le (not_lt.mp h)] at hmem
      rw [events_eq hvalid (f := { f with lastGetevent := (seek set i (sockets.drop i)).1 })
        (i := (seek set i (sockets.drop i)).1 + 1) hf (by push_cast; rfl) (by omega), hys, List.drop_drop]
      congr 3
      omega

end MyFdSet

namespace SocketEvent

/-- Some signal is watched for. -/
def Watching (e : SocketEvent) : Prop := ∃ σ, (e.set σ).fdSet ≠ none

variable {e : SocketEvent}

theorem Watching.of_ne {σ : Signal} (h : (e.set σ).fdSet ≠ none) : e.Watching := ⟨σ, h⟩

theorem waitForEvents_nil (h : e.sockets = []) (ready : Signal → Finset ℤ) :
    e.waitForEvents ready = some (e, none) := by simp [waitForEvents, h]

/-- Waiting hands the sockets to `select` with what was left in the sets, and keeps what is ready of that. -/
theorem waitForEvents_eq (hr : e.Watching → ∀ x ∈ e.sockets, InRange x) (h : e.sockets ≠ [])
    (ready : Signal → Finset ℤ) :
    ∃ t, e.waitForEvents ready
        = some (t, some ⟨e.fdMax + 1, fun σ => (e.set σ).fdSet.map (· ∪ e.sockets.toFinset)⟩) ∧
      t.sockets = e.sockets ∧ t.fdMax = e.fdMax ∧
      ∀ σ, (t.set σ).fdSet = (e.set σ).fdSet.map (fun set => (set ∪ e.sockets.toFinset) ∩ ready σ) ∧
        ((e.set σ).fdSet ≠ none → (t.set σ).lastGetevent = -1) := by
  obtain ⟨r, hr1, hr2, hr3⟩ := e.fdSetRead.refresh_eq fun h => hr (Watching.of_ne (σ := .readIsReady) h)
  obtain ⟨w, hw1, hw2, hw3⟩ := e.fdSetWrite.refresh_eq fun h => hr (Watching.of_ne (σ := .writeIsReady) h)
  obtain ⟨x, hx1, hx2, hx3⟩ := e.fdSetException.refresh_eq fun h => hr (Watching.of_ne (σ := .exception) h)
  refine ⟨{ e with
    fdSetRead := r.select (ready .readIsReady)
    fdSetWrite := w.select (ready .writeIsReady)
    fdSetException := x.select (ready .exception) }, ?_, rfl, rfl, ?_⟩
  · unfold waitForEvents
    rw [if_neg (by simpa using h), hr1, hw1, hx1]
    simp only [Option.bind_eq_bind, Option.bind_some, Option.some.injEq, Prod.mk.injEq, true_and, SelectCall.mk.injEq]
    funext σ
    cases σ
    · exact hr2
    · exact hw2
    · exact hx2
  · rintro (_ | _ | _)
    · exact ⟨by simp [set, MyFdSet.select, hr2, Function.comp_def], hr3⟩
    · exact ⟨by simp [set, MyFdSet.select, hw2, Function.comp_def], hw3⟩
    · exact ⟨by simp [set, MyFdSet.select, hx2, Function.comp_def], hx3⟩

theorem remove_eq {x : ℤ} (hr : e.Watching → InRange x) :
    ∃ t, e.remove x = some t ∧ t.sockets = eraseLoop x e.sockets ∧ t.fdMax = (eraseLoop x e.sockets).foldl max 0 ∧
      ∀ σ, (t.set σ).fdSet = (e.set σ).fdSet.map (·.erase x) := by
  obtain ⟨r, hr1, hr2⟩ := e.fdSetRead.clear_eq fun h => hr (Watching.of_ne (σ := .readIsReady) h)
  obtain ⟨w, hw1, hw2⟩ := e.fdSetWrite.clear_eq fun h => hr (Watching.of_ne (σ := .writeIsReady) h)
  obtain ⟨y, hy1, hy2⟩ := e.fdSetException.clear_eq fun h => hr (Watching.of_ne (σ := .exception) h)
  refine ⟨updateFDMax ⟨r, w, y, eraseLoop x e.sockets, e.fdMax⟩, by simp [remove, hr1, hw1, hy1], rfl, rfl, ?_⟩
  rintro (_ | _ | _)
  · exact hr2
  · exact hw2
  · exact hy2

theorem eraseLoop_of_notMem {x : ℤ} : ∀ {xs : List ℤ}, x ∉ xs → eraseLoop x xs = xs
  | [], _ => rfl
  | [y], h => by
    rw [eraseLoop, if_neg (by simpa using h)]
  | y :: z :: ys, h => by
    simp only [List.mem_cons, not_or] at h
    rw [eraseLoop, if_neg h.1, eraseLoop_of_notMem (by simp [h.2.1, h.2.2])]

/-- Of sockets that are all different the loop erases the one that it is to erase. -/
theorem eraseLoop_eq {x : ℤ} : ∀ {xs : List ℤ}, xs.Nodup → eraseLoop x xs = xs.erase x
  | [], _ => rfl
  | [y], _ => by
    by_cases h : x = y
    · simp [eraseLoop, h]
    · simp [eraseLoop, h, Ne.symm h]
  | y :: z :: ys, hnd => by
    by_cases h : x = y
    · subst h
      have hx : x ∉ ys := fun hx => (List.nodup_cons.mp hnd).1 (by simp [hx])
      simp [eraseLoop, eraseLoop_of_notMem hx]
    · rw [eraseLoop, if_neg h, eraseLoop_eq (List.nodup_cons.mp hnd).2]
      exact (List.erase_cons_tail (by simpa using Ne.symm h)).symm

theorem le_foldl_max (xs : List ℤ) : ∀ m : ℤ, m ≤ xs.foldl max m ∧ ∀ x ∈ xs, x ≤ xs.foldl max m := by
  induction xs with
  | nil => simp
  | cons y ys ih =>
    intro m
    obtain ⟨hm, hys⟩ := ih (max m y)
    refine ⟨(le_max_left m y).trans hm, fun x hx => ?_⟩
    rcases List.mem_cons.mp hx with rfl | hx
    · exact (le_max_right m x).trans hm
    · exact hys x hx

/-! ### The sets are kept right -/

/-- What is kept between two calls while a signal is watched for. -/
structure Kept (s : State) : Prop where
  nodup : s.event.sockets.Nodup
  registered : s.event.sockets.toFinset = s.registered
  inRange : ∀ x ∈ s.event.sockets, InRange x
  fdMax : ∀ x ∈ s.event.sockets, x ≤ s.event.fdMax
  subset : ∀ σ, ∀ set ∈ (s.event.set σ).fdSet, set ⊆ s.registered

/-- There is a set for each chosen signal, and what is in the sets is registered. -/
structure Inv (signal_type : UInt32) (s : State) : Prop where
  chosen : ∀ σ, (s.event.set σ).fdSet ≠ none ↔ Chosen signal_type σ
  kept : s.event.Watching → Kept s

/-- A call that keeps the sets right. A descriptor has a bit in the sets, `RemoveAll` is called when the sets hold
nothing, and `Assign` when there are no sets. -/
def Keeps (s : State) : Op → Prop
  | .add x | .remove x => s.event.Watching → InRange x
  | .removeAll => ∀ σ, ∀ set ∈ (s.event.set σ).fdSet, set = ∅
  | .assign _ => ¬s.event.Watching
  | .waitForEvents _ => True

variable {signal_type : UInt32} {memory : Signal → ℤ} {s t : State}

theorem new_set (σ : Signal) : ((new signal_type memory).set σ).fdSet = if Chosen signal_type σ then some ∅ else none := by
  cases σ <;> rfl

theorem inv_start : Inv signal_type (start signal_type memory) where
  chosen σ := by
    unfold start
    rw [new_set]
    split <;> simp_all
  kept _ := by
    refine ⟨List.nodup_nil, rfl, by simp [start, new], by simp [start, new], fun σ set hset => ?_⟩
    unfold start at hset
    rw [new_set] at hset
    split at hset
    · simp only [Option.mem_def, Option.some.injEq] at hset
      simp [← hset]
    · cases hset

theorem set_add (e : SocketEvent) (x : ℤ) (σ : Signal) : (e.add x).set σ = e.set σ := by
  unfold add
  split <;> cases σ <;> rfl

theorem inv_add {x : ℤ} (h : Inv signal_type s) (hx : s.event.Watching → InRange x) :
    Inv signal_type ⟨s.event.add x, insert x s.registered⟩ := by
  have hw : (s.event.add x).Watching ↔ s.event.Watching := by simp [Watching, set_add]
  refine ⟨fun σ => by rw [set_add]; exact h.chosen σ, fun hwatch => ?_⟩
  have hk := h.kept (hw.mp hwatch)
  have hr := hx (hw.mp hwatch)
  have hsub : ∀ σ, ∀ set ∈ ((s.event.add x).set σ).fdSet, set ⊆ insert x s.registered := fun σ set hset => by
    rw [set_add] at hset
    exact (hk.subset σ set hset).trans (Finset.subset_insert _ _)
  by_cases hmem : x ∈ s.event.sockets
  · have heq : s.event.add x = s.event := if_pos hmem
    have hreg : insert x s.registered = s.registered := by
      rw [Finset.insert_eq_self, ← hk.registered, List.mem_toFinset]
      exact hmem
    rw [heq, hreg]
    exact hk
  · have heq : s.event.add x = { s.event with sockets := s.event.sockets ++ [x], fdMax := max s.event.fdMax x } :=
      if_neg hmem
    refine ⟨?_, ?_, ?_, ?_, hsub⟩
    · rw [heq, List.nodup_append]
      refine ⟨hk.nodup, List.nodup_singleton x, ?_⟩
      rintro y hy z hz rfl
      exact hmem ((List.mem_singleton.mp hz) ▸ hy)
    · rw [heq]
      ext y
      simp only [List.toFinset_append, hk.registered, Finset.mem_union, List.mem_toFinset, List.mem_singleton,
        Finset.mem_insert]
      tauto
    · rw [heq]
      intro y hy
      rcases List.mem_append.mp hy with hy | hy
      · exact hk.inRange y hy
      · exact (List.mem_singleton.mp hy) ▸ hr
    · rw [heq]
      intro y hy
      rcases List.mem_append.mp hy with hy | hy
      · exact (hk.fdMax y hy).trans (le_max_left _ _)
      · exact (List.mem_singleton.mp hy) ▸ le_max_right _ _

theorem inv_remove {x : ℤ} (h : Inv signal_type s) (hx : s.event.Watching → InRange x)
    (ht : step s (.remove x) = some t) : Inv signal_type t := by
  obtain ⟨e, he, hsockets, hmax, hset⟩ := remove_eq hx
  simp only [step, he, Option.map_some, Option.some.injEq] at ht
  subst ht
  refine ⟨fun σ => by simpa [hset] using h.chosen σ, fun ⟨σ, hσ⟩ => ?_⟩
  have hk := h.kept ⟨σ, by simpa [hset] using hσ⟩
  have herase := eraseLoop_eq (x := x) hk.nodup
  refine ⟨?_, ?_, ?_, ?_, ?_⟩
  · rw [hsockets, herase]
    exact hk.nodup.erase x
  · ext y
    simp only [hsockets, herase, List.mem_toFinset, hk.nodup.mem_erase_iff, Finset.mem_erase, ← hk.registered]
  · intro y hy
    rw [hsockets, herase] at hy
    exact hk.inRange y (List.mem_of_mem_erase hy)
  · intro y hy
    rw [hmax]
    exact (le_foldl_max _ 0).2 y (hsockets ▸ hy)
  · intro σ' set hs
    rw [hset] at hs
    obtain ⟨set', hset', rfl⟩ := Option.map_eq_some_iff.mp hs
    exact Finset.erase_subset_erase x (hk.subset σ' set' hset')

theorem inv_removeAll (h : Inv signal_type s) (hnone : ∀ σ, ∀ set ∈ (s.event.set σ).fdSet, set = ∅) :
    Inv signal_type ⟨s.event.removeAll, ∅⟩ := by
  have hset : ∀ σ, s.event.removeAll.set σ = s.event.set σ := fun σ => by cases σ <;> rfl
  refine ⟨fun σ => by rw [hset]; exact h.chosen σ, fun _ => ?_⟩
  refine ⟨List.nodup_nil, rfl, by simp [removeAll], by simp [removeAll], fun σ set hs => ?_⟩
  rw [hset] at hs
  exact (hnone σ set hs).subset

theorem not_watching_assign (e : SocketEvent) (p : List ℤ) : ¬(e.assign p).Watching := by
  rintro ⟨_ | _ | _, h⟩ <;> exact h rfl

theorem inv_assign {p : List ℤ} (h : Inv signal_type s) (hnone : ¬s.event.Watching) :
    Inv signal_type ⟨s.event.assign p, p.toFinset⟩ where
  chosen σ := by
    rw [← h.chosen σ]
    exact iff_of_false (fun hσ => not_watching_assign _ _ ⟨σ, hσ⟩) fun hσ => hnone ⟨σ, hσ⟩
  kept hw := absurd hw (not_watching_assign _ _)

theorem inv_waitForEvents {ready : Signal → Finset ℤ} (h : Inv signal_type s)
    (ht : step s (.waitForEvents ready) = some t) : Inv signal_type t := by
  by_cases hnil : s.event.sockets = []
  · simp only [step, waitForEvents_nil hnil, Option.map_some, Option.some.injEq] at ht
    exact ht ▸ h
  · obtain ⟨e, he, hsockets, hmax, hset⟩ := waitForEvents_eq (fun hw => (h.kept hw).inRange) hnil ready
    simp only [step, he, Option.map_some, Option.some.injEq] at ht
    subst ht
    refine ⟨fun σ => by simpa [(hset σ).1] using h.chosen σ, fun ⟨σ, hσ⟩ => ?_⟩
    have hk := h.kept ⟨σ, by simpa [(hset σ).1] using hσ⟩
    refine ⟨hsockets ▸ hk.nodup, hsockets ▸ hk.registered, hsockets ▸ hk.inRange, ?_, ?_⟩
    · rw [hsockets, hmax]
      exact hk.fdMax
    · intro σ' set hs
      rw [(hset σ').1] at hs
      obtain ⟨set', hset', rfl⟩ := Option.map_eq_some_iff.mp hs
      exact Finset.inter_subset_left.trans (Finset.union_subset (hk.subset σ' set' hset') hk.registered.subset)

/-- One call keeps the invariant. -/
theorem inv_step (h : Inv signal_type s) (op : Op) (hop : Keeps s op) (ht : step s op = some t) : Inv signal_type t := by
  cases op with
  | add x => exact Option.some.inj ht ▸ inv_add h hop
  | remove x => exact inv_remove h hop ht
  | removeAll => exact Option.some.inj ht ▸ inv_removeAll h hop
  | assign p => exact Option.some.inj ht ▸ inv_assign h hop
  | waitForEvents ready => exact inv_waitForEvents h ht

theorem reachable_inv (h : Reachable step Keeps (start signal_type memory) s) : Inv signal_type s :=
  h.invariant inv_start fun _ op _ hinv hop ht => inv_step hinv op hop ht

/-! ### What `select` is asked and what comes out -/

/-- A wait that called `select` and left the event as `t`: each chosen signal is asked about exactly the registered
sockets, and going through its events then gives those of them that are ready, each once. -/
structure Served (signal_type : UInt32) (registered : Finset ℤ) (ready : Signal → Finset ℤ) (call : SelectCall)
    (t : SocketEvent) : Prop where
  given : ∀ σ, Chosen signal_type σ → call.given σ = some registered
  above : (∃ σ, Chosen signal_type σ) → ∀ x ∈ registered, x < call.nfds
  nodup : ∀ σ, Chosen signal_type σ → ∀ n, t.sockets.length < n → (t.nextSocketEvents σ n).Nodup
  mem : ∀ σ, Chosen signal_type σ → ∀ n, t.sockets.length < n →
    ∀ x, x ∈ t.nextSocketEvents σ n ↔ x ∈ registered ∧ x ∈ ready σ

theorem Inv.served (h : Inv signal_type s) (ready : Signal → Finset ℤ) :
    ∃ t call, s.event.waitForEvents ready = some (t, call) ∧
      ∀ c ∈ call, Served signal_type s.registered ready c t := by
  by_cases hnil : s.event.sockets = []
  · exact ⟨s.event, none, waitForEvents_nil hnil ready, by simp⟩
  obtain ⟨t, ht, hsockets, hmax, hset⟩ := waitForEvents_eq (fun hw => (h.kept hw).inRange) hnil ready
  refine ⟨t, _, ht, fun c hc => ?_⟩
  obtain rfl := Option.some.inj hc
  have hwatch : ∀ σ, Chosen signal_type σ → s.event.Watching := fun σ hσ => ⟨σ, (h.chosen σ).mpr hσ⟩
  have hgiven : ∀ σ, Chosen signal_type σ →
      (s.event.set σ).fdSet.map (· ∪ s.event.sockets.toFinset) = some s.registered := fun σ hσ => by
    have hk := h.kept (hwatch σ hσ)
    obtain ⟨set, hs⟩ := Option.ne_none_iff_exists'.mp ((h.chosen σ).mpr hσ)
    rw [hs, Option.map_some, hk.registered, Finset.union_eq_right.mpr (hk.subset σ set hs)]
  have hevents : ∀ σ, Chosen signal_type σ → ∀ n, t.sockets.length < n →
      t.nextSocketEvents σ n = s.event.sockets.filter (· ∈ s.registered ∩ ready σ) := fun σ hσ n hn => by
    have hk := h.kept (hwatch σ hσ)
    have hleft : (t.set σ).fdSet = some (s.registered ∩ ready σ) := by
      obtain ⟨set, hs⟩ := Option.ne_none_iff_exists'.mp ((h.chosen σ).mpr hσ)
      have hunion := hgiven σ hσ
      rw [hs, Option.map_some, Option.some.injEq] at hunion
      rw [(hset σ).1, hs, Option.map_some, hunion]
    have hlast : (t.set σ).lastGetevent + 1 = (0 : ℕ) := by
      rw [(hset σ).2 ((h.chosen σ).mpr hσ)]
      rfl
    have hvalid : ∀ x ∈ s.event.sockets, x ≠ invalidSocket := fun x hx hneg => by
      have := (hk.inRange x hx).1
      simp [hneg, invalidSocket] at this
    unfold nextSocketEvents
    rw [hsockets] at hn ⊢
    rw [MyFdSet.events_eq hvalid hleft hlast (by omega), List.drop_zero]
  refine ⟨hgiven, ?_, ?_, ?_⟩
  · rintro ⟨σ, hσ⟩ x hx
    have hk := h.kept (hwatch σ hσ)
    rw [← hk.registered, List.mem_toFinset] at hx
    exact Int.lt_add_one_of_le (hk.fdMax x hx)
  · intro σ hσ n hn
    rw [hevents σ hσ n hn]
    exact (h.kept (hwatch σ hσ)).nodup.filter _
  · intro σ hσ n hn x
    rw [hevents σ hσ n hn, List.mem_filter, ← List.mem_toFinset, (h.kept (hwatch σ hσ)).registered]
    simp only [Finset.mem_inter, decide_eq_true_eq]
    tauto

theorem Inv.step_isSome (h : Inv signal_type s) (op : Op) (hop : Keeps s op) : (step s op).isSome := by
  cases op with
  | add x => rfl
  | remove x =>
    obtain ⟨e, he, -⟩ := remove_eq hop
    simp [step, he]
  | removeAll => rfl
  | assign p => rfl
  | waitForEvents ready =>
    obtain ⟨e, call, he, -⟩ := h.served ready
    simp [step, he]

/-- **The sets that `select` is given.** As long as `RemoveAll` finds the sets empty, `Assign` finds no sets and the
descriptors have a bit, no call goes outside the sets and every wait is served. -/
theorem socketEvent_served (signal_type : UInt32) (memory : Signal → ℤ) (s : State)
    (h : Reachable step Keeps (start signal_type memory) s) :
    (∀ op, Keeps s op → (step s op).isSome) ∧
      ∀ ready, ∃ t call, s.event.waitForEvents ready = some (t, call) ∧
        ∀ c ∈ call, Served signal_type s.registered ready c t :=
  ⟨(reachable_inv h).step_isSome, (reachable_inv h).served⟩

/-- A socket is added, waited for and removed, and another one is added and waited for. -/
theorem socketEvent_served_twoSockets :
    ∃ s : State, s.registered = {4} ∧ ∀ ready, ∃ t call, s.event.waitForEvents ready = some (t, call) ∧
      ∀ c ∈ call, Served 1 s.registered ready c t := by
  have hrun : Along step Keeps (start 1 fun _ => 0) [.add 3, .waitForEvents fun _ => {3}, .remove 3, .add 4] := by
    refine ⟨fun _ => by decide, fun s hs => ⟨trivial, fun s' hs' => ⟨fun _ => by decide, fun _ _ =>
      ⟨fun _ => by decide, fun _ _ => trivial⟩⟩⟩⟩
  exact ⟨_, rfl, (socketEvent_served 1 (fun _ => 0) _ (Reachable.start.of_run _ hrun rfl)).2⟩

/-- `RemoveAll` leaves the socket in the set: the next `select` is asked about it although it is not registered. After
`Assign`, `select` is given no set at all. -/
theorem socketEvent_not_served :
    (∃ s t c, run step (start 1 fun _ => 0) [.add 3, .waitForEvents fun _ => {3}, .removeAll, .add 4] = some s ∧
      s.event.waitForEvents (fun _ => ∅) = some (t, some c) ∧ ¬Served 1 s.registered (fun _ => ∅) c t) ∧
    ∃ s t c, run step (start 1 fun _ => 0) [.assign [3]] = some s ∧
      s.event.waitForEvents (fun _ => ∅) = some (t, some c) ∧ ¬Served 1 s.registered (fun _ => ∅) c t := by
  exact ⟨⟨_, _, _, rfl, rfl, fun h => absurd (h.given .readIsReady (by decide)) (by decide)⟩,
    ⟨_, _, _, rfl, rfl, fun h => absurd (h.given .readIsReady (by decide)) (by decide)⟩⟩

end SocketEvent

end Cpcf.Inet
