import Cpcf.Os.GarbageCollection

/-!
`os::ThreadSafeMutable`: an object that threads read while others change it.

A reader takes the pointer and reads, with no lock. A thread that changes the object has an `_TSM_Updater`, which holds
the lock, makes a copy of the object (or a new one), changes the copy and puts it in the place of the object; the old
one is handed to `GarbageCollection` and deleted later. The lock is recursive: a thread may open an updater while it has
another one.
-/

namespace Cpcf.Os.ThreadSafeMutable

open Cpcf.Lib.Run GarbageCollection

variable {ι T Other : Type}

/-! ### The object and its updaters -/

/-- What an updater did to its object: whether it was made with `New`, and the changes. -/
structure Update (T : Type) where
  fromNew : Bool
  changes : List (T → T)

/-- What an update makes of a value; `init` is what the constructor of the object makes. -/
def Update.apply (init : T) (u : Update T) (v : T) : T :=
  u.changes.foldl (fun v f => f v) (if u.fromNew then init else v)

/-- `_TSM_Updater`, with what it did. -/
structure Updater (T : Type) where
  cloned : Option ℕ
  update : Update T

/-- A call of `Get`: the object, what was in it, when it was, and how many updates there had been. -/
structure Read (T : Type) where
  obj : Option ℕ
  value : T
  time : ℕ
  count : ℕ

/-- `ThreadSafeMutable`, with the garbage collection and all objects that were made. -/
structure State (ι T Other : Type) where
  gc : GarbageCollection.State (ℕ ⊕ Other)
  p : Option ℕ
  content : ℕ → T
  /-- The number of objects made so far. -/
  made : ℕ
  /-- Who is in `_cs`. -/
  owner : Option ι
  /-- The open updaters of the owner, the last one first. -/
  updaters : List (Updater T)
  /-- `pOld`, between `_p = pNew` and `_SafeDel_Delayed`. -/
  retiring : Option ℕ
  /-- What `Revert` has deleted. -/
  dropped : List ℕ
  published : List (Update T)
  reads : List (Read T)

/-- What is in an object; with no object it is `_t`. -/
def State.valueAt (s : State ι T Other) (init : T) : Option ℕ → T
  | some x => s.content x
  | none => init

/-- `Get`. -/
def State.value (s : State ι T Other) (init : T) : T := s.valueAt init s.p

/-- `_cs.Unlock`. -/
def State.unlock (s : State ι T Other) : State ι T Other :=
  { s with owner := if s.updaters.isEmpty then none else s.owner }

/-- An updater that can go on. -/
def State.updater (s : State ι T Other) (k : ℕ) : Option (Updater T) :=
  match s.retiring with
  | none => s.updaters[k]?
  | some _ => none

/-- `ReadyModify`; `allocated` says whether there was memory for the object. -/
def State.readyModify (s : State ι T Other) (init : T) (k : ℕ) (u : Updater T) (fromNew allocated : Bool) :
    State ι T Other :=
  match u.cloned with
  | some _ => s
  | none =>
    if allocated then
      { s with
        content := Function.update s.content s.made (if fromNew then init else s.value init)
        made := s.made + 1, updaters := s.updaters.set k ⟨some s.made, ⟨fromNew, []⟩⟩ }
    else s

/-- A change of the object `x` of an updater. -/
def State.modify (s : State ι T Other) (k : ℕ) (u : Updater T) (f : T → T) (x : ℕ) : State ι T Other :=
  { s with
    content := Function.update s.content x (f (s.content x))
    updaters := s.updaters.set k ⟨some x, ⟨u.update.fromNew, u.update.changes ++ [f]⟩⟩ }

/-- `Revert`. -/
def State.revert (s : State ι T Other) (k : ℕ) (u : Updater T) : State ι T Other :=
  State.unlock { s with dropped := s.dropped ++ u.cloned.toList, updaters := s.updaters.eraseIdx k }

/-- `EndUpdate`, up to the old object. -/
def State.endUpdate (s : State ι T Other) (k : ℕ) (u : Updater T) : State ι T Other :=
  match u.cloned, s.p with
  | none, _ => State.unlock { s with updaters := s.updaters.eraseIdx k }
  | some x, none =>
    State.unlock { s with p := some x, updaters := s.updaters.eraseIdx k, published := s.published ++ [u.update] }
  | some x, some old =>
    { s with
      p := some x, updaters := s.updaters.eraseIdx k, retiring := some old, published := s.published ++ [u.update] }

/-- What happens next: a thread opens an updater; the owner of the lock readies its `k`-th updater, changes its object,
reverts it, commits it, or hands in the old object; a thread reads; or something happens to the garbage collection,
with other objects. -/
inductive Action (ι T Other : Type)
  | beginUpdate (i : ι) (justTry : Bool)
  | readyModify (k : ℕ) (fromNew allocated : Bool)
  | modify (k : ℕ) (f : T → T)
  | revert (k : ℕ)
  | commit (k : ℕ)
  | retire (created : Bool)
  | get
  | collector (a : GarbageCollection.Action Other)

def step [DecidableEq ι] (init : T) (TTL : UInt32) (s : State ι T Other) :
    Action ι T Other → Option (State ι T Other)
  | .beginUpdate i justTry =>
    if s.retiring = none ∧ (s.owner = none ∨ s.owner = some i) then
      some { s with owner := some i, updaters := ⟨none, ⟨false, []⟩⟩ :: s.updaters }
    else if justTry then some s else none
  | .readyModify k fromNew allocated => (s.updater k).map fun u => s.readyModify init k u fromNew allocated
  | .modify k f => (s.updater k).bind fun u => u.cloned.map (s.modify k u f)
  | .revert k => (s.updater k).map (s.revert k)
  | .commit k => (s.updater k).map (s.endUpdate k)
  | .retire created =>
    s.retiring.bind fun x => (GarbageCollection.step s.gc (.deleteObject (some (.inl x)) TTL created)).map fun gc =>
      State.unlock { s with gc := gc, retiring := none }
  | .get => some { s with reads := s.reads ++ [⟨s.p, s.value init, s.gc.now, s.published.length⟩] }
  | .collector a => (GarbageCollection.step s.gc (a.map .inr)).map fun gc => { s with gc := gc }

/-- No object was made yet. -/
def start (init : T) : State ι T Other := ⟨GarbageCollection.start, none, fun _ => init, 0, none, [], none, [], [], []⟩

/-! ### Where the objects are -/

/-- The objects of the updaters. -/
def clones (us : List (Updater T)) : List ℕ := us.filterMap Updater.cloned

/-- The objects that the garbage collection was asked to delete. -/
def retired (given : List ((ℕ ⊕ Other) × UInt32 × ℕ)) : List ℕ := given.filterMap (·.1.getLeft?)

/-- What a reader may have: the object, and those that were in its place before. -/
def State.shown (s : State ι T Other) : List ℕ := s.p.toList ++ s.retiring.toList ++ retired s.gc.given

/-- What holds of every state. Every object that was made is in one place; what a reader has seen is not changed and was
not handed in before it was read. -/
structure Inv (init : T) (TTL : UInt32) (s : State ι T Other) : Prop where
  gc : GarbageCollection.Inv s.gc
  owned : (s.shown ++ clones s.updaters ++ s.dropped).Perm (List.range s.made)
  ttl : ∀ g ∈ s.gc.given, ∀ x, g.1 = .inl x → g.2.1 = TTL
  atOnce : ∀ d ∈ s.gc.deleted, d.reason = .atOnce → d.item.msec = 0 ∧ d.item.born = d.time
  value : ∀ r ∈ s.reads, r.value = s.valueAt init r.obj
  time : ∀ r ∈ s.reads, r.time ≤ s.gc.now
  shown : ∀ r ∈ s.reads, ∀ x ∈ r.obj, x ∈ s.shown
  before : ∀ r ∈ s.reads, ∀ x ∈ r.obj, ∀ g ∈ s.gc.given, g.1 = .inl x → r.time ≤ g.2.2

section Steps

variable {init : T} {TTL : UInt32} {s t : State ι T Other} {k : ℕ} {u : Updater T}

theorem clones_cons (u : Updater T) (us : List (Updater T)) : clones (u :: us) = u.cloned.toList ++ clones us := by
  rw [clones, clones, List.filterMap_cons]
  cases u.cloned <;> rfl

theorem clones_eraseIdx {us : List (Updater T)} (h : us[k]? = some u) :
    (clones us).Perm (u.cloned.toList ++ clones (us.eraseIdx k)) := by
  obtain ⟨hk, rfl⟩ := List.getElem?_eq_some_iff.mp h
  rw [← clones_cons]
  exact (List.getElem_cons_eraseIdx_perm hk).symm.filterMap Updater.cloned

theorem clones_set {us : List (Updater T)} (h : us[k]? = some u) (v : Updater T) :
    (clones (us.set k v)).Perm (v.cloned.toList ++ clones (us.eraseIdx k)) := by
  obtain ⟨hk, -⟩ := List.getElem?_eq_some_iff.mp h
  rw [← clones_cons]
  exact (List.set_perm_cons_eraseIdx hk v).filterMap Updater.cloned

/-- Only an updater that is not at work in `EndUpdate` goes on. -/
theorem updater_eq_some : s.updater k = some u ↔ s.retiring = none ∧ s.updaters[k]? = some u := by
  rw [State.updater]
  cases s.retiring <;> simp

theorem Inv.nodup (h : Inv init TTL s) : (s.shown ++ clones s.updaters ++ s.dropped).Nodup :=
  h.owned.nodup_iff.mpr List.nodup_range

theorem Inv.lt_made (h : Inv init TTL s) {x : ℕ} (hx : x ∈ s.shown) : x < s.made :=
  List.mem_range.mp (h.owned.subset (List.mem_append_left _ (List.mem_append_left _ hx)))

/-- An updater's object is not what a reader may have. -/
theorem Inv.ne_of_shown (h : Inv init TTL s) (hu : s.updaters[k]? = some u) {x y : ℕ} (hx : u.cloned = some x)
    (hy : y ∈ s.shown) : y ≠ x := by
  have hmem : x ∈ clones s.updaters := List.mem_filterMap.mpr ⟨u, List.mem_of_getElem? hu, hx⟩
  have hdis := (List.nodup_append.mp (List.nodup_append.mp h.nodup).1).2.2
  exact hdis y hy x hmem

/-- Nothing that a reader may have is touched, and the garbage collection is left alone. -/
theorem Inv.frame (h : Inv init TTL s) (hgc : t.gc = s.gc) (hreads : t.reads = s.reads)
    (hshown : ∀ x ∈ s.shown, x ∈ t.shown ∧ t.content x = s.content x)
    (howned : (t.shown ++ clones t.updaters ++ t.dropped).Perm (List.range t.made)) : Inv init TTL t := by
  refine ⟨hgc ▸ h.gc, howned, hgc ▸ h.ttl, hgc ▸ h.atOnce, ?_, hreads ▸ hgc ▸ h.time, ?_, hreads ▸ hgc ▸ h.before⟩
  · intro r hr
    rw [hreads] at hr
    rw [h.value r hr]
    cases hobj : r.obj with
    | none => rfl
    | some x => exact (hshown x (h.shown r hr x hobj)).2.symm
  · intro r hr x hx
    rw [hreads] at hr
    exact (hshown x (h.shown r hr x hx)).1

/-- The garbage collection goes on, and what is handed in of the objects was read before. -/
theorem Inv.collected (h : Inv init TTL s) (hgc : GarbageCollection.Inv t.gc) {objects : List (ℕ ⊕ Other)}
    (hadds : Adds s.gc t.gc objects) {l : List ((ℕ ⊕ Other) × UInt32 × ℕ)} (hgiven : t.gc.given = s.gc.given ++ l)
    (hl : ∀ g ∈ l, ∀ x, g.1 = .inl x → g.2.1 = TTL ∧ s.gc.now ≤ g.2.2) (hreads : t.reads = s.reads)
    (hcontent : t.content = s.content) (hperm : t.shown.Perm s.shown) (hupdaters : t.updaters = s.updaters)
    (hdropped : t.dropped = s.dropped) (hmade : t.made = s.made) : Inv init TTL t := by
  refine ⟨hgc, ?_, ?_, ?_, ?_, ?_, ?_, ?_⟩
  · rw [hupdaters, hdropped, hmade]
    exact ((hperm.append_right _).append_right _).trans h.owned
  · intro g hg x hx
    rw [hgiven] at hg
    exact (List.mem_append.mp hg).elim (fun hg => h.ttl g hg x hx) fun hg => (hl g hg x hx).1
  · obtain ⟨m, hm, hd⟩ := hadds.deleted
    intro d hmem
    rw [hm] at hmem
    exact (List.mem_append.mp hmem).elim (h.atOnce d) (hd d)
  · intro r hr
    rw [hreads] at hr
    rw [h.value r hr]
    cases hobj : r.obj with
    | none => rfl
    | some x => exact (congrFun hcontent x).symm
  · intro r hr
    rw [hreads] at hr
    exact (h.time r hr).trans hadds.now_le
  · intro r hr x hx
    rw [hreads] at hr
    exact hperm.mem_iff.mpr (h.shown r hr x hx)
  · intro r hr x hx g hg hgx
    rw [hreads] at hr
    rw [hgiven] at hg
    exact (List.mem_append.mp hg).elim (fun hg => h.before r hr x hx g hg hgx) fun hg =>
      (h.time r hr).trans (hl g hg x hgx).2

/-! ### One step -/

theorem inv_unlock (h : Inv init TTL s) : Inv init TTL s.unlock :=
  ⟨h.gc, h.owned, h.ttl, h.atOnce, h.value, h.time, h.shown, h.before⟩

theorem inv_readyModify (h : Inv init TTL s) (hu : s.updaters[k]? = some u) (fromNew allocated : Bool) :
    Inv init TTL (s.readyModify init k u fromNew allocated) := by
  unfold State.readyModify
  split
  · exact h
  · rename_i hnone
    split
    · refine h.frame rfl rfl (fun x hx => ⟨hx, ?_⟩) ?_
      · exact Function.update_of_ne (h.lt_made hx).ne _ _
      · have hset := clones_set hu ⟨some s.made, ⟨fromNew, []⟩⟩
        have herase := clones_eraseIdx hu
        rw [hnone] at herase
        have howned := h.owned
        rw [List.perm_iff_count] at hset herase howned ⊢
        intro x
        have h1 := hset x
        have h2 := herase x
        have h3 := howned x
        rw [List.range_succ]
        simp only [List.count_append, Option.toList, List.count_nil] at h1 h2 h3 ⊢
        simp only [State.shown, List.count_append] at h3 ⊢
        omega
    · exact h

theorem inv_modify (h : Inv init TTL s) (hu : s.updaters[k]? = some u) {x : ℕ} (hx : u.cloned = some x) (f : T → T) :
    Inv init TTL (s.modify k u f x) := by
  refine h.frame rfl rfl (fun y hy => ⟨hy, ?_⟩) ?_
  · exact Function.update_of_ne (h.ne_of_shown hu hx hy) _ _
  · have hset := clones_set hu ⟨some x, ⟨u.update.fromNew, u.update.changes ++ [f]⟩⟩
    have herase := clones_eraseIdx hu
    rw [hx] at herase
    exact (((hset.trans herase.symm).append_left _).append_right _).trans h.owned

theorem inv_revert (h : Inv init TTL s) (hu : s.updaters[k]? = some u) : Inv init TTL (s.revert k u) := by
  refine inv_unlock (h.frame rfl rfl (fun y hy => ⟨hy, rfl⟩) ?_)
  refine List.Perm.trans ?_ h.owned
  dsimp only
  rw [List.append_assoc, List.append_assoc]
  refine List.Perm.append_left _ ?_
  refine List.Perm.trans ?_ ((clones_eraseIdx hu).symm.append_right _)
  rw [← List.append_assoc]
  exact List.perm_append_comm.trans (.of_eq (List.append_assoc _ _ _).symm)

theorem inv_endUpdate (h : Inv init TTL s) (hu : s.updaters[k]? = some u) (hretiring : s.retiring = none) :
    Inv init TTL (s.endUpdate k u) := by
  have herase := clones_eraseIdx hu
  have howned := h.owned
  unfold State.endUpdate
  split
  · rename_i hnone
    rw [hnone] at herase
    refine inv_unlock (h.frame rfl rfl (fun y hy => ⟨hy, rfl⟩) ?_)
    exact ((herase.symm.append_left _).append_right _).trans howned
  · rename_i x hx hp
    rw [hx] at herase
    refine inv_unlock (h.frame rfl rfl (fun y hy => ⟨?_, rfl⟩) ?_)
    · rw [State.shown, hp] at hy
      exact List.mem_cons_of_mem _ hy
    · refine List.Perm.trans (List.perm_iff_count.mpr fun y => ?_) howned
      have hcount := herase.count_eq y
      simp only [State.shown, hp, List.count_append, Option.toList, List.count_nil] at hcount ⊢
      omega
  · rename_i x old hx hp
    rw [hx] at herase
    refine h.frame rfl rfl (fun y hy => ⟨?_, rfl⟩) ?_
    · rw [State.shown, hp, hretiring] at hy
      exact List.mem_cons_of_mem _ hy
    · refine List.Perm.trans (List.perm_iff_count.mpr fun y => ?_) howned
      have hcount := herase.count_eq y
      simp only [State.shown, hp, hretiring, List.count_append, Option.toList, List.count_nil] at hcount ⊢
      omega

theorem inv_retire (h : Inv init TTL s) {x : ℕ} (hx : s.retiring = some x) {created : Bool}
    {gc : GarbageCollection.State (ℕ ⊕ Other)}
    (hgc : GarbageCollection.step s.gc (.deleteObject (some (.inl x)) TTL created) = some gc) :
    Inv init TTL { s with gc := gc, retiring := none } := by
  have hinv := GarbageCollection.inv_step h.gc hgc
  obtain ⟨-, hgc⟩ := Option.ite_none_right_eq_some.mp hgc
  obtain rfl := Option.some.inj hgc
  have hgiven := given_deleteObject (s := s.gc) created (.inl x) TTL
  refine h.collected hinv (adds_deleteObject created (Sum.inl x) TTL) hgiven ?_ rfl rfl ?_ rfl rfl rfl
  · intro g hg y hy
    obtain rfl := List.mem_singleton.mp hg
    exact ⟨rfl, le_rfl⟩
  · unfold State.shown
    dsimp only
    have hretired : retired (s.gc.given ++ [(.inl x, TTL, s.gc.now)]) = retired s.gc.given ++ [x] :=
      List.filterMap_append
    rw [hgiven, hx, hretired]
    refine List.perm_iff_count.mpr fun y => ?_
    simp only [List.count_append, Option.toList, List.count_nil]
    omega

theorem inv_collector (h : Inv init TTL s) {a : GarbageCollection.Action Other}
    {gc : GarbageCollection.State (ℕ ⊕ Other)} (hgc : GarbageCollection.step s.gc (a.map .inr) = some gc) :
    Inv init TTL { s with gc := gc } := by
  have hadds := step_adds hgc
  obtain ⟨l, hgiven, hl⟩ := hadds.given
  have hothers : ∀ g ∈ l, ∀ x, g.1 ≠ .inl x := by
    intro g hg x hx
    have hmem := hl g hg
    rw [objects_map, hx] at hmem
    obtain ⟨y, -, hy⟩ := List.mem_map.mp hmem
    cases hy
  refine h.collected (GarbageCollection.inv_step h.gc hgc) hadds hgiven ?_ rfl rfl ?_ rfl rfl rfl
  · exact fun g hg x hx => absurd hx (hothers g hg x)
  · have hnone : retired l = [] := by
      refine List.filterMap_eq_nil_iff.mpr fun g hg => ?_
      cases hobj : g.1 with
      | inl x => exact absurd hobj (hothers g hg x)
      | inr y => rfl
    unfold State.shown
    dsimp only
    rw [hgiven, retired, List.filterMap_append]
    rw [retired] at hnone
    rw [hnone, List.append_nil]
    rfl

theorem inv_get (h : Inv init TTL s) (n : ℕ) :
    Inv init TTL { s with reads := s.reads ++ [⟨s.p, s.value init, s.gc.now, n⟩] } := by
  refine ⟨h.gc, h.owned, h.ttl, h.atOnce, ?_, ?_, ?_, ?_⟩
  · intro r hr
    obtain hr | hr := List.mem_append.mp hr
    · exact h.value r hr
    · obtain rfl := List.mem_singleton.mp hr
      rfl
  · intro r hr
    obtain hr | hr := List.mem_append.mp hr
    · exact h.time r hr
    · obtain rfl := List.mem_singleton.mp hr
      exact le_rfl
  · intro r hr x hx
    obtain hr | hr := List.mem_append.mp hr
    · exact h.shown r hr x hx
    · obtain rfl := List.mem_singleton.mp hr
      exact List.mem_append_left _ (List.mem_append_left _ (Option.mem_toList.mpr hx))
  · intro r hr x hx g hg hgx
    obtain hr | hr := List.mem_append.mp hr
    · exact h.before r hr x hx g hg hgx
    · obtain rfl := List.mem_singleton.mp hr
      -- the object is not handed in while it is in its place
      have hp : x ∈ s.p.toList := Option.mem_toList.mpr hx
      have hretired : x ∈ retired s.gc.given := List.mem_filterMap.mpr ⟨g, hg, by rw [hgx]; rfl⟩
      have hnodup := (List.nodup_append.mp (List.nodup_append.mp h.nodup).1).1
      rw [State.shown, List.append_assoc] at hnodup
      exact absurd rfl ((List.nodup_append.mp hnodup).2.2 x hp x (List.mem_append_right _ hretired))

theorem inv_start : Inv init TTL (start init : State ι T Other) := by
  refine ⟨GarbageCollection.inv_start, .refl _, ?_, ?_, ?_, ?_, ?_, ?_⟩
  · exact fun g hg => absurd hg List.not_mem_nil
  · exact fun g hg => absurd hg List.not_mem_nil
  · exact fun r hr => absurd hr List.not_mem_nil
  · exact fun r hr => absurd hr List.not_mem_nil
  · exact fun r hr => absurd hr List.not_mem_nil
  · exact fun r hr => absurd hr List.not_mem_nil

theorem inv_step [DecidableEq ι] (h : Inv init TTL s) {a : Action ι T Other} (hstep : step init TTL s a = some t) :
    Inv init TTL t := by
  cases a with
  | beginUpdate i justTry =>
    rw [step] at hstep
    split at hstep
    · obtain rfl := Option.some.inj hstep
      exact ⟨h.gc, h.owned, h.ttl, h.atOnce, h.value, h.time, h.shown, h.before⟩
    · obtain ⟨-, ht⟩ := Option.ite_none_right_eq_some.mp hstep
      exact Option.some.inj ht ▸ h
  | readyModify k fromNew allocated =>
    obtain ⟨u, hu, rfl⟩ := Option.map_eq_some_iff.mp hstep
    exact inv_readyModify h (updater_eq_some.mp hu).2 fromNew allocated
  | modify k f =>
    obtain ⟨u, hu, hmod⟩ := Option.bind_eq_some_iff.mp hstep
    obtain ⟨x, hx, rfl⟩ := Option.map_eq_some_iff.mp hmod
    exact inv_modify h (updater_eq_some.mp hu).2 hx f
  | revert k =>
    obtain ⟨u, hu, rfl⟩ := Option.map_eq_some_iff.mp hstep
    exact inv_revert h (updater_eq_some.mp hu).2
  | commit k =>
    obtain ⟨u, hu, rfl⟩ := Option.map_eq_some_iff.mp hstep
    obtain ⟨hretiring, hu⟩ := updater_eq_some.mp hu
    exact inv_endUpdate h hu hretiring
  | retire created =>
    obtain ⟨x, hx, hret⟩ := Option.bind_eq_some_iff.mp hstep
    obtain ⟨gc, hgc, rfl⟩ := Option.map_eq_some_iff.mp hret
    exact inv_unlock (inv_retire h hx hgc)
  | get =>
    obtain rfl := Option.some.inj hstep
    exact inv_get h _
  | collector a =>
    obtain ⟨gc, hgc, rfl⟩ := Option.map_eq_some_iff.mp hstep
    exact inv_collector h hgc

/-! ### What readers have -/

/-- **Readers are left in peace.** In every run, also with updaters opened while others are open, every object that was
made is in one place: shown, with an updater, deleted by `Revert`, or with the garbage collection and deleted there at
most once. What a reader has is not changed any more and not deleted by `Revert`; and unless the garbage collection
exits it is not deleted before its time to live, less one second, has gone by since it was read. -/
theorem get_stays [DecidableEq ι] (h : Reachable (step init TTL) anyStep (start init) s) :
    (s.p.toList ++ s.retiring.toList ++ clones s.updaters ++ s.dropped ++
        retired (s.gc.live.map Item.request ++ s.gc.deleted.map (·.item.request))).Perm (List.range s.made) ∧
      ∀ r ∈ s.reads, r.value = s.valueAt init r.obj ∧ ∀ x ∈ r.obj, x ∉ clones s.updaters ∧ x ∉ s.dropped ∧
        ∀ d ∈ s.gc.deleted, d.item.pObj = .inl x → d.reason ≠ .exit → r.time + 1000 * (ttlOf TTL - 1) ≤ d.time := by
  have hinv : Inv init TTL s := h.invariant inv_start fun _ _ _ hs _ hst => inv_step hs hst
  refine ⟨?_, fun r hr => ⟨hinv.value r hr, fun x hx => ?_⟩⟩
  · have hperm : (retired (s.gc.live.map Item.request ++ s.gc.deleted.map (·.item.request))).Perm (retired s.gc.given) :=
      hinv.gc.perm.filterMap _
    refine List.Perm.trans (List.perm_iff_count.mpr fun y => ?_) hinv.owned
    have hcount := hperm.count_eq y
    simp only [State.shown, List.count_append] at hcount ⊢
    omega
  · have hshown := hinv.shown r hr x hx
    obtain ⟨hfirst, -, hdropped⟩ := List.nodup_append.mp hinv.nodup
    refine ⟨fun hmem => (List.nodup_append.mp hfirst).2.2 x hshown x hmem rfl,
      fun hmem => hdropped x (List.mem_append_left _ hshown) x hmem rfl, fun d hd hobj hreason => ?_⟩
    have hmem : d.item.request ∈ s.gc.given :=
      hinv.gc.perm.subset (List.mem_append_right _ (List.mem_map_of_mem hd))
    have hmsec : d.item.msec = TTL := hinv.ttl _ hmem x hobj
    have hborn : r.time ≤ d.item.born := hinv.before r hr x hx _ hmem hobj
    cases hwhy : d.reason with
    | exit => exact absurd hwhy hreason
    | atOnce =>
      obtain ⟨hzero, htime⟩ := hinv.atOnce d hd hwhy
      have hnone : ttlOf TTL = 0 := by rw [← hmsec, hzero]; rfl
      omega
    | pass =>
      obtain ⟨hseen, hlate⟩ := hinv.gc.inTime d hd hwhy
      rw [hmsec] at hseen
      omega

/-- An object is read, replaced by a copy, and deleted in the third pass. -/
def readAndReplaced : List (Action Bool ℕ Empty) :=
  [.beginUpdate true false, .readyModify 0 true true, .modify 0 (· + 5), .commit 0, .get, .beginUpdate false false,
    .readyModify 0 false true, .modify 0 (· + 1), .commit 0, .retire true] ++
      ((List.replicate 3 (second ++ [.visit [], .visit []])).flatten.map .collector)

theorem get_stays_readAndReplaced : ∃ s, run (step 0 2500) (start 0) readAndReplaced = some s ∧
    s.gc.deleted.map (fun d => (d.item.pObj, d.time)) = [(.inl 0, 3000)] ∧
      ∀ r ∈ s.reads, r.value = s.valueAt 0 r.obj := by
  have hrun : (run (step 0 2500) (start 0) readAndReplaced).map
      (fun s => s.gc.deleted.map fun d => (d.item.pObj, d.time)) = some [(.inl 0, 3000)] := by decide
  obtain ⟨s, hs, hv⟩ := Option.map_eq_some_iff.mp hrun
  exact ⟨s, hs, hv, fun r hr => ((get_stays (reachable_of_run _ hs)).2 r hr).1⟩

/-! ### No update is lost -/

/-- What the updates make of `init`, one after the other. -/
def applied (init : T) (us : List (Update T)) : T := us.foldl (fun v u => u.apply init v) init

/-- A thread does not open an updater while it has another one. -/
def Single (s : State ι T Other) : Action ι T Other → Prop
  | .beginUpdate i _ => s.owner ≠ some i
  | _ => True

instance [DecidableEq ι] (s : State ι T Other) (a : Action ι T Other) : Decidable (Single s a) :=
  match a with
  | .beginUpdate i _ => inferInstanceAs (Decidable (s.owner ≠ some i))
  | .readyModify _ _ _ => isTrue trivial
  | .modify _ _ => isTrue trivial
  | .revert _ => isTrue trivial
  | .commit _ => isTrue trivial
  | .retire _ => isTrue trivial
  | .get => isTrue trivial
  | .collector _ => isTrue trivial

/-- What holds of every state when updaters are not opened inside one another. -/
structure Serial (init : T) (TTL : UInt32) (s : State ι T Other) : Prop where
  inv : Inv init TTL s
  one : s.updaters.length ≤ 1
  free : s.owner = none → s.updaters = []
  value : s.value init = applied init s.published
  copied : ∀ u ∈ s.updaters, ∀ x ∈ u.cloned, s.content x = u.update.apply init (s.value init)
  seen : ∀ r ∈ s.reads, r.value = applied init (s.published.take r.count)
  count : ∀ r ∈ s.reads, r.count ≤ s.published.length

theorem applied_append (us : List (Update T)) (u : Update T) :
    applied init (us ++ [u]) = u.apply init (applied init us) := by
  rw [applied, List.foldl_append]
  rfl

/-- The reads are not concerned, and no update is published. -/
theorem Serial.frame (h : Serial init TTL s) (hinv : Inv init TTL t) (hone : t.updaters.length ≤ 1)
    (hfree : t.owner = none → t.updaters = []) (hvalue : t.value init = s.value init)
    (hpublished : t.published = s.published) (hreads : t.reads = s.reads)
    (hcopied : ∀ u ∈ t.updaters, ∀ x ∈ u.cloned, t.content x = u.update.apply init (s.value init)) :
    Serial init TTL t := by
  refine ⟨hinv, hone, hfree, ?_, ?_, ?_, ?_⟩
  · rw [hvalue, hpublished, h.value]
  · rw [hvalue]
    exact hcopied
  · rw [hreads, hpublished]
    exact h.seen
  · rw [hreads, hpublished]
    exact h.count

theorem serial_unlock (h : Serial init TTL s) : Serial init TTL s.unlock := by
  refine h.frame (inv_unlock h.inv) h.one ?_ rfl rfl rfl h.copied
  intro howner
  unfold State.unlock at howner ⊢
  dsimp only at howner ⊢
  split at howner
  · rename_i hempty
    exact List.isEmpty_iff.mp hempty
  · exact h.free howner

/-- There is one updater, if any. -/
theorem Serial.updaters_eq (h : Serial init TTL s) (hu : s.updaters[k]? = some u) : k = 0 ∧ s.updaters = [u] := by
  obtain ⟨hk, rfl⟩ := List.getElem?_eq_some_iff.mp hu
  have hone := h.one
  obtain ⟨v, hv⟩ := List.length_eq_one_iff.mp (by omega : s.updaters.length = 1)
  have hzero : k = 0 := by omega
  subst hzero
  simp [hv]

theorem value_eq (hp : t.p = s.p) (hcontent : ∀ x ∈ s.shown, t.content x = s.content x) :
    t.value init = s.value init := by
  rw [State.value, State.value, hp]
  cases hobj : s.p with
  | none => rfl
  | some x =>
    refine hcontent x (List.mem_append_left _ (List.mem_append_left _ ?_))
    rw [hobj]
    exact List.mem_cons_self

theorem serial_readyModify (h : Serial init TTL s) (hu : s.updaters[k]? = some u) (fromNew allocated : Bool) :
    Serial init TTL (s.readyModify init k u fromNew allocated) := by
  have hinv := inv_readyModify h.inv hu fromNew allocated
  obtain ⟨rfl, hus⟩ := h.updaters_eq hu
  unfold State.readyModify at hinv ⊢
  split
  · exact h
  · split
    · rename_i hnone halloc
      simp only [hnone, halloc, if_true] at hinv
      refine h.frame hinv ?_ ?_ ?_ rfl rfl ?_
      · rw [List.length_set]
        exact h.one
      · intro howner
        rw [h.free howner] at hus
        cases hus
      · exact value_eq rfl fun x hx => Function.update_of_ne (h.inv.lt_made hx).ne _ _
      · intro v hv x hx
        rw [hus] at hv
        obtain rfl := List.mem_singleton.mp hv
        obtain rfl := Option.some.inj hx
        exact Function.update_self _ _ _
    · exact h

theorem serial_modify (h : Serial init TTL s) (hu : s.updaters[k]? = some u) {x : ℕ} (hx : u.cloned = some x)
    (f : T → T) : Serial init TTL (s.modify k u f x) := by
  have hinv := inv_modify h.inv hu hx f
  obtain ⟨rfl, hus⟩ := h.updaters_eq hu
  refine h.frame hinv ?_ ?_ ?_ rfl rfl ?_
  · rw [State.modify, List.length_set]
    exact h.one
  · intro howner
    rw [h.free howner] at hus
    cases hus
  · exact value_eq rfl fun y hy => Function.update_of_ne (h.inv.ne_of_shown hu hx hy) _ _
  · intro v hv y hy
    have hcopied := h.copied u (List.mem_of_getElem? hu) x hx
    rw [State.modify, hus] at hv
    obtain rfl := List.mem_singleton.mp hv
    obtain rfl := Option.some.inj hy
    rw [Update.apply, List.foldl_append]
    rw [Update.apply] at hcopied
    exact (Function.update_self _ _ _).trans (congrArg f hcopied)

theorem serial_revert (h : Serial init TTL s) (hu : s.updaters[k]? = some u) : Serial init TTL (s.revert k u) := by
  have hinv := inv_revert h.inv hu
  obtain ⟨rfl, hus⟩ := h.updaters_eq hu
  have hnone : s.updaters.eraseIdx 0 = [] := by rw [hus]; rfl
  have hvalue : (s.revert 0 u).value init = s.value init := rfl
  refine h.frame hinv ?_ (fun _ => hnone) hvalue rfl rfl ?_
  · rw [State.revert, State.unlock, hnone]
    exact Nat.zero_le 1
  · intro v hv
    rw [State.revert, State.unlock, hnone] at hv
    exact absurd hv List.not_mem_nil

/-- A copy takes the place of the object. -/
theorem Serial.publish (h : Serial init TTL s) (hu : s.updaters[k]? = some u) {x : ℕ} (hx : u.cloned = some x)
    (hinv : Inv init TTL t) (hupdaters : t.updaters = []) (hp : t.p = some x) (hcontent : t.content = s.content)
    (hpublished : t.published = s.published ++ [u.update]) (hreads : t.reads = s.reads) : Serial init TTL t := by
  refine ⟨hinv, by rw [hupdaters]; exact Nat.zero_le 1, fun _ => hupdaters, ?_, ?_, ?_, ?_⟩
  · rw [State.value, hp, hpublished, applied_append, ← h.value, ← h.copied u (List.mem_of_getElem? hu) x hx, ← hcontent]
    rfl
  · rw [hupdaters]
    exact fun v hv => absurd hv List.not_mem_nil
  · intro r hr
    rw [hreads] at hr
    rw [hpublished, List.take_append_of_le_length (h.count r hr)]
    exact h.seen r hr
  · intro r hr
    rw [hreads] at hr
    rw [hpublished, List.length_append]
    exact (h.count r hr).trans (Nat.le_add_right _ _)

theorem serial_endUpdate (h : Serial init TTL s) (hu : s.updaters[k]? = some u) (hretiring : s.retiring = none) :
    Serial init TTL (s.endUpdate k u) := by
  have hinv := inv_endUpdate h.inv hu hretiring
  have herase : s.updaters.eraseIdx k = [] := by
    obtain ⟨rfl, hus⟩ := h.updaters_eq hu
    rw [hus]
    rfl
  unfold State.endUpdate at hinv ⊢
  split
  · rename_i hx
    simp only [hx] at hinv
    refine h.frame hinv ?_ (fun _ => herase) rfl rfl rfl ?_
    · rw [State.unlock, herase]
      exact Nat.zero_le 1
    · intro v hv
      rw [State.unlock, herase] at hv
      exact absurd hv List.not_mem_nil
  · rename_i x hx hp
    simp only [hx, hp] at hinv
    exact h.publish hu hx hinv herase rfl rfl rfl rfl
  · rename_i x old hx hp
    simp only [hx, hp] at hinv
    exact h.publish hu hx hinv herase rfl rfl rfl rfl

theorem serial_retire (h : Serial init TTL s) {x : ℕ} (hx : s.retiring = some x) {created : Bool}
    {gc : GarbageCollection.State (ℕ ⊕ Other)}
    (hgc : GarbageCollection.step s.gc (.deleteObject (some (.inl x)) TTL created) = some gc) :
    Serial init TTL { s with gc := gc, retiring := none } :=
  h.frame (inv_retire h.inv hx hgc) h.one h.free rfl rfl rfl h.copied

theorem serial_get (h : Serial init TTL s) :
    Serial init TTL { s with reads := s.reads ++ [⟨s.p, s.value init, s.gc.now, s.published.length⟩] } := by
  refine ⟨inv_get h.inv _, h.one, h.free, h.value, h.copied, ?_, ?_⟩
  · intro r hr
    obtain hr | hr := List.mem_append.mp hr
    · exact h.seen r hr
    · obtain rfl := List.mem_singleton.mp hr
      rw [List.take_length]
      exact h.value
  · intro r hr
    obtain hr | hr := List.mem_append.mp hr
    · exact h.count r hr
    · obtain rfl := List.mem_singleton.mp hr
      exact le_rfl

theorem serial_start : Serial init TTL (start init : State ι T Other) := by
  refine ⟨inv_start, Nat.zero_le 1, fun _ => rfl, rfl, ?_, ?_, ?_⟩
  · exact fun u hu => absurd hu List.not_mem_nil
  · exact fun r hr => absurd hr List.not_mem_nil
  · exact fun r hr => absurd hr List.not_mem_nil

theorem serial_step [DecidableEq ι] (h : Serial init TTL s) {a : Action ι T Other} (hsingle : Single s a)
    (hstep : step init TTL s a = some t) : Serial init TTL t := by
  have hinv := inv_step h.inv hstep
  cases a with
  | beginUpdate i justTry =>
    rw [step] at hstep
    split at hstep
    · rename_i hfree
      obtain rfl := Option.some.inj hstep
      have hnone : s.updaters = [] := h.free (hfree.2.resolve_right hsingle)
      refine h.frame hinv ?_ (fun howner => by cases howner) rfl rfl rfl ?_
      · rw [hnone]
        exact le_rfl
      · intro u hu x hx
        rw [hnone] at hu
        obtain rfl := List.mem_singleton.mp hu
        cases hx
    · obtain ⟨-, ht⟩ := Option.ite_none_right_eq_some.mp hstep
      exact Option.some.inj ht ▸ h
  | readyModify k fromNew allocated =>
    obtain ⟨u, hu, rfl⟩ := Option.map_eq_some_iff.mp hstep
    exact serial_readyModify h (updater_eq_some.mp hu).2 fromNew allocated
  | modify k f =>
    obtain ⟨u, hu, hmod⟩ := Option.bind_eq_some_iff.mp hstep
    obtain ⟨x, hx, rfl⟩ := Option.map_eq_some_iff.mp hmod
    exact serial_modify h (updater_eq_some.mp hu).2 hx f
  | revert k =>
    obtain ⟨u, hu, rfl⟩ := Option.map_eq_some_iff.mp hstep
    exact serial_revert h (updater_eq_some.mp hu).2
  | commit k =>
    obtain ⟨u, hu, rfl⟩ := Option.map_eq_some_iff.mp hstep
    obtain ⟨hretiring, hu⟩ := updater_eq_some.mp hu
    exact serial_endUpdate h hu hretiring
  | retire created =>
    obtain ⟨x, hx, hret⟩ := Option.bind_eq_some_iff.mp hstep
    obtain ⟨gc, hgc, rfl⟩ := Option.map_eq_some_iff.mp hret
    exact serial_unlock (serial_retire h hx hgc)
  | get =>
    obtain rfl := Option.some.inj hstep
    exact serial_get h
  | collector a =>
    obtain ⟨gc, hgc, rfl⟩ := Option.map_eq_some_iff.mp hstep
    exact h.frame hinv h.one h.free rfl rfl rfl h.copied

/-- **No update is lost.** In every run in which no thread opens an updater while it has another one, the object is
what the published updates make of a new one, one after the other, and every `Get` gave what those make that were
published before it. -/
theorem updates_in_order [DecidableEq ι] (h : Reachable (step init TTL) Single (start init) s) :
    s.value init = applied init s.published ∧
      ∀ r ∈ s.reads, r.count ≤ s.published.length ∧ r.value = applied init (s.published.take r.count) := by
  have hserial : Serial init TTL s := h.invariant serial_start fun _ _ _ hs ha hst => serial_step hs ha hst
  exact ⟨hserial.value, fun r hr => ⟨hserial.count r hr, hserial.seen r hr⟩⟩

/-- Two threads change a number one after the other; the second one waits until the old object was handed in. -/
def takeTurns : List (Action Bool ℕ Empty) :=
  [.beginUpdate true false, .readyModify 0 true true, .modify 0 (· + 5), .commit 0, .get, .beginUpdate false true,
    .readyModify 0 false true, .modify 0 (· * 3), .get, .commit 0, .beginUpdate true true, .retire true, .get]

theorem updates_in_order_takeTurns : ∃ s, run (step 0 2500) (start 0) takeTurns = some s ∧
    s.reads.map (fun r => (r.obj, r.value, r.count)) = [(some 0, 5, 1), (some 0, 5, 1), (some 1, 15, 2)] ∧
      s.value 0 = applied 0 s.published := by
  have hrun : (run (step 0 2500) (start 0) takeTurns).map
      (fun s => s.reads.map fun r => (r.obj, r.value, r.count)) =
        some [(some 0, 5, 1), (some 0, 5, 1), (some 1, 15, 2)] := by decide
  obtain ⟨s, hs, hv⟩ := Option.map_eq_some_iff.mp hrun
  exact ⟨s, hs, hv, (updates_in_order (Reachable.start.of_run takeTurns (by decide) hs)).1⟩

/-- An updater that was opened inside another one is committed first. -/
def insideAnother : List (Action Bool ℕ Empty) :=
  [.beginUpdate true false, .readyModify 0 false true, .beginUpdate true false, .readyModify 0 false true,
    .modify 0 (· + 5), .commit 0, .modify 0 (· + 1), .commit 0]

/-- The other one does not know of it. -/
theorem nested_update_lost : ∃ s, run (step 0 2500) (start 0) insideAnother = some s ∧ s.value 0 = 1 ∧
    applied 0 s.published = 6 := by
  have hrun : (run (step 0 2500) (start 0) insideAnother).map (fun s => (s.value 0, applied 0 s.published)) =
      some (1, 6) := by decide
  obtain ⟨s, hs, hv⟩ := Option.map_eq_some_iff.mp hrun
  exact ⟨s, hs, Prod.mk.inj hv⟩

end Steps

end Cpcf.Os.ThreadSafeMutable
