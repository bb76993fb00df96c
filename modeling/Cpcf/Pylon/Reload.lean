import Cpcf.Lib.FirstMatch
import Cpcf.Pylon.Scheduler

/-!
`Scheduler::ReloadedConfig`: the tasks and daemons of a new configuration take over what the old ones have.

An entry of the new list is swapped with the first old one that has the same configuration. What the swap leaves in the
old list is an entry that was just made, and a daemon that was just made already has its command line.
-/

namespace Cpcf.Pylon

open Cpcf.Lib.FirstMatch

/-! ### The configuration -/

/-- A `task` element: what `GetAttribute` gives for its attributes. -/
structure TaskElement where
  cmdline : Option Text
  directory : Option Text
  interval : Option Text
  when_min : Option Text
  when_minute : Option Text
  when_hour : Option Text
  when_hm : Option Text
  when_day : Option Text
  when_weekday : Option Text
  when_month : Option Text
  label : Option Text
  duration : Option Text

/-- A `daemon` element. -/
structure DaemonElement where
  cmdline : Option Text
  directory : Option Text
  auto : Bool

/-- The elements of `/pylon/scheduler`, in the order of the document. -/
structure Config where
  tasks : List TaskElement
  daemons : List DaemonElement

/-- `/pylon/scheduler/task[@cmdline]`. -/
def Config.taskPath (c : Config) : List TaskElement := c.tasks.filter (·.cmdline.isSome)

/-- `/pylon/scheduler/daemon[@cmdline]`. -/
def Config.daemonPath (c : Config) : List DaemonElement := c.daemons.filter (·.cmdline.isSome)

/-- How numbers and names are read from the values of attributes. -/
structure Readers where
  /-- `ParseTimeSpan`. -/
  parseTimeSpan : Text → ℤ
  /-- `val.ToNumber(v) >= 0 && v>=low && v<=high`, and then `(int)(v + 0.5)`. -/
  toRounded : ℤ → ℤ → Text → Option ℤ
  /-- `ToNumber(int&)`, where `none` stands for -1. -/
  toNumber : Text → Option ℤ
  /-- `val.Split(tt,2,':') == 2`. -/
  split : Text → Option (Text × Text)
  /-- `MakeLower` and `ParseWeekdayName`. -/
  parseWeekdayName : Text → ℤ
  /-- `MakeLower` and `ParseMonthName`. -/
  parseMonthName : Text → ℤ

/-- `GetAttribute_Path`: one `\` or `/` at the end is left out. -/
def getAttributePath : Option Text → Text
  | none => []
  | some value => if value.getLast? = some 0x5c ∨ value.getLast? = some 0x2f then value.dropLast else value

variable (r : Readers)

/-- A number that may be given by a name. -/
def Readers.numberOrName (r : Readers) (name : Text → ℤ) (val : Text) : ℤ := (r.toNumber val).getD (name val)

/-- The trigger mode of a task and its parameter. -/
def Readers.trigger (x : TaskElement) : TriggerMode × ℤ :=
  let param := (x.interval.map r.parseTimeSpan).getD 0
  if x.interval.isSome ∧ 0 < param then (.preiodSec, max param 5)
  else
    match (x.when_min.or x.when_minute).bind (r.toRounded 0 59) with
    | some param => (.whenMinute, param)
    | none =>
      match x.when_hour.bind (r.toRounded 0 23) with
      | some param => (.whenHour, param)
      | none =>
        match x.when_hm.bind r.split with
        | some (h, m) => (.whenHourMinute, (r.toNumber h).getD 0 * 60 + (r.toNumber m).getD 0)
        | none =>
          match x.when_day.bind (r.toRounded 1 31) with
          | some param => (.whenDay, param)
          | none =>
            match x.when_weekday with
            | some val =>
              let param := r.numberOrName r.parseWeekdayName val
              (if 1 ≤ param ∧ param ≤ 7 then .whenWeekday else .manual, param)
            | none =>
              match x.when_month with
              | some val =>
                let param := r.numberOrName r.parseMonthName val
                (if 1 ≤ param ∧ param ≤ 12 then .whenMonth else .manual, param)
              | none => (.manual, param)

/-- The seconds that a task may run. -/
def Readers.duration (x : TaskElement) : ℤ :=
  let duration := (x.duration.map r.parseTimeSpan).getD (-1)
  if duration < 0 then 10000 * 3600 else max duration 10

/-! ### The lists -/

/-- What a constructor finds: the new launcher, the current time, and what is in the memory of the fields that it does
not set. -/
structure New where
  id : ℕ
  now : ℤ
  memory : ℤ

/-- `_exec::_exec`. -/
def Exec.new (n : New) : Exec where
  triggerMode := .oneTime
  launcher := ⟨n.id, false, 0⟩
  lastLaunchTime := n.memory
  workingDirectory := []
  cmdLine := []
  label := []
  runningLog := []
  lastEnvVars := []
  stat_Launch := 0
  stat_LaunchFailed := 0
  stat_Terminated := 0
  duration := 4 * 7 * 24 * 3600
  isSuspended := false
  isManuallyTriggered := false

/-- `_task::_task`. -/
def Task.new (n : New) : Task :=
  { Exec.new n with
    triggerMode := .manual
    lastLaunchTime := n.now
    triggerParam := n.memory
    stat_LaunchSkip := 0
    stat_ExecutionTimeAvg := 0
    stat_ExecutionTimeMax := 0
    launched := false }

/-- A new daemon with its command line. -/
def Exec.newFor (n : New) (val : Text) : Exec := { Exec.new n with cmdLine := val }

/-- What is set in the entry for a task element. -/
def Readers.configure (x : TaskElement) (nn : Task) : Task :=
  { nn with
    triggerMode := (r.trigger x).1
    triggerParam := (r.trigger x).2
    cmdLine := x.cmdline.getD []
    workingDirectory := getAttributePath x.directory
    label := x.label.getD []
    duration := r.duration x }

/-- What is set in the entry for a daemon element. -/
def DaemonElement.configure (x : DaemonElement) (nn : Exec) : Exec :=
  { nn with
    cmdLine := x.cmdline.getD []
    workingDirectory := getAttributePath x.directory
    triggerMode := if x.auto then .auto else .manual }

/-- The loop over the task elements: the new list. -/
def taskLoop : List TaskElement → (ℕ → New) → List Task → List Task
  | [], _, _ => []
  | x :: xs, news, old =>
    match x.cmdline with
    | none => taskLoop xs news old
    | some val =>
      let (nn, old) := swapFirst (fun ww : Task => ww.cmdLine = val && ww.workingDirectory = getAttributePath x.directory &&
        ww.triggerMode = (r.trigger x).1 && ww.triggerParam = (r.trigger x).2) (Task.new (news 0)) old
      r.configure x nn :: taskLoop xs (fun n => news (n + 1)) old

/-- The loop over the daemon elements: the new list, and what is in the old one then. -/
def daemonLoop : List DaemonElement → (ℕ → New) → List Exec → List Exec × List Exec
  | [], _, old => ([], old)
  | x :: xs, news, old =>
    match x.cmdline with
    | none => daemonLoop xs news old
    | some val =>
      let (nn, old) := swapFirst (fun ww : Exec => ww.cmdLine = val && ww.workingDirectory = getAttributePath x.directory)
        (Exec.newFor (news 0) val) old
      let (list, old) := daemonLoop xs (fun n => news (n + 1)) old
      (x.configure nn :: list, old)

/-- `ReloadedConfig`, where `none` stands for a document that cannot be loaded. -/
def Scheduler.reloadedConfig (s : Scheduler) (newTasks newDaemons : ℕ → New) : Option Config → Scheduler
  | none => s
  | some config =>
    let s :=
      if config.taskPath.isEmpty then s
      else { s with taskList := taskLoop r config.taskPath newTasks s.taskList }
    if config.daemonPath.isEmpty then s
    else
      let (list, old) := daemonLoop config.daemonPath newDaemons s.daemonList
      { s with daemonList := list ++ old.filter fun ww => ww.isRunning }

/-! ### What is asked of it -/

/-- What tells the tasks of a configuration apart. -/
abbrev TaskKey := Text × Text × TriggerMode × ℤ

def Task.key (t : Task) : TaskKey := (t.cmdLine, t.workingDirectory, t.triggerMode, t.triggerParam)

def Readers.key (x : TaskElement) : TaskKey :=
  (x.cmdline.getD [], getAttributePath x.directory, (r.trigger x).1, (r.trigger x).2)

def Exec.key (d : Exec) : Text × Text := (d.cmdLine, d.workingDirectory)

def DaemonElement.key (x : DaemonElement) : Text × Text := (x.cmdline.getD [], getAttributePath x.directory)

/-- One of the tasks that are made. -/
def IsNewTask (news : ℕ → New) (t : Task) : Prop := ∃ n, t = Task.new (news n)

/-- One of the daemons that are made. -/
def IsNewExec (news : ℕ → New) (d : Exec) : Prop := ∃ n c, d = Exec.newFor (news n) c

/-- The task list has one entry for each task element: an old one that has its key, or else a new one, and then all the
old ones that have the key went to other elements. -/
def TasksReloaded (xs : List TaskElement) (news : ℕ → New) (old new : List Task) : Prop :=
  ∃ given entries, Carried Task.key (IsNewTask news) (fun _ => True) old (xs.map r.key) given entries ∧
    new = List.zipWith r.configure xs entries

/-- The daemon list has one entry for each daemon element, and behind them the old daemons that run and went to no
element; then no element that has the key of such a one is left with a new entry. -/
def DaemonsReloaded (xs : List DaemonElement) (news : ℕ → New) (old new : List Exec) : Prop :=
  ∃ given entries, Carried Exec.key (IsNewExec news)
      (fun d => d.isRunning = true) old (xs.map DaemonElement.key) given entries ∧
    new = List.zipWith DaemonElement.configure xs entries ++
      (old.zipIdx.filter fun (d, j) => d.isRunning && !given.contains (some j)).map Prod.fst

/-- What a swap leaves of the key of a daemon. -/
def leftKey (k : Text × Text) : Text × Text := (k.1, [])

/-- For each daemon element without a directory, the running old daemons that have its key are the first old one that
the swaps may leave with this key, or that one has the key itself and the element comes once. -/
def NonePassedOver (xs : List DaemonElement) (old : List Exec) : Prop :=
  ∀ z ∈ xs.map DaemonElement.key, z.2 = [] → ∀ (j : ℕ) d, old[j]? = some d → d.key = z → d.isRunning →
    firstFound leftKey (old.map Exec.key) (xs.map DaemonElement.key) z = some j ∨
      ∃ f, firstFound leftKey (old.map Exec.key) (xs.map DaemonElement.key) z = some f ∧
        (old[f]?.map Exec.key) = some z ∧ ¬(xs.map DaemonElement.key).Duplicate z

variable {r} {s : Scheduler} {news newTasks newDaemons : ℕ → New}

/-! ### Tasks -/

theorem taskLoop_eq {xs : List TaskElement} (hxs : ∀ x ∈ xs, x.cmdline ≠ none) (news : ℕ → New) (old : List Task) :
    taskLoop r xs news old = List.zipWith r.configure xs
      (giveAll (fun t : Task => some t.key) (xs.mapIdx fun i x => (some (r.key x), Task.new (news i))) old).1 := by
  induction xs generalizing news old with
  | nil => rfl
  | cons x xs ih =>
    obtain ⟨val, hval⟩ := Option.ne_none_iff_exists'.mp (hxs x (by simp))
    have hp : (fun ww : Task => (ww.cmdLine = val && ww.workingDirectory = getAttributePath x.directory &&
        ww.triggerMode = (r.trigger x).1 && ww.triggerParam = (r.trigger x).2 : Bool))
        = fun ww => decide (some ww.key = some (r.key x)) := by
      funext ww
      simp [Task.key, Readers.key, hval, Bool.and_assoc, Bool.decide_and, Prod.ext_iff]
    rw [taskLoop, hval, List.mapIdx_cons, giveAll]
    simp only [hp, List.zipWith_cons_cons, ih fun y hy => hxs y (by simp [hy])]

theorem map_fst_mapIdx {α β γ : Type*} (xs : List α) (f : α → β) (g : ℕ → α → γ) :
    (xs.mapIdx fun i x => (f x, g i x)).map Prod.fst = xs.map f := by
  apply List.ext_getElem?
  intro i
  simp [Option.map_map, Function.comp_def]

/-- A swap leaves a task without a command line, which has the key of no element. -/
def leftNone (_ : Option TaskKey) : Option TaskKey := none

theorem leftNone_idem (k : Option TaskKey) : leftNone (leftNone k) = leftNone k := rfl

theorem tasksReloaded_taskLoop {xs : List TaskElement} (hxs : ∀ x ∈ xs, x.cmdline ≠ none)
    (hwf : ∀ x ∈ xs, x.cmdline ≠ some []) (news : ℕ → New) (old : List Task) :
    TasksReloaded r xs news old (taskLoop r xs news old) := by
  have hkeys : (xs.mapIdx fun i x => (some (r.key x), Task.new (news i))).map Prod.fst = (xs.map r.key).map some := by
    rw [map_fst_mapIdx, List.map_map]
    rfl
  have hcarried : Carried (fun t : Task => some t.key) (IsNewTask news) (fun _ => True) old
      ((xs.mapIdx fun i x => (some (r.key x), Task.new (news i))).map Prod.fst) _ _ :=
    (Slots.start (fun t : Task => some t.key) (IsNewTask news) leftNone (fun k => ∃ k', k = some k' ∧ k'.1 ≠ [])
      old).carried leftNone_idem (fun _ => True) ?_ ?_
  · rw [hkeys] at hcarried
    exact ⟨_, _, hcarried.of_some, taskLoop_eq hxs news old⟩
  · intro y hy
    obtain ⟨i, hi, rfl⟩ := List.mem_mapIdx.mp hy
    obtain ⟨val, hval⟩ := Option.ne_none_iff_exists'.mp (hxs xs[i] (List.getElem_mem hi))
    have hne : val ≠ [] := fun h => hwf xs[i] (List.getElem_mem hi) (by rw [hval, h])
    refine ⟨⟨_, rfl, by simpa [Readers.key, hval] using hne⟩, ⟨_, rfl⟩, ?_⟩
    rintro _ ⟨k', rfl, hk'⟩
    refine iff_of_false (fun h => hk' ?_) (by simp [leftNone])
    rw [← Option.some.inj h]
    rfl
  · refine (given_iff leftNone_idem fun j => ∃ o, old[j]? = some o ∧ True).mpr ?_
    intro z hz hnone
    rw [hkeys] at hz
    obtain ⟨k, -, rfl⟩ := List.mem_map.mp hz
    cases hnone

theorem tasksReloaded_nil {old new : List Task} : TasksReloaded r [] news old new ↔ new = [] := by
  constructor
  · rintro ⟨given, entries, -, hnew⟩
    exact hnew
  · rintro rfl
    refine ⟨[], [], ⟨rfl, rfl, by simp, by simp, by simp, by simp⟩, rfl⟩

/-! ### Daemons -/

theorem daemonLoop_eq {xs : List DaemonElement} (hxs : ∀ x ∈ xs, x.cmdline ≠ none) (news : ℕ → New) (old : List Exec) :
    daemonLoop xs news old =
      (List.zipWith DaemonElement.configure xs
        (giveAll Exec.key (xs.mapIdx fun i x => (x.key, Exec.newFor (news i) x.key.1)) old).1,
        (giveAll Exec.key (xs.mapIdx fun i x => (x.key, Exec.newFor (news i) x.key.1)) old).2) := by
  induction xs generalizing news old with
  | nil => rfl
  | cons x xs ih =>
    obtain ⟨val, hval⟩ := Option.ne_none_iff_exists'.mp (hxs x (by simp))
    have hkey : x.key = (val, getAttributePath x.directory) := by simp [DaemonElement.key, hval]
    have hp : (fun ww : Exec => (ww.cmdLine = val && ww.workingDirectory = getAttributePath x.directory : Bool))
        = fun ww => decide (ww.key = x.key) := by
      funext ww
      simp [Exec.key, hkey, Bool.decide_and]
    rw [daemonLoop, hval, List.mapIdx_cons, giveAll]
    simp only [hp, hkey, List.zipWith_cons_cons, ih fun y hy => hxs y (by simp [hy])]

/-- What is given to each daemon element. -/
def givenDaemons (xs : List DaemonElement) (old : List Exec) : List (Option ℕ) :=
  picks leftKey (old.map Exec.key) (xs.map DaemonElement.key) ∅

theorem leftKey_idem (k : Text × Text) : leftKey (leftKey k) = leftKey k := rfl

theorem leftKey_eq_iff {k : Text × Text} : leftKey k = k ↔ k.2 = [] := by
  unfold leftKey
  rw [Prod.ext_iff]
  simp [eq_comm]

/-- The new daemon for an element looks like what its key leaves. -/
theorem daemonNews_ok (xs : List DaemonElement) (news : ℕ → New) :
    ∀ x ∈ xs.mapIdx fun i x => (x.key, Exec.newFor (news i) x.key.1),
      True ∧ IsNewExec news x.2 ∧ ∀ k', True → (x.2.key = k' ↔ leftKey x.1 = k') := by
  intro y hy
  obtain ⟨i, hi, rfl⟩ := List.mem_mapIdx.mp hy
  exact ⟨trivial, ⟨_, _, rfl⟩, fun _ _ => Iff.rfl⟩

/-- The launchers tell apart what the elements were given. -/
theorem given_unique {matters matters' : Exec → Prop} {keys : List (Text × Text)} {old : List Exec} {given given' : List (Option ℕ)}
    {entries entries' : List Exec}
    (h : Carried Exec.key (IsNewExec news) matters old keys given entries)
    (h' : Carried Exec.key (IsNewExec news) matters' old keys given' entries')
    (hentries : entries.map (·.launcher) = entries'.map (·.launcher)) (hids : (old.map (·.launcher.id)).Nodup)
    (hnews : ∀ n, ∀ d ∈ old, (news n).id ≠ d.launcher.id) : given = given' := by
  have hlauncher : ∀ (i : ℕ) d d', entries[i]? = some d → entries'[i]? = some d' → d.launcher = d'.launcher := by
    intro i d d' hd hd'
    have hi := congrArg (·[i]?) hentries
    simpa [hd, hd'] using hi
  have hold : ∀ (n : ℕ) c (j : ℕ) o, old[j]? = some o →
      (Exec.newFor (news n) c).launcher ≠ o.launcher := fun n c j o ho heq =>
    hnews n o (List.mem_of_getElem? ho) (congrArg LaunchProcess.id heq)
  apply List.ext_getElem?
  intro i
  rcases hg : given[i]? with _ | _ | j
  · rw [eq_comm, List.getElem?_eq_none_iff, h'.length_given, ← h.length_given]
    exact List.getElem?_eq_none_iff.mp hg
  all_goals
    have hi : i < given'.length := by
      rw [h'.length_given, ← h.length_given]
      exact (List.getElem?_eq_some_iff.mp hg).1
    obtain ⟨g', hg'⟩ : ∃ g', given'[i]? = some g' := ⟨_, List.getElem?_eq_getElem hi⟩
    rw [hg']
  · obtain ⟨d, hd, n, c, rfl⟩ := h.fresh i hg
    rcases g' with _ | j'
    · rfl
    · obtain ⟨o, ho, hd', -⟩ := h'.carried i j' hg'
      exact absurd (hlauncher i _ _ hd hd') (hold n c j' o ho)
  · obtain ⟨o, ho, hd, -⟩ := h.carried i j hg
    rcases g' with _ | j'
    · obtain ⟨d', hd', n, c, rfl⟩ := h'.fresh i hg'
      exact absurd (hlauncher i _ _ hd hd').symm (hold n c j o ho)
    · obtain ⟨o', ho', hd', -⟩ := h'.carried i j' hg'
      have hlt : j < (old.map (·.launcher.id)).length := by simpa using (List.getElem?_eq_some_iff.mp ho).1
      have hid : (old.map (·.launcher.id))[j]? = (old.map (·.launcher.id))[j']? := by
        simp [ho, ho', hlauncher i _ _ hd hd']
      rw [(List.getElem?_inj hlt hids).mp hid]

theorem configure_launcher {xs : List DaemonElement} : ∀ {entries : List Exec}, entries.length = xs.length →
    (List.zipWith DaemonElement.configure xs entries).map (·.launcher) = entries.map (·.launcher) := by
  induction xs with
  | nil =>
    intro entries h
    simp [List.length_eq_zero_iff.mp h]
  | cons x xs ih =>
    rintro (_ | ⟨d, entries⟩) h
    · simp at h
    · simp only [List.zipWith_cons_cons, List.map_cons, ih (Nat.succ.inj h)]
      rfl

theorem nonePassedOver_iff {xs : List DaemonElement} {old : List Exec} : NonePassedOver xs old ↔
    ∀ (i : ℕ) k, (xs.map DaemonElement.key)[i]? = some k → (givenDaemons xs old)[i]? = some none →
      ∀ j : ℕ, (old.map Exec.key)[j]? = some k → (∃ o, old[j]? = some o ∧ o.isRunning = true) →
        j ∈ taken leftKey (old.map Exec.key) (xs.map DaemonElement.key) ∅ := by
  unfold givenDaemons
  rw [given_iff leftKey_idem fun j => ∃ o, old[j]? = some o ∧ o.isRunning = true]
  unfold NonePassedOver
  refine forall₂_congr fun z _ => imp_congr leftKey_eq_iff.symm (forall_congr' fun j => ?_)
  simp only [List.getElem?_map, Option.map_eq_some_iff]
  constructor
  · rintro h ⟨d, hd, hkey⟩ ⟨o, ho, hrun⟩
    obtain rfl := Option.some.inj (hd.symm.trans ho)
    exact h d hd hkey hrun
  · exact fun h d hd hkey hrun => h ⟨d, hd, hkey⟩ ⟨d, hd, hrun⟩

/-- The new list of daemons is right if no running daemon is passed over. -/
theorem daemonsReloaded_iff {xs : List DaemonElement} {old : List Exec} (hxs : ∀ x ∈ xs, x.cmdline ≠ none)
    (hids : (old.map (·.launcher.id)).Nodup) (hnews : ∀ n, ∀ d ∈ old, (news n).id ≠ d.launcher.id) :
    DaemonsReloaded xs news old
      ((daemonLoop xs news old).1 ++ (daemonLoop xs news old).2.filter fun ww => ww.isRunning) ↔ NonePassedOver xs old := by
  have hkeys : (xs.mapIdx fun i x => (x.key, Exec.newFor (news i) x.key.1)).map Prod.fst
      = xs.map DaemonElement.key := map_fst_mapIdx xs _ _
  obtain ⟨hslots, hlen, -⟩ := (Slots.start Exec.key (IsNewExec news) leftKey
    (fun _ => True) old).giveAll leftKey_idem (daemonNews_ok xs news)
  have hrest := hslots.filter_eq (p := fun d => d.isRunning) (by rintro _ ⟨n, c, rfl⟩; rfl)
  have hmem : ∀ j, j ∈ taken leftKey (old.map Exec.key) (xs.map DaemonElement.key) ∅ ↔ some j ∈ givenDaemons xs old :=
    fun j => by
      rw [mem_taken]
      simp [givenDaemons]
  rw [List.length_mapIdx] at hlen
  rw [daemonLoop_eq hxs, nonePassedOver_iff]
  constructor
  · rintro ⟨given, entries, hcarried, hnew⟩ i k hk hnone j ho ⟨o, ho', hrun⟩
    have hcode := (Slots.start Exec.key (IsNewExec news) leftKey (fun _ => True) old).carried leftKey_idem
      (fun _ => False) (daemonNews_ok xs news) (by simp)
    rw [hkeys] at hcode
    have hlenentries : entries.length = xs.length := by simpa using hcarried.length_entries
    have hentries := (List.append_inj hnew (by simp [hlen, hlenentries])).1
    have hlaunchers := congrArg (List.map fun d : Exec => d.launcher) hentries
    rw [configure_launcher hlen, configure_launcher hlenentries] at hlaunchers
    have hgiven : givenDaemons xs old = given := given_unique hcode hcarried hlaunchers hids hnews
    rw [hmem, hgiven]
    rw [hgiven] at hnone
    have hkey : o.key = k := by simpa [ho'] using ho
    exact hcarried.noneLeft i j o hnone ho' (hk.trans (congrArg some hkey.symm)) hrun
  · intro h
    have hcode := (Slots.start Exec.key (IsNewExec news) leftKey (fun _ => True) old).carried leftKey_idem
      (fun d => d.isRunning = true) (daemonNews_ok xs news) (by rw [hkeys]; exact h)
    rw [hkeys] at hcode hrest
    refine ⟨_, _, hcode, ?_⟩
    rw [hrest]
    congr 3
    funext x
    have hx : decide (x.2 ∉ taken leftKey (old.map Exec.key) (xs.map DaemonElement.key) ∅)
        = !(givenDaemons xs old).contains (some x.2) := by
      rw [decide_not, List.contains_eq_mem]
      simp only [hmem]
    rw [hx]
    rfl

theorem daemonsReloaded_nil {old : List Exec} : DaemonsReloaded [] news old old ↔ ∀ d ∈ old, d.isRunning = true := by
  constructor
  · rintro ⟨given, entries, hcarried, hnew⟩ d hd
    have hgiven : given = [] := List.length_eq_zero_iff.mp (by simpa using hcarried.length_given)
    rw [hgiven, List.zipWith_nil_left, List.nil_append] at hnew
    rw [hnew] at hd
    obtain ⟨x, hx, rfl⟩ := List.mem_map.mp hd
    exact (Bool.and_eq_true_iff.mp (List.mem_filter.mp hx).2).1
  · intro h
    refine ⟨[], [], ⟨rfl, rfl, by simp, by simp, by simp, by simp⟩, ?_⟩
    rw [List.zipWith_nil_left, List.nil_append, List.filter_eq_self.mpr, List.zipIdx_map_fst]
    intro x hx
    simpa using h x.1 (List.fst_mem_of_mem_zipIdx hx)

/-- Readers for attributes without numbers and names. -/
def noNumbers : Readers := ⟨fun _ => 0, fun _ _ _ => none, fun _ => none, fun _ => none, fun _ => 0, fun _ => 0⟩

/-- `<task cmdline="a">`. -/
def taskA : TaskElement := ⟨some [0x61], none, none, none, none, none, none, none, none, none, none, none⟩

/-- `<daemon cmdline="a">`. -/
def daemonA : DaemonElement := ⟨some [0x61], none, false⟩

/-- The running daemon number `i` with the command line `a`. -/
def runningA (i : ℕ) : Exec := { Exec.newFor ⟨i, 0, 0⟩ [0x61] with launcher := ⟨i, true, 0⟩ }

end Cpcf.Pylon
