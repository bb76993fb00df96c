import Cpcf.Lib.Run
import Cpcf.Lib.Word

/-!
`Scheduler`: the tasks and daemons of pylon, the rounds of `_TriggerProbing` and the requests between them.

A round looks at each task once. The trigger of a task is an edge between two instants of probing for all modes but the
periodic one, so a round that does not act on it loses it.
-/

namespace Cpcf.Pylon

open Cpcf.Lib.Run Cpcf.Lib.Word

abbrev Text := List UInt8

/-! ### Tasks -/

/-- `TIGGERMODE_*`. -/
inductive TriggerMode
  | manual
  | preiodSec
  | whenMinute
  | whenHour
  | whenHourMinute
  | whenWeekday
  | whenDay
  | whenMonth
  | auto
  | oneTime
  deriving DecidableEq, Repr

/-- `os::LaunchProcess`: which one it is, if its process runs, and how long the last one ran. -/
structure LaunchProcess where
  id : ℕ
  running : Bool
  executionTime : ℤ
  deriving DecidableEq, Repr

/-- The process comes to its end. -/
def LaunchProcess.ends (l : LaunchProcess) (executionTime : ℤ) : LaunchProcess :=
  { l with running := false, executionTime := executionTime }

/-- `LaunchProcess::Terminate`. -/
def LaunchProcess.terminate (l : LaunchProcess) (executionTime : ℤ) : LaunchProcess :=
  if l.running then l.ends executionTime else l

/-- `_launch`. Instants are in milliseconds, `Duration` is in seconds. -/
structure Launch where
  triggerMode : TriggerMode
  launcher : LaunchProcess
  lastLaunchTime : ℤ
  workingDirectory : Text
  cmdLine : Text
  label : Text
  runningLog : Text
  lastEnvVars : Text
  stat_Launch : ℤ
  stat_LaunchFailed : ℤ
  stat_Terminated : ℤ
  duration : ℤ
  deriving DecidableEq, Repr

/-- `_exec`: continuous running. -/
structure Exec extends Launch where
  isSuspended : Bool
  isManuallyTriggered : Bool
  deriving DecidableEq, Repr

/-- `_task`: periodic running. -/
structure Task extends Exec where
  triggerParam : ℤ
  stat_LaunchSkip : ℤ
  stat_ExecutionTimeAvg : ℤ
  stat_ExecutionTimeMax : ℤ
  launched : Bool
  deriving DecidableEq, Repr

/-- `_launch::IsRunning`. -/
def Launch.isRunning (t : Launch) : Bool := t.launcher.running

/-- `os::Timestamp::Fields`, as far as triggers read it. -/
structure Fields where
  month : ℤ
  day : ℤ
  dayOfWeek : ℤ
  hour : ℤ
  minute : ℤ

/-- The whole seconds from one instant to another, `TimeLapse(now)/1000`. -/
def secondsFrom (last now : ℤ) : ℤ := (now - last).tdiv 1000

/-- `_task::IsTriggered`, with the local time at an instant. -/
def Task.isTriggered (localTime : ℤ → Fields) (t : Task) (last_checked now : ℤ) : Bool :=
  match t.triggerMode with
  | .manual => false
  | .preiodSec => t.triggerParam ≤ secondsFrom t.lastLaunchTime now
  | .whenMinute => (localTime last_checked).minute ≠ t.triggerParam && (localTime now).minute = t.triggerParam
  | .whenHour => (localTime last_checked).hour ≠ t.triggerParam && (localTime now).hour = t.triggerParam
  | .whenHourMinute =>
    (localTime last_checked).hour * 60 + (localTime last_checked).minute ≠ t.triggerParam &&
      (localTime now).hour * 60 + (localTime now).minute = t.triggerParam
  | .whenWeekday => (localTime last_checked).dayOfWeek ≠ t.triggerParam && (localTime now).dayOfWeek = t.triggerParam
  | .whenDay => (localTime last_checked).day ≠ t.triggerParam && (localTime now).day = t.triggerParam
  | .whenMonth => (localTime last_checked).month ≠ t.triggerParam && (localTime now).month = t.triggerParam
  | .auto | .oneTime => false

/-! ### A round -/

/-- What the system answers in a round: when a process is launched, if that goes well, and how long a process has run
that is terminated. -/
structure Answer where
  launchTime : ℤ
  launches : Bool
  executionTime : ℤ

/-- `"Pylon Launch failed"`. -/
def launchFailed : Text :=
  [0x50, 0x79, 0x6c, 0x6f, 0x6e, 0x20, 0x4c, 0x61, 0x75, 0x6e, 0x63, 0x68, 0x20, 0x66, 0x61, 0x69, 0x6c, 0x65, 0x64]

example : launchFailed = "Pylon Launch failed".toList.map fun c => UInt8.ofNat c.toNat := by decide

/-- A run that has come to its end is noted. -/
def Task.noteRun (t : Task) : Task :=
  let msec := intOf t.launcher.executionTime
  if t.stat_ExecutionTimeMax ≠ 0 then
    { t with
      stat_ExecutionTimeMax := max t.stat_ExecutionTimeMax msec
      stat_ExecutionTimeAvg :=
        (intOf (t.stat_ExecutionTimeAvg * (t.stat_Launch - t.stat_LaunchFailed - 1) + msec)).tdiv
          (t.stat_Launch - t.stat_LaunchFailed)
      launched := false }
  else { t with stat_ExecutionTimeMax := msec, stat_ExecutionTimeAvg := msec, launched := false }

/-- An attempt to launch a task. -/
def Task.launch (a : Answer) (t : Task) : Task :=
  let t := { t with stat_Launch := t.stat_Launch + 1, lastLaunchTime := a.launchTime }
  let t :=
    if a.launches then
      { t with launcher := { t.launcher with running := true }, isManuallyTriggered := false, launched := true }
    else
      { t with
        stat_LaunchFailed := t.stat_LaunchFailed + 1
        isManuallyTriggered := false
        runningLog := launchFailed }
  { t with lastEnvVars := [] }

/-- A task runs longer than it may. -/
def Task.overdue (t : Task) (tm : ℤ) : Bool := t.duration < secondsFrom t.lastLaunchTime tm

/-- What a round does with a task. -/
def Task.probe (localTime : ℤ → Fields) (time_last tm : ℤ) (a : Answer) (t : Task) : Task :=
  if t.isRunning then
    if t.isSuspended || t.overdue tm then
      { t with launcher := t.launcher.terminate a.executionTime, stat_Terminated := t.stat_Terminated + 1 }
    else if t.isTriggered localTime time_last tm then { t with stat_LaunchSkip := t.stat_LaunchSkip + 1 }
    else t
  else if t.isSuspended then t
  else
    let t := if t.launched then t.noteRun else t
    if t.isTriggered localTime time_last tm || t.isManuallyTriggered then t.launch a else t

/-- What a round does with a daemon. -/
def Exec.probe (a : Answer) (d : Exec) : Exec :=
  if d.isSuspended then
    if d.isRunning then { d with launcher := d.launcher.terminate a.executionTime, isManuallyTriggered := false } else d
  else if !d.isRunning && (d.triggerMode = .auto || d.isManuallyTriggered) then
    let d := { d with stat_Launch := d.stat_Launch + 1, lastLaunchTime := a.launchTime }
    if a.launches then { d with launcher := { d.launcher with running := true } }
    else { d with stat_LaunchFailed := d.stat_LaunchFailed + 1 }
  else d

structure Scheduler where
  taskList : List Task
  daemonList : List Exec
  /-- `time_last`, which the probing thread keeps. -/
  time_last : ℤ

/-- A round of `_TriggerProbing` at an instant, where the system answers for each task and each daemon. -/
def Scheduler.probe (localTime : ℤ → Fields) (s : Scheduler) (tm : ℤ) (tasks daemons : ℕ → Answer) : Scheduler where
  taskList := s.taskList.mapIdx fun i t => t.probe localTime s.time_last tm (tasks i)
  daemonList := s.daemonList.mapIdx fun i d => d.probe (daemons i)
  time_last := tm

/-! ### Requests -/

/-- `cmd` of a request for `/trigger`, with the parameter `env` and how long a process has run that is terminated. -/
inductive Command
  | term (executionTime : ℤ)
  | run (env : Text)
  | stop
  | enable
  | disable

/-- What `OnRequest` does with the task that is asked for. -/
def Task.trigger (cmd : Command) (t : Task) : Task :=
  match cmd with
  | .term executionTime => { t with launcher := t.launcher.terminate executionTime }
  | .run env =>
    { t with lastEnvVars := env.map fun b => if b = 0x7c then 0 else b, isManuallyTriggered := true }
  | .stop => { t with isManuallyTriggered := false }
  | .enable => { t with isSuspended := false }
  | .disable => { t with isSuspended := true }

/-! ### Runs -/

/-- A scheduler, and for which tasks a run was asked for since the last round while they were not running, and not
stopped again. -/
structure State where
  scheduler : Scheduler
  asked : ℕ → Bool

/-- What happens to a scheduler. -/
inductive Event
  /-- The process of a task comes to its end. -/
  | ends (i : ℕ) (executionTime : ℤ)
  | request (i : ℕ) (cmd : Command)
  | round (tm : ℤ) (tasks daemons : ℕ → Answer)

/-- If a run of the task is asked for after a request. -/
def askedAfter (t : Task) (asked : Bool) : Command → Bool
  | .run _ => asked || !t.isRunning
  | .stop => false
  | _ => asked

/-- What happens to one task. -/
def State.modifyTask (s : State) (i : ℕ) (f : Task → Task) (asked : Task → Bool → Bool) : Option State :=
  s.scheduler.taskList[i]?.map fun t =>
    { scheduler := { s.scheduler with taskList := s.scheduler.taskList.set i (f t) }
      asked := Function.update s.asked i (asked t (s.asked i)) }

def step (localTime : ℤ → Fields) (s : State) : Event → Option State
  | .ends i executionTime => s.modifyTask i (fun t => { t with launcher := t.launcher.ends executionTime }) fun _ a => a
  | .request i cmd => s.modifyTask i (Task.trigger cmd) fun t a => askedAfter t a cmd
  | .round tm tasks daemons => some ⟨s.scheduler.probe localTime tm tasks daemons, fun _ => false⟩

/-- The task number `i` is not suspended by the event. -/
def NotSuspending (i : ℕ) (_ : State) : Event → Prop
  | .request j .disable => j ≠ i
  | _ => True

/-- A round in which the trigger of the task number `i` holds makes one attempt to launch it or counts it as skipped,
and one before which a run of it was asked for makes one attempt. -/
def Served (localTime : ℤ → Fields) (i : ℕ) (s : State) : Event → Prop
  | .round tm tasks daemons =>
    ∀ t ∈ s.scheduler.taskList[i]?, ∀ u ∈ (s.scheduler.probe localTime tm tasks daemons).taskList[i]?,
      (t.isTriggered localTime s.scheduler.time_last tm →
        (u.stat_Launch = t.stat_Launch + 1 ∧ u.stat_LaunchSkip = t.stat_LaunchSkip) ∨
          (u.stat_Launch = t.stat_Launch ∧ u.stat_LaunchSkip = t.stat_LaunchSkip + 1)) ∧
      (s.asked i → u.stat_Launch = t.stat_Launch + 1)
  | _ => True

/-- A round does not find the task number `i` overdue at the instant at which its trigger holds. -/
def NotCut (localTime : ℤ → Fields) (i : ℕ) (s : State) : Event → Prop
  | .round tm _ _ =>
    ∀ t ∈ s.scheduler.taskList[i]?, ¬(t.isRunning ∧ t.overdue tm ∧ t.isTriggered localTime s.scheduler.time_last tm)
  | _ => True

/-! ### What a round does with the task -/

variable {localTime : ℤ → Fields} {t : Task} {a : Answer} {last tm : ℤ}

@[simp] theorem noteRun_stat_Launch (t : Task) : t.noteRun.stat_Launch = t.stat_Launch := by
  unfold Task.noteRun
  split <;> rfl

@[simp] theorem noteRun_stat_LaunchSkip (t : Task) : t.noteRun.stat_LaunchSkip = t.stat_LaunchSkip := by
  unfold Task.noteRun
  split <;> rfl

@[simp] theorem noteRun_isManuallyTriggered (t : Task) : t.noteRun.isManuallyTriggered = t.isManuallyTriggered := by
  unfold Task.noteRun
  split <;> rfl

@[simp] theorem noteRun_isSuspended (t : Task) : t.noteRun.isSuspended = t.isSuspended := by
  unfold Task.noteRun
  split <;> rfl

@[simp] theorem noteRun_isTriggered (t : Task) : t.noteRun.isTriggered localTime last tm = t.isTriggered localTime last tm := by
  unfold Task.noteRun
  split <;> rfl

@[simp] theorem launch_stat_Launch (t : Task) : (t.launch a).stat_Launch = t.stat_Launch + 1 := by
  unfold Task.launch
  by_cases h : a.launches <;> simp [h]

@[simp] theorem launch_stat_LaunchSkip (t : Task) : (t.launch a).stat_LaunchSkip = t.stat_LaunchSkip := by
  unfold Task.launch
  by_cases h : a.launches <;> simp [h]

@[simp] theorem launch_isSuspended (t : Task) : (t.launch a).isSuspended = t.isSuspended := by
  unfold Task.launch
  by_cases h : a.launches <;> simp [h]

theorem probe_running (localTime : ℤ → Fields) (last tm : ℤ) (a : Answer) (hr : t.isRunning = true) (hs : t.isSuspended = false) :
    (t.probe localTime last tm a).stat_Launch = t.stat_Launch ∧
      (t.probe localTime last tm a).stat_LaunchSkip =
        if t.overdue tm = false ∧ t.isTriggered localTime last tm = true then t.stat_LaunchSkip + 1
        else t.stat_LaunchSkip := by
  unfold Task.probe
  rw [if_pos hr, hs, Bool.false_or]
  cases hd : t.overdue tm
  · cases ht : t.isTriggered localTime last tm <;> simp
  · simp

theorem probe_resting (localTime : ℤ → Fields) (last tm : ℤ) (a : Answer) (hr : t.isRunning = false) (hs : t.isSuspended = false) :
    (t.probe localTime last tm a).stat_LaunchSkip = t.stat_LaunchSkip ∧
      (t.probe localTime last tm a).stat_Launch =
        if t.isTriggered localTime last tm = true ∨ t.isManuallyTriggered = true then t.stat_Launch + 1
        else t.stat_Launch := by
  have hnote : ∀ u : Task, u = t ∨ u = t.noteRun →
      (if u.isTriggered localTime last tm || u.isManuallyTriggered then u.launch a else u).stat_LaunchSkip
          = t.stat_LaunchSkip ∧
        (if u.isTriggered localTime last tm || u.isManuallyTriggered then u.launch a else u).stat_Launch
          = if t.isTriggered localTime last tm = true ∨ t.isManuallyTriggered = true then t.stat_Launch + 1
            else t.stat_Launch := by
    rintro u (hu | hu)
    all_goals
      rw [hu]
      cases ht : t.isTriggered localTime last tm <;> cases hm : t.isManuallyTriggered <;> simp [ht, hm]
  unfold Task.probe
  rw [if_neg (by simp [hr]), hs, if_neg (by simp)]
  refine hnote _ ?_
  cases t.launched
  · exact .inl rfl
  · exact .inr rfl

theorem probe_isSuspended (hs : t.isSuspended = false) : (t.probe localTime last tm a).isSuspended = false := by
  unfold Task.probe
  simp only [hs, Bool.false_or, Bool.false_eq_true, if_false]
  repeat' split
  all_goals simp [hs]

/-- A task that is not suspended, and that stands ready if a run of it was asked for, is served by a round unless the
round finds it overdue when its trigger holds. -/
theorem probe_served_iff (localTime : ℤ → Fields) (last tm : ℤ) (a : Answer) {asked : Bool} (hs : t.isSuspended = false)
    (hasked : asked = true → t.isRunning = false ∧ t.isManuallyTriggered = true) :
    ((t.isTriggered localTime last tm →
        ((t.probe localTime last tm a).stat_Launch = t.stat_Launch + 1 ∧
            (t.probe localTime last tm a).stat_LaunchSkip = t.stat_LaunchSkip) ∨
          ((t.probe localTime last tm a).stat_Launch = t.stat_Launch ∧
            (t.probe localTime last tm a).stat_LaunchSkip = t.stat_LaunchSkip + 1)) ∧
      (asked → (t.probe localTime last tm a).stat_Launch = t.stat_Launch + 1))
    ↔ ¬(t.isRunning ∧ t.overdue tm ∧ t.isTriggered localTime last tm) := by
  cases hr : t.isRunning
  · obtain ⟨hskip, hlaunch⟩ := probe_resting localTime last tm a hr hs
    rw [hskip, hlaunch]
    refine iff_of_true ⟨fun ht => .inl ⟨if_pos (.inl ht), rfl⟩, fun ha => if_pos (.inr (hasked ha).2)⟩ (by simp)
  · have hnot : asked = false := by
      cases ha : asked
      · rfl
      · simpa [hr] using (hasked ha).1
    obtain ⟨hlaunch, hskip⟩ := probe_running localTime last tm a hr hs
    rw [hskip, hlaunch, hnot]
    cases hd : t.overdue tm <;> cases ht : t.isTriggered localTime last tm <;> simp

/-! ### Runs that serve a task -/

/-- The task is not suspended, and if a run of it was asked for, it stands ready. -/
def Inv (i : ℕ) (s : State) : Prop :=
  ∀ t ∈ s.scheduler.taskList[i]?,
    t.isSuspended = false ∧ (s.asked i = true → t.isRunning = false ∧ t.isManuallyTriggered = true)

variable {i : ℕ} {s u : State}

theorem probe_getElem? (s : Scheduler) (tasks daemons : ℕ → Answer) :
    (s.probe localTime tm tasks daemons).taskList[i]?
      = s.taskList[i]?.map fun t => t.probe localTime s.time_last tm (tasks i) := by
  simp [Scheduler.probe]

theorem served_iff (h : Inv i s) (e : Event) : Served localTime i s e ↔ NotCut localTime i s e := by
  cases e with
  | ends => exact Iff.rfl
  | request => exact Iff.rfl
  | round tm tasks daemons =>
    unfold Served NotCut
    simp only [probe_getElem?]
    rcases ht : s.scheduler.taskList[i]? with _ | t
    · simp
    · obtain ⟨hs, hasked⟩ := h t ht
      have hiff := probe_served_iff localTime s.scheduler.time_last tm (tasks i) hs hasked
      simpa using hiff

theorem Inv.modifyTask {j : ℕ} {f : Task → Task} {asked : Task → Bool → Bool} (h : Inv i s)
    (hu : s.modifyTask j f asked = some u)
    (hf : j = i → ∀ t, t.isSuspended = false → (s.asked i = true → t.isRunning = false ∧ t.isManuallyTriggered = true) →
      (f t).isSuspended = false ∧
        (asked t (s.asked i) = true → (f t).isRunning = false ∧ (f t).isManuallyTriggered = true)) : Inv i u := by
  obtain ⟨t, ht, rfl⟩ := Option.map_eq_some_iff.mp hu
  intro v hv
  by_cases hj : j = i
  · subst hj
    have hlt : j < s.scheduler.taskList.length := (List.getElem?_eq_some_iff.mp ht).1
    simp only [List.getElem?_set_self hlt, Option.mem_def, Option.some.injEq] at hv
    subst hv
    simpa using hf rfl t (h t ht).1 (h t ht).2
  · simp only [List.getElem?_set_ne hj] at hv
    simpa [Function.update_of_ne (Ne.symm hj)] using h v hv

theorem inv_step (h : Inv i s) (e : Event) (he : NotSuspending i s e) (hu : step localTime s e = some u) : Inv i u := by
  cases e with
  | ends j executionTime =>
    simp only [step] at hu
    exact h.modifyTask hu fun _ t hs hasked => ⟨hs, fun ha => ⟨rfl, (hasked ha).2⟩⟩
  | request j cmd =>
    simp only [step] at hu
    refine h.modifyTask hu fun hj t hs hasked => ?_
    cases cmd with
    | term executionTime =>
      refine ⟨hs, fun ha => ⟨?_, (hasked ha).2⟩⟩
      have hr : t.launcher.running = false := (hasked ha).1
      simp [Task.trigger, Launch.isRunning, LaunchProcess.terminate, hr]
    | run env =>
      refine ⟨hs, fun ha => ⟨?_, rfl⟩⟩
      rcases Bool.or_eq_true_iff.mp ha with ha | hr
      · exact (hasked ha).1
      · exact (Bool.not_eq_true' t.isRunning).mp hr
    | stop => exact ⟨hs, fun ha => absurd ha (by simp [askedAfter])⟩
    | enable => exact ⟨rfl, hasked⟩
    | disable => exact absurd hj he
  | round tm tasks daemons =>
    obtain rfl := Option.some.inj hu
    intro v hv
    simp only [probe_getElem?] at hv
    obtain ⟨t, ht, rfl⟩ := Option.map_eq_some_iff.mp hv
    exact ⟨probe_isSuspended (h t ht).1, fun ha => absurd ha (by simp)⟩

/-- **No trigger is lost.** For a task that is never suspended, each round of a run serves it if and only if no round
finds it overdue at the instant at which its trigger holds. -/
theorem rounds_served_iff (localTime : ℤ → Fields) (i : ℕ) (s : Scheduler) (es : List Event)
    (hs : ∀ t ∈ s.taskList[i]?, t.isSuspended = false)
    (hes : Along (step localTime) (NotSuspending i) ⟨s, fun _ => false⟩ es) :
    Along (step localTime) (Served localTime i) ⟨s, fun _ => false⟩ es ↔
      Along (step localTime) (NotCut localTime i) ⟨s, fun _ => false⟩ es := by
  have hrun : ∀ (es : List Event) (s : State), Inv i s → Along (step localTime) (NotSuspending i) s es →
      (Along (step localTime) (Served localTime i) s es ↔ Along (step localTime) (NotCut localTime i) s es) := by
    intro es
    induction es with
    | nil => exact fun _ _ _ => Iff.rfl
    | cons e es ih =>
      intro s hinv hes
      refine and_congr (served_iff hinv e) (forall₂_congr fun u hu => ?_)
      exact ih u (inv_step hinv e hes.1 hu) (hes.2 u hu)
  exact hrun es _ (fun t ht => ⟨hs t ht, fun ha => absurd ha (by simp)⟩) hes

/-- A task to be run at minute 1, for ten seconds at most. -/
def atMinuteOne : Task where
  triggerMode := .whenMinute
  launcher := ⟨0, false, 0⟩
  lastLaunchTime := 0
  workingDirectory := []
  cmdLine := [0x61]
  label := []
  runningLog := []
  lastEnvVars := []
  stat_Launch := 0
  stat_LaunchFailed := 0
  stat_Terminated := 0
  duration := 10
  isSuspended := false
  isManuallyTriggered := false
  triggerParam := 1
  stat_LaunchSkip := 0
  stat_ExecutionTimeAvg := 0
  stat_ExecutionTimeMax := 0
  launched := false

/-- The minutes of a clock that starts at instant 0. -/
def clock (t : ℤ) : Fields := ⟨1, 1, 0, 0, t / 60000⟩

/-- A run is asked for, and the round launches the task. -/
theorem rounds_served_iff_asked :
    Along (step clock) (Served clock 0) ⟨⟨[atMinuteOne], [], 0⟩, fun _ => false⟩
      [.request 0 (.run []), .round 30000 (fun _ => ⟨30000, true, 0⟩) fun _ => ⟨0, true, 0⟩] := by
  refine (rounds_served_iff clock 0 ⟨[atMinuteOne], [], 0⟩ _ ?_ ?_).mpr ?_
  · rintro t ht
    obtain rfl := Option.some.inj ht
    rfl
  · exact ⟨trivial, fun _ _ => ⟨trivial, fun _ _ => trivial⟩⟩
  · refine ⟨trivial, fun u hu => ⟨?_, fun _ _ => trivial⟩⟩
    obtain rfl := Option.some.inj hu
    intro t ht
    obtain rfl := Option.some.inj ht
    decide

/-- The task is launched half a minute before its trigger and still runs when the trigger holds: that round terminates
it, and neither launches it nor counts it as skipped. -/
theorem round_not_served :
    ¬∀ (es : List Event), Along (step clock) (NotSuspending 0) ⟨⟨[atMinuteOne], [], 0⟩, fun _ => false⟩ es →
      Along (step clock) (Served clock 0) ⟨⟨[atMinuteOne], [], 0⟩, fun _ => false⟩ es := by
  intro h
  have hserved := h [.request 0 (.run []), .round 30000 (fun _ => ⟨30000, true, 0⟩) fun _ => ⟨0, true, 0⟩,
    .round 60000 (fun _ => ⟨60000, true, 0⟩) fun _ => ⟨0, true, 0⟩]
    ⟨trivial, fun _ _ => ⟨trivial, fun _ _ => ⟨trivial, fun _ _ => trivial⟩⟩⟩
  have hround := ((hserved.2 _ rfl).2 _ rfl).1 _ rfl _ rfl
  exact absurd (hround.1 (by decide)) (by decide)

end Cpcf.Pylon
