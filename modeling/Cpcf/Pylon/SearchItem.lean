import Cpcf.Pylon.Scheduler
import Cpcf.Rt.NumberText

/-!
`Scheduler::_SearchItem`: the item that a request means.

The page of the scheduler has a row for each task, each daemon and each job that was launched. Tasks and daemons are
numbered through, and a job has the time at which it was launched. A request gives the number back, and it is read into
an `int`.
-/

namespace Cpcf.Pylon

open Cpcf.Lib.Memory Cpcf.Lib.Word Cpcf.Rt Cpcf.Rt.NumberText

/-- `_tagItemType`. -/
inductive ItemType
  | launch
  | daemon
  | task
  deriving DecidableEq, Repr

/-- The three lists of a scheduler. -/
structure Lists where
  taskList : List Task
  daemonList : List Exec
  launchList : List Launch

/-! ### The page -/

/-- The rows in the order of the page: the number that `ComposeItemHtml` writes, the list and the index. -/
def Lists.page (s : Lists) : List (ℤ × ItemType × ℕ) :=
  (s.taskList.mapIdx fun i _ => ((i : ℤ), ItemType.task, i)) ++
    (s.daemonList.mapIdx fun i _ => ((i : ℤ) + s.taskList.length, ItemType.daemon, i)) ++
      (s.launchList.mapIdx fun i t => (t.lastLaunchTime, ItemType.launch, i)).reverse

/-! ### The search -/

/-- The part of `_SearchItem` for a number; an index is taken as it is computed. -/
def Lists.searchNumber (s : Lists) (tid : ℤ) : Option (ItemType × ℕ) :=
  if tid > intOf (s.daemonList.length + s.taskList.length) then
    (s.launchList.findIdx? fun t => t.lastLaunchTime = tid).map fun i => (.launch, i)
  else if 0 ≤ tid then
    if tid < intOf s.taskList.length then some (.task, tid.toNat)
    else some (.daemon, (tid - s.taskList.length).toNat)
  else none

/-- The part of `_SearchItem` for a label. -/
def Lists.searchLabel (s : Lists) (tsk : Text) : Option (ItemType × ℕ) :=
  ((s.launchList.findIdx? fun t => t.label = tsk).map fun i => (ItemType.launch, i)) <|>
    ((s.taskList.findIdx? fun t => t.label = tsk).map fun i => (ItemType.task, i)) <|>
      (s.daemonList.findIdx? fun t => t.label = tsk).map fun i => (ItemType.daemon, i)

/-- `tsk.ToNumber(tid)`. -/
def tidOf (tsk : Text) : ℤ := (toNumber .int (ofBytes 0 tsk) ⟨0, tsk.length + 1⟩).1.toInt

/-- `_SearchItem`. -/
def Lists.searchItem (s : Lists) (tsk : Text) : Option (ItemType × ℕ) :=
  match tsk with
  | [] => none
  | c :: _ => if 0x30 ≤ c ∧ c ≤ 0x39 then s.searchNumber (tidOf tsk) else s.searchLabel tsk

section

variable {s : Lists} {n : ℕ}

/-- The number that is read. -/
theorem tidOf_itoaUnsigned (h : n < 2 ^ 63) :
    tidOf (itoaUnsigned n) = if n % 2 ^ 32 < 2 ^ 31 then ((n % 2 ^ 32 : ℕ) : ℤ) else ((n % 2 ^ 32 : ℕ) : ℤ) - 2 ^ 32 := by
  have hlen : (itoaUnsigned n).length < 2 ^ 31 := by
    have := length_decimal_le (z := n) (by omega)
    rw [decimal_eq, if_neg (by omega), List.nil_append, Int.natAbs_natCast] at this
    omega
  have htext := toNumber_text .int (show Holds (ofBytes 0 (itoaUnsigned n)) 0 ([] ++ itoaUnsigned n) from holds_ofBytes 0 _)
    (.inl rfl) (fun b hb => isDigit_of_mem_itoaUnsigned hb) (itoaUnsigned_ne_nil n) hlen
  rw [List.nil_append, digitsValue_itoaUnsigned] at htext
  have hvalue : tidOf (itoaUnsigned n) = (BitVec.ofNat 32 n).toInt := by
    rw [tidOf, htext]
    simp [IntType.bits]
  rw [hvalue, BitVec.toInt_eq_toNat_cond, BitVec.toNat_ofNat]
  split <;> split <;> omega

theorem searchItem_number (s : Lists) (n : ℕ) : s.searchItem (itoaUnsigned n) = s.searchNumber (tidOf (itoaUnsigned n)) := by
  obtain ⟨c, rest, hc⟩ := List.exists_cons_of_ne_nil (itoaUnsigned_ne_nil n)
  have hdigit : isDigit c = true := isDigit_of_mem_itoaUnsigned (v := n) (by rw [hc]; exact List.mem_cons_self)
  have hrange : 0x30 ≤ c ∧ c ≤ 0x39 := by
    have := isDigit_iff.mp hdigit
    exact ⟨UInt8.le_iff_toNat_le.mpr this.1, UInt8.le_iff_toNat_le.mpr this.2⟩
  rw [hc]
  exact if_pos hrange

/-- A job was launched at the time `z`. -/
def Lists.Launched (s : Lists) (z : ℤ) : Prop := ∃ t ∈ s.launchList, t.lastLaunchTime = z

theorem mem_page_task {z : ℤ} {i : ℕ} : (z, ItemType.task, i) ∈ s.page ↔ i < s.taskList.length ∧ z = i := by
  simp [Lists.page, List.mem_mapIdx]
  tauto

theorem mem_page_daemon {z : ℤ} {i : ℕ} :
    (z, ItemType.daemon, i) ∈ s.page ↔ i < s.daemonList.length ∧ z = i + s.taskList.length := by
  simp [Lists.page, List.mem_mapIdx]
  tauto

theorem mem_page_launch {z : ℤ} {i : ℕ} :
    (z, ItemType.launch, i) ∈ s.page ↔ ∃ h : i < s.launchList.length, (s.launchList[i]).lastLaunchTime = z := by
  simp [Lists.page, List.mem_mapIdx]

/-- The numbers on the page. -/
theorem exists_mem_page {z : ℤ} : (∃ x, (z, x) ∈ s.page) ↔
    (0 ≤ z ∧ z < s.taskList.length + s.daemonList.length) ∨ s.Launched z := by
  constructor
  · rintro ⟨⟨type, i⟩, hx⟩
    cases type with
    | task =>
      have := mem_page_task.mp hx
      omega
    | daemon =>
      have := mem_page_daemon.mp hx
      omega
    | launch =>
      obtain ⟨hi, ht⟩ := mem_page_launch.mp hx
      exact .inr ⟨_, List.getElem_mem hi, ht⟩
  · rintro (⟨hpos, hlt⟩ | ⟨t, ht, rfl⟩)
    · by_cases htask : z < s.taskList.length
      · exact ⟨(.task, z.toNat), mem_page_task.mpr (by omega)⟩
      · exact ⟨(.daemon, (z - s.taskList.length).toNat), mem_page_daemon.mpr (by omega)⟩
    · obtain ⟨i, hi, rfl⟩ := List.mem_iff_getElem.mp ht
      exact ⟨(.launch, i), mem_page_launch.mpr ⟨hi, rfl⟩⟩

/-- An item has one row. -/
theorem page_inj {z z' : ℤ} {x : ItemType × ℕ} (h : (z, x) ∈ s.page) (h' : (z', x) ∈ s.page) : z = z' := by
  obtain ⟨type, i⟩ := x
  cases type with
  | task => exact (mem_page_task.mp h).2.trans (mem_page_task.mp h').2.symm
  | daemon => exact (mem_page_daemon.mp h).2.trans (mem_page_daemon.mp h').2.symm
  | launch =>
    obtain ⟨_, ht⟩ := mem_page_launch.mp h
    obtain ⟨_, ht'⟩ := mem_page_launch.mp h'
    exact ht.symm.trans ht'

theorem not_mem_page_behind (z : ℤ) : (z, ItemType.daemon, s.daemonList.length) ∉ s.page :=
  fun h => absurd (mem_page_daemon.mp h).1 (lt_irrefl _)

section Number

variable (hsize : s.taskList.length + s.daemonList.length < 2 ^ 31) {z : ℤ}

include hsize

theorem searchNumber_behind :
    s.searchNumber (s.taskList.length + s.daemonList.length) = some (.daemon, s.daemonList.length) := by
  rw [Lists.searchNumber, intOf_eq (by omega) (by omega), if_neg (by omega), if_pos (by omega),
    intOf_eq (by omega) (by omega), if_neg (by omega)]
  simp

theorem mem_page_of_searchNumber (hz : z ≠ s.taskList.length + s.daemonList.length) {x : ItemType × ℕ}
    (h : s.searchNumber z = some x) : (z, x) ∈ s.page := by
  rw [Lists.searchNumber, intOf_eq (by omega) (by omega), intOf_eq (by omega) (by omega)] at h
  split at h
  · obtain ⟨i, hi, rfl⟩ := Option.map_eq_some_iff.mp h
    obtain ⟨hlt, htime, -⟩ := List.findIdx?_eq_some_iff_getElem.mp hi
    exact mem_page_launch.mpr ⟨hlt, by simpa using htime⟩
  · obtain ⟨hpos, h⟩ := Option.ite_none_right_eq_some.mp h
    split at h
    · obtain rfl := Option.some.inj h
      exact mem_page_task.mpr (by omega)
    · obtain rfl := Option.some.inj h
      exact mem_page_daemon.mpr (by omega)

theorem searchNumber_eq_none_iff :
    s.searchNumber z = none ↔ z < 0 ∨ s.taskList.length + s.daemonList.length < z ∧ ¬ s.Launched z := by
  rw [Lists.searchNumber, intOf_eq (by omega) (by omega), intOf_eq (by omega) (by omega)]
  split
  · rename_i hgt
    rw [Option.map_eq_none_iff, List.findIdx?_eq_none_iff]
    simp only [Lists.Launched, decide_eq_false_iff_not, not_exists, not_and]
    constructor
    · exact fun h => .inr ⟨by omega, h⟩
    · rintro (h | h)
      · omega
      · exact h.2
  · rename_i hle
    split
    · split
      · exact ⟨nofun, fun h => by omega⟩
      · exact ⟨nofun, fun h => by omega⟩
    · exact iff_of_true rfl (by omega)

end Number

/-- What is found for a number has a row with this number, and nothing is found only if there is no such row. -/
def Lists.Answers (s : Lists) (n : ℕ) : Prop :=
  (∀ x, s.searchItem (itoaUnsigned n) = some x → ((n : ℤ), x) ∈ s.page) ∧
    (s.searchItem (itoaUnsigned n) = none → ∀ x, ((n : ℤ), x) ∉ s.page)

/-- A number that is read right. -/
theorem answers_iff_of_eq (hsize : s.taskList.length + s.daemonList.length < 2 ^ 31)
    (htid : tidOf (itoaUnsigned n) = n) : s.Answers n ↔ n ≠ s.taskList.length + s.daemonList.length := by
  rw [Lists.Answers, searchItem_number, htid]
  constructor
  · rintro ⟨hsome, -⟩ rfl
    rw [Nat.cast_add] at hsome
    exact not_mem_page_behind _ (hsome _ (searchNumber_behind hsize))
  · intro hne
    refine ⟨fun x hx => mem_page_of_searchNumber hsize (by omega) hx, fun hnone x hx => ?_⟩
    obtain hrange | hlaunched := exists_mem_page.mp ⟨x, hx⟩
    · have := (searchNumber_eq_none_iff hsize).mp hnone
      omega
    · obtain hneg | ⟨-, hno⟩ := (searchNumber_eq_none_iff hsize).mp hnone
      · omega
      · exact hno hlaunched

/-- A number that is read as another one. -/
theorem answers_iff_of_ne (hsize : s.taskList.length + s.daemonList.length < 2 ^ 31) (hn : 2 ^ 31 ≤ n) {z : ℤ}
    (htid : tidOf (itoaUnsigned n) = z) (hne : z ≠ n) :
    s.Answers n ↔ ¬ s.Launched n ∧ (z < 0 ∨ s.taskList.length + s.daemonList.length < z ∧ ¬ s.Launched z) := by
  rw [Lists.Answers, searchItem_number, htid, ← searchNumber_eq_none_iff hsize]
  constructor
  · rintro ⟨hsome, hnone⟩
    have hfound : s.searchNumber z = none := by
      by_contra hfound
      obtain ⟨x, hx⟩ := Option.ne_none_iff_exists'.mp hfound
      by_cases hz : z = s.taskList.length + s.daemonList.length
      · rw [hz, searchNumber_behind hsize] at hx
        obtain rfl := Option.some.inj hx
        exact not_mem_page_behind _ (hsome _ (by rw [hz, searchNumber_behind hsize]))
      · exact hne (page_inj (mem_page_of_searchNumber hsize hz hx) (hsome x hx))
    refine ⟨fun hlaunched => ?_, hfound⟩
    obtain ⟨x, hx⟩ := exists_mem_page.mpr (.inr hlaunched)
    exact hnone hfound x hx
  · rintro ⟨hno, hfound⟩
    refine ⟨fun x hx => absurd (hfound.symm.trans hx) nofun, fun _ x hx => ?_⟩
    obtain hrange | hlaunched := exists_mem_page.mp ⟨x, hx⟩
    · omega
    · exact hno hlaunched

/-- **Handles.** For lists that are not too long and every handle, the search stays inside the lists if and only if what
is read is not the number of tasks and daemons; and it finds what the page shows under the handle, or nothing where the
page shows nothing, if and only if the handle is smaller than that number, or greater and read right, or read wrong,
while no job has it and none is found for what is read. -/
theorem searchItem_answers_iff (hsize : s.taskList.length + s.daemonList.length < 2 ^ 31) (hn : n < 2 ^ 63) :
    ((∀ x, s.searchItem (itoaUnsigned n) = some x → ∃ z, (z, x) ∈ s.page) ↔
        n % 2 ^ 32 ≠ s.taskList.length + s.daemonList.length) ∧
      (s.Answers n ↔
        n < s.taskList.length + s.daemonList.length ∨ (s.taskList.length + s.daemonList.length < n ∧ n < 2 ^ 31) ∨
          (2 ^ 31 ≤ n ∧ ¬ s.Launched n ∧ (2 ^ 31 ≤ n % 2 ^ 32 ∨
            s.taskList.length + s.daemonList.length < n % 2 ^ 32 ∧ ¬ s.Launched (n % 2 ^ 32 : ℕ)))) := by
  have htid := tidOf_itoaUnsigned hn
  refine ⟨?_, ?_⟩
  · rw [searchItem_number]
    constructor
    · intro hinside heq
      rw [if_pos (by omega), heq, Nat.cast_add] at htid
      rw [htid] at hinside
      obtain ⟨z, hz⟩ := hinside _ (searchNumber_behind hsize)
      exact not_mem_page_behind z hz
    · intro hne x hx
      refine ⟨_, mem_page_of_searchNumber hsize ?_ hx⟩
      rw [htid]
      split <;> omega
  · by_cases hsmall : n < 2 ^ 31
    · rw [Nat.mod_eq_of_lt (by omega), if_pos hsmall] at htid
      rw [answers_iff_of_eq hsize htid]
      omega
    · split at htid
      · rename_i hlow
        rw [answers_iff_of_ne hsize (by omega) htid (by omega)]
        constructor
        · rintro ⟨hno, hneg | ⟨hgt, hnone⟩⟩
          · omega
          · exact .inr (.inr ⟨by omega, hno, .inr ⟨by omega, hnone⟩⟩)
        · rintro (h | h | ⟨-, hno, h | ⟨hgt, hnone⟩⟩)
          · omega
          · omega
          · omega
          · exact ⟨hno, .inr ⟨by omega, hnone⟩⟩
      · rename_i hhigh
        rw [answers_iff_of_ne hsize (by omega) htid (by omega)]
        constructor
        · rintro ⟨hno, -⟩
          exact .inr (.inr ⟨by omega, hno, .inl (by omega)⟩)
        · rintro (h | h | ⟨-, hno, -⟩)
          · omega
          · omega
          · exact ⟨hno, .inl (by omega)⟩

/-- Two tasks, a daemon, and a job of November 2023. -/
def twoTasks : Lists :=
  ⟨[atMinuteOne, atMinuteOne], [atMinuteOne.toExec], [{ atMinuteOne.toLaunch with lastLaunchTime := 1700000000000 }]⟩

/-- The daemon is found, the job is not, and the next number is behind the end of the daemons. -/
theorem searchItem_answers_iff_twoTasks : twoTasks.Answers 2 ∧ ¬ twoTasks.Answers 1700000000000 ∧
    ¬ ∀ x, twoTasks.searchItem (itoaUnsigned 3) = some x → ∃ z, (z, x) ∈ twoTasks.page := by
  have hsize : twoTasks.taskList.length + twoTasks.daemonList.length < 2 ^ 31 := by decide
  have hjob : twoTasks.Launched (1700000000000 : ℕ) := ⟨_, List.mem_singleton_self _, rfl⟩
  refine ⟨(searchItem_answers_iff (n := 2) hsize (by decide)).2.mpr (.inl (by decide)), fun h => ?_, fun h => ?_⟩
  · have := (searchItem_answers_iff hsize (by decide)).2.mp h
    obtain hlt | ⟨-, hlt⟩ | ⟨-, hno, -⟩ := this
    · exact absurd hlt (by decide)
    · exact absurd hlt (by decide)
    · exact hno hjob
  · exact (searchItem_answers_iff (n := 3) hsize (by decide)).1.mp h rfl

end

end Cpcf.Pylon
