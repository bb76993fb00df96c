import Cpcf.Rt.BufferExCapacity

/-!
A `BufferEx` is a list: every operation does to the elements one can see what the list operation of the
same purpose does, as long as it is called within its asserted range and gets its memory.

`ListStep` says what each operation does to a list; fresh elements of `SetSize` and `ChangeSize` are
left open, as the constructor of plain data does nothing. `Called` is the condition on a call. Each operation
moves or writes cells of its own, and the list is put together from the slices these leave.
-/

namespace Cpcf.Rt.BufferEx

open Cpcf.Lib.Cells Cpcf.Lib.Run

variable {α : Type}

/-! ### The list -/

/-- What an operation does to a list. -/
def ListStep [DecidableEq α] : Op α → List α → List α → Prop
  | .setSize co, xs, ys => ys.length = co.toNat ∧ (co.toNat = xs.length → ys = xs)
  | .clear, _, ys => ys = []
  | .changeSize new_size keep, xs, ys =>
    ys.length = new_size.toNat ∧ (keep = true → ys.take xs.length = xs.take new_size.toNat)
  | .reserve _, xs, ys | .compactMemory, xs, ys => ys = xs
  | .pushFrontNew, xs, ys => ∃ x, ys = x :: xs
  | .pushFront x, xs, ys => ys = x :: xs
  | .pushFrontArray zs, xs, ys => ys = zs ++ xs
  | .pushFrontCount x count, xs, ys => ys = List.replicate count.toNat x ++ xs
  | .pushBoth x front back, xs, ys => ys = List.replicate front.toNat x ++ xs ++ List.replicate back.toNat x
  | .pushBackNew, xs, ys => ∃ x, ys = xs ++ [x]
  | .pushBack x, xs, ys => ys = xs ++ [x]
  | .pushBackArray zs, xs, ys => ys = xs ++ zs
  | .pushBackCount x count, xs, ys => ys = xs ++ List.replicate count.toNat x
  | .erase index, xs, ys => ys = xs.eraseIdx index.toNat
  | .eraseRange first last, xs, ys => ys = xs.take first.toNat ++ xs.drop (last.toNat + 1)
  | .popBack, xs, ys => ys = xs.dropLast
  | .popFront, xs, ys => ys = xs.tail
  | .insertCount index count x, xs, ys =>
    ys = xs.take index.toNat ++ List.replicate count.toNat x ++ xs.drop index.toNat
  | .includeElement x, xs, ys => ys = if x ∈ xs then xs else xs ++ [x]
  | _, _, _ => False

/-- What a sequence of operations does to a list. -/
def ListRun [DecidableEq α] : List (Op α) → List α → List α → Prop
  | [], xs, ys => ys = xs
  | op :: ops, xs, zs => ∃ ys, ListStep op xs ys ∧ ListRun ops ys zs

/-! ### The calls -/

section Calls

variable (w : ℕ) (s : State α)

/-- There is room for `n` elements, or memory for them is got: as much as is asked for first, or else as much
as is needed. -/
def Provided (n asked : ℕ) (answers : Answers α) : Prop :=
  w * n < 2 ^ 64 ∧
    (n ≤ s.reserved ∨ answers.first.isSome = true ∧ w * asked < 2 ^ 64 ∨
      answers.first = none ∧ answers.second.isSome = true)

/-- `co` elements can be added by `_add_entry`. -/
def AddDone (co : ℕ) (answers : Answers α) : Prop :=
  Provided w s (s.len + co) (max (max 4 (s.len + co)) (s.reserved * 2 % 2 ^ 64)) answers

/-- The size can be changed by `ChangeSize`. -/
def ChangeDone (n : ℕ) (answers : Answers α) : Prop :=
  Provided w s n (max n (s.reserved * 2 % 2 ^ 64)) answers

/-- An operation is called within its asserted range, and gets its memory. -/
def Called : Op α × Answers α → Prop
  | (.setSize co, answers) => w * co.toNat < 2 ^ 64 ∧ (co.toNat = s.len ∨ co.toNat = 0 ∨ answers.first.isSome = true)
  | (.clear, _) | (.compactMemory, _) => True
  | (.changeSize new_size _, answers) => ChangeDone w s new_size.toNat answers
  | (.reserve co, answers) => w * co.toNat < 2 ^ 64 ∧ (co.toNat ≤ s.reserved ∨ answers.first.isSome = true)
  | (.pushFrontNew, answers) | (.pushFront _, answers) | (.pushBackNew, answers) | (.pushBack _, answers) =>
    AddDone w s 1 answers
  | (.pushFrontArray xs, answers) | (.pushBackArray xs, answers) => AddDone w s xs.length answers
  | (.pushFrontCount _ count, answers) | (.pushBackCount _ count, answers) => AddDone w s count.toNat answers
  | (.pushBoth _ front back, answers) => ChangeDone w s (s.len + front.toNat + back.toNat) answers
  | (.erase index, _) => index.toNat < s.len
  | (.eraseRange first last, _) => first.toNat ≤ last.toNat ∧ last.toNat < s.len
  | (.popBack, _) | (.popFront, _) => 0 < s.len
  | (.insertCount index count _, answers) =>
    index.toNat ≤ s.len ∧ w * (s.len + count.toNat) < 2 ^ 64 ∧
      (s.len + count.toNat ≤ s.reserved ∨ answers.first.isSome = true)
  | (.includeElement x, answers) => x ∈ s.contents ∨ AddDone w s 1 answers
  | _ => False

instance (n asked : ℕ) (answers : Answers α) : Decidable (Provided w s n asked answers) :=
  inferInstanceAs (Decidable (_ ∧ (_ ∨ _ ∧ _ ∨ _ ∧ _)))

instance (co : ℕ) (answers : Answers α) : Decidable (AddDone w s co answers) :=
  inferInstanceAs (Decidable (Provided ..))

instance (n : ℕ) (answers : Answers α) : Decidable (ChangeDone w s n answers) :=
  inferInstanceAs (Decidable (Provided ..))

instance [DecidableEq α] : ∀ a : Op α × Answers α, Decidable (Called w s a)
  | (.setSize _, _) => inferInstanceAs (Decidable (_ ∧ (_ ∨ _ ∨ _)))
  | (.clear, _) | (.compactMemory, _) => isTrue trivial
  | (.changeSize _ _, _) | (.pushBoth _ _ _, _) => inferInstanceAs (Decidable (ChangeDone ..))
  | (.reserve _, _) => inferInstanceAs (Decidable (_ ∧ (_ ∨ _)))
  | (.pushFrontNew, _) | (.pushFront _, _) | (.pushFrontArray _, _) | (.pushFrontCount _ _, _)
  | (.pushBackNew, _) | (.pushBack _, _) | (.pushBackArray _, _) | (.pushBackCount _ _, _) =>
    inferInstanceAs (Decidable (AddDone ..))
  | (.erase _, _) | (.popBack, _) | (.popFront, _) => inferInstanceAs (Decidable (_ < _))
  | (.eraseRange _ _, _) => inferInstanceAs (Decidable (_ ∧ _))
  | (.insertCount _ _ _, _) => inferInstanceAs (Decidable (_ ∧ _ ∧ (_ ∨ _)))
  | (.includeElement _, _) => inferInstanceAs (Decidable (_ ∨ _))
  | (.pushBackN _, _) | (.insertNew _, _) | (.insertNewCount _ _, _) | (.sortedPush _, _) | (.assign _, _)
  | (.assignSelf, _) | (.detach, _) | (.shrinkSize _, _) | (.remove _, _) | (.modify _, _) => isFalse id

end Calls

section Simulation

variable {w : ℕ} {s : State α} {answers : Answers α}

theorem lt_of_mul_lt (hw : 0 < w) {n : ℕ} (h : w * n < 2 ^ 64) : n < 2 ^ 64 :=
  (Nat.le_mul_of_pos_left n hw).trans_lt h

@[simp] theorem length_contents (s : State α) : s.contents.length = s.len := length_slice _ _ _

/-- Copying to a new block keeps the elements. -/
theorem slice_moveTo (s : State α) (n : ℕ) (b : Block α) : slice (s.moveTo n b).cells 0 s.len = slice s.cells 0 s.len := by
  refine slice_congr ?_
  intro i hi
  simp [State.moveTo, hi]

theorem malloc_of_isSome {n : ℕ} {answer : Option (ℕ → α)} (h : answer.isSome = true) :
    ∃ b, malloc w n answer = some b := by
  obtain ⟨f, rfl⟩ := Option.isSome_iff_exists.mp h
  exact ⟨_, rfl⟩

theorem not_none_of_isSome {answer : Option (ℕ → α)} {P : Prop} (h : answer = none) (hsome : answer.isSome = true) :
    P := by
  rw [h] at hsome
  cases hsome

/-- When the first request is refused, the second one is granted. -/
theorem Provided.second {n asked : ℕ} (h : Provided w s n asked answers) (hgt : ¬ n ≤ s.reserved)
    (hnone : malloc w asked answers.first = none) : ∃ b, malloc w n answers.second = some b := by
  rcases h.2 with hle | ⟨hsome, -⟩ | ⟨-, hsome⟩
  · exact absurd hle hgt
  · exact not_none_of_isSome (malloc_eq_none hnone) hsome
  · exact malloc_of_isSome hsome

/-- What is granted has the room that was asked for. -/
theorem Provided.granted {n asked : ℕ} (h : Provided w s n asked answers) (hgt : ¬ n ≤ s.reserved) :
    Granted w asked answers.first ∧ (answers.first = none → answers.second.isSome = true) := by
  rcases h.2 with hle | ⟨hsome, hasked⟩ | ⟨hnone, hsome⟩
  · exact absurd hle hgt
  · exact ⟨fun _ => hasked, fun hnone => not_none_of_isSome hnone hsome⟩
  · exact ⟨fun hsome' => not_none_of_isSome hnone hsome', fun _ => hsome⟩

theorem addDone_addOk (hw : 0 < w) {co : ℕ} (h : AddDone w s co answers) : AddOk w s co answers := by
  have hsum : (s.len + co) % 2 ^ 64 = s.len + co := Nat.mod_eq_of_lt (lt_of_mul_lt hw h.1)
  rw [AddOk, hsum]
  by_cases hle : s.len + co ≤ s.reserved
  · exact Or.inl hle
  · exact Or.inr ⟨(h.granted hle).1, fun _ _ => h.1⟩

theorem changeDone_changeOk {n : ℕ} (h : ChangeDone w s n answers) : ChangeOk w s n answers := by
  by_cases hle : n ≤ s.reserved
  · exact Or.inl hle
  · exact Or.inr ⟨(h.granted hle).1, fun hnone => ⟨(h.granted hle).2 hnone, h.1⟩⟩

/-- `_add_entry` makes room behind the elements. -/
theorem addEntry_done (hw : 0 < w) {co : ℕ} (h : AddDone w s co answers) :
    ∃ s', addEntry w s co answers = (s', true) ∧ s'.len = s.len + co ∧ slice s'.cells 0 s.len = slice s.cells 0 s.len := by
  have hsum : (s.len + co) % 2 ^ 64 = s.len + co := Nat.mod_eq_of_lt (lt_of_mul_lt hw h.1)
  simp only [addEntry, hsum]
  split
  · exact ⟨_, rfl, rfl, rfl⟩
  · rename_i hgt
    split
    · rename_i b hb
      refine ⟨_, rfl, rfl, ?_⟩
      exact slice_moveTo s 0 b
    · rename_i hnone
      obtain ⟨b, hb⟩ := h.second hgt hnone
      rw [hb]
      refine ⟨_, rfl, rfl, ?_⟩
      exact slice_moveTo s 0 b

/-- `ChangeSize` keeps the elements at the front. -/
theorem changeSize_done {n : ℕ} (keep : Bool) (h : ChangeDone w s n answers) :
    ∃ s', changeSize w s n keep answers = (s', true) ∧ s'.len = n ∧
      (keep = true → ∀ i < s.len, i < n → s'.cells i = s.cells i) := by
  unfold changeSize
  split
  · rename_i heq
    exact ⟨s, rfl, heq.symm, fun _ _ _ _ => rfl⟩
  · split
    · rename_i hlt
      rw [shrinkSize, if_pos hlt]
      exact ⟨_, rfl, rfl, fun _ _ _ _ => rfl⟩
    · split
      · exact ⟨_, rfl, rfl, fun _ _ _ _ => rfl⟩
      · rename_i hgt
        simp only
        split
        · rename_i b hb
          refine ⟨_, rfl, by cases keep <;> rfl, ?_⟩
          rintro rfl i hi -
          simp [State.moveTo, hi]
        · rename_i hnone
          obtain ⟨b, hb⟩ := h.second hgt hnone
          rw [hb]
          refine ⟨_, rfl, by cases keep <;> rfl, ?_⟩
          rintro rfl i hi -
          simp [State.moveTo, hi]

/-- `reserve` keeps the elements. -/
theorem reserve_done {co : ℕ} {answer : Option (ℕ → α)} (h : co ≤ s.reserved ∨ answer.isSome = true) :
    ∃ s', reserve w s co answer = (s', true) ∧ s'.len = s.len ∧ slice s'.cells 0 s.len = slice s.cells 0 s.len := by
  unfold reserve
  split
  · rename_i hgt
    obtain ⟨b, hb⟩ := malloc_of_isSome (w := w) (n := co) (h.resolve_left (by omega))
    rw [hb]
    exact ⟨_, rfl, rfl, slice_moveTo s _ b⟩
  · exact ⟨_, rfl, rfl, rfl⟩

/-! ### The operations -/

theorem contents_pushFrontNew (hw : 0 < w) (h : AddDone w s 1 answers) :
    ∃ x, (pushFrontNew w s answers).contents = x :: s.contents := by
  obtain ⟨s', hadd, hlen, hold⟩ := addEntry_done hw h
  have hlast : s'.last = s.len := by rw [State.last, hlen]; rfl
  simp only [pushFrontNew, hadd, hlast, State.contents, hlen]
  rw [Nat.add_comm s.len 1, slice_add, slice_move _ le_rfl, hold, slice_one]
  exact ⟨_, rfl⟩

theorem contents_pushFront (hw : 0 < w) (x : α) (h : AddDone w s 1 answers) :
    (pushFront w s x answers).contents = x :: s.contents := by
  obtain ⟨s', hadd, hlen, hold⟩ := addEntry_done hw h
  have hlast : s'.last = s.len := by rw [State.last, hlen]; rfl
  simp only [pushFront, pushFrontNew, hadd, hlast, State.contents, hlen]
  have hrest : slice (put (move s'.cells 1 0 s.len) 0 [x]) 1 s.len = slice s.cells 0 s.len := by
    rw [slice_put_outside _ _ (Or.inr (by simp)), slice_move _ le_rfl, hold]
  rw [Nat.add_comm s.len 1, slice_add, Nat.zero_add, hrest]
  rfl

theorem contents_pushFrontAll (hw : 0 < w) (xs : List α) (h : AddDone w s xs.length answers) :
    (pushFrontAll w s xs answers).contents = xs ++ s.contents := by
  obtain ⟨s', hadd, hlen, hold⟩ := addEntry_done hw h
  unfold pushFrontAll
  split
  · rename_i hnil
    rw [List.length_eq_zero_iff.mp hnil, List.nil_append]
  · simp only [hadd, State.contents, hlen]
    rw [Nat.add_comm s.len, slice_add, slice_put, Nat.zero_add, slice_put_outside _ _ (Or.inr (by simp)),
      slice_move _ le_rfl, hold]

theorem contents_pushBackAll (hw : 0 < w) (xs : List α) (h : AddDone w s xs.length answers) :
    (pushBackAll w s xs answers).contents = s.contents ++ xs := by
  obtain ⟨s', hadd, hlen, hold⟩ := addEntry_done hw h
  simp only [pushBackAll, hadd, State.contents, hlen, Nat.add_sub_cancel_left, List.take_length]
  rw [slice_add, Nat.zero_add, slice_put, slice_put_outside _ _ (Or.inl (by omega)), hold]

theorem contents_pushBack (hw : 0 < w) (x : α) (h : AddDone w s 1 answers) :
    (pushBack w s x answers).contents = s.contents ++ [x] := by
  obtain ⟨s', hadd, hlen, hold⟩ := addEntry_done hw h
  have hlast : s'.last = s.len := by rw [State.last, hlen]; rfl
  simp only [pushBack, pushBackNew, hadd, hlast, State.contents, hlen]
  rw [slice_add, Nat.zero_add, slice_put_outside _ _ (Or.inl (by omega)), hold]
  congr 1
  exact slice_put _ [x]

theorem contents_pushBackNew (hw : 0 < w) (h : AddDone w s 1 answers) :
    ∃ x, (pushBackNew w s answers).contents = s.contents ++ [x] := by
  obtain ⟨s', hadd, hlen, hold⟩ := addEntry_done hw h
  simp only [pushBackNew, hadd, State.contents, hlen]
  rw [slice_add, hold, slice_one]
  exact ⟨_, rfl⟩

/-- A repeated element that was written. -/
theorem slice_put_replicate (f : ℕ → α) (a n : ℕ) (x : α) :
    slice (put f a (List.replicate n x)) a n = List.replicate n x := by
  have h := slice_put (a := a) f (List.replicate n x)
  rwa [List.length_replicate] at h

theorem contents_pushBoth (hw : 0 < w) (x : α) {front back : ℕ} (h : ChangeDone w s (s.len + front + back) answers) :
    (pushBoth w s x front back answers).contents =
      List.replicate front x ++ s.contents ++ List.replicate back x := by
  have hlt := lt_of_mul_lt hw h.1
  obtain ⟨s', hch, hlen, hold⟩ := changeSize_done true h
  have hkeep : slice s'.cells 0 s.len = slice s.cells 0 s.len :=
    slice_congr fun i hi => hold rfl _ (by omega) (by omega)
  have h1 : (front + back) % 2 ^ 64 = front + back := by omega
  have h2 : (s.len + front + back) % 2 ^ 64 = s.len + front + back := by omega
  have h3 : (s.len + front) % 2 ^ 64 = front + s.len := by omega
  have h4 : s'.len - (front + s.len) = back := by omega
  unfold pushBoth
  rw [h1]
  split
  · rename_i hz
    obtain ⟨rfl, rfl⟩ : front = 0 ∧ back = 0 := by omega
    simp
  · simp only [h2, hch, h3, h4, State.contents]
    rw [hlen, Nat.add_comm s.len front, slice_add, Nat.zero_add, slice_put_replicate,
      slice_put_outside _ _ (Or.inl (by omega)), slice_add, slice_put_replicate, Nat.zero_add,
      slice_put_outside _ _ (Or.inr (by simp)), slice_move _ le_rfl, hkeep]

theorem contents_insertCount (hw : 0 < w) (x : α) {index count : ℕ} {answer : Option (ℕ → α)}
    (hin : index ≤ s.len) (hfit : w * (s.len + count) < 2 ^ 64)
    (hmem : s.len + count ≤ s.reserved ∨ answer.isSome = true) :
    ∃ t, insertCount w s index count (fun n => List.replicate n x) answer = some (t, true) ∧
      t.contents = s.contents.take index ++ List.replicate count x ++ s.contents.drop index := by
  have hlt := lt_of_mul_lt hw hfit
  have h1 : (s.len + count) % 2 ^ 64 = s.len + count := by omega
  have h2 : (index + count) % 2 ^ 64 = index + count := by omega
  obtain ⟨s', hres, hlen, hold⟩ := reserve_done (w := w) (s := s) hmem
  rw [insertCount, if_pos hin, h1, hres]
  refine ⟨_, rfl, ?_⟩
  have hsplit : s.len + count = index + count + (s.len - index) := by omega
  have hupper : slice s'.cells index (s.len - index) = slice s.cells index (s.len - index) := by
    have h3 := drop_slice s'.cells (a := 0) hin
    have h4 := drop_slice s.cells (a := 0) hin
    rw [hold, h4, Nat.zero_add] at h3
    exact h3.symm
  have hlower : slice s'.cells 0 index = slice s.cells 0 index := by
    rw [← take_slice s'.cells hin, hold, take_slice s.cells hin]
  simp only [State.contents, h2, hlen, Nat.add_sub_cancel_left, h1]
  rw [hsplit, slice_add, slice_add, Nat.zero_add, Nat.zero_add, slice_put_replicate,
    slice_put_outside _ _ (Or.inl (by omega)), slice_move_outside _ (Or.inl (by omega)),
    slice_put_outside _ _ (Or.inr (by simp)), slice_move _ le_rfl, hupper, hlower, take_slice _ hin, drop_slice _ hin,
    Nat.zero_add]

theorem contents_erase {index : ℕ} (h : index < s.len) :
    ∃ t, erase s index = some t ∧ t.contents = s.contents.eraseIdx index := by
  rw [erase, if_pos h]
  refine ⟨_, rfl, ?_⟩
  have hsplit : s.len - 1 = index + (s.len - 1 - index) := by omega
  have hrest : s.len - 1 - index = s.len - (index + 1) := by omega
  simp only [State.contents]
  rw [List.eraseIdx_eq_take_drop_succ, take_slice _ h.le, drop_slice _ h, hsplit, slice_add, Nat.zero_add,
    slice_move_outside _ (Or.inl (by omega)), Nat.add_sub_cancel_left, slice_move _ le_rfl, Nat.zero_add, hrest]

theorem contents_eraseRange {first last : ℕ} (h : first ≤ last ∧ last < s.len) :
    ∃ t, eraseRange s first last = some t ∧ t.contents = s.contents.take first ++ s.contents.drop (last + 1) := by
  rw [eraseRange, if_pos h]
  refine ⟨_, rfl, ?_⟩
  have hsplit : s.len - (last + 1 - first) = first + (s.len - (last + 1)) := by omega
  simp only [State.contents]
  rw [take_slice _ (by omega), drop_slice _ (by omega), hsplit, slice_add, Nat.zero_add,
    slice_move_outside _ (Or.inl (by omega)), slice_move _ le_rfl, Nat.zero_add]

theorem contents_popBack (h : 0 < s.len) : ∃ t, popBack s = some t ∧ t.contents = s.contents.dropLast := by
  rw [popBack, if_pos h]
  refine ⟨_, rfl, ?_⟩
  simp only [State.contents]
  rw [List.dropLast_eq_take, length_slice, take_slice _ (Nat.sub_le _ _)]

theorem contents_popFront (h : 0 < s.len) : ∃ t, popFront s = some t ∧ t.contents = s.contents.tail := by
  rw [popFront, if_pos h]
  refine ⟨_, rfl, ?_⟩
  simp only [State.contents]
  rw [slice_move _ le_rfl, ← List.drop_one, drop_slice _ h, Nat.zero_add]

theorem contents_compactMemory (s : State α) (answer : Option (ℕ → α)) :
    (compactMemory w s answer).contents = s.contents := by
  unfold compactMemory
  split
  · split
    · rename_i b _
      exact slice_moveTo s s.len b
    · rfl
  · rfl

theorem contents_setSize {co : ℕ} {answer : Option (ℕ → α)} (h : co = s.len ∨ co = 0 ∨ answer.isSome = true) :
    ∃ t, setSize w s co answer = (t, true) ∧ t.contents.length = co ∧ (co = s.len → t.contents = s.contents) := by
  unfold setSize bufferSetSize
  by_cases hco : co = s.len
  · rw [if_pos hco]
    refine ⟨_, rfl, ?_, fun _ => ?_⟩
    · rw [length_contents]
      split <;> exact hco.symm
    · split <;> rfl
  · rw [if_neg hco]
    by_cases hz : co = 0
    · rw [if_pos hz]
      exact ⟨_, rfl, hz.symm, fun heq => absurd heq hco⟩
    · rw [if_neg hz]
      obtain ⟨b, hb⟩ := malloc_of_isSome (w := w) (n := co) ((h.resolve_left hco).resolve_left hz)
      rw [hb]
      exact ⟨_, rfl, length_contents _, fun heq => absurd heq hco⟩

/-! ### Runs -/

variable [DecidableEq α] {lt : α → α → Bool}

omit [DecidableEq α] in
theorem called_sound (hw : 0 < w) {a : Op α × Answers α} (h : Called w s a) : Sound w s a := by
  obtain ⟨op, answers⟩ := a
  have hmod : ∀ {n : ℕ}, w * n < 2 ^ 64 → n % 2 ^ 64 = n := fun hn => Nat.mod_eq_of_lt (lt_of_mul_lt hw hn)
  cases op with
  | setSize co => exact fun _ _ => h.1
  | changeSize n keep => exact changeDone_changeOk h
  | reserve co => exact Or.inr fun _ => h.1
  | pushFrontNew => exact addDone_addOk hw h
  | pushFront x => exact addDone_addOk hw h
  | pushFrontArray xs => exact addDone_addOk hw h
  | pushFrontCount x count => exact addDone_addOk hw h
  | pushBackNew => exact addDone_addOk hw h
  | pushBack x => exact addDone_addOk hw h
  | pushBackArray xs => exact addDone_addOk hw h
  | pushBackCount x count => exact addDone_addOk hw h
  | pushBoth x front back =>
    have hok := changeDone_changeOk h
    rwa [← hmod h.1] at hok
  | insertCount index count x =>
    obtain ⟨-, hfit, -⟩ := h
    refine Or.inr ?_
    intro _
    rwa [hmod hfit]
  | includeElement x => exact h.imp id (addDone_addOk hw)
  | clear => trivial
  | compactMemory => trivial
  | erase index => trivial
  | eraseRange first last => trivial
  | popBack => trivial
  | popFront => trivial
  | _ => exact h.elim

theorem step_refines (hw : 0 < w) {a : Op α × Answers α} (h : Called w s a) :
    ∃ t, step w lt s a = some t ∧ ListStep a.1 s.contents t.contents := by
  obtain ⟨op, answers⟩ := a
  have hpair : ∀ {t : State α} {b : Bool} {P : State α → Prop}, apply w lt s answers op = some (t, b) → P t →
      ∃ t, step w lt s (op, answers) = some t ∧ P t := by
    intro t b P ht hP
    exact ⟨t, by rw [step, ht]; rfl, hP⟩
  have hmap : ∀ {o : Option (State α)} {P : State α → Prop}, apply w lt s answers op = o.map (·, true) →
      (∃ t, o = some t ∧ P t) → ∃ t, step w lt s (op, answers) = some t ∧ P t := by
    rintro o P ho ⟨t, rfl, hP⟩
    exact hpair ho hP
  cases op with
  | setSize co =>
    obtain ⟨t, ht, hlen, hsame⟩ := contents_setSize (w := w) h.2
    refine hpair (by rw [apply, ht]) ⟨hlen, fun heq => hsame ?_⟩
    rwa [length_contents] at heq
  | clear =>
    have hzero : 0 = s.len ∨ 0 = 0 ∨ answers.first.isSome = true := Or.inr (Or.inl rfl)
    obtain ⟨t, ht, hlen, -⟩ := contents_setSize (w := w) hzero
    exact hpair (by rw [apply, ht]) (List.length_eq_zero_iff.mp hlen)
  | changeSize n keep =>
    obtain ⟨t, ht, hlen, hkeep⟩ := changeSize_done keep h
    refine hpair (by rw [apply, ht]) ⟨by rw [length_contents, hlen], fun hk => ?_⟩
    have hcongr : slice t.cells 0 (min n.toNat s.len) = slice s.cells 0 (min n.toNat s.len) :=
      slice_congr fun i hi => hkeep hk _ (by omega) (by omega)
    rw [length_contents, State.contents, State.contents, hlen]
    rcases Nat.le_total n.toNat s.len with hle | hle
    · rw [min_eq_left hle] at hcongr
      rw [List.take_of_length_le (by simpa using hle), take_slice _ hle, hcongr]
    · rw [min_eq_right hle] at hcongr
      rw [take_slice _ hle, hcongr, List.take_of_length_le (by simpa using hle)]
  | reserve co =>
    obtain ⟨t, ht, hlen, hold⟩ := reserve_done (w := w) h.2
    refine hpair (by rw [apply, ht]) ?_
    rw [ListStep, State.contents, State.contents, hlen, hold]
  | compactMemory => exact hpair rfl (contents_compactMemory s _)
  | pushFrontNew => exact hpair rfl (contents_pushFrontNew hw h)
  | pushFront x => exact hpair rfl (contents_pushFront hw x h)
  | pushFrontArray xs => exact hpair rfl (contents_pushFrontAll hw xs h)
  | pushFrontCount x count =>
    refine hpair rfl (contents_pushFrontAll hw _ ?_)
    rw [List.length_replicate]
    exact h
  | pushBoth x front back => exact hpair rfl (contents_pushBoth hw x h)
  | pushBackNew => exact hpair rfl (contents_pushBackNew hw h)
  | pushBack x => exact hpair rfl (contents_pushBack hw x h)
  | pushBackArray xs => exact hpair rfl (contents_pushBackAll hw xs h)
  | pushBackCount x count =>
    refine hpair rfl (contents_pushBackAll hw _ ?_)
    rw [List.length_replicate]
    exact h
  | erase index => exact hmap rfl (contents_erase h)
  | eraseRange first last => exact hmap rfl (contents_eraseRange h)
  | popBack => exact hmap rfl (contents_popBack h)
  | popFront => exact hmap rfl (contents_popFront h)
  | insertCount index count x =>
    obtain ⟨hin, hfit, hmem⟩ := h
    obtain ⟨t, ht, hcont⟩ := contents_insertCount hw x hin hfit hmem
    exact hpair (by rw [apply, ht]) hcont
  | includeElement x =>
    refine hpair rfl ?_
    rw [ListStep, includeElement]
    split
    · rfl
    · rename_i hx
      exact contents_pushBack hw x (h.resolve_left hx)
  | _ => exact h.elim

theorem run_refines (hw : 0 < w) (hcap : CapOk w s) {as : List (Op α × Answers α)}
    (h : Along (step w lt) (Called w) s as) :
    ∃ t, run (step w lt) s as = some t ∧ CapOk w t ∧ ListRun (as.map Prod.fst) s.contents t.contents := by
  induction as generalizing s with
  | nil => exact ⟨s, rfl, hcap, rfl⟩
  | cons a as ih =>
    obtain ⟨u, hu, hstep⟩ : ∃ u, step w lt s a = some u ∧ ListStep a.1 s.contents u.contents :=
      step_refines hw h.1
    have hcap' : CapOk w u := by
      obtain ⟨⟨v, ok⟩, hv, rfl⟩ := Option.map_eq_some_iff.mp hu
      exact capOk_apply hw hcap (called_sound hw h.1) hv
    obtain ⟨t, ht, hcapt, hrun⟩ := ih hcap' (h.2 u hu)
    exact ⟨t, by rw [run, hu]; exact ht, hcapt, u.contents, hstep, hrun⟩

end Simulation

/-- Some of everything, with three growths. -/
def manyOps : List (Op ℕ) :=
  [.setSize 3, .changeSize 1 true, .pushBack 456, .pushFront 12, .pushBoth 5 1 2, .erase 1, .insertCount 1 3 100,
    .eraseRange 0 2, .popBack, .includeElement 456, .pushFrontArray [1, 2], .popFront]

end Cpcf.Rt.BufferEx
