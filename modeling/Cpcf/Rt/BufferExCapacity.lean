import Cpcf.Rt.BufferEx

/-!
The three sizes of a `BufferEx`: the elements are within the reserved size, and the reserved size is within
the memory that was really allocated.

`Sound` is the condition on an operation under which this is kept: what the allocator grants has room
for what was asked for, an operation that goes through `ChangeSize` gets its memory, and nothing is
reserved when the memory is given away by `Detach`.
-/

namespace Cpcf.Rt.BufferEx

open Cpcf.Lib.Cells Cpcf.Lib.Run

variable {α : Type}

/-! ### The invariant -/

/-- The memory behind the pointer has room for what is reserved. -/
structure CapOk (w : ℕ) (s : State α) : Prop where
  fits : w * s.alloc < 2 ^ 64
  reserved_le : s.reserved ≤ s.alloc
  len_le : s.len ≤ s.reserved

section Capacity

variable {w : ℕ} {s : State α}

theorem capOk_start (w : ℕ) (cells : ℕ → α) : CapOk w (start cells) := ⟨by simp [start], le_rfl, le_rfl⟩

theorem room_of_fits {n : ℕ} (hw : 0 < w) (h : w * n < 2 ^ 64) : room w n = n := by
  rw [room, Nat.mod_eq_of_lt h, Nat.mul_div_cancel_left n hw]

theorem malloc_eq_some {n : ℕ} {answer : Option (ℕ → α)} {b : Block α} (h : malloc w n answer = some b) :
    answer.isSome = true ∧ b.room = room w n := by
  obtain ⟨cells, rfl, rfl⟩ := Option.map_eq_some_iff.mp h
  exact ⟨rfl, rfl⟩

theorem malloc_eq_none {n : ℕ} {answer : Option (ℕ → α)} (h : malloc w n answer = none) : answer = none :=
  Option.map_eq_none_iff.mp h

/-- The elements are written, and perhaps some are taken away. -/
theorem CapOk.update (h : CapOk w s) (f : ℕ → α) {n : ℕ} (hn : n ≤ s.len) : CapOk w { s with cells := f, len := n } :=
  ⟨h.fits, h.reserved_le, hn.trans h.len_le⟩

theorem CapOk.cells (h : CapOk w s) (f : ℕ → α) : CapOk w { s with cells := f } := h.update f le_rfl

/-- The block has the room that was asked for. -/
def Granted (w n : ℕ) (answer : Option (ℕ → α)) : Prop := answer.isSome = true → w * n < 2 ^ 64

/-- An array of `len` elements in a new block with room for `n`. -/
theorem capOk_block (hw : 0 < w) {n len : ℕ} {answer : Option (ℕ → α)} {b : Block α}
    (hb : malloc w n answer = some b) (hg : Granted w n answer) (hlen : len ≤ n) (f : ℕ → α) :
    CapOk w ⟨f, b.room, len, n⟩ := by
  obtain ⟨hsome, hroom⟩ := malloc_eq_some hb
  have hfit := hg hsome
  rw [room_of_fits hw hfit] at hroom
  exact ⟨by rw [hroom]; exact hfit, hroom.ge, hlen⟩

/-! ### The operations that change the room -/

/-- The condition on an operation that adds `co` elements by `_add_entry`. -/
def AddOk (w : ℕ) (s : State α) (co : ℕ) (answers : Answers α) : Prop :=
  (s.len + co) % 2 ^ 64 ≤ s.reserved ∨
    Granted w (max (max 4 ((s.len + co) % 2 ^ 64)) (s.reserved * 2 % 2 ^ 64)) answers.first ∧
      (answers.first = none → Granted w ((s.len + co) % 2 ^ 64) answers.second)

/-- The condition on an operation that goes through `ChangeSize`: it gets its memory. -/
def ChangeOk (w : ℕ) (s : State α) (new_size : ℕ) (answers : Answers α) : Prop :=
  new_size ≤ s.reserved ∨
    Granted w (max new_size (s.reserved * 2 % 2 ^ 64)) answers.first ∧
      (answers.first = none → answers.second.isSome = true ∧ w * new_size < 2 ^ 64)

/-- The condition on `reserve`. -/
def ReserveOk (w : ℕ) (s : State α) (co : ℕ) (answer : Option (ℕ → α)) : Prop :=
  co ≤ s.reserved ∨ Granted w co answer

variable {answers : Answers α}

theorem capOk_addEntry (hw : 0 < w) (h : CapOk w s) {co : ℕ} (hok : AddOk w s co answers) :
    CapOk w (addEntry w s co answers).1 := by
  unfold addEntry
  simp only
  split
  · rename_i hle
    exact ⟨h.fits, h.reserved_le, hle⟩
  · rename_i hgt
    obtain ⟨hfirst, hsecond⟩ := hok.resolve_left hgt
    split
    · rename_i b hb
      exact capOk_block hw hb hfirst (by omega) _
    · rename_i hnone
      split
      · rename_i b hb
        exact capOk_block hw hb (hsecond (malloc_eq_none hnone)) le_rfl _
      · exact h

theorem capOk_reserve (hw : 0 < w) (h : CapOk w s) {co : ℕ} {answer : Option (ℕ → α)}
    (hok : ReserveOk w s co answer) : CapOk w (reserve w s co answer).1 := by
  unfold reserve
  split
  · rename_i hgt
    split
    · rename_i b hb
      exact capOk_block hw hb (hok.resolve_left (by omega)) (h.len_le.trans (by omega)) _
    · exact h
  · exact h

theorem capOk_shrinkSize (h : CapOk w s) (n : ℕ) : CapOk w (shrinkSize s n) := by
  unfold shrinkSize
  split
  · rename_i hlt
    exact h.update s.cells hlt.le
  · exact h

theorem capOk_changeSize (hw : 0 < w) (h : CapOk w s) {n : ℕ} {keep : Bool} (hok : ChangeOk w s n answers) :
    CapOk w (changeSize w s n keep answers).1 := by
  unfold changeSize
  split
  · exact h
  · split
    · exact capOk_shrinkSize h n
    · split
      · rename_i hle
        exact ⟨h.fits, h.reserved_le, hle⟩
      · rename_i hgt
        obtain ⟨hfirst, hsecond⟩ := hok.resolve_left hgt
        simp only
        split
        · rename_i b hb
          cases keep <;> exact capOk_block hw hb hfirst (by omega) _
        · rename_i hnone
          obtain ⟨hsome, hfit⟩ := hsecond (malloc_eq_none hnone)
          split
          · rename_i b hb
            cases keep <;> exact capOk_block hw hb (fun _ => hfit) le_rfl _
          · -- both requests fail: not so under the condition
            rename_i hnone'
            rw [malloc_eq_none hnone'] at hsome
            cases hsome

theorem changeSize_true {n : ℕ} (hok : ChangeOk w s n answers) (keep : Bool) : (changeSize w s n keep answers).2 = true := by
  unfold changeSize
  split
  · rfl
  · split
    · rfl
    · split
      · rfl
      · rename_i hgt
        simp only
        split
        · rfl
        · rename_i hnone
          split
          · rfl
          · rename_i hnone'
            have hsome := ((hok.resolve_left hgt).2 (malloc_eq_none hnone)).1
            rw [malloc_eq_none hnone'] at hsome
            cases hsome

theorem capOk_setSize (hw : 0 < w) (h : CapOk w s) {co : ℕ} {answer : Option (ℕ → α)}
    (hok : co ≠ s.len → Granted w co answer) : CapOk w (setSize w s co answer).1 := by
  have hzero : ∀ f : ℕ → α, CapOk w (⟨f, 0, 0, 0⟩ : State α) := fun f => capOk_start w f
  unfold setSize bufferSetSize
  split
  · rename_i heq
    split at heq
    · rename_i hco
      obtain ⟨rfl, -⟩ := Prod.mk.inj heq
      split
      · rename_i hz
        rw [← hco, hz]
        exact hzero _
      · exact ⟨h.fits, h.len_le.trans h.reserved_le, le_rfl⟩
    · rename_i hco
      split at heq
      · obtain ⟨rfl, -⟩ := Prod.mk.inj heq
        exact hzero _
      · split at heq
        · rename_i b hb
          obtain ⟨rfl, -⟩ := Prod.mk.inj heq
          exact capOk_block hw hb (hok hco) le_rfl _
        · simp at heq
  · rename_i heq
    split at heq
    · simp at heq
    · split at heq
      · simp at heq
      · split at heq
        · simp at heq
        · obtain ⟨rfl, -⟩ := Prod.mk.inj heq
          exact hzero _

theorem capOk_pushFrontNew (hw : 0 < w) (h : CapOk w s) (hok : AddOk w s 1 answers) :
    CapOk w (pushFrontNew w s answers) :=
  (capOk_addEntry hw h hok).cells _

theorem capOk_pushBack (hw : 0 < w) (h : CapOk w s) (x : α) (hok : AddOk w s 1 answers) :
    CapOk w (pushBack w s x answers) :=
  (capOk_addEntry hw h hok).cells _

theorem capOk_pushFrontAll (hw : 0 < w) (h : CapOk w s) (xs : List α) (hok : AddOk w s xs.length answers) :
    CapOk w (pushFrontAll w s xs answers) := by
  unfold pushFrontAll
  split
  · exact h
  · exact (capOk_addEntry hw h hok).cells _

theorem capOk_pushBoth (hw : 0 < w) (h : CapOk w s) (x : α) {front back : ℕ}
    (hok : ChangeOk w s ((s.len + front + back) % 2 ^ 64) answers) :
    CapOk w (pushBoth w s x front back answers) := by
  unfold pushBoth
  split
  · exact h
  · exact (capOk_changeSize hw h hok).cells _

theorem capOk_compactMemory (hw : 0 < w) (h : CapOk w s) (answer : Option (ℕ → α)) :
    CapOk w (compactMemory w s answer) := by
  unfold compactMemory
  split
  · split
    · rename_i b hb
      refine capOk_block hw hb (fun _ => ?_) le_rfl _
      -- the elements are in memory already
      exact (Nat.mul_le_mul_left w (h.len_le.trans h.reserved_le)).trans_lt h.fits
    · exact h
  · exact h

theorem capOk_insertNew (hw : 0 < w) (h : CapOk w s) (index : ℕ) (hok : AddOk w s 1 answers) :
    CapOk w (insertNew w s index answers) := by
  have hadd := capOk_addEntry hw h hok
  unfold insertNew
  simp only
  split
  · exact hadd.cells _
  · exact hadd

theorem reserve_true {co : ℕ} {answer : Option (ℕ → α)} (h : (reserve w s co answer).2 = true) :
    co ≤ (reserve w s co answer).1.reserved ∧ (reserve w s co answer).1.len = s.len := by
  unfold reserve at h ⊢
  split
  · rename_i hgt
    simp only [hgt, if_true] at h
    split
    · exact ⟨le_rfl, rfl⟩
    · rename_i hnone
      rw [hnone] at h
      cases h
  · rename_i hle
    exact ⟨not_lt.mp hle, rfl⟩

theorem reserve_false {co : ℕ} {answer : Option (ℕ → α)} (h : (reserve w s co answer).2 = false) :
    (reserve w s co answer).1 = s := by
  unfold reserve at h ⊢
  split
  · rename_i hgt
    simp only [hgt, if_true] at h
    split
    · rename_i b hb
      rw [hb] at h
      cases h
    · rfl
  · rfl

theorem insertCount_cases {index count : ℕ} {fill : ℕ → List α} {answer : Option (ℕ → α)} {t : State α} {ok : Bool}
    (h : insertCount w s index count fill answer = some (t, ok)) :
    ∃ s', reserve w s ((s.len + count) % 2 ^ 64) answer = (s', ok) ∧ (ok = false → t = s) ∧
      (ok = true → ∃ f, t = { s' with cells := f, len := (s.len + count) % 2 ^ 64 }) := by
  unfold insertCount at h
  split at h
  · split at h
    · rename_i s' heq
      obtain ⟨rfl, rfl⟩ := Prod.mk.inj (Option.some.inj h)
      have hlen := (reserve_true (congrArg Prod.snd heq)).2
      rw [heq] at hlen
      refine ⟨s', heq, fun hf => Bool.noConfusion hf, fun _ => ?_⟩
      rw [← hlen]
      exact ⟨_, rfl⟩
    · rename_i s' heq
      obtain ⟨rfl, rfl⟩ := Prod.mk.inj (Option.some.inj h)
      have hsame := reserve_false (congrArg Prod.snd heq)
      rw [heq] at hsame
      exact ⟨s', heq, fun _ => hsame, fun hf => Bool.noConfusion hf⟩
  · cases h

theorem capOk_insertCount (hw : 0 < w) (h : CapOk w s) {index count : ℕ} {fill : ℕ → List α}
    {answer : Option (ℕ → α)} (hok : ReserveOk w s ((s.len + count) % 2 ^ 64) answer) {t : State α} {ok : Bool}
    (ht : insertCount w s index count fill answer = some (t, ok)) : CapOk w t := by
  obtain ⟨s', hres, hfalse, htrue⟩ := insertCount_cases ht
  cases ok with
  | false => exact hfalse rfl ▸ h
  | true =>
    have hcap := capOk_reserve hw h hok
    have hle := (reserve_true (congrArg Prod.snd hres)).1
    rw [hres] at hcap hle
    obtain ⟨f, rfl⟩ := htrue rfl
    exact ⟨hcap.fits, hcap.reserved_le, hle⟩

/-- The condition on `SortedPush`: it doubles the room when there is none. -/
def SortedOk (w : ℕ) (s : State α) (answers : Answers α) : Prop :=
  AddOk w s 1 answers ∧
    (s.reserved = s.len → s.len * 2 + 1 < 2 ^ 64 ∧ ReserveOk w s (s.len * 2 + 1) answers.first)

theorem sortedPush_cases (lt : α → α → Bool) (x : α) {t : State α} {ok : Bool}
    (h : sortedPush w s lt x answers = (t, ok)) :
    (t, ok) = (pushFront w s x answers, true) ∨
      (s.reserved = s.len ∧ ok = false ∧ t = s) ∨
      ∃ s' f, ok = true ∧ t = { s' with cells := f, len := (s'.len + 1) % 2 ^ 64 } ∧
        (s.reserved ≠ s.len ∧ s' = s ∨
          s.reserved = s.len ∧ reserve w s ((s.len * 2 + 1) % 2 ^ 64) answers.first = (s', true)) := by
  unfold sortedPush at h
  split at h
  · exact Or.inl h.symm
  · split at h
    · rename_i s' heq
      obtain ⟨rfl, rfl⟩ := Prod.mk.inj h
      refine Or.inr (Or.inr ⟨s', _, rfl, rfl, ?_⟩)
      split at heq
      · rename_i hfull
        exact Or.inr ⟨hfull, heq⟩
      · rename_i hroom
        exact Or.inl ⟨hroom, (Prod.mk.inj heq).1.symm⟩
    · rename_i s' heq
      obtain ⟨rfl, rfl⟩ := Prod.mk.inj h
      split at heq
      · rename_i hfull
        have hsame := reserve_false (congrArg Prod.snd heq)
        rw [heq] at hsame
        exact Or.inr (Or.inl ⟨hfull, rfl, hsame⟩)
      · simp at heq

theorem capOk_sortedPush (hw : 0 < w) (h : CapOk w s) (lt : α → α → Bool) (x : α) (hok : SortedOk w s answers) :
    CapOk w (sortedPush w s lt x answers).1 := by
  cases hr : sortedPush w s lt x answers with | mk t ok => ?_
  rcases sortedPush_cases lt x hr with heq | ⟨-, -, rfl⟩ | ⟨s', f, -, rfl, ⟨hne, rfl⟩ | ⟨hfull, hres⟩⟩
  · obtain ⟨rfl, -⟩ := Prod.mk.inj heq
    exact (capOk_pushFrontNew hw h hok.1).cells _
  · exact h
  · have hlen : s'.len + 1 ≤ s'.reserved := by
      have := h.len_le
      omega
    exact ⟨h.fits, h.reserved_le, (Nat.mod_le _ _).trans hlen⟩
  · obtain ⟨hlt, hgrant⟩ := hok.2 hfull
    rw [Nat.mod_eq_of_lt hlt] at hres
    have hcap := capOk_reserve hw h hgrant
    have hlen := reserve_true (congrArg Prod.snd hres)
    rw [hres] at hcap hlen
    have hle : s'.len + 1 ≤ s'.reserved := by
      simp only at hlen
      omega
    exact ⟨hcap.fits, hcap.reserved_le, (Nat.mod_le _ _).trans hle⟩

theorem removeLoop_le [DecidableEq α] (v : α) (n i opened : ℕ) (f : ℕ → α) :
    (removeLoop v n i opened f).1 ≤ opened + n := by
  induction n generalizing i opened f with
  | zero => exact le_rfl
  | succ n ih =>
    unfold removeLoop
    split
    · exact (ih _ _ _).trans (by omega)
    · exact (ih _ _ _).trans (by omega)

end Capacity

/-! ### Runs -/

section Runs

variable [DecidableEq α] {w : ℕ} {lt : α → α → Bool}

/-- The condition on an operation. -/
def Sound (w : ℕ) (s : State α) : Op α × Answers α → Prop
  | (.setSize co, answers) => co.toNat ≠ s.len → Granted w co.toNat answers.first
  | (.changeSize new_size _, answers) => ChangeOk w s new_size.toNat answers
  | (.reserve co, answers) => ReserveOk w s co.toNat answers.first
  | (.pushFrontNew, answers) | (.pushFront _, answers) | (.pushBackNew, answers) | (.pushBack _, answers)
  | (.insertNew _, answers) => AddOk w s 1 answers
  | (.includeElement x, answers) => x ∈ s.contents ∨ AddOk w s 1 answers
  | (.pushFrontArray xs, answers) | (.pushBackArray xs, answers) => AddOk w s xs.length answers
  | (.pushFrontCount _ count, answers) | (.pushBackCount _ count, answers) => AddOk w s count.toNat answers
  | (.pushBoth _ front back, answers) => ChangeOk w s ((s.len + front.toNat + back.toNat) % 2 ^ 64) answers
  | (.pushBackN count, answers) => ChangeOk w s ((s.len + count.toNat) % 2 ^ 64) answers
  | (.insertNewCount _ count, answers) | (.insertCount _ count _, answers) =>
    ReserveOk w s ((s.len + count.toNat) % 2 ^ 64) answers.first
  | (.sortedPush _, answers) => SortedOk w s answers
  | (.assign xs, answers) => ReserveOk w s xs.length answers.first
  | (.detach, _) => s.reserved = 0
  | _ => True

theorem capOk_apply (hw : 0 < w) {s t : State α} {op : Op α} {answers : Answers α} {ok : Bool} (h : CapOk w s)
    (hok : Sound w s (op, answers)) (ht : apply w lt s answers op = some (t, ok)) : CapOk w t := by
  have hfst : ∀ {r : State α × Bool}, some r = some (t, ok) → CapOk w r.1 → CapOk w t := by
    intro r hr hcap
    rwa [Option.some.inj hr] at hcap
  have hmap : ∀ {o : Option (State α)}, o.map (·, true) = some (t, ok) → (∀ u, o = some u → CapOk w u) → CapOk w t := by
    intro o ho hcap
    obtain ⟨u, hu, heq⟩ := Option.map_eq_some_iff.mp ho
    exact (Prod.mk.inj heq).1 ▸ hcap u hu
  cases op with
  | setSize co => exact hfst ht (capOk_setSize hw h hok)
  | clear => exact hfst ht (capOk_setSize hw h fun _ _ => by simp)
  | changeSize n keep => exact hfst ht (capOk_changeSize hw h hok)
  | reserve co => exact hfst ht (capOk_reserve hw h hok)
  | compactMemory => exact hfst ht (capOk_compactMemory hw h _)
  | pushFrontNew => exact hfst ht (capOk_pushFrontNew hw h hok)
  | pushFront x => exact hfst ht ((capOk_pushFrontNew hw h hok).cells _)
  | pushFrontArray xs => exact hfst ht (capOk_pushFrontAll hw h xs hok)
  | pushFrontCount x count => exact hfst ht (capOk_pushFrontAll hw h _ (by simpa [Sound] using hok))
  | pushBoth x front back => exact hfst ht (capOk_pushBoth hw h x hok)
  | pushBackNew => exact hfst ht (capOk_addEntry hw h hok)
  | pushBack x => exact hfst ht (capOk_pushBack hw h x hok)
  | pushBackArray xs => exact hfst ht ((capOk_addEntry hw h hok).cells _)
  | pushBackCount x count =>
    have hadd : AddOk w s (List.replicate count.toNat x).length answers := by simpa [Sound] using hok
    exact hfst ht ((capOk_addEntry hw h hadd).cells _)
  | pushBackN count => exact hfst ht (capOk_changeSize hw h hok)
  | erase index =>
    refine hmap ht ?_
    intro u hu
    obtain ⟨-, hu⟩ := Option.ite_none_right_eq_some.mp hu
    obtain rfl := Option.some.inj hu
    exact h.update _ (Nat.sub_le _ _)
  | eraseRange a b =>
    refine hmap ht ?_
    intro u hu
    obtain ⟨-, hu⟩ := Option.ite_none_right_eq_some.mp hu
    obtain rfl := Option.some.inj hu
    exact h.update _ (Nat.sub_le _ _)
  | popBack =>
    refine hmap ht ?_
    intro u hu
    obtain ⟨-, hu⟩ := Option.ite_none_right_eq_some.mp hu
    obtain rfl := Option.some.inj hu
    exact h.update _ (Nat.sub_le _ _)
  | popFront =>
    refine hmap ht ?_
    intro u hu
    obtain ⟨-, hu⟩ := Option.ite_none_right_eq_some.mp hu
    obtain rfl := Option.some.inj hu
    exact h.update _ (Nat.sub_le _ _)
  | insertNew index =>
    rw [apply] at ht
    have hcap := capOk_insertNew hw h index.toNat hok
    rwa [(Prod.mk.inj (Option.some.inj ht)).1] at hcap
  | insertNewCount index count =>
    rw [apply] at ht
    exact capOk_insertCount hw h hok ht
  | insertCount index count x =>
    rw [apply] at ht
    exact capOk_insertCount hw h hok ht
  | sortedPush x => exact hfst ht (capOk_sortedPush hw h lt x hok)
  | includeElement x =>
    refine hfst ht ?_
    simp only [includeElement]
    split
    · exact h
    · rename_i hx
      exact capOk_pushBack hw h x (hok.resolve_left hx)
  | assign xs =>
    refine hmap ht ?_
    intro u hu
    unfold assign at hu
    split at hu
    · rename_i hle
      obtain rfl := Option.some.inj hu
      exact ⟨h.fits, h.reserved_le, hle⟩
    · rename_i hgt
      obtain ⟨b, hb, rfl⟩ := Option.map_eq_some_iff.mp hu
      exact capOk_block hw hb (hok.resolve_left hgt) le_rfl _
  | assignSelf => exact hfst ht (h.update s.cells (Nat.zero_le _))
  | detach =>
    refine hfst ht ⟨by simp [detach], ?_, Nat.zero_le _⟩
    exact (show s.reserved = 0 from hok).le
  | shrinkSize n => exact hfst ht (capOk_shrinkSize h _)
  | remove v =>
    refine hmap ht ?_
    intro u hu
    obtain ⟨-, hu⟩ := Option.ite_none_right_eq_some.mp hu
    obtain rfl := Option.some.inj hu
    have hle := removeLoop_le v s.len 0 0 s.cells
    exact h.update _ (by omega)
  | modify f => exact hfst ht (h.cells f)

theorem reachable_capOk (hw : 0 < w) {cells : ℕ → α} {s : State α}
    (h : Reachable (step w lt) (Sound w) (start cells) s) : CapOk w s := by
  refine h.invariant (capOk_start w cells) ?_
  intro s a t hcap hok hst
  obtain ⟨⟨u, ok⟩, hu, rfl⟩ := Option.map_eq_some_iff.mp hst
  exact capOk_apply hw hcap hok hu

/-- A failure that is reported has changed nothing, except that `SetSize` has made the array empty. -/
theorem apply_false {s t : State α} {op : Op α} {answers : Answers α} (hok : Sound w s (op, answers))
    (ht : apply w lt s answers op = some (t, false)) :
    t = s ∨ (∃ co, op = .setSize co) ∧ t.len = 0 ∧ t.reserved = 0 ∧ t.alloc = 0 := by
  have hnot : ∀ {o : Option (State α)} {P : Prop}, o.map (·, true) = some (t, false) → P := by
    intro o P ho
    obtain ⟨u, -, heq⟩ := Option.map_eq_some_iff.mp ho
    cases (Prod.mk.inj heq).2
  have hset : ∀ {co : ℕ} {answer : Option (ℕ → α)}, setSize w s co answer = (t, false) →
      t.len = 0 ∧ t.reserved = 0 ∧ t.alloc = 0 ∧ co ≠ 0 := by
    intro co answer h
    unfold setSize bufferSetSize at h
    split at h
    · cases h
    · rename_i heq
      obtain ⟨rfl, -⟩ := Prod.mk.inj h
      split at heq
      · cases heq
      · split at heq
        · cases heq
        · rename_i hne
          split at heq
          · cases heq
          · obtain ⟨rfl, -⟩ := Prod.mk.inj heq
            exact ⟨rfl, rfl, rfl, hne⟩
  have hchange : ∀ {n : ℕ} {keep : Bool}, ChangeOk w s n answers → changeSize w s n keep answers = (t, false) →
      t = s := by
    intro n keep hc h
    have := changeSize_true hc keep
    rw [h] at this
    cases this
  cases op with
  | setSize co =>
    obtain ⟨h1, h2, h3, -⟩ := hset (Option.some.inj ht)
    exact Or.inr ⟨⟨co, rfl⟩, h1, h2, h3⟩
  | clear => exact absurd rfl (hset (Option.some.inj ht)).2.2.2
  | changeSize n keep => exact Or.inl (hchange hok (Option.some.inj ht))
  | pushBackN count => exact Or.inl (hchange hok (Option.some.inj ht))
  | reserve co =>
    have hr := Option.some.inj ht
    have hsame := reserve_false (congrArg Prod.snd hr)
    rw [hr] at hsame
    exact Or.inl hsame
  | insertNewCount index count =>
    rw [apply] at ht
    obtain ⟨-, -, hfalse, -⟩ := insertCount_cases ht
    exact Or.inl (hfalse rfl)
  | insertCount index count x =>
    rw [apply] at ht
    obtain ⟨-, -, hfalse, -⟩ := insertCount_cases ht
    exact Or.inl (hfalse rfl)
  | sortedPush x =>
    rcases sortedPush_cases lt x (Option.some.inj ht) with heq | ⟨-, -, rfl⟩ | ⟨s', f, hf, -⟩
    · cases (Prod.mk.inj heq).2
    · exact Or.inl rfl
    · cases hf
  | erase index => exact hnot ht
  | eraseRange a b => exact hnot ht
  | popBack => exact hnot ht
  | popFront => exact hnot ht
  | assign xs => exact hnot ht
  | remove v => exact hnot ht
  | insertNew index =>
    rw [apply] at ht
    exact Bool.noConfusion (Prod.mk.inj (Option.some.inj ht)).2
  | _ => cases ht

/-- **The capacity of a `BufferEx`.** In every run in which what is granted has the room that was asked for, no
operation that goes through `ChangeSize` is refused its memory and `Detach` is called with nothing reserved:
the elements are within the reserved size and the reserved size is within the memory; and an operation that
reports a failure has changed nothing, except that `SetSize` leaves an empty array with nothing reserved. -/
theorem bufferEx_capacity (hw : 0 < w) (cells : ℕ → α) (s : State α)
    (h : Reachable (step w lt) (Sound w) (start cells) s) :
    s.len ≤ s.reserved ∧ s.reserved ≤ s.alloc ∧
      ∀ op answers t, Sound w s (op, answers) → apply w lt s answers op = some (t, false) →
        t = s ∨ (∃ co, op = .setSize co) ∧ t.len = 0 ∧ t.reserved = 0 ∧ t.alloc = 0 := by
  have hcap := reachable_capOk hw h
  exact ⟨hcap.len_le, hcap.reserved_le, fun op answers t hok ht => apply_false hok ht⟩

end Runs

/-! ### With and without memory -/

/-- All requests are granted. -/
def granted : Answers ℕ := ⟨some fun _ => 0, some fun _ => 0⟩

/-- All requests are refused. -/
def refused : Answers ℕ := ⟨none, none⟩

/-- One element is put in. -/
def oneElement : List (Op ℕ × Answers ℕ) := [(.pushBack 7, granted)]

theorem bufferEx_capacity_oneElement :
    ∃ s t, run (step 4 fun _ _ => false) (start fun _ => 0) oneElement = some s ∧ s.len = 1 ∧ s.reserved = 4 ∧
      s.reserved ≤ s.alloc ∧ apply 4 (fun _ _ => false) s refused (.reserve 100) = some (t, false) ∧
      (t = s ∨ (∃ co, Op.reserve (α := ℕ) 100 = .setSize co) ∧ t.len = 0 ∧ t.reserved = 0 ∧ t.alloc = 0) := by
  have hreach : Reachable (step 4 fun _ _ => false) (Sound 4) (start fun _ => 0) _ :=
    Reachable.start.next (a := (.pushBack 7, granted)) (Or.inr ⟨fun _ => by decide, fun h => by cases h⟩) rfl
  have hcap := bufferEx_capacity (by decide) (fun _ => 0) _ hreach
  exact ⟨_, _, rfl, rfl, rfl, hcap.2.1, rfl, hcap.2.2 (.reserve 100) refused _ (Or.inr fun h => by cases h) rfl⟩

/-- A refused `SetSize` loses the elements; after a refused `ChangeSize`, after `Detach` and after a request that
wraps, more is reserved than there is memory for. -/
theorem bufferEx_capacity_fails :
    (∃ s t, run (step 4 fun _ _ => false) (start fun _ => 0) oneElement = some s ∧ s.contents = [7] ∧
      apply 4 (fun _ _ => false) s refused (.setSize 100) = some (t, false) ∧ t.contents = []) ∧
    (∃ s, run (step 4 fun _ _ => false) (start fun _ => 0) [(.changeSize 10 true, refused)] = some s ∧
      s.reserved = 10 ∧ s.alloc = 0) ∧
    (∃ s, run (step 4 fun _ _ => false) (start fun _ => 0) (oneElement ++ [(.detach, granted)]) = some s ∧
      s.reserved = 4 ∧ s.alloc = 0) ∧
    (∃ s, run (step 2 fun _ _ => false) (start fun _ => 0) [(.reserve 0x8000000000000000, granted)] = some s ∧
      s.reserved = 0x8000000000000000 ∧ s.alloc = 0) ∧
    ¬ ∀ s, Reachable (step 4 fun _ _ => false) anyStep (start fun _ => 0) s → s.reserved ≤ s.alloc := by
  have hchange : ∃ s, run (step 4 fun _ _ => false) (start fun _ => 0) [(.changeSize 10 true, refused)] = some s ∧
      s.reserved = 10 ∧ s.alloc = 0 := ⟨_, rfl, rfl, rfl⟩
  refine ⟨⟨_, _, rfl, rfl, rfl, rfl⟩, hchange, ⟨_, rfl, rfl, rfl⟩, ⟨_, rfl, rfl, rfl⟩, fun hall => ?_⟩
  obtain ⟨s, hs, hres, halloc⟩ := hchange
  have := hall s (reachable_of_run _ hs)
  omega

end Cpcf.Rt.BufferEx
