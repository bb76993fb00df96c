import Cpcf.Lib.MajorityVote
import Cpcf.Lib.Run
import Cpcf.Lib.Word
import Mathlib.Data.List.ModifyLast

/-!
`TopFrequentValues` of `rt/buffer_type.h`: a table of the most frequent values with their counts.

A count is an `int`. `_Match` goes down the table, over its suffixes, to the first entry with the value or with
the count zero, and brings the entry up again by one position for each entry with a smaller count. Only the
first entry of the whole table takes the new value when it is matched (`store_last_val` is not passed on).
A value that is not matched costs the last entry one vote.

The entries behind one with the count zero have it too, with the values of earlier times; these may stay
anywhere behind.
-/

namespace Cpcf.Rt.TopFrequentValues

open Cpcf.Lib.MajorityVote Cpcf.Lib.Run Cpcf.Lib.Word

/-! ### The code -/

/-- `_val`. -/
structure Entry (α : Type) where
  val : α
  count : ℤ
  deriving DecidableEq

/-- What `_Match` and `Sample` return: `UNMATCHED`, `MATCHED` or `MATCHED_WITH_TOP`. -/
inductive Found
  | unmatched
  | matched
  | matchedWithTop
  deriving DecidableEq

variable {α : Type}

/-- The end of `_Match` on a table with the first entry `e`, for what `_Match` did on the others. -/
def promote (e : Entry α) : List (Entry α) × Found → List (Entry α) × Found
  | (f :: rest, .matchedWithTop) =>
    if f.count > e.count then (f :: e :: rest, .matchedWithTop) else (e :: f :: rest, .matched)
  | (rest, ret) => (e :: rest, ret)

/-- `_Match(val)`. -/
def matchVal [BEq α] (store_last_val : Bool) (val : α) : List (Entry α) → List (Entry α) × Found
  | [] => ([], .unmatched)
  | e :: rest =>
    if e.val == val then (⟨if store_last_val then val else e.val, intOf (e.count + 1)⟩ :: rest, .matchedWithTop)
    else if e.count = 0 then (⟨val, 1⟩ :: rest, .matchedWithTop)
    else promote e (matchVal false val rest)

/-- The last entry after a value that was not matched. -/
def missed (val : α) (e : Entry α) : Entry α :=
  if intOf (e.count - 1) < 0 then ⟨val, 1⟩ else ⟨e.val, intOf (e.count - 1)⟩

/-- `Sample(val)`. -/
def sample [BEq α] (store_last_val : Bool) (t : List (Entry α)) (val : α) : List (Entry α) × Found :=
  match matchVal store_last_val val t with
  | (t, .unmatched) =>
    (t.modifyLast (missed val), if t.getLast?.any fun e => intOf (e.count - 1) < 0 then .matched else .unmatched)
  | r => r

/-- `Remove(i)`. -/
def remove (t : List (Entry α)) (i : ℕ) : List (Entry α) :=
  (if 0 < intOf (intOf t.length - intOf i - 1) then t.eraseIdx i ++ t.getLast?.toList else t).modifyLast
    fun e => { e with count := 0 }

/-- `Reset()` on a table of `k` entries; `zero` is the value of zero bytes. -/
def reset (zero : α) (k : ℕ) : List (Entry α) := List.replicate k ⟨zero, 0⟩

/-- A call. -/
inductive Op (α : Type)
  | sample (val : α)
  | remove (i : ℕ)
  | reset

/-- One call; an index behind the table is no call. -/
def step [BEq α] (store_last_val : Bool) (zero : α) (t : List (Entry α)) : Op α → Option (List (Entry α))
  | .sample val => some (sample store_last_val t val).1
  | .remove i => if i < t.length then some (remove t i) else none
  | .reset => some (reset zero t.length)

/-! ### The order of the table -/

/-- The counts are not negative and do not increase, and the values that have votes are different. -/
structure Ordered [BEq α] (t : List (Entry α)) : Prop where
  nonneg : ∀ e ∈ t, 0 ≤ e.count
  descending : t.Pairwise fun a b => b.count ≤ a.count
  distinct : t.Pairwise fun a b => 0 < a.count → 0 < b.count → (a.val == b.val) = false

/-- No count is above the largest `int`. -/
def InRange (t : List (Entry α)) : Prop := ∀ e ∈ t, e.count < 2 ^ 31

/-- The condition on a call: no entry with the sampled value has the largest count there is. -/
def Countable [BEq α] (t : List (Entry α)) : Op α → Prop
  | .sample val => ∀ e ∈ t, (e.val == val) = true → e.count < 2 ^ 31 - 1
  | _ => True

instance [BEq α] (t : List (Entry α)) : ∀ op, Decidable (Countable t op)
  | .sample val => inferInstanceAs (Decidable (∀ e ∈ t, (e.val == val) = true → e.count < 2 ^ 31 - 1))
  | .remove _ | .reset => isTrue trivial

section Order

variable [BEq α] {t u : List (Entry α)} {e f : Entry α}

theorem Ordered.sublist (h : Ordered t) (hs : u.Sublist t) : Ordered u :=
  ⟨fun e he => h.nonneg e (hs.subset he), h.descending.sublist hs, h.distinct.sublist hs⟩

theorem Ordered.tail (h : Ordered (e :: t)) : Ordered t := h.sublist (List.sublist_cons_self e t)

theorem ordered_nil : Ordered ([] : List (Entry α)) := ⟨by simp, List.Pairwise.nil, List.Pairwise.nil⟩

theorem ordered_cons (h0 : 0 ≤ e.count) (hdesc : ∀ f ∈ t, f.count ≤ e.count)
    (hdist : ∀ f ∈ t, 0 < f.count → (e.val == f.val) = false) (h : Ordered t) : Ordered (e :: t) :=
  ⟨List.forall_mem_cons.mpr ⟨h0, h.nonneg⟩, List.pairwise_cons.mpr ⟨hdesc, h.descending⟩,
    List.pairwise_cons.mpr ⟨fun f hf _ => hdist f hf, h.distinct⟩⟩

theorem Ordered.head_ge (h : Ordered (e :: t)) : ∀ f ∈ t, f.count ≤ e.count := (List.pairwise_cons.mp h.descending).1

theorem Ordered.head_ne (h : Ordered (e :: t)) (he : 0 < e.count) : ∀ f ∈ t, 0 < f.count → (e.val == f.val) = false :=
  fun f hf => (List.pairwise_cons.mp h.distinct).1 f hf he

/-- A last entry with fewer votes. -/
theorem Ordered.concat (h : Ordered (t ++ [e])) (hval : f.val = e.val) (h0 : 0 ≤ f.count) (hle : f.count ≤ e.count) :
    Ordered (t ++ [f]) := by
  obtain ⟨hn, hd, hv⟩ := h
  rw [List.pairwise_append] at hd hv
  refine ⟨?_, List.pairwise_append.mpr ⟨hd.1, List.pairwise_singleton _ _, ?_⟩,
    List.pairwise_append.mpr ⟨hv.1, List.pairwise_singleton _ _, ?_⟩⟩
  · intro g hg
    obtain hg | hg := List.mem_append.mp hg
    · exact hn g (by simp [hg])
    · obtain rfl := List.mem_singleton.mp hg
      exact h0
  · intro g hg b hb
    obtain rfl := List.mem_singleton.mp hb
    exact hle.trans (hd.2.2 g hg e (by simp))
  · intro g hg b hb hgp hbp
    obtain rfl := List.mem_singleton.mp hb
    rw [hval]
    exact hv.2.2 g hg e (by simp) hgp (hbp.trans_le hle)

/-- A last entry without votes. -/
theorem Ordered.concat_zero (h : Ordered t) (v : α) : Ordered (t ++ [⟨v, 0⟩]) := by
  refine ⟨?_, List.pairwise_append.mpr ⟨h.descending, List.pairwise_singleton _ _, ?_⟩,
    List.pairwise_append.mpr ⟨h.distinct, List.pairwise_singleton _ _, ?_⟩⟩
  · intro g hg
    obtain hg | hg := List.mem_append.mp hg
    · exact h.nonneg g hg
    · obtain rfl := List.mem_singleton.mp hg
      exact le_rfl
  · intro g hg b hb
    obtain rfl := List.mem_singleton.mp hb
    exact h.nonneg g hg
  · intro g _ b hb _ hpos
    obtain rfl := List.mem_singleton.mp hb
    exact absurd hpos (lt_irrefl 0)

theorem ordered_reset (zero : α) (k : ℕ) : Ordered (reset zero k) := by
  refine ⟨?_, ?_, ?_⟩
  · intro e he
    rw [List.eq_of_mem_replicate he]
  · exact List.pairwise_replicate.mpr (Or.inr le_rfl)
  · exact List.pairwise_replicate.mpr (Or.inr fun h => absurd h (lt_irrefl 0))

theorem ordered_remove (h : Ordered t) (i : ℕ) : Ordered (remove t i) := by
  have hlast : ∀ u : List (Entry α), Ordered u → Ordered (u.modifyLast fun e => { e with count := 0 }) := by
    intro u hu
    obtain rfl | ⟨u, e, rfl⟩ := List.eq_nil_or_concat' u
    · exact ordered_nil
    · rw [List.modifyLast_concat]
      exact (hu.sublist (List.sublist_append_left u [e])).concat_zero e.val
  rw [remove]
  split
  · cases hl : t.getLast? with
    | none =>
      rw [Option.toList_none, List.append_nil]
      exact hlast _ (h.sublist (List.eraseIdx_sublist t i))
    | some e =>
      rw [Option.toList_some, List.modifyLast_concat]
      exact (h.sublist (List.eraseIdx_sublist t i)).concat_zero e.val
  · exact hlast t h

end Order

/-! ### Matching -/

section Matching

variable [BEq α] [EquivBEq α] {t rest rest' : List (Entry α)} {e f : Entry α} {val : α} {store : Bool} {ret : Found}

/-- A table whose first entry was matched, or some entry behind it. -/
structure Matched (val : α) (e : Entry α) (rest : List (Entry α)) (f : Entry α) (rest' : List (Entry α))
    (ret : Found) : Prop where
  ordered : Ordered (f :: rest')
  mem : ∀ g ∈ f :: rest', g ∈ e :: rest ∨ (g.val == val) = true
  top : ret = .matched ∧ f = e ∨ ret = .matchedWithTop ∧ f.count = e.count + 1 ∧ ∀ g ∈ rest', g.count ≤ e.count

/-- The first entry has the value. -/
theorem matched_first (h : Ordered (e :: rest)) (hval : (e.val == val) = true) {v : α} (hv : (v == val) = true) :
    Matched val e rest ⟨v, e.count + 1⟩ rest .matchedWithTop := by
  have h0 := h.nonneg e List.mem_cons_self
  refine ⟨ordered_cons (by simp only; omega) ?_ ?_ h.tail, ?_, Or.inr ⟨rfl, rfl, h.head_ge⟩⟩
  · intro g hg
    have := h.head_ge g hg
    simp only
    omega
  · intro g hg hpos
    have hlt := hpos.trans_le (h.head_ge g hg)
    have hve : (v == e.val) = true := BEq.trans hv (BEq.symm hval)
    rw [BEq.congr_left hve]
    exact h.head_ne hlt g hg hpos
  · intro g hg
    obtain rfl | hg := List.mem_cons.mp hg
    · exact Or.inr hv
    · exact Or.inl (List.mem_cons_of_mem e hg)

/-- The first entry has no votes, and no entry behind it has. -/
theorem matched_empty (h : Ordered (e :: rest)) (hzero : e.count = 0) :
    Matched val e rest ⟨val, 1⟩ rest .matchedWithTop := by
  have hle : ∀ g ∈ rest, g.count ≤ 0 := fun g hg => hzero ▸ h.head_ge g hg
  refine ⟨ordered_cons (by simp) ?_ ?_ h.tail, ?_, Or.inr ⟨rfl, by simp [hzero], h.head_ge⟩⟩
  · intro g hg
    exact (hle g hg).trans (by simp)
  · intro g hg hpos
    exact absurd hpos (not_lt.mpr (hle g hg))
  · intro g hg
    obtain rfl | hg := List.mem_cons.mp hg
    · exact Or.inr BEq.rfl
    · exact Or.inl (List.mem_cons_of_mem e hg)

/-- An entry without the value is different from what has the value or stood behind it before. -/
theorem ne_of_mem (h : Ordered (e :: rest)) (hpos : 0 < e.count) (hval : (e.val == val) = false)
    (hmem : f ∈ rest ∨ (f.val == val) = true) (hf : 0 < f.count) : (e.val == f.val) = false := by
  obtain hmem | hfv := hmem
  · exact h.head_ne hpos f hmem hf
  · rwa [BEq.congr_right hfv]

/-- **One level of `_Match`**: an entry behind the first one was matched. -/
theorem Matched.promote {e₁ : Entry α} {r₁ : List (Entry α)} (hm : Matched val e₁ r₁ f rest' ret)
    (h : Ordered (e :: e₁ :: r₁)) (hpos : 0 < e.count) (hval : (e.val == val) = false) :
    ∃ f' r' ret', promote e (f :: rest', ret) = (f' :: r', ret') ∧ Matched val e (e₁ :: r₁) f' r' ret' := by
  have hle := h.head_ge e₁ List.mem_cons_self
  have hfne := fun hf => ne_of_mem h hpos hval (hm.mem f List.mem_cons_self) hf
  -- everything behind the first entry is within the old count of the second one
  have hrest : ∀ g ∈ rest', g.count ≤ e.count := by
    intro g hg
    obtain ⟨-, rfl⟩ | ⟨-, -, hb⟩ := hm.top
    · exact (hm.ordered.head_ge g hg).trans hle
    · exact (hb g hg).trans hle
  have hkeep (hf : f.count ≤ e.count) : Matched val e (e₁ :: r₁) e (f :: rest') .matched := by
    refine ⟨ordered_cons hpos.le ?_ ?_ hm.ordered, ?_, Or.inl ⟨rfl, rfl⟩⟩
    · exact List.forall_mem_cons.mpr ⟨hf, hrest⟩
    · intro g hg hgpos
      exact ne_of_mem h hpos hval (hm.mem g hg) hgpos
    · intro g hg
      obtain rfl | hg := List.mem_cons.mp hg
      · exact Or.inl List.mem_cons_self
      · exact (hm.mem g hg).imp_left (List.mem_cons_of_mem e)
  obtain ⟨rfl, rfl⟩ | ⟨rfl, hcount, hb⟩ := hm.top
  · exact ⟨e, f :: rest', .matched, rfl, hkeep hle⟩
  · by_cases hgt : f.count > e.count
    · refine ⟨f, e :: rest', .matchedWithTop, by rw [TopFrequentValues.promote, if_pos hgt], ?_, ?_,
        Or.inr ⟨rfl, by omega, List.forall_mem_cons.mpr ⟨le_rfl, hrest⟩⟩⟩
      · have htail : Ordered (e :: rest') :=
          ordered_cons hpos.le hrest (fun g hg hgpos => ne_of_mem h hpos hval (hm.mem g (List.mem_cons_of_mem f hg)) hgpos)
            hm.ordered.tail
        refine ordered_cons (hpos.le.trans hgt.le) (List.forall_mem_cons.mpr ⟨hgt.le, fun g hg => ?_⟩) ?_ htail
        · exact (hrest g hg).trans hgt.le
        · refine List.forall_mem_cons.mpr ⟨fun _ => BEq.symm_false (hfne (hpos.trans hgt)), ?_⟩
          exact hm.ordered.head_ne (hpos.trans hgt)
      · intro g hg
        obtain rfl | hg := List.mem_cons.mp hg
        · exact (hm.mem g List.mem_cons_self).imp_left (List.mem_cons_of_mem e)
        · obtain rfl | hg := List.mem_cons.mp hg
          · exact Or.inl List.mem_cons_self
          · exact (hm.mem g (List.mem_cons_of_mem f hg)).imp_left (List.mem_cons_of_mem e)
    · exact ⟨e, f :: rest', .matched, by rw [TopFrequentValues.promote, if_neg hgt], hkeep (not_lt.mp hgt)⟩

/-- **`_Match`**: nothing has the value and everything has votes, or an entry is matched. -/
theorem matchVal_cases (store : Bool) (h : Ordered t) (hok : ∀ e ∈ t, (e.val == val) = true → e.count < 2 ^ 31 - 1) :
    (matchVal store val t = (t, .unmatched) ∧ ∀ e ∈ t, 0 < e.count) ∨
      ∃ e rest f rest' ret, t = e :: rest ∧ matchVal store val t = (f :: rest', ret) ∧ Matched val e rest f rest' ret := by
  induction t generalizing store with
  | nil => exact Or.inl ⟨rfl, by simp⟩
  | cons e rest ih =>
    have h0 := h.nonneg e List.mem_cons_self
    cases hval : (e.val == val) with
    | true =>
      have hlt := hok e List.mem_cons_self hval
      have hcount : intOf (e.count + 1) = e.count + 1 := intOf_eq (by omega) (by omega)
      have hv : ((if store then val else e.val) == val) = true := by
        split
        · exact BEq.rfl
        · exact hval
      refine Or.inr ⟨e, rest, _, rest, .matchedWithTop, rfl, ?_, matched_first h hval hv⟩
      rw [matchVal, if_pos hval, hcount]
    | false =>
      by_cases hzero : e.count = 0
      · refine Or.inr ⟨e, rest, _, rest, .matchedWithTop, rfl, ?_, matched_empty h hzero⟩
        rw [matchVal, if_neg (by simp [hval]), if_pos hzero]
      · have hpos : 0 < e.count := by omega
        have hstep : matchVal store val (e :: rest) = promote e (matchVal false val rest) := by
          rw [matchVal, if_neg (by simp [hval]), if_neg hzero]
        rw [hstep]
        obtain ⟨hrun, hall⟩ | ⟨e₁, r₁, f, rest', ret, rfl, hrun, hm⟩ :=
          ih false h.tail fun g hg => hok g (List.mem_cons_of_mem e hg)
        · refine Or.inl ⟨?_, List.forall_mem_cons.mpr ⟨hpos, hall⟩⟩
          rw [hrun]
          cases rest <;> rfl
        · obtain ⟨f', r', ret', hp, hm'⟩ := hm.promote h hpos hval
          exact Or.inr ⟨e, e₁ :: r₁, f', r', ret', rfl, by rw [hrun, hp], hm'⟩

end Matching

/-! ### One call -/

section Call

variable {t : List (Entry α)} {e : Entry α} {val : α}

theorem intOf_lt (x : ℤ) : intOf x < 2 ^ 31 := Int.bmod_lt (by decide)

theorem mem_promote (e : Entry α) (p : List (Entry α) × Found) (g : Entry α) :
    g ∈ (promote e p).1 ↔ g = e ∨ g ∈ p.1 := by
  unfold promote
  split
  · split
    · simp only [List.mem_cons]
      exact or_left_comm
    · simp only [List.mem_cons]
  · exact List.mem_cons

theorem promote_ne_unmatched (e : Entry α) {p : List (Entry α) × Found} (h : p.2 ≠ .unmatched) :
    (promote e p).2 ≠ .unmatched := by
  unfold promote
  split
  · split <;> simp
  · exact h

theorem inRange_modifyLast {f : Entry α → Entry α} (h : InRange t) (hf : ∀ e, (f e).count < 2 ^ 31) :
    InRange (t.modifyLast f) := by
  obtain rfl | ⟨u, e, rfl⟩ := List.eq_nil_or_concat' t
  · exact h
  · rw [List.modifyLast_concat]
    intro g hg
    obtain hg | hg := List.mem_append.mp hg
    · exact h g (by simp [hg])
    · obtain rfl := List.mem_singleton.mp hg
      exact hf e

theorem missed_lt (val : α) (e : Entry α) : (missed val e).count < 2 ^ 31 := by
  unfold missed
  split
  · simp
  · exact intOf_lt _

theorem inRange_reset (zero : α) (k : ℕ) : InRange (reset zero k) := by
  intro e he
  rw [List.eq_of_mem_replicate he]
  exact (by decide : (0 : ℤ) < 2 ^ 31)

variable [BEq α]

theorem inRange_matchVal (store : Bool) (h : InRange t) : InRange (matchVal store val t).1 := by
  induction t generalizing store with
  | nil => exact h
  | cons e rest ih =>
    obtain ⟨he, hrest⟩ := List.forall_mem_cons.mp h
    rw [matchVal]
    split
    · exact List.forall_mem_cons.mpr ⟨intOf_lt _, hrest⟩
    · split
      · exact List.forall_mem_cons.mpr ⟨by simp, hrest⟩
      · intro g hg
        obtain rfl | hg := (mem_promote _ _ _).mp hg
        · exact he
        · exact ih false hrest g hg

/-- The table after a sample, by what `_Match` returns. -/
theorem sample_fst (store : Bool) (t : List (Entry α)) (val : α) : (sample store t val).1 =
    if (matchVal store val t).2 = .unmatched then (matchVal store val t).1.modifyLast (missed val)
    else (matchVal store val t).1 := by
  rw [sample]
  cases hm : matchVal store val t with | mk u ret => ?_
  cases ret <;> rfl

/-- No count passes the largest `int`. -/
theorem inRange_step {store : Bool} {zero : α} {op : Op α} {u : List (Entry α)} (h : InRange t)
    (hs : step store zero t op = some u) : InRange u := by
  cases op with
  | sample val =>
    obtain rfl := Option.some.inj hs
    rw [sample_fst]
    split
    · exact inRange_modifyLast (inRange_matchVal store h) (missed_lt val)
    · exact inRange_matchVal store h
  | remove i =>
    rw [step, Option.ite_none_right_eq_some] at hs
    obtain rfl := Option.some.inj hs.2
    rw [remove]
    refine inRange_modifyLast ?_ fun e => by simp
    split
    · intro g hg
      obtain hg | hg := List.mem_append.mp hg
      · exact h g ((List.eraseIdx_sublist t i).subset hg)
      · exact h g (List.mem_of_getLast? (Option.mem_toList.mp hg))
    · exact h
  | reset =>
    obtain rfl := Option.some.inj hs
    exact inRange_reset zero _

section Lawful

variable [EquivBEq α]

/-- A sample that finds no count at its end keeps the order. -/
theorem ordered_sample (store : Bool) (h : Ordered t) (hr : InRange t) (hok : Countable t (.sample val)) :
    Ordered (sample store t val).1 := by
  obtain ⟨hrun, hpos⟩ | ⟨e, rest, f, rest', ret, -, hrun, hm⟩ := matchVal_cases store h hok
  · rw [sample_fst, hrun, if_pos rfl]
    obtain rfl | ⟨u, e, rfl⟩ := List.eq_nil_or_concat' t
    · exact h
    · have he := hpos e (by simp)
      have hlt := hr e (by simp)
      have hcount : intOf (e.count - 1) = e.count - 1 := intOf_eq (by omega) (by omega)
      rw [List.modifyLast_concat, missed, hcount, if_neg (by omega)]
      exact h.concat rfl (by simp only; omega) (by simp only; omega)
  · have hret : ret ≠ .unmatched := by
      obtain ⟨rfl, -⟩ | ⟨rfl, -⟩ := hm.top <;> decide
    rw [sample_fst, hrun, if_neg hret]
    exact hm.ordered

/-- The largest count becomes the smallest `int`. -/
theorem matchVal_overflow (store : Bool) (h : Ordered t) (hr : InRange t) (he : e ∈ t) (hval : (e.val == val) = true)
    (hmax : 2 ^ 31 - 1 ≤ e.count) :
    (matchVal store val t).2 ≠ .unmatched ∧ ∃ g ∈ (matchVal store val t).1, g.count < 0 := by
  induction t generalizing store with
  | nil => cases he
  | cons d rest ih =>
    cases hd : (d.val == val) with
    | true =>
      have heq : e = d := by
        obtain heq | hmem := List.mem_cons.mp he
        · exact heq
        · -- two entries with votes are different
          have hle := h.head_ge e hmem
          have hne := h.head_ne (by omega) e hmem (by omega)
          rw [BEq.congr_right hval, hd] at hne
          cases hne
      have hcount : e.count = 2 ^ 31 - 1 := by
        have := hr e he
        omega
      have hwrap : intOf (d.count + 1) = -2 ^ 31 := by
        rw [← heq, hcount]
        rfl
      rw [matchVal, if_pos hd, hwrap]
      exact ⟨by simp, _, List.mem_cons_self, by simp⟩
    | false =>
      have hmem : e ∈ rest := by
        obtain rfl | hmem := List.mem_cons.mp he
        · rw [hval] at hd
          cases hd
        · exact hmem
      have hle := h.head_ge e hmem
      obtain ⟨hret, g, hg, hneg⟩ := ih false h.tail (fun g hg => hr g (List.mem_cons_of_mem d hg)) hmem
      rw [matchVal, if_neg (by simp [hd]), if_neg (by omega)]
      exact ⟨promote_ne_unmatched d hret, g, (mem_promote _ _ _).mpr (Or.inr hg), hneg⟩

/-- **One call** keeps the order if and only if it meets the condition. -/
theorem ordered_step_iff {store : Bool} {zero : α} {op : Op α} {u : List (Entry α)} (h : Ordered t) (hr : InRange t)
    (hs : step store zero t op = some u) : Ordered u ↔ Countable t op := by
  cases op with
  | sample val =>
    obtain rfl := Option.some.inj hs
    constructor
    · intro hord e he hval
      by_contra hmax
      obtain ⟨hret, g, hg, hneg⟩ := matchVal_overflow store h hr he hval (by omega)
      rw [sample_fst, if_neg hret] at hord
      have := hord.nonneg g hg
      omega
    · exact ordered_sample store h hr
  | remove i =>
    rw [step, Option.ite_none_right_eq_some] at hs
    obtain rfl := Option.some.inj hs.2
    exact iff_of_true (ordered_remove h i) trivial
  | reset =>
    obtain rfl := Option.some.inj hs
    exact iff_of_true (ordered_reset zero _) trivial

end Lawful

end Call

/-! ### Runs -/

section Runs

variable [BEq α] [EquivBEq α]

/-- **The table stays in order** all along a run if and only if no sample finds its value with the largest count. -/
theorem ordered_iff (store_last_val : Bool) (zero : α) (k : ℕ) (ops : List (Op α)) :
    (∀ done t, done <+: ops → run (step store_last_val zero) (reset zero k) done = some t → Ordered t) ↔
      Along (step store_last_val zero) Countable (reset zero k) ops := by
  refine (along_iff_prefixes (I := Ordered) (J := InRange) ?_ ?_ (inRange_reset zero k) (ordered_reset zero k) ops).symm
  · intro t op hnone
    cases op with
    | sample val => exact absurd hnone (by simp [step])
    | remove i => trivial
    | reset => trivial
  · exact fun t op u hr h hs => ⟨inRange_step hr hs, ordered_step_iff h hr hs⟩

end Runs

/-! ### One value only -/

section OneValue

variable [BEq α] [ReflBEq α]

/-- A sample of the only value of a table of one entry. -/
theorem sample_same (store_last_val : Bool) (v : α) (c : ℤ) :
    (sample store_last_val [⟨v, c⟩] v).1 = [⟨v, intOf (c + 1)⟩] := by
  rw [sample_fst, matchVal, if_pos BEq.rfl, ite_self]
  rfl

/-- The count passes the largest `int` at last. -/
theorem run_same_wraps (store_last_val : Bool) (zero v : α) (m : ℕ) : ∀ c : ℕ, c + m = 2 ^ 31 - 1 →
    run (step store_last_val zero) [⟨v, c⟩] (List.replicate (m + 1) (.sample v)) = some [⟨v, -2 ^ 31⟩] := by
  induction m with
  | zero =>
    intro c hc
    have hwrap : intOf (c + 1) = -2 ^ 31 := by
      rw [show (c : ℤ) + 1 = 2 ^ 31 by omega]
      rfl
    rw [List.replicate_succ, List.replicate_zero, run, step, sample_same, hwrap]
    rfl
  | succ m ih =>
    intro c hc
    have hcount : intOf (c + 1) = ((c + 1 : ℕ) : ℤ) := intOf_eq (by omega) (by omega)
    rw [List.replicate_succ, run, step, sample_same, hcount]
    exact ih (c + 1) (by omega)

end OneValue

/-- Two values and their order, with one removed. -/
theorem ordered_two :
    Along (step false 0) Countable (reset (0 : ℕ) 2) [.sample 7, .sample 8, .sample 8, .remove 0] ∧
      ∀ done t, done <+: [.sample 7, .sample 8, .sample 8, .remove 0] →
        run (step false 0) (reset (0 : ℕ) 2) done = some t → Ordered t :=
  ⟨by decide, (ordered_iff false 0 2 [.sample 7, .sample 8, .sample 8, .remove 0]).mpr (by decide)⟩

/-- One value is sampled `2 ^ 31` times: its count is negative. -/
theorem not_ordered_many : ∃ t, run (step false 0) (reset (0 : ℕ) 1) (List.replicate (2 ^ 31) (.sample 0)) = some t ∧
    ¬ Ordered t := by
  have hrun := run_same_wraps false (0 : ℕ) 0 (2 ^ 31 - 1) 0 (Nat.zero_add _)
  rw [Nat.sub_add_cancel (Nat.one_le_two_pow)] at hrun
  refine ⟨_, hrun, fun h => ?_⟩
  have := h.nonneg _ List.mem_cons_self
  simp at this

/-! ### The majority -/

section Majority

variable [BEq α] [EquivBEq α] {xs : List α} {e : Entry α} {v : α}

/-- A sample in a table of one entry is a vote. -/
theorem surplus_sample (store_last_val : Bool) (h : Surplus xs e.val e.count) (hr : e.count < 2 ^ 31)
    (hok : Countable [e] (.sample v)) : ∃ e', (sample store_last_val [e] v).1 = [e'] ∧
      Surplus (xs ++ [v]) e'.val e'.count ∧ e'.count < 2 ^ 31 := by
  have h0 := h.nonneg
  cases hval : (e.val == v) with
  | true =>
    have hlt := hok e List.mem_cons_self hval
    have hcount : intOf (e.count + 1) = e.count + 1 := intOf_eq (by omega) (by omega)
    have hnew : ((if store_last_val then v else e.val) == v) = true := by
      split
      · exact BEq.rfl
      · exact hval
    refine ⟨⟨if store_last_val then v else e.val, e.count + 1⟩, ?_, h.vote hval hnew, by simp only; omega⟩
    rw [sample_fst, matchVal, if_pos hval, hcount]
    rfl
  | false =>
    by_cases hzero : e.count = 0
    · refine ⟨⟨v, 1⟩, ?_, ?_, by simp⟩
      · have hmatch : matchVal store_last_val v [e] = ([⟨v, 1⟩], .matchedWithTop) := by
          rw [matchVal, if_neg (by simp [hval]), if_pos hzero]
        rw [sample_fst, hmatch]
        rfl
      · rw [hzero] at h
        exact h.replace hval
    · have hcount : intOf (e.count - 1) = e.count - 1 := intOf_eq (by omega) (by omega)
      refine ⟨⟨e.val, e.count - 1⟩, ?_, h.against hval (by omega), by simp only; omega⟩
      have hmiss : missed v e = ⟨e.val, e.count - 1⟩ := by rw [missed, hcount, if_neg (by omega)]
      have hmatch : matchVal store_last_val v [e] = ([e], .unmatched) := by
        rw [matchVal, if_neg (by simp [hval]), if_neg hzero]
        rfl
      rw [sample_fst, hmatch, if_pos rfl, ← hmiss]
      exact List.modifyLast_concat (missed v) e []

/-- The surplus after a run of samples. -/
theorem surplus_run (store_last_val : Bool) (zero : α) (vals : List α) : ∀ (xs : List α) (e : Entry α),
    Surplus xs e.val e.count → e.count < 2 ^ 31 →
    Along (step store_last_val zero) Countable [e] (vals.map .sample) → ∃ e',
      run (step store_last_val zero) [e] (vals.map .sample) = some [e'] ∧ Surplus (xs ++ vals) e'.val e'.count := by
  induction vals with
  | nil =>
    intro xs e h _ _
    exact ⟨e, rfl, by rwa [List.append_nil]⟩
  | cons v vals ih =>
    intro xs e h hr hok
    obtain ⟨hfirst, hrest⟩ := hok
    obtain ⟨e', hs, h', hr'⟩ := surplus_sample store_last_val h hr hfirst
    have hstep : step store_last_val zero [e] (.sample v) = some [e'] := by rw [step, hs]
    obtain ⟨f, hrun, hf⟩ := ih (xs ++ [v]) e' h' hr' (hrest [e'] hstep)
    refine ⟨f, ?_, ?_⟩
    · rw [List.map_cons, run, hstep, Option.bind_some, hrun]
    · rwa [List.append_assoc, List.singleton_append] at hf

/-- **Majority vote.** After samples into a new table of one entry, none of which finds its value with the largest
count, a value in more than half of the samples is the one in the table, and it has votes. -/
theorem majority_vote (store_last_val : Bool) (zero : α) (vals : List α)
    (hok : Along (step store_last_val zero) Countable (reset zero 1) (vals.map .sample)) :
    ∃ e, run (step store_last_val zero) (reset zero 1) (vals.map .sample) = some [e] ∧
      ∀ v, vals.length < 2 * vals.countP (· == v) → (e.val == v) = true ∧ 0 < e.count := by
  obtain ⟨e, hrun, h⟩ := surplus_run store_last_val zero vals [] ⟨zero, 0⟩ (surplus_nil zero) (by simp) hok
  exact ⟨e, hrun, fun v hv => h.majority hv⟩

end Majority

/-- `5` in three of five samples. -/
theorem majority_vote_five : ∃ e, run (step false 0) (reset (0 : ℕ) 1) ([5, 3, 5, 4, 5].map .sample) = some [e] ∧
    ∀ v, [5, 3, 5, 4, 5].length < 2 * [5, 3, 5, 4, 5].countP (· == v) → (e.val == v) = true ∧ 0 < e.count :=
  majority_vote false 0 [5, 3, 5, 4, 5] (by decide)

/-- The only value of `2 ^ 31` samples has no votes. -/
theorem majority_vote_lost : ∃ e,
    run (step false 0) (reset (0 : ℕ) 1) ((List.replicate (2 ^ 31) 0).map .sample) = some [e] ∧
      (List.replicate (2 ^ 31) 0).length < 2 * (List.replicate (2 ^ 31) 0).countP (· == 0) ∧ ¬ 0 < e.count := by
  have hrun := run_same_wraps false (0 : ℕ) 0 (2 ^ 31 - 1) 0 (Nat.zero_add _)
  rw [Nat.sub_add_cancel (Nat.one_le_two_pow), ← List.map_replicate] at hrun
  refine ⟨_, hrun, ?_, by simp⟩
  rw [List.countP_replicate, List.length_replicate, if_pos BEq.rfl]
  norm_num

end Cpcf.Rt.TopFrequentValues
