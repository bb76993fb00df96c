import Mathlib.Data.Finset.Insert
import Mathlib.Data.List.Duplicate
import Mathlib.Tactic

/-!
Giving out the entries of a list to keys, one after the other: each key gets the first entry found for it.

An entry that is given out leaves something in its place, which may be found for a later key. Such a key gets nothing,
also if there are entries for it further behind. `given_iff` says when that happens.
-/

namespace Cpcf.Lib.FirstMatch

variable {κ : Type*} [DecidableEq κ]

section

variable (left : κ → κ) (os : List κ)

/-- Where a key is first found if the entries `T` were given out. -/
def find (T : Finset ℕ) (k : κ) : Option ℕ := (os.mapIdx fun j o => if j ∈ T then left o else o).findIdx? (· = k)

/-- The entry that a key gets. -/
def pick (T : Finset ℕ) (k : κ) : Option ℕ := (find left os T k).filter (· ∉ T)

/-- The entries that were given out after a key. -/
def next (T : Finset ℕ) (k : κ) : Finset ℕ :=
  match find left os T k with
  | none => T
  | some j => insert j T

/-- The entries that were given out after some keys. -/
def taken (ks : List κ) (T : Finset ℕ) : Finset ℕ := ks.foldl (next left os) T

/-- What the keys get. -/
def picks : List κ → Finset ℕ → List (Option ℕ)
  | [], _ => []
  | k :: ks, T => pick left os T k :: picks ks (next left os T k)

/-- The first entry that leaves `z` and is one for `z` or for a key in front of the first `z`. -/
def firstFound (ks : List κ) (z : κ) : Option ℕ :=
  os.findIdx? fun o => left o = z ∧ (o = z ∨ o ∈ ks.takeWhile (· ≠ z))

end

variable {left : κ → κ} {os ks : List κ} {T : Finset ℕ} {k z o : κ} {i j : ℕ}

attribute [local simp] picks

/-! ### One key -/

theorem find_eq_some : find left os T k = some j ↔
    (∃ o, os[j]? = some o ∧ (if j ∈ T then left o else o) = k) ∧
      ∀ i < j, ∀ o, os[i]? = some o → (if i ∈ T then left o else o) ≠ k := by
  unfold find
  rw [List.findIdx?_eq_some_iff_getElem]
  constructor
  · rintro ⟨hj, hk, hlt⟩
    rw [List.length_mapIdx] at hj
    refine ⟨⟨os[j], List.getElem?_eq_getElem hj, by simpa using hk⟩, fun i hi o ho => ?_⟩
    obtain ⟨hlen, rfl⟩ := List.getElem?_eq_some_iff.mp ho
    simpa using hlt i hi
  · rintro ⟨⟨o, ho, hk⟩, hlt⟩
    obtain ⟨hj, rfl⟩ := List.getElem?_eq_some_iff.mp ho
    refine ⟨by simpa using hj, by simpa using hk, fun i hi => ?_⟩
    simpa using hlt i hi _ (List.getElem?_eq_getElem (hi.trans hj))

theorem find_eq_none : find left os T k = none ↔ ∀ j o, os[j]? = some o → (if j ∈ T then left o else o) ≠ k := by
  unfold find
  rw [List.findIdx?_eq_none_iff]
  constructor
  · intro h j o ho
    obtain ⟨hj, rfl⟩ := List.getElem?_eq_some_iff.mp ho
    have hlen : j < (os.mapIdx fun j o => if j ∈ T then left o else o).length := by simpa using hj
    have hne := h _ (List.getElem_mem hlen)
    rw [List.getElem_mapIdx] at hne
    simpa using hne
  · intro h o ho
    obtain ⟨j, hj, rfl⟩ := List.getElem_of_mem ho
    rw [List.length_mapIdx] at hj
    simpa using h j _ (List.getElem?_eq_getElem hj)

theorem pick_eq_some : pick left os T k = some j ↔
    j ∉ T ∧ os[j]? = some k ∧ ∀ i < j, ∀ o, os[i]? = some o → (if i ∈ T then left o else o) ≠ k := by
  unfold pick
  rw [Option.filter_eq_some_iff, find_eq_some]
  simp only [decide_eq_true_eq]
  constructor
  · rintro ⟨⟨⟨o, ho, hk⟩, hlt⟩, hj⟩
    rw [if_neg hj] at hk
    exact ⟨hj, hk ▸ ho, hlt⟩
  · rintro ⟨hj, ho, hlt⟩
    exact ⟨⟨⟨k, ho, by rw [if_neg hj]⟩, hlt⟩, hj⟩

theorem next_eq (T : Finset ℕ) (k : κ) : next left os T k =
    match pick left os T k with
    | none => T
    | some j => insert j T := by
  unfold next pick
  rcases find left os T k with _ | j
  · rfl
  · by_cases hj : j ∈ T <;> simp [hj, Option.filter]

theorem subset_next : T ⊆ next left os T k := by
  rw [next_eq]
  rcases pick left os T k with _ | j
  · exact Finset.Subset.refl _
  · exact Finset.subset_insert j T

theorem mem_next : j ∈ next left os T k ↔ j ∈ T ∨ pick left os T k = some j := by
  rw [next_eq]
  rcases pick left os T k with _ | i
  · simp
  · rw [Finset.mem_insert, Option.some.injEq, or_comm, eq_comm]

/-- A key that nothing leaves gets an entry as long as there is one for it. -/
theorem mem_of_pick_eq_none (hk : ∀ o, left o ≠ k) (hp : pick left os T k = none) (ho : os[j]? = some k) : j ∈ T := by
  rcases hf : find left os T k with _ | i
  · by_contra hj
    exact find_eq_none.mp hf j k ho (if_neg hj)
  · obtain ⟨⟨o, -, ho'⟩, -⟩ := find_eq_some.mp hf
    have hi : i ∉ T := fun hi => hk o (by rwa [if_pos hi] at ho')
    simp [pick, hf, hi] at hp

/-! ### All keys -/

theorem taken_append (as bs : List κ) (T : Finset ℕ) :
    taken left os (as ++ bs) T = taken left os bs (taken left os as T) := List.foldl_append

theorem subset_taken (ks : List κ) (T : Finset ℕ) : T ⊆ taken left os ks T := by
  induction ks generalizing T with
  | nil => exact Finset.Subset.refl _
  | cons k ks ih => exact subset_next.trans (ih _)

theorem taken_take_subset (i : ℕ) : taken left os (ks.take i) T ⊆ taken left os ks T := by
  conv_rhs => rw [← List.take_append_drop i ks, taken_append]
  exact subset_taken _ _

@[simp] theorem length_picks : (picks left os ks T).length = ks.length := by
  induction ks generalizing T with
  | nil => rfl
  | cons k ks ih => simp [ih]

theorem getElem?_picks : (picks left os ks T)[i]? = ks[i]?.map fun k => pick left os (taken left os (ks.take i) T) k := by
  induction ks generalizing T i with
  | nil => simp
  | cons k ks ih =>
    cases i with
    | zero => rfl
    | succ i => simpa [taken] using ih (T := next left os T k) (i := i)

theorem mem_taken : j ∈ taken left os ks T ↔ j ∈ T ∨ some j ∈ picks left os ks T := by
  induction ks generalizing T with
  | nil => simp [taken]
  | cons k ks ih =>
    have h : taken left os (k :: ks) T = taken left os ks (next left os T k) := rfl
    rw [h, ih, mem_next, picks, List.mem_cons, or_assoc, eq_comm (a := some j)]

/-- What a key gets is an entry for it that no other key gets. -/
theorem key_of_picks (h : (picks left os ks T)[i]? = some (some j)) : j ∉ T ∧ ks[i]? = os[j]? ∧ os[j]? ≠ none := by
  rw [getElem?_picks] at h
  obtain ⟨k, hk, hp⟩ := Option.map_eq_some_iff.mp h
  obtain ⟨hj, ho, -⟩ := pick_eq_some.mp hp
  exact ⟨fun hT => hj (subset_taken _ _ hT), by rw [hk, ho], by simp [ho]⟩

theorem picks_injective (h : (picks left os ks T)[i]? = some (some j)) {i' : ℕ}
    (h' : (picks left os ks T)[i']? = some (some j)) : i = i' := by
  have hlt : ∀ a b : ℕ, a < b → (picks left os ks T)[a]? = some (some j) → (picks left os ks T)[b]? ≠ some (some j) := by
    intro a b hab ha hb
    rw [getElem?_picks] at hb
    obtain ⟨k, -, hp⟩ := Option.map_eq_some_iff.mp hb
    refine (pick_eq_some.mp hp).1 (mem_taken.mpr (.inr (List.mem_iff_getElem?.mpr ⟨a, ?_⟩)))
    rw [getElem?_picks] at ha ⊢
    rwa [List.getElem?_take_of_lt hab, List.take_take, min_eq_left hab.le]
  rcases lt_trichotomy i i' with hlt' | heq | hlt'
  · exact absurd h' (hlt i i' hlt' h)
  · exact heq
  · exact absurd h (hlt i' i hlt' h')

theorem exists_key_of_mem_taken (h : j ∈ taken left os ks ∅) : ∃ o ∈ ks, os[j]? = some o := by
  rcases mem_taken.mp h with hT | hp
  · simp at hT
  · obtain ⟨i, hi⟩ := List.mem_iff_getElem?.mp hp
    obtain ⟨-, heq, hne⟩ := key_of_picks hi
    obtain ⟨o, ho⟩ := Option.ne_none_iff_exists'.mp hne
    exact ⟨o, List.mem_of_getElem? (heq.trans ho), ho⟩

/-- The first entry for a key that nothing leaves is given out with the key. -/
theorem first_mem_taken (ho : o ∈ ks) (hleft : ∀ o', left o' ≠ o) (hj : os[j]? = some o)
    (hfirst : ∀ i < j, os[i]? ≠ some o) : j ∈ taken left os ks T := by
  obtain ⟨as, bs, rfl⟩ := List.append_of_mem ho
  rw [taken_append]
  refine subset_taken bs _ (mem_next.mpr ?_)
  by_cases hT : j ∈ taken left os as T
  · exact .inl hT
  · refine .inr (pick_eq_some.mpr ⟨hT, hj, fun i hi o' ho' => ?_⟩)
    split
    · exact hleft o'
    · rintro rfl
      exact hfirst i hi ho'

/-! ### Keys that are left in the place of entries -/

section

variable (hidem : ∀ o, left (left o) = left o)
include hidem

omit [DecidableEq κ] in
theorem left_ne (hz : left o ≠ o) (o' : κ) : left o' ≠ o := by
  rintro rfl
  exact hz (hidem o')

/-- The first of the keys that are left is found where `firstFound` says. -/
theorem find_first (hz : left z = z) {as : List κ} (has : z ∉ as) :
    find left os (taken left os as ∅) z = os.findIdx? fun o => left o = z ∧ (o = z ∨ o ∈ as) := by
  -- where `z` is found there is an entry as `firstFound` looks for it, and at the first of those `z` is found
  have hfound : ∀ j o, os[j]? = some o → (if j ∈ taken left os as ∅ then left o else o) = z →
      left o = z ∧ (o = z ∨ o ∈ as) := by
    intro j o ho hs
    split at hs
    · rename_i hj
      obtain ⟨o', ho', heq⟩ := exists_key_of_mem_taken hj
      obtain rfl := Option.some.inj (ho.symm.trans heq)
      exact ⟨hs, .inr ho'⟩
    · exact ⟨hs ▸ hz, .inl hs⟩
  have hfirst : ∀ j o, os[j]? = some o → left o = z → (o = z ∨ o ∈ as) →
      (∀ i < j, ∀ o', os[i]? = some o' → ¬(left o' = z ∧ (o' = z ∨ o' ∈ as))) →
      (if j ∈ taken left os as ∅ then left o else o) = z := by
    intro j o ho hleft hor hlt
    by_cases hoz : o = z
    · have hj : j ∉ taken left os as ∅ := fun hj => by
        obtain ⟨o', ho', heq⟩ := exists_key_of_mem_taken hj
        obtain rfl := Option.some.inj (ho.symm.trans heq)
        exact has (hoz ▸ ho')
      rw [if_neg hj, hoz]
    · have hmem : o ∈ as := hor.resolve_left hoz
      have hj : j ∈ taken left os as ∅ := first_mem_taken hmem (left_ne hidem fun h => hoz (h.symm.trans hleft)) ho
        fun i hi heq => hlt i hi o heq ⟨hleft, hor⟩
      rw [if_pos hj, hleft]
  rcases hf : os.findIdx? fun o => left o = z ∧ (o = z ∨ o ∈ as) with _ | f
  · rw [find_eq_none]
    intro j o ho hs
    have h := List.findIdx?_eq_none_iff.mp hf o (List.mem_of_getElem? ho)
    simp only [decide_eq_false_iff_not] at h
    exact h (hfound j o ho hs)
  · obtain ⟨hlen, hpf, hlt⟩ := List.findIdx?_eq_some_iff_getElem.mp hf
    simp only [decide_eq_true_eq] at hpf hlt
    have hlt' : ∀ i < f, ∀ o', os[i]? = some o' → ¬(left o' = z ∧ (o' = z ∨ o' ∈ as)) := fun i hi o' ho' => by
      obtain ⟨hi', rfl⟩ := List.getElem?_eq_some_iff.mp ho'
      exact hlt i hi
    rw [find_eq_some]
    exact ⟨⟨os[f], List.getElem?_eq_getElem hlen, hfirst f _ (List.getElem?_eq_getElem hlen) hpf.1 hpf.2 hlt'⟩,
      fun i hi o' ho' hs => hlt' i hi o' ho' (hfound i o' ho' hs)⟩

/-- The others get nothing. -/
theorem pick_later (hz : left z = z) {as bs : List κ} (has : z ∉ as) :
    pick left os (taken left os (as ++ z :: bs) ∅) z = none := by
  rw [Option.eq_none_iff_forall_ne_some]
  intro j hp
  obtain ⟨hj, ho, hlt⟩ := pick_eq_some.mp hp
  have hT : taken left os (as ++ z :: bs) ∅ = taken left os bs (next left os (taken left os as ∅) z) := taken_append _ _ _
  rcases hf : find left os (taken left os as ∅) z with _ | f
  · rw [find_first hidem hz has, List.findIdx?_eq_none_iff] at hf
    simpa [hz] using hf z (List.mem_of_getElem? ho)
  · have hmem : f ∈ taken left os (as ++ z :: bs) ∅ := by
      rw [hT]
      refine subset_taken _ _ ?_
      unfold next
      simp [hf]
    rw [find_first hidem hz has] at hf
    obtain ⟨hlen, hpf, hltf⟩ := List.findIdx?_eq_some_iff_getElem.mp hf
    simp only [decide_eq_true_eq] at hpf hltf
    rcases lt_trichotomy f j with h | h | h
    · exact hlt f h _ (List.getElem?_eq_getElem hlen) (by rw [if_pos hmem, hpf.1])
    · exact hj (h ▸ hmem)
    · obtain ⟨hlenj, hoj⟩ := List.getElem?_eq_some_iff.mp ho
      exact hltf j h ⟨by rw [hoj, hz], .inl hoj⟩

omit hidem in
theorem firstFound_append {as : List κ} (has : z ∉ as) (bs : List κ) :
    firstFound left os (as ++ z :: bs) z = os.findIdx? fun o => left o = z ∧ (o = z ∨ o ∈ as) := by
  have htake : (as ++ z :: bs).takeWhile (· ≠ z) = as := by
    rw [List.takeWhile_append_of_pos fun a ha => by simpa using ne_of_mem_of_not_mem ha has]
    simp
  rw [firstFound, htake]

section

variable (hz : left z = z) {as bs : List κ} (has : z ∉ as)
include hz has

theorem picks_first (os bs : List κ) : (picks left os (as ++ z :: bs) ∅)[as.length]? =
    some ((firstFound left os (as ++ z :: bs) z).filter (· ∉ taken left os as ∅)) := by
  rw [getElem?_picks, firstFound_append has bs, ← find_first hidem hz has]
  simp [pick]

theorem picks_later (hi : as.length < i) (hk : (as ++ z :: bs)[i]? = some z) :
    (picks left os (as ++ z :: bs) ∅)[i]? = some none := by
  have htake : (as ++ z :: bs).take i = as ++ z :: bs.take (i - as.length - 1) := by
    rw [List.take_append, List.take_of_length_le hi.le, show i - as.length = i - as.length - 1 + 1 by omega,
      List.take_succ_cons]
    simp
  rw [getElem?_picks, hk, Option.map_some, htake, pick_later hidem hz has]

omit [DecidableEq κ] hidem hz in
theorem length_le_of_getElem? (hk : (as ++ z :: bs)[i]? = some z) : as.length ≤ i := by
  by_contra h
  rw [List.getElem?_append_left (not_le.mp h)] at hk
  exact has (List.mem_of_getElem? hk)

/-- Only the first one may get an entry. -/
theorem picks_of_mem_taken (ho : os[j]? = some z) (hj : j ∈ taken left os (as ++ z :: bs) ∅) :
    (picks left os (as ++ z :: bs) ∅)[as.length]? = some (some j) := by
  obtain ⟨i, hi⟩ := List.mem_iff_getElem?.mp ((mem_taken.mp hj).resolve_left (by simp))
  have hk : (as ++ z :: bs)[i]? = some z := (key_of_picks hi).2.1.trans ho
  rcases (length_le_of_getElem? has hk).lt_or_eq with h | h
  · rw [picks_later hidem hz has h hk] at hi
    cases hi
  · exact h ▸ hi

omit hidem hz in
theorem not_mem_taken (ho : os[j]? = some z) : j ∉ taken left os as ∅ := fun hj => by
  obtain ⟨o, hmem, heq⟩ := exists_key_of_mem_taken hj
  obtain rfl := Option.some.inj (ho.symm.trans heq)
  exact has hmem

omit hidem in
theorem exists_firstFound (bs : List κ) (ho : os[j]? = some z) :
    ∃ (f : ℕ) (o : κ), firstFound left os (as ++ z :: bs) z = some f ∧ os[f]? = some o ∧ left o = z ∧ (o = z ∨ o ∈ as) := by
  rcases hf : firstFound left os (as ++ z :: bs) z with _ | f
  · rw [firstFound_append has, List.findIdx?_eq_none_iff] at hf
    simpa [hz] using hf z (List.mem_of_getElem? ho)
  · have hf' := hf
    rw [firstFound_append has bs] at hf'
    obtain ⟨hlen, hpf, -⟩ := List.findIdx?_eq_some_iff_getElem.mp hf'
    simp only [decide_eq_true_eq] at hpf
    exact ⟨f, _, rfl, List.getElem?_eq_getElem hlen, hpf⟩

end

/-- **When no key goes away empty.** All entries that matter (`alive`) and for whose key some key got nothing are given
out if and only if, for each key that is left in the place of entries, the only such entry is where the key is first
found, or the key comes once and gets what is first found. -/
theorem given_iff (alive : ℕ → Prop) :
    (∀ (i : ℕ) k, ks[i]? = some k → (picks left os ks ∅)[i]? = some none → ∀ j : ℕ, os[j]? = some k → alive j →
      j ∈ taken left os ks ∅) ↔
    ∀ z ∈ ks, left z = z → ∀ j : ℕ, os[j]? = some z → alive j →
      firstFound left os ks z = some j ∨
        ∃ f : ℕ, firstFound left os ks z = some f ∧ os[f]? = some z ∧ ¬ks.Duplicate z := by
  constructor
  · intro h z hzk hz j ho halive
    obtain ⟨as, bs, rfl, has⟩ := List.eq_append_cons_of_mem hzk
    obtain ⟨f, o, hf, hof, hleft, hor⟩ := exists_firstFound hz has bs ho
    have hfirst := picks_first hidem hz has os bs
    by_cases hoz : o = z
    · subst hoz
      by_cases hdup : (as ++ o :: bs).Duplicate o
      · -- a second one gets nothing, so the entry is given out, and then to the first one
        obtain ⟨i, hi, hk⟩ : ∃ i, as.length < i ∧ (as ++ o :: bs)[i]? = some o := by
          obtain ⟨m, n, hmn, hm, hn⟩ := List.duplicate_iff_exists_distinct_get.mp hdup
          have hm' := length_le_of_getElem? (i := m) has (by rw [List.getElem?_eq_getElem m.2]; exact congrArg some hm.symm)
          exact ⟨n, hm'.trans_lt hmn, by rw [List.getElem?_eq_getElem n.2]; exact congrArg some hn.symm⟩
        have hj := h i o hk (picks_later hidem hz has hi hk) j ho halive
        have hpick := picks_of_mem_taken hidem hz has ho hj
        rw [hfirst, hf, Option.filter_some, if_pos (by simpa using not_mem_taken has hof)] at hpick
        exact .inl (by rw [hf]; simpa using hpick)
      · exact .inr ⟨f, hf, hof, hdup⟩
    · -- the first one gets nothing
      have hmem : f ∈ taken left os as ∅ := by
        obtain ⟨⟨o', ho', hs⟩, -⟩ := find_eq_some.mp
          ((find_first hidem hz has).trans ((firstFound_append has bs).symm.trans hf))
        obtain rfl := Option.some.inj (hof.symm.trans ho')
        by_contra hf'
        exact hoz (by rwa [if_neg hf'] at hs)
      rw [hf, Option.filter_some, if_neg (by simpa using hmem)] at hfirst
      have hj := h as.length z (by simp) hfirst j ho halive
      rw [picks_of_mem_taken hidem hz has ho hj] at hfirst
      cases hfirst
  · intro h i k hk hnone j ho halive
    by_cases hz : left k = k
    · obtain ⟨as, bs, rfl, has⟩ := List.eq_append_cons_of_mem (List.mem_of_getElem? hk)
      have hfirst := picks_first hidem hz has os bs
      rcases h k (by simp) hz j ho halive with hf | ⟨f, hf, hof, hdup⟩
      · rw [hf, Option.filter_some, if_pos (by simpa using not_mem_taken has ho)] at hfirst
        exact mem_taken.mpr (.inr (List.mem_of_getElem? hfirst))
      · rw [hf, Option.filter_some, if_pos (by simpa using not_mem_taken has hof)] at hfirst
        rcases (length_le_of_getElem? has hk).lt_or_eq with hlt | heq
        · refine absurd (List.duplicate_iff_exists_distinct_get.mpr ?_) hdup
          obtain ⟨hlen, hget⟩ := List.getElem?_eq_some_iff.mp hk
          exact ⟨⟨as.length, by simp⟩, ⟨i, hlen⟩, hlt, by simp, hget.symm⟩
        · rw [← heq, hfirst] at hnone
          cases hnone
    · rw [getElem?_picks, hk, Option.map_some, Option.some.injEq] at hnone
      exact taken_take_subset i (mem_of_pick_eq_none (left_ne hidem hz) hnone ho)

end

/-! ### Giving out by swapping -/

section

variable {α : Type*}

/-- The first entry that is found is swapped with a new one: what comes out, and the entries after it. -/
def swapFirst (p : α → Bool) (nn : α) (cur : List α) : α × List α :=
  match cur.findIdx? p with
  | none => (nn, cur)
  | some i => (cur[i]?.getD nn, cur.set i nn)

/-- For each key, with the new entry for it, the first entry that has the key. -/
def giveAll (key : α → κ) : List (κ × α) → List α → List α × List α
  | [], cur => ([], cur)
  | (k, nn) :: ks, cur =>
    let (b, cur) := swapFirst (fun c => key c = k) nn cur
    let (bs, cur) := giveAll key ks cur
    (b :: bs, cur)

attribute [local simp] giveAll

variable (key : α → κ) (isNew : α → Prop) (left : κ → κ) (wanted : κ → Prop) (old : List α)

/-- Of the old entries those of `T` were swapped with new ones, which for the keys that are wanted look like what the
old ones leave. -/
structure Slots (T : Finset ℕ) (cur : List α) : Prop where
  length : cur.length = old.length
  kept : ∀ (j : ℕ) o, old[j]? = some o → j ∉ T → cur[j]? = some o
  given : ∀ (j : ℕ) o, old[j]? = some o → j ∈ T →
    ∃ c, cur[j]? = some c ∧ isNew c ∧ ∀ k, wanted k → (key c = k ↔ left (key o) = k)

omit [DecidableEq κ] in
theorem Slots.start : Slots key isNew left wanted old ∅ old := ⟨rfl, fun _ _ h _ => h, fun _ _ _ h => by simp at h⟩

variable {key isNew left wanted old} {cur : List α} {nn : α}

theorem Slots.find_eq (h : Slots key isNew left wanted old T cur) (hk : wanted k) :
    cur.findIdx? (fun c => key c = k) = find left (old.map key) T k := by
  have hmap : cur.findIdx? (fun c => key c = k) = (cur.map key).findIdx? (· = k) := by
    rw [List.findIdx?_map]
    rfl
  have hslot : ∀ (j : ℕ) c o, cur[j]? = some c → old[j]? = some o →
      (key c = k ↔ (if j ∈ T then left (key o) else key o) = k) := fun j c o hc ho => by
    split
    · rename_i hj
      obtain ⟨c', hc', -, hiff⟩ := h.given j o ho hj
      obtain rfl := Option.some.inj (hc.symm.trans hc')
      exact hiff k hk
    · rename_i hj
      obtain rfl := Option.some.inj (hc.symm.trans (h.kept j o ho hj))
      exact Iff.rfl
  have hget : ∀ j, j < cur.length → ∃ c o, cur[j]? = some c ∧ old[j]? = some o := fun j hj =>
    ⟨_, _, List.getElem?_eq_getElem hj, List.getElem?_eq_getElem (h.length ▸ hj)⟩
  rcases hf : find left (old.map key) T k with _ | j
  · rw [find_eq_none] at hf
    rw [List.findIdx?_eq_none_iff]
    intro c hc
    obtain ⟨j, hj, rfl⟩ := List.getElem_of_mem hc
    obtain ⟨c, o, hc, ho⟩ := hget j hj
    obtain rfl := Option.some.inj ((List.getElem?_eq_getElem hj).symm.trans hc)
    have hne := hf j (key o) (by simp [ho])
    simpa using fun heq => hne ((hslot j _ o hc ho).mp heq)
  · obtain ⟨⟨k', hk', hs⟩, hlt⟩ := find_eq_some.mp hf
    rw [List.getElem?_map, Option.map_eq_some_iff] at hk'
    obtain ⟨o, ho, rfl⟩ := hk'
    have hj : j < cur.length := h.length ▸ (List.getElem?_eq_some_iff.mp ho).1
    rw [List.findIdx?_eq_some_iff_getElem]
    refine ⟨hj, ?_, fun i hi => ?_⟩
    · simpa using (hslot j _ o (List.getElem?_eq_getElem hj) ho).mpr hs
    · obtain ⟨c, o', hc, ho'⟩ := hget i (hi.trans hj)
      obtain rfl := Option.some.inj ((List.getElem?_eq_getElem (hi.trans hj)).symm.trans hc)
      have hne := hlt i hi (key o') (by simp [ho'])
      simpa using fun heq => hne ((hslot i _ o' hc ho').mp heq)

/-- One swap gives out what `pick` says. -/
theorem Slots.swap (hidem : ∀ o, left (left o) = left o) (h : Slots key isNew left wanted old T cur) (hk : wanted k)
    (hnn : isNew nn) (hleft : ∀ k', wanted k' → (key nn = k' ↔ left k = k')) :
    Slots key isNew left wanted old (next left (old.map key) T k) (swapFirst (fun c => key c = k) nn cur).2 ∧
      (∀ j, pick left (old.map key) T k = some j → old[j]? = some (swapFirst (fun c => key c = k) nn cur).1) ∧
      (pick left (old.map key) T k = none → isNew (swapFirst (fun c => key c = k) nn cur).1) := by
  unfold swapFirst next pick
  rw [h.find_eq hk]
  rcases hf : find left (old.map key) T k with _ | i
  · exact ⟨h, by simp, fun _ => hnn⟩
  obtain ⟨⟨k', hk', hs⟩, -⟩ := find_eq_some.mp hf
  rw [List.getElem?_map, Option.map_eq_some_iff] at hk'
  obtain ⟨o, ho, rfl⟩ := hk'
  have hi : i < cur.length := h.length ▸ (List.getElem?_eq_some_iff.mp ho).1
  -- what the entry that is swapped leaves is what the key leaves
  have hleftk : left (key o) = left k := by
    split at hs
    · rw [← hs, hidem]
    · rw [hs]
  refine ⟨⟨by simp [h.length], fun j o' ho' hj => ?_, fun j o' ho' hj => ?_⟩, fun j hj => ?_, fun hnone => ?_⟩
  · simp only [Finset.mem_insert, not_or] at hj
    rw [List.getElem?_set_ne (Ne.symm hj.1)]
    exact h.kept j o' ho' hj.2
  · by_cases hji : j = i
    · subst hji
      obtain rfl := Option.some.inj (ho.symm.trans ho')
      exact ⟨nn, by rw [List.getElem?_set_self hi], hnn, fun k' hk' => by rw [hleft k' hk', hleftk]⟩
    · rw [List.getElem?_set_ne (Ne.symm hji)]
      exact h.given j o' ho' ((Finset.mem_insert.mp hj).resolve_left hji)
  · obtain ⟨heq, hT⟩ := Option.filter_eq_some_iff.mp hj
    obtain rfl := Option.some.inj heq
    simp only [h.kept i o ho (by simpa using hT), Option.getD_some, ho]
  · have hT : i ∈ T := by
      by_contra hT
      rw [Option.filter_some, if_pos (by simpa using hT)] at hnone
      cases hnone
    obtain ⟨c, hc, hnew, -⟩ := h.given i o ho hT
    simpa only [hc, Option.getD_some] using hnew

/-- What is given out to the keys, and what stands in the places then. -/
theorem Slots.giveAll (hidem : ∀ o, left (left o) = left o) : ∀ {ks : List (κ × α)} {T : Finset ℕ} {cur : List α},
    Slots key isNew left wanted old T cur →
    (∀ x ∈ ks, wanted x.1 ∧ isNew x.2 ∧ ∀ k', wanted k' → (key x.2 = k' ↔ left x.1 = k')) →
    Slots key isNew left wanted old (taken left (old.map key) (ks.map Prod.fst) T) (FirstMatch.giveAll key ks cur).2 ∧
      (FirstMatch.giveAll key ks cur).1.length = ks.length ∧
      ∀ i : ℕ,
        (∀ j, (picks left (old.map key) (ks.map Prod.fst) T)[i]? = some (some j) →
          (FirstMatch.giveAll key ks cur).1[i]? = old[j]?) ∧
        ((picks left (old.map key) (ks.map Prod.fst) T)[i]? = some none →
          ∃ b, (FirstMatch.giveAll key ks cur).1[i]? = some b ∧ isNew b)
  | [], _, _, h, _ => ⟨h, rfl, fun i => by simp⟩
  | (k, nn) :: ks, T, cur, h, hks => by
    obtain ⟨hk, hnn, hleft⟩ := hks (k, nn) List.mem_cons_self
    obtain ⟨hslots, hsome, hnone⟩ := h.swap hidem hk hnn hleft
    obtain ⟨hs, hlen, hget⟩ := hslots.giveAll hidem fun x hx => hks x (List.mem_cons_of_mem _ hx)
    refine ⟨hs, by simp [FirstMatch.giveAll, hlen], fun i => ?_⟩
    cases i with
    | zero =>
      simp only [List.map_cons, picks, List.getElem?_cons_zero, Option.some.injEq, FirstMatch.giveAll]
      exact ⟨fun j hj => (hsome j hj).symm, fun hp => ⟨_, rfl, hnone hp⟩⟩
    | succ i => exact hget i

omit [DecidableEq κ] in
theorem filter_eq_filter_zipIdx {p : α → Bool} {q : α × ℕ → Bool} : ∀ {cur old : List α} {n : ℕ},
    cur.length = old.length →
    (∀ (j : ℕ) o, old[j]? = some o → ∃ c, cur[j]? = some c ∧ p c = q (o, n + j) ∧ (p c = true → c = o)) →
    cur.filter p = ((old.zipIdx n).filter q).map Prod.fst
  | [], [], _, _, _ => rfl
  | c :: cur, o :: old, n, hlen, h => by
    obtain ⟨c', hc', hpq, heq⟩ := h 0 o rfl
    obtain rfl := Option.some.inj hc'
    have ih := filter_eq_filter_zipIdx (p := p) (q := q) (n := n + 1) (by simpa using hlen : cur.length = old.length)
      fun j o' ho' => by
        obtain ⟨c, hc, hpc, heqc⟩ := h (j + 1) o' ho'
        exact ⟨c, hc, by rw [hpc, Nat.add_right_comm, Nat.add_assoc], heqc⟩
    rw [List.zipIdx_cons, List.filter_cons, List.filter_cons, ih, hpq]
    simp only [Nat.add_zero]
    split
    · rw [List.map_cons, heq (by rw [hpq]; assumption)]
    · rfl

omit [DecidableEq κ] in
/-- What is found among the entries after the swaps, if nothing new is found: the old ones that were not given out. -/
theorem Slots.filter_eq {p : α → Bool} (h : Slots key isNew left wanted old T cur) (hp : ∀ b, isNew b → p b = false) :
    cur.filter p = (old.zipIdx.filter fun x => p x.1 && decide (x.2 ∉ T)).map Prod.fst := by
  refine filter_eq_filter_zipIdx h.length fun j o ho => ?_
  by_cases hj : j ∈ T
  · obtain ⟨c, hc, hnew, -⟩ := h.given j o ho hj
    exact ⟨c, hc, by simp [hp c hnew, hj], fun hpc => absurd hpc (by simp [hp c hnew])⟩
  · exact ⟨o, h.kept j o ho hj, by simp [hj], fun _ => rfl⟩

/-- Each key has an entry of its own: an old one for it, or else a new one, and then all old ones for it that matter went
to other keys. -/
structure Carried (key : α → κ) (isNew matters : α → Prop) (old : List α) (keys : List κ) (given : List (Option ℕ))
    (entries : List α) : Prop where
  length_given : given.length = keys.length
  length_entries : entries.length = keys.length
  injective : ∀ (i i' j : ℕ), given[i]? = some (some j) → given[i']? = some (some j) → i = i'
  carried : ∀ (i j : ℕ), given[i]? = some (some j) →
    ∃ o, old[j]? = some o ∧ entries[i]? = some o ∧ keys[i]? = some (key o)
  fresh : ∀ (i : ℕ), given[i]? = some none → ∃ b, entries[i]? = some b ∧ isNew b
  noneLeft : ∀ (i j : ℕ) o, given[i]? = some none → old[j]? = some o → keys[i]? = some (key o) → matters o →
    some j ∈ given

omit [DecidableEq κ] in
theorem Carried.of_some {matters : α → Prop} {keys : List κ} {given : List (Option ℕ)} {entries : List α}
    (h : Carried (fun a => some (key a)) isNew matters old (keys.map some) given entries) :
    Carried key isNew matters old keys given entries where
  length_given := by simpa using h.length_given
  length_entries := by simpa using h.length_entries
  injective := h.injective
  carried i j hi := by
    obtain ⟨o, ho, he, hk⟩ := h.carried i j hi
    exact ⟨o, ho, he, by simpa using hk⟩
  fresh := h.fresh
  noneLeft i j o hi ho hk hm := h.noneLeft i j o hi ho (by simp [hk]) hm

/-- Giving out by swapping carries the entries over, if no key goes away empty. -/
theorem Slots.carried (h : Slots key isNew left wanted old ∅ old) (hidem : ∀ o, left (left o) = left o)
    (matters : α → Prop) {ks : List (κ × α)}
    (hks : ∀ x ∈ ks, wanted x.1 ∧ isNew x.2 ∧ ∀ k', wanted k' → (key x.2 = k' ↔ left x.1 = k'))
    (hgiven : ∀ (i : ℕ) k, (ks.map Prod.fst)[i]? = some k → (picks left (old.map key) (ks.map Prod.fst) ∅)[i]? = some none →
      ∀ j : ℕ, (old.map key)[j]? = some k → (∃ o, old[j]? = some o ∧ matters o) →
        j ∈ taken left (old.map key) (ks.map Prod.fst) ∅) :
    Carried key isNew matters old (ks.map Prod.fst) (picks left (old.map key) (ks.map Prod.fst) ∅)
      (FirstMatch.giveAll key ks old).1 := by
  obtain ⟨-, hlen, hget⟩ := h.giveAll hidem hks
  refine ⟨length_picks, by simp [hlen], fun i i' j h h' => picks_injective h h', fun i j h => ?_, fun i h => (hget i).2 h, ?_⟩
  · obtain ⟨-, hkey, hne⟩ := key_of_picks h
    obtain ⟨k, hk⟩ := Option.ne_none_iff_exists'.mp hne
    have hold := hk
    rw [List.getElem?_map, Option.map_eq_some_iff] at hold
    obtain ⟨o, ho, rfl⟩ := hold
    exact ⟨o, ho, ((hget i).1 j h).trans ho, hkey.trans hk⟩
  · intro i j o hi ho hk hm
    have hj := hgiven i _ hk hi j (by simp [ho]) ⟨o, ho, hm⟩
    exact (mem_taken.mp hj).resolve_left (by simp)

end

end Cpcf.Lib.FirstMatch
