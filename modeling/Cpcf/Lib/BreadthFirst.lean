import Mathlib

/-!
Going through a forest with a queue: the node in front is taken out and its children are put at the end.

The number of rounds is bounded by a weight in which each node outweighs its children. What is taken out then
satisfies one equation (`order_eq`), and what is known about the order follows from it.
-/

namespace Cpcf.Lib.BreadthFirst

variable {α : Type*}

/-- The nodes in the order in which they are taken out, for at most `n` rounds. -/
def order (next : α → List α) : ℕ → List α → List α
  | 0, _ => []
  | _ + 1, [] => []
  | n + 1, a :: q => a :: order next n (q ++ next a)

variable {next : α → List α}

@[simp] theorem order_nil (n : ℕ) : order next n [] = [] := by cases n <;> rfl

/-- Each node outweighs its children together. -/
def Outweighs (next : α → List α) (w : α → ℕ) : Prop := ∀ a, ((next a).map w).sum < w a

/-- With rounds for the whole weight, what is taken out is the queue and then the children of all of it. -/
theorem order_eq {w : α → ℕ} (hw : Outweighs next w) :
    ∀ {n : ℕ} {q : List α}, (q.map w).sum ≤ n → order next n q = q ++ (order next n q).flatMap next
  | n, [], _ => by simp
  | 0, a :: q, h => by
    have := hw a
    simp only [List.map_cons, List.sum_cons] at h
    omega
  | n + 1, a :: q, h => by
    have ha := hw a
    simp only [List.map_cons, List.sum_cons] at h
    have ih := order_eq hw (n := n) (q := q ++ next a) (by simp only [List.map_append, List.sum_append]; omega)
    calc a :: order next n (q ++ next a)
        = a :: ((q ++ next a) ++ (order next n (q ++ next a)).flatMap next) := congrArg _ ih
      _ = (a :: q) ++ (a :: order next n (q ++ next a)).flatMap next := by simp

/-- A node comes after the one it is a child of. -/
theorem order_parent {a : α} : ∀ {n : ℕ} {q l₁ l₂ : List α}, order next n q = l₁ ++ a :: l₂ →
    a ∈ q ∨ ∃ b ∈ l₁, a ∈ next b
  | 0, _, _, _, h => by simp [order] at h
  | _ + 1, [], _, _, h => by simp [order] at h
  | n + 1, c :: q, [], l₂, h => by
    simp only [order, List.nil_append, List.cons.injEq] at h
    exact .inl (by simp [h.1])
  | n + 1, c :: q, d :: l₁, l₂, h => by
    simp only [order, List.cons_append, List.cons.injEq] at h
    obtain ⟨rfl, h⟩ := h
    rcases order_parent h with ha | ⟨b, hb, ha⟩
    · rcases List.mem_append.mp ha with ha | ha
      · exact .inl (by simp [ha])
      · exact .inr ⟨c, by simp, ha⟩
    · exact .inr ⟨b, by simp [hb], ha⟩

/-- Where an element of a concatenation comes from. -/
theorem flatMap_eq_append_cons {β : Type*} {f : α → List β} {b : β} : ∀ {l : List α} {l₁ l₂ : List β},
    l.flatMap f = l₁ ++ b :: l₂ → ∃ m₁ a m₂ k, l = m₁ ++ a :: m₂ ∧ b ∈ f a ∧ l₁ = m₁.flatMap f ++ k
  | [], _, _, h => by simp at h
  | c :: l, l₁, l₂, h => by
    rw [List.flatMap_cons] at h
    rcases List.append_eq_append_iff.mp h with ⟨k, rfl, hk⟩ | ⟨k, hk, hl⟩
    · obtain ⟨m₁, a, m₂, k', rfl, hb, rfl⟩ := flatMap_eq_append_cons hk
      exact ⟨c :: m₁, a, m₂, k', rfl, hb, by simp⟩
    · cases k with
      | nil =>
        have hl' : l.flatMap f = [] ++ b :: l₂ := hl.symm
        obtain ⟨m₁, a, m₂, k', rfl, hb, hnil⟩ := flatMap_eq_append_cons hl'
        exact ⟨c :: m₁, a, m₂, k', rfl, hb, by simp [hk, ← hnil]⟩
      | cons d k =>
        rw [List.cons_append, List.cons.injEq] at hl
        exact ⟨[], c, l, l₁, rfl, by simp [hk, hl.1], by simp⟩

section Tree

variable [DecidableEq α] {w : α → ℕ} {depth : α → ℕ} {r : α} {n : ℕ}

/-- In a tree no node is taken out twice. -/
theorem order_nodup (depth : α → ℕ) (hw : Outweighs next w) (hn : w r ≤ n) (hdepth : ∀ a, ∀ b ∈ next a, depth b = depth a + 1)
    (hroot : ∀ a, r ∉ next a) (hnodup : ∀ a, (next a).Nodup)
    (hparent : ∀ a a' b, b ∈ next a → b ∈ next a' → a = a') : (order next n [r]).Nodup := by
  have heq := order_eq hw (n := n) (q := [r]) (by simpa using hn)
  generalize order next n [r] = l at heq
  rw [List.nodup_iff_count_le_one]
  -- how often a node occurs is how often its parent does; the induction is on the depth
  have key : ∀ k b, depth b = k → l.count b ≤ 1 := by
    intro k
    induction k with
    | zero =>
      intro b hb
      have hnone : ∀ a, b ∉ next a := fun a ha => by have := hdepth a b ha; omega
      rw [heq, List.singleton_append, List.count_cons, List.count_eq_zero.mpr (by simp [hnone])]
      split <;> omega
    | succ k ih =>
      intro b hb
      by_cases hp : ∃ a, b ∈ next a
      · obtain ⟨a, ha⟩ := hp
        have hbr : b ≠ r := fun h => hroot a (h ▸ ha)
        have hcount : ∀ a', (next a').count b = if a' = a then 1 else 0 := by
          intro a'
          split
          · rename_i h
            exact h ▸ List.count_eq_one_of_mem (hnodup a) ha
          · rename_i h
            exact List.count_eq_zero.mpr fun hb' => h (hparent a' a b hb' ha)
        have hsum : ∀ m : List α, (m.flatMap next).count b = m.count a := by
          intro m
          induction m with
          | nil => simp
          | cons x m ihm => simp [List.count_append, List.count_cons, hcount, ihm, Nat.add_comm]
        rw [heq, List.singleton_append, List.count_cons_of_ne hbr.symm, hsum]
        exact ih a (by have := hdepth a b ha; omega)
      · rw [heq, List.singleton_append, List.count_cons, List.count_eq_zero.mpr (by simp only [List.mem_flatMap]; grind)]
        split <;> omega
  exact fun b => key _ b rfl

end Tree

end Cpcf.Lib.BreadthFirst
