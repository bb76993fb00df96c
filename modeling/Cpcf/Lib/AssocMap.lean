import Mathlib.Data.List.Basic
import Mathlib.Data.List.Nodup
import Mathlib.Data.List.Perm.Basic

/-!
Finite maps as lists of pairs with distinct keys.

`assign` is `map[key] = value` and `assignAll` a loop of such assignments. A map has no order of its own,
so what such a loop leaves is stated up to permutation: the pairs assigned last, and of the pairs before
them those whose keys were not assigned again.
-/

namespace Cpcf.Lib.AssocMap

variable {α β : Type*} [DecidableEq α]

/-- `map[kv.1] = kv.2`. -/
def assign (l : List (α × β)) (kv : α × β) : List (α × β) := kv :: l.filter fun x => x.1 ≠ kv.1

/-- One assignment for each pair. -/
def assignAll (l kvs : List (α × β)) : List (α × β) := kvs.foldl assign l

/-- The pairs whose key is not one of `kvs`. -/
def without (l kvs : List (α × β)) : List (α × β) := l.filter fun x => x.1 ∉ kvs.map Prod.fst

theorem without_nil_right (l : List (α × β)) : without l [] = l := by simp [without]

theorem without_nil_left (kvs : List (α × β)) : without [] kvs = [] := rfl

theorem without_assign {l kvs : List (α × β)} {kv : α × β} (h : kv.1 ∉ kvs.map Prod.fst) :
    without (assign l kv) kvs = kv :: without l (kv :: kvs) := by
  rw [without, assign, List.filter_cons_of_pos (by simpa using h), List.filter_filter, without]
  congr 1
  refine List.filter_congr fun x _ => ?_
  simp only [List.map_cons, List.mem_cons, not_or, Bool.decide_and, Bool.and_comm]

/-- What a loop of assignments with distinct keys leaves. -/
theorem assignAll_perm {l kvs : List (α × β)} (h : (kvs.map Prod.fst).Nodup) :
    (assignAll l kvs).Perm (kvs ++ without l kvs) := by
  induction kvs generalizing l with
  | nil => rw [without_nil_right]; exact List.Perm.refl l
  | cons kv kvs ih =>
    rw [List.map_cons, List.nodup_cons] at h
    have hrest : (assignAll (assign l kv) kvs).Perm (kvs ++ without (assign l kv) kvs) := ih h.2
    rw [without_assign h.1] at hrest
    exact hrest.trans List.perm_middle

end Cpcf.Lib.AssocMap
