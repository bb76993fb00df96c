import Mathlib

/-!
A tree of files: a finite map from paths to directories and files, in which whatever is there is in a directory.

Names and files are arbitrary. The order in which a directory is read is that of the map, so it is arbitrary too.
-/

namespace Cpcf.Lib.Files

inductive Node (β : Type*)
  | dir
  | file (b : β)
  deriving DecidableEq

def Node.isDir {β : Type*} : Node β → Bool
  | .dir => true
  | .file _ => false

@[simp] theorem Node.isDir_iff {β : Type*} {x : Node β} : x.isDir = true ↔ x = .dir := by cases x <;> simp [isDir]

/-- The files and directories below the root, which is itself left out. -/
structure FileTree (ν β : Type*) [DecidableEq ν] where
  nodes : AList fun _ : List ν => Node β
  root : [] ∉ nodes
  closed : ∀ p n, p ++ [n] ∈ nodes → p = [] ∨ nodes.lookup p = some .dir

namespace FileTree

variable {ν β : Type*} [DecidableEq ν] {t : FileTree ν β} {p q : List ν} {n : ν} {x : Node β} {b : β}

/-- What is at a path. -/
def get (t : FileTree ν β) (p : List ν) : Option (Node β) := if p = [] then some .dir else t.nodes.lookup p

@[simp] theorem get_root : t.get [] = some .dir := if_pos rfl

theorem get_of_ne (h : p ≠ []) : t.get p = t.nodes.lookup p := if_neg h

@[simp] theorem get_concat : t.get (p ++ [n]) = t.nodes.lookup (p ++ [n]) := get_of_ne (by simp)

def isDirectory (t : FileTree ν β) (p : List ν) : Bool := (t.get p).any Node.isDir

def isFile (t : FileTree ν β) (p : List ν) : Bool := (t.get p).any fun x => !x.isDir

@[simp] theorem isDirectory_iff : t.isDirectory p = true ↔ t.get p = some .dir := by
  unfold isDirectory
  rcases t.get p with _ | _ | b <;> simp [Node.isDir]

@[simp] theorem isFile_iff : t.isFile p = true ↔ ∃ b, t.get p = some (.file b) := by
  unfold isFile
  rcases t.get p with _ | _ | b <;> simp [Node.isDir]

theorem isDirectory_eq_false_iff : t.isDirectory p = false ↔ t.get p ≠ some .dir := by
  rw [← Bool.not_eq_true, isDirectory_iff]

theorem mem_of_get (h : p ≠ []) (hg : t.get p = some x) : p ∈ t.nodes := by
  rw [get_of_ne h] at hg
  exact AList.lookup_isSome.mp (by simp [hg])

theorem mem_keys_of_get (hg : t.get p ≠ none) : p ∈ [] :: t.nodes.keys := by
  by_cases h : p = []
  · simp [h]
  · obtain ⟨x, hx⟩ := Option.ne_none_iff_exists'.mp hg
    exact List.mem_cons_of_mem _ (AList.mem_keys.mp (mem_of_get h hx))

/-- Whatever is there is in a directory. -/
theorem get_parent (h : t.get (p ++ [n]) ≠ none) : t.get p = some .dir := by
  rw [get_concat] at h
  rcases t.closed p n (by simpa [AList.lookup_eq_none] using h) with rfl | h
  · exact get_root
  · by_cases hp : p = []
    · subst hp
      exact get_root
    · rwa [get_of_ne hp]

theorem get_dir_of_append (hq : q ≠ []) (h : t.get (p ++ q) ≠ none) : t.get p = some .dir := by
  induction q using List.reverseRecOn with
  | nil => exact absurd rfl hq
  | append_singleton q n ih =>
    rw [← List.append_assoc] at h
    have hd := get_parent h
    by_cases hq : q = []
    · simpa [hq] using hd
    · exact ih hq (by simp [hd])

theorem get_append_eq_none (h : t.get p ≠ some .dir) (hq : q ≠ []) : t.get (p ++ q) = none := by
  by_contra hc
  exact h (get_dir_of_append hq hc)

/-! ### Reading a directory -/

/-- The names in a directory, each with what is there. -/
def children (t : FileTree ν β) (p : List ν) : List (ν × Node β) :=
  t.nodes.entries.filterMap fun e => if e.1.dropLast = p then e.1.getLast?.map (·, e.2) else none

theorem mem_children : (n, x) ∈ t.children p ↔ t.get (p ++ [n]) = some x := by
  rw [get_concat, ← Option.mem_def, AList.mem_lookup_iff]
  unfold children
  simp only [List.mem_filterMap, Option.ite_none_right_eq_some, Option.map_eq_some_iff, Prod.mk.injEq]
  constructor
  · rintro ⟨⟨k, y⟩, hk, rfl, m, hm, rfl, rfl⟩
    rwa [List.dropLast_append_getLast? m hm]
  · intro h
    exact ⟨_, h, by simp, n, by simp, rfl, rfl⟩

theorem children_nodup : ((t.children p).map Prod.fst).Nodup := by
  have hkeys : (t.nodes.entries.map Sigma.fst).Nodup := t.nodes.nodupKeys
  unfold children
  generalize t.nodes.entries = l at hkeys
  induction l with
  | nil => simp
  | cons e l ih =>
    simp only [List.map_cons, List.nodup_cons] at hkeys
    rw [List.filterMap_cons]
    split
    · exact ih hkeys.2
    · rename_i y hy
      rw [Option.ite_none_right_eq_some, Option.map_eq_some_iff] at hy
      obtain ⟨rfl, m, hm, rfl⟩ := hy
      rw [List.map_cons, List.nodup_cons]
      refine ⟨fun hmem => hkeys.1 ?_, ih hkeys.2⟩
      simp only [List.mem_map, List.mem_filterMap, Option.ite_none_right_eq_some, Option.map_eq_some_iff] at hmem
      obtain ⟨-, ⟨e', he', hdrop, m', hm', rfl⟩, rfl⟩ := hmem
      have : e'.1 = e.1 := by
        rw [← List.dropLast_append_getLast? m' hm', hdrop, List.dropLast_append_getLast? m' hm]
      exact this ▸ List.mem_map_of_mem he'

theorem children_eq_nil_iff : t.children p = [] ↔ ∀ n, t.get (p ++ [n]) = none := by
  rw [List.eq_nil_iff_forall_not_mem]
  constructor
  · intro h n
    by_contra hn
    obtain ⟨x, hx⟩ := Option.ne_none_iff_exists'.mp hn
    exact h _ (mem_children.mpr hx)
  · rintro h ⟨n, x⟩ hm
    have := mem_children.mp hm
    rw [h n] at this
    cases this

/-! ### How much is below a path -/

def below (t : FileTree ν β) (p : List ν) : ℕ := t.nodes.keys.countP fun k => p <+: k ∧ k ≠ p

theorem below_le : t.below p ≤ t.nodes.entries.length := by
  have h := List.countP_le_length (p := fun k => decide (p <+: k ∧ k ≠ p)) (l := t.nodes.keys)
  rwa [AList.keys, List.keys, List.length_map] at h

/-- At most one of the names leads on to a given path. -/
theorem sum_prefix_le (k : List ν) : ∀ {ms : List ν}, ms.Nodup →
    (ms.map fun n => if p ++ [n] <+: k then 1 else 0).sum ≤ if p <+: k ∧ k ≠ p then 1 else 0
  | [], _ => by simp
  | m :: ms, h => by
    have ih := sum_prefix_le k (List.nodup_cons.mp h).2
    rw [List.map_cons, List.sum_cons]
    by_cases hm : p ++ [m] <+: k
    · obtain ⟨l, rfl⟩ := hm
      have hzero : (ms.map fun n => if p ++ [n] <+: p ++ [m] ++ l then 1 else 0).sum = 0 := by
        rw [List.sum_eq_zero_iff]
        intro y hy
        obtain ⟨n, hn, rfl⟩ := List.mem_map.mp hy
        rw [if_neg]
        rw [List.append_assoc, List.prefix_append_right_inj, List.singleton_append, List.cons_prefix_cons]
        exact fun h' => (List.nodup_cons.mp h).1 (h'.1 ▸ hn)
      have hp : p <+: p ++ [m] ++ l ∧ p ++ [m] ++ l ≠ p := by simp
      rw [hzero, if_pos (List.prefix_append _ _), if_pos hp]
    · rw [if_neg hm, Nat.zero_add]
      exact ih

/-- What is in a directory and below it is below the directory. -/
theorem below_children (ms : List ν) (hnd : ms.Nodup) (hms : ∀ n ∈ ms, t.get (p ++ [n]) ≠ none) :
    (ms.map fun n => t.below (p ++ [n]) + 1).sum ≤ t.below p := by
  have hin : ∀ n ∈ ms, p ++ [n] ∈ t.nodes.keys := fun n hn => by
    simpa [AList.lookup_eq_none, ← AList.mem_keys] using hms n hn
  have hone : ∀ n ∈ ms, t.below (p ++ [n]) + 1 ≤ t.nodes.keys.countP fun k => p ++ [n] <+: k := by
    intro n hn
    have hsplit := List.countP_eq_countP_filter_add t.nodes.keys (fun k => decide (p ++ [n] <+: k))
      (fun k => decide (k ≠ p ++ [n]))
    have hpos : 0 < ((t.nodes.keys.filter fun k => !decide (k ≠ p ++ [n])).countP
        fun k => decide (p ++ [n] <+: k)) := by
      rw [List.countP_pos_iff]
      exact ⟨p ++ [n], by simp [hin n hn], by simp⟩
    rw [List.countP_filter, List.countP_filter] at hsplit
    rw [List.countP_filter] at hpos
    have hb : t.below (p ++ [n])
        = t.nodes.keys.countP fun k => decide (p ++ [n] <+: k) && decide (k ≠ p ++ [n]) :=
      List.countP_congr fun k _ => by simp
    omega
  refine (List.sum_le_sum hone).trans ?_
  unfold below
  generalize t.nodes.keys = K
  induction K with
  | nil => simp
  | cons k K ih =>
    have hk := sum_prefix_le (p := p) k hnd
    have hsum : (ms.map fun n => (k :: K).countP fun k => p ++ [n] <+: k).sum
        = (ms.map fun n => K.countP fun k => p ++ [n] <+: k).sum
          + (ms.map fun n => if p ++ [n] <+: k then 1 else 0).sum := by
      rw [← List.sum_map_add]
      simp [List.countP_cons]
    rw [hsum, List.countP_cons]
    simp only [decide_eq_true_eq]
    exact Nat.add_le_add ih hk

/-! ### Changing the tree -/

/-- No files and no directories. -/
def empty : FileTree ν β := ⟨∅, AList.notMem_empty _, fun _ _ h => absurd h (AList.notMem_empty _)⟩

/-- Puts something at a path where there is nothing yet, if the path is in a directory. -/
def create (t : FileTree ν β) (p : List ν) (x : Node β) : FileTree ν β :=
  if h : (t.get p).isNone ∧ t.isDirectory p.dropLast then
    { nodes := t.nodes.insert p x
      root := by
        have : p ≠ [] := by rintro rfl; simp at h
        simp [AList.mem_insert, this.symm, t.root]
      closed := by
        intro q m hq
        rw [Option.isNone_iff_eq_none, isDirectory_iff] at h
        by_cases hqn : q = []
        · exact .inl hqn
        right
        have hget : t.get q = some .dir := by
          rcases (AList.mem_insert _).mp hq with hqp | hq
          · rw [← hqp, List.dropLast_concat] at h
            exact h.2
          · exact get_parent (by simpa [AList.lookup_eq_none] using hq)
        have hqp : q ≠ p := by rintro rfl; simp [h.1] at hget
        rwa [AList.lookup_insert_ne hqp, ← get_of_ne hqn] }
  else t

theorem get_create (h : t.get p = none ∧ t.get p.dropLast = some .dir) :
    (t.create p x).get q = if q = p then some x else t.get q := by
  have hne : p ≠ [] := by rintro rfl; simp at h
  rw [create, dif_pos (by simpa using h)]
  unfold get
  by_cases hq : q = p
  · subst hq
    rw [if_neg hne, if_pos rfl]
    exact AList.lookup_insert _
  · rw [if_neg hq]
    simp only [AList.lookup_insert_ne hq]

theorem create_of_not (h : ¬(t.get p = none ∧ t.get p.dropLast = some .dir)) : t.create p x = t :=
  dif_neg (by simpa using h)

/-- What is there already stays. -/
theorem get_create_of_ne_none (hq : t.get q ≠ none) : (t.create p x).get q = t.get q := by
  by_cases h : t.get p = none ∧ t.get p.dropLast = some .dir
  · rw [get_create h, if_neg]
    rintro rfl
    exact hq h.1
  · rw [create_of_not h]

/-- Gives the file at a path other contents. -/
def write (t : FileTree ν β) (p : List ν) (b : β) : FileTree ν β :=
  if h : t.isFile p then
    { nodes := t.nodes.insert p (.file b)
      root := by
        have : p ≠ [] := by rintro rfl; simp at h
        simp [AList.mem_insert, this.symm, t.root]
      closed := by
        obtain ⟨c, hc⟩ := isFile_iff.mp h
        have hne : p ≠ [] := by rintro rfl; simp at hc
        have hp : p ∈ t.nodes := mem_of_get hne hc
        rw [get_of_ne hne] at hc
        intro q m hq
        have hq' : q ++ [m] ∈ t.nodes := by
          rcases (AList.mem_insert _).mp hq with hqp | hq
          · exact hqp ▸ hp
          · exact hq
        rcases t.closed q m hq' with hd | hd
        · exact .inl hd
        · refine .inr ?_
          rw [AList.lookup_insert_ne, hd]
          rintro rfl
          simp [hc] at hd }
  else t

theorem get_write {c : β} (h : t.get p = some (.file c)) :
    (t.write p b).get q = if q = p then some (.file b) else t.get q := by
  have hne : p ≠ [] := by rintro rfl; simp at h
  rw [write, dif_pos (isFile_iff.mpr ⟨c, h⟩)]
  unfold get
  by_cases hq : q = p
  · subst hq
    rw [if_neg hne, if_pos rfl]
    exact AList.lookup_insert _
  · rw [if_neg hq]
    simp only [AList.lookup_insert_ne hq]

/-- Takes away what is at a path, if nothing is in it. -/
def remove (t : FileTree ν β) (p : List ν) : FileTree ν β :=
  if h : (t.children p).isEmpty then
    { nodes := t.nodes.erase p
      root := by simp [t.root]
      closed := by
        intro q m hq
        rw [AList.mem_erase] at hq
        rcases t.closed q m hq.2 with hd | hd
        · exact .inl hd
        · refine .inr ?_
          rw [AList.lookup_erase_ne, hd]
          rintro rfl
          have := children_eq_nil_iff.mp (List.isEmpty_iff.mp h) m
          rw [get_concat, AList.lookup_eq_none] at this
          exact this hq.2 }
  else t

theorem get_remove (hp : p ≠ []) (h : t.children p = []) :
    (t.remove p).get q = if q = p then none else t.get q := by
  rw [remove, dif_pos (List.isEmpty_iff.mpr h)]
  unfold get
  by_cases hq : q = p
  · subst hq
    rw [if_neg hp, if_pos rfl]
    exact AList.lookup_erase _ _
  · rw [if_neg hq]
    simp only [AList.lookup_erase_ne hq]

theorem children_of_file (h : t.get p = some (.file b)) : t.children p = [] :=
  children_eq_nil_iff.mpr fun n => get_append_eq_none (by simp [h]) (by simp)

end FileTree

end Cpcf.Lib.Files
