import Cpcf.Lib.BreadthFirst
import Cpcf.Lib.FileTree

/-!
`os::FileList::Populate`: the items below a directory, in the build that is not for Windows.

The directories still to be read stand in a queue. What comes out of a recursive listing is each item whose path has
no name that is skipped, once, and after the directory it is in.
-/

namespace Cpcf.Os.FileList

open Cpcf.Lib.Files Cpcf.Lib.BreadthFirst

/-- A name that a directory may hold, as `readdir` gives it. -/
abbrev Name := { s : List Char // s ≠ [] ∧ s ≠ ['.'] ∧ s ≠ ['.', '.'] ∧ '/' ∉ s }

abbrev Path := List Name

/-- A file. The time is that of its last modification. -/
structure Stored where
  content : List UInt8
  time : Int
  deriving DecidableEq

abbrev FileSystem := FileTree Name Stored

/-- The name begins with a dot. -/
def hidden (n : Name) : Bool := n.1.head? = some '.'

def FLAG_ONLYFIRSTFILE : UInt32 := 0x1
def FLAG_NODIRECTORY : UInt32 := 0x2
def FLAG_DIRECTORYONLY : UInt32 := 0x4
def FLAG_SKIPHIDDEN : UInt32 := 0x8
def FLAG_RECURSIVE : UInt32 := 0x10

/-- A bit of `flag` is set. -/
def has (flag bit : UInt32) : Bool := flag &&& bit ≠ 0

/-- `_File`: the path from the root of the listing on. -/
structure Entry where
  name : Path
  isDirectory : Bool
  deriving DecidableEq

/-- `readdir` until it is at the end; nothing when there is no such directory. Its two own entries `.` and `..`, which
`_Populate` skips, are left out. -/
def readdir (fs : FileSystem) (p : Path) : List (Name × Bool) := (fs.children p).map fun d => (d.1, d.2.isDir)

/-- The inner loop of `_Populate`: what it puts into `Paths` and into `_Filenames`. No suffixes are asked for. -/
def readEntries (flag : UInt32) (p : Path) : List (Name × Bool) → List Path × List Entry
  | [] => ([], [])
  | (d_name, isDir) :: ds =>
    let rest := readEntries flag p ds
    if has flag FLAG_SKIPHIDDEN && hidden d_name then rest
    else
      let push := if has flag FLAG_RECURSIVE && isDir then [p ++ [d_name]] else []
      if isDir && has flag FLAG_NODIRECTORY then (push ++ rest.1, rest.2)
      else if !isDir && has flag FLAG_DIRECTORYONLY then (push ++ rest.1, rest.2)
      else if has flag FLAG_ONLYFIRSTFILE then (push, [⟨p ++ [d_name], isDir⟩])
      else (push ++ rest.1, ⟨p ++ [d_name], isDir⟩ :: rest.2)

/-- `while(Paths.GetSize())`, for at most so many rounds. -/
def populateLoop (fs : FileSystem) (root : Path) (flag : UInt32) : ℕ → List Path → List Entry → List Entry
  | 0, _, filenames => filenames
  | _ + 1, [], filenames => filenames
  | n + 1, p :: paths, filenames =>
    let found := readEntries flag p (readdir fs (root ++ p))
    populateLoop fs root flag n (paths ++ found.1) (filenames ++ found.2)

/-- `Populate`: what `_Filenames` holds afterwards. There are no more directories than `fs` has items. -/
def populate (fs : FileSystem) (root : Path) (flag : UInt32) : List Entry :=
  populateLoop fs root flag (fs.nodes.entries.length + 1) [[]] []

/-! ### A recursive listing -/

/-- The flags of a recursive listing that may skip what is hidden. -/
def recursive (skip : Bool) : UInt32 := FLAG_RECURSIVE ||| (if skip then FLAG_SKIPHIDDEN else 0)

/-- The listing does not skip a name. -/
def shown (skip : Bool) (n : Name) : Bool := !(skip && hidden n)

variable {fs : FileSystem} {root : Path} {skip : Bool} {p r : Path}

/-- The items of a directory that the listing shows. -/
def items (fs : FileSystem) (root : Path) (skip : Bool) (p : Path) : List (Name × Bool) :=
  (readdir fs (root ++ p)).filter fun d => shown skip d.1

/-- The directories among them. -/
def subdirs (fs : FileSystem) (root : Path) (skip : Bool) (p : Path) : List Path :=
  ((items fs root skip p).filter Prod.snd).map fun d => p ++ [d.1]

def entriesAt (fs : FileSystem) (root : Path) (skip : Bool) (p : Path) : List Entry :=
  (items fs root skip p).map fun d => ⟨p ++ [d.1], d.2⟩

theorem readEntries_recursive (ds : List (Name × Bool)) : readEntries (recursive skip) p ds =
    (((ds.filter fun d => shown skip d.1).filter Prod.snd).map fun d => p ++ [d.1],
      (ds.filter fun d => shown skip d.1).map fun d => ⟨p ++ [d.1], d.2⟩) := by
  have hflags : has (recursive skip) FLAG_SKIPHIDDEN = skip ∧ has (recursive skip) FLAG_RECURSIVE = true ∧
      has (recursive skip) FLAG_NODIRECTORY = false ∧ has (recursive skip) FLAG_DIRECTORYONLY = false ∧
      has (recursive skip) FLAG_ONLYFIRSTFILE = false := by cases skip <;> decide
  obtain ⟨hs, hr, hn, hd, ho⟩ := hflags
  induction ds with
  | nil => rfl
  | cons d ds ih =>
    obtain ⟨n, b⟩ := d
    have hshown : shown skip n = !(skip && hidden n) := rfl
    simp only [readEntries, hs, hr, hn, hd, ho, ih, List.filter_cons, hshown]
    cases skip && hidden n <;> cases b <;> simp

theorem populateLoop_eq : ∀ (n : ℕ) (paths : List Path) (filenames : List Entry),
    populateLoop fs root (recursive skip) n paths filenames
      = filenames ++ (order (subdirs fs root skip) n paths).flatMap (entriesAt fs root skip)
  | 0, _, _ => by simp [populateLoop, order]
  | _ + 1, [], _ => by simp [populateLoop, order]
  | n + 1, p :: paths, filenames => by
    rw [populateLoop, readEntries_recursive]
    simp only [order, List.flatMap_cons]
    rw [← List.append_assoc]
    exact populateLoop_eq n _ _

/-- The directories read, in order. -/
def visited (fs : FileSystem) (root : Path) (skip : Bool) : List Path :=
  order (subdirs fs root skip) (fs.nodes.entries.length + 1) [[]]

theorem populate_eq :
    populate fs root (recursive skip) = (visited fs root skip).flatMap (entriesAt fs root skip) :=
  populateLoop_eq _ _ _

theorem mem_items {n : Name} {b : Bool} :
    (n, b) ∈ items fs root skip p ↔ shown skip n ∧ ∃ x, fs.get (root ++ p ++ [n]) = some x ∧ x.isDir = b := by
  unfold items readdir
  simp only [List.mem_filter, List.mem_map, Prod.mk.injEq, Prod.exists, FileTree.mem_children]
  constructor
  · rintro ⟨⟨m, x, hx, rfl, rfl⟩, hs⟩
    exact ⟨hs, x, hx, rfl⟩
  · rintro ⟨hs, x, hx, rfl⟩
    exact ⟨⟨n, x, hx, rfl, rfl⟩, hs⟩

theorem items_nodup (fs : FileSystem) (root : Path) (skip : Bool) (p : Path) :
    ((items fs root skip p).map Prod.fst).Nodup := by
  have h := FileTree.children_nodup (t := fs) (p := root ++ p)
  have hmap : (readdir fs (root ++ p)).map Prod.fst = (fs.children (root ++ p)).map Prod.fst := by
    simp [readdir, List.map_map, Function.comp_def]
  exact (hmap ▸ h).sublist (List.filter_sublist.map _)

theorem mem_subdirs {q : Path} :
    q ∈ subdirs fs root skip p ↔ ∃ n, q = p ++ [n] ∧ shown skip n ∧ fs.get (root ++ q) = some .dir := by
  unfold subdirs
  simp only [List.mem_map, List.mem_filter, Prod.exists, mem_items]
  constructor
  · rintro ⟨n, b, ⟨⟨hs, x, hx, rfl⟩, hb⟩, rfl⟩
    rw [Node.isDir_iff] at hb
    exact ⟨n, rfl, hs, by rw [← List.append_assoc, hx, hb]⟩
  · rintro ⟨n, rfl, hs, hx⟩
    exact ⟨n, true, ⟨⟨hs, .dir, by rwa [List.append_assoc], rfl⟩, rfl⟩, rfl⟩

theorem mem_entriesAt {e : Entry} : e ∈ entriesAt fs root skip p ↔
    ∃ n, e.name = p ++ [n] ∧ shown skip n ∧ ∃ x, fs.get (root ++ e.name) = some x ∧ x.isDir = e.isDirectory := by
  unfold entriesAt
  simp only [List.mem_map, Prod.exists, mem_items]
  constructor
  · rintro ⟨n, b, ⟨hs, x, hx, rfl⟩, rfl⟩
    exact ⟨n, rfl, hs, x, by rwa [← List.append_assoc], rfl⟩
  · rintro ⟨n, hn, hs, x, hx, hb⟩
    refine ⟨n, e.isDirectory, ⟨hs, x, ?_, hb⟩, ?_⟩
    · rwa [List.append_assoc, ← hn]
    · rw [← hn]

/-- How much is below a directory, with itself. -/
def weight (fs : FileSystem) (root : Path) (p : Path) : ℕ := fs.below (root ++ p) + 1

theorem outweighs : Outweighs (subdirs fs root skip) (weight fs root) := by
  intro p
  have h := FileTree.below_children (t := fs) (p := root ++ p) (((items fs root skip p).filter Prod.snd).map Prod.fst)
    ((items_nodup fs root skip p).sublist (List.filter_sublist.map _)) (by
      intro n hn
      obtain ⟨⟨m, b⟩, hm, rfl⟩ := List.mem_map.mp hn
      obtain ⟨-, x, hx, -⟩ := mem_items.mp (List.mem_filter.mp hm).1
      simp only [hx, ne_eq, reduceCtorEq, not_false_eq_true])
  have heq : ((subdirs fs root skip p).map (weight fs root)).sum
      = ((((items fs root skip p).filter Prod.snd).map Prod.fst).map fun n => fs.below (root ++ p ++ [n]) + 1).sum := by
    simp [subdirs, weight, List.map_map, Function.comp_def]
  rw [heq]
  exact Nat.lt_succ_of_le h

theorem visited_eq : visited fs root skip = [] :: (visited fs root skip).flatMap (subdirs fs root skip) := by
  refine order_eq outweighs ?_
  have := FileTree.below_le (t := fs) (p := root ++ [])
  simp only [List.map_cons, List.map_nil, List.sum_cons, List.sum_nil, weight]
  omega

theorem mem_visited : p ∈ visited fs root skip ↔ p = [] ∨ (∀ n ∈ p, shown skip n) ∧ fs.get (root ++ p) = some .dir := by
  induction p using List.reverseRecOn with
  | nil => rw [visited_eq]; simp
  | append_singleton p n ih =>
    rw [visited_eq, List.mem_cons, List.mem_flatMap]
    simp only [mem_subdirs, List.append_eq_nil_iff, List.cons_ne_nil, and_false, false_or, List.append_singleton_inj]
    constructor
    · rintro ⟨q, hq, m, ⟨rfl, rfl⟩, hm, hd⟩
      refine ⟨fun k hk => ?_, hd⟩
      rcases List.mem_append.mp hk with hk | hk
      · rcases ih.mp hq with rfl | h
        · simp at hk
        · exact h.1 k hk
      · rwa [List.mem_singleton.mp hk]
    · rintro ⟨hs, hd⟩
      refine ⟨p, ih.mpr ?_, n, ⟨rfl, rfl⟩, hs n (by simp), hd⟩
      refine .inr ⟨fun k hk => hs k (by simp [hk]), FileTree.get_parent (n := n) ?_⟩
      simp only [List.append_assoc, hd, ne_eq, reduceCtorEq, not_false_eq_true]

/-- The listing has an item when its path has no name that is skipped. -/
theorem mem_populate (fs : FileSystem) (root : Path) (skip : Bool) (e : Entry) : e ∈ populate fs root (recursive skip) ↔ e.name ≠ [] ∧
    (∀ n ∈ e.name, shown skip n) ∧ ∃ x, fs.get (root ++ e.name) = some x ∧ x.isDir = e.isDirectory := by
  rw [populate_eq, List.mem_flatMap]
  simp only [mem_entriesAt]
  constructor
  · rintro ⟨p, hp, n, hn, hs, hx⟩
    refine ⟨by simp [hn], fun k hk => ?_, hx⟩
    rw [hn] at hk
    rcases List.mem_append.mp hk with hk | hk
    · rcases mem_visited.mp hp with rfl | h
      · simp at hk
      · exact h.1 k hk
    · rwa [List.mem_singleton.mp hk]
  · rintro ⟨hne, hs, x, hx, hb⟩
    obtain ⟨p, n, hpn⟩ := (List.eq_nil_or_concat e.name).resolve_left hne
    rw [List.concat_eq_append] at hpn
    refine ⟨p, mem_visited.mpr ?_, n, hpn, hs n (by simp [hpn]), x, hx, hb⟩
    refine .inr ⟨fun k hk => hs k (by simp [hpn, hk]), FileTree.get_parent (n := n) ?_⟩
    rw [List.append_assoc, ← hpn, hx]
    simp

/-- No item is listed twice. -/
theorem populate_nodup : ((populate fs root (recursive skip)).map Entry.name).Nodup := by
  have hv : (visited fs root skip).Nodup := by
    refine order_nodup List.length outweighs ?_ ?_ ?_ ?_ ?_
    · have := FileTree.below_le (t := fs) (p := root ++ [])
      simp only [weight]
      omega
    · intro a b hb
      obtain ⟨n, rfl, -⟩ := mem_subdirs.mp hb
      simp
    · intro a h
      obtain ⟨n, hn, -⟩ := mem_subdirs.mp h
      simp at hn
    · intro a
      unfold subdirs
      have h := (items_nodup fs root skip a).sublist
        ((List.filter_sublist (p := Prod.snd)).map Prod.fst)
      have := h.map (f := fun n => a ++ [n]) (fun n m h => by simpa using h)
      rwa [List.map_map] at this
    · intro a a' b h h'
      obtain ⟨n, rfl, -⟩ := mem_subdirs.mp h
      obtain ⟨m, hm, -⟩ := mem_subdirs.mp h'
      exact (List.append_inj' hm rfl).1
  rw [populate_eq, List.map_flatMap, List.nodup_flatMap]
  constructor
  · intro a _
    have h := (items_nodup fs root skip a).map (f := fun n => a ++ [n])
      (fun n m h => by simpa using h)
    simpa [entriesAt, List.map_map, Function.comp_def] using h
  · refine hv.pairwise_of_forall_ne ?_
    intro a _ b _ hab
    rw [Function.onFun, List.disjoint_left]
    intro r ha hb
    obtain ⟨e, he, rfl⟩ := List.mem_map.mp ha
    obtain ⟨e', he', hee⟩ := List.mem_map.mp hb
    obtain ⟨n, hn, -⟩ := mem_entriesAt.mp he
    obtain ⟨m, hm, -⟩ := mem_entriesAt.mp he'
    rw [hn, hm] at hee
    exact hab (List.append_inj' hee rfl).1.symm

/-- An item is listed after the directory it is in. -/
theorem populate_parent {e : Entry} {l₁ l₂ : List Entry} (h : populate fs root (recursive skip) = l₁ ++ e :: l₂) :
    e.name.dropLast = [] ∨ ⟨e.name.dropLast, true⟩ ∈ l₁ := by
  rw [populate_eq] at h
  obtain ⟨m₁, p, m₂, k, hv, he, rfl⟩ := flatMap_eq_append_cons h
  obtain ⟨n, hn, -⟩ := mem_entriesAt.mp he
  rw [hn, List.dropLast_concat]
  rcases order_parent hv with hp | ⟨q, hq, hp⟩
  · exact .inl (List.mem_singleton.mp hp)
  · obtain ⟨m, rfl, hs, hd⟩ := mem_subdirs.mp hp
    refine .inr (List.mem_append_left _ (List.mem_flatMap.mpr ⟨q, hq, ?_⟩))
    exact mem_entriesAt.mpr ⟨m, rfl, hs, .dir, hd, rfl⟩

end Cpcf.Os.FileList
