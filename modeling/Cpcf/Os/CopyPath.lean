import Cpcf.Os.FileList

/-!
`os::File::CopyPath` with the calls it makes, in the build that is not for Windows.

The files are copied through mappings of both. The mapping of the source is read-only, but it is the one that `memcpy`
is asked to write to.
-/

namespace Cpcf.Os.CopyPath

open Cpcf.Lib.Files Cpcf.Os.FileList

def CPOPT_MIRROR : UInt32 := 0x0001
def CPOPT_OVERWRITE : UInt32 := 0x0002
def CPOPT_HIDDEN_FILE : UInt32 := 0x0004

/-- What the system under the code does. -/
structure Host where
  /-- A write to a mapping with `PROT_READ` alone is stopped. Otherwise it goes to the file. -/
  stopsWrite : Bool
  /-- The time it gives for a directory. -/
  dirTime : Path → Int
  /-- The time a file is left with after it was written. -/
  stamp : Path → Int

/-- `GetPathTime`, of the last modification. -/
def getPathTime (h : Host) (fs : FileSystem) (p : Path) : Option Int :=
  (fs.get p).map fun
    | .dir => h.dirTime p
    | .file a => a.time

/-- `SetPathTime`: the time of the last modification is the second one given to `utimes`, which the code leaves unset. -/
def setPathTime (h : Host) (fs : FileSystem) (p : Path) (_last_access _last_modify : Int) : FileSystem :=
  match fs.get p with
  | some (.file a) => fs.write p { a with time := h.stamp p }
  | _ => fs

def createDirectory (fs : FileSystem) (p : Path) : FileSystem × Bool :=
  let fs := fs.create p .dir
  (fs, fs.isDirectory p)

/-- The loop of `CreateDirectories` over the separators. -/
def createParents (fs : FileSystem) (p : Path) : List Name → FileSystem
  | [] => fs
  | [_] => fs
  | n :: n' :: rest => createParents (fs.create (p ++ [n]) .dir) (p ++ [n]) (n' :: rest)

/-- `CreateDirectories`, with `file_mode` off. -/
def createDirectories (fs : FileSystem) (p : Path) : FileSystem × Bool := createDirectory (createParents fs [] p) p

def removeDirectory (fs : FileSystem) (p : Path) : FileSystem × Bool :=
  if p ≠ [] && fs.isDirectory p && (fs.children p).isEmpty then (fs.remove p, true) else (fs, false)

/-- `Remove`, not `secure`. -/
def remove (fs : FileSystem) (p : Path) : FileSystem × Bool :=
  match fs.get p with
  | none => (fs, false)
  | some .dir => removeDirectory fs p
  | some (.file _) => (fs.remove p, true)

attribute [local simp] remove

/-- The call that takes an item of a listing away. -/
def removeEntry (fs : FileSystem) (root : Path) (e : Entry) : FileSystem :=
  if e.isDirectory then (removeDirectory fs (root ++ e.name)).1 else (remove fs (root ++ e.name)).1

/-- `RemovePath`. -/
def removePath (fs : FileSystem) (p : Path) : FileSystem × Bool :=
  if (fs.get p).isNone then (fs, true)
  else if fs.isDirectory p then
    removeDirectory ((populate fs p FLAG_RECURSIVE).foldr (fun e fs => removeEntry fs p e) fs) p
  else remove fs p

/-! ### Mapped files -/

/-- `FileMapping`, when it is open. It is shared, so that its memory is the contents of the file. -/
structure Mapping where
  path : Path
  size : ℕ
  readonly : Bool

/-- A file's contents with zeros behind them, up to a length. -/
def extend (content : List UInt8) (length : ℕ) : List UInt8 :=
  content ++ List.replicate (length - content.length) 0

/-- `File::Open` for reading and writing: a file that is not there is made. -/
def openReadWrite (h : Host) (fs : FileSystem) (p : Path) : FileSystem :=
  if fs.isFile p then fs else fs.create p (.file ⟨[], h.stamp p⟩)

/-- `FileMapping::Open`, with `create_new` on. The whole file is mapped, whatever length was asked for. -/
def openMapping (h : Host) (fs : FileSystem) (p : Path) (length : ℕ) (readonly : Bool) : FileSystem × Option Mapping :=
  if readonly then
    match fs.get p with
    | some (.file a) => (fs, if a.content.length < length then none else some ⟨p, a.content.length, true⟩)
    | _ => (fs, none)
  else
    let fs := openReadWrite h fs p
    match fs.get p with
    | some (.file a) =>
      if a.content.length < length then (fs.write p ⟨extend a.content length, h.stamp p⟩, some ⟨p, length, false⟩)
      else (fs, some ⟨p, a.content.length, false⟩)
    | _ => (fs, none)

/-- `memcpy` between mappings; nothing when the system stops it. -/
def memcpy (h : Host) (fs : FileSystem) (target source : Mapping) (n : ℕ) : Option FileSystem :=
  if n = 0 then some fs
  else if target.readonly && h.stopsWrite then none
  else match fs.get target.path, fs.get source.path with
    | some (.file a), some (.file b) =>
      some (fs.write target.path { a with content := b.content.take n ++ a.content.drop n })
    | _, _ => some fs

/-! ### The copy -/

/-- How a call ends. -/
inductive Outcome
  | returns (b : Bool)
  | faults
  deriving DecidableEq

/-- What the loop over the items does after one of them. -/
inductive Next
  | goOn (err : ℕ)
  | retry (err : ℕ)
  | stop (o : Outcome)

/-- The branch of the loop that copies a file. -/
def copyFile (h : Host) (fs : FileSystem) (dst_fn src_fn : Path) (s_tm : Int) (err : ℕ) : FileSystem × Next :=
  let failed : Next := if 3 ≤ err + 1 then .stop (.returns false) else .retry (err + 1)
  match openMapping h fs src_fn 0 true with
  | (fs, none) => (fs, failed)
  | (fs, some s) =>
    match openMapping h fs dst_fn s.size false with
    | (fs, none) => (fs, failed)
    | (fs, some d) =>
      match memcpy h fs s d s.size with
      | none => (fs, .stop .faults)
      | some fs => (setPathTime h fs dst_fn s_tm s_tm, .goOn 0)

/-- `RemovePath` up to so many times, until it succeeds. -/
def removePathTries : ℕ → FileSystem → Path → FileSystem × Bool
  | 0, fs, _ => (fs, false)
  | k + 1, fs, p =>
    match removePath fs p with
    | (fs, true) => (fs, true)
    | (fs, false) => removePathTries k fs p

/-- The body of the loop over the items. -/
def copyEntry (h : Host) (dst src : Path) (opt : UInt32) (e : Entry) (err : ℕ) (fs : FileSystem) : FileSystem × Next :=
  let src_fn := src ++ e.name
  let dst_fn := dst ++ e.name
  match getPathTime h fs src_fn with
  | none => (fs, .stop (.returns false))
  | some s_tm =>
    match getPathTime h fs dst_fn with
    | some d_tm =>
      if e.isDirectory then
        if fs.isDirectory dst_fn then (fs, .goOn err)
        else match removePathTries 3 fs dst_fn with
          | (fs, true) => ((createDirectory fs dst_fn).1, .goOn err)
          | (fs, false) => (fs, .stop (.returns false))
      else if !has opt CPOPT_OVERWRITE && d_tm == s_tm then (fs, .goOn err)
      else copyFile h fs dst_fn src_fn s_tm err
    | none =>
      if e.isDirectory then ((createDirectory fs dst_fn).1, .goOn err)
      else copyFile h fs dst_fn src_fn s_tm err

/-- The rounds of the loop for one item. `err` grows with each retry, so there are no more than three. -/
def copyTries (h : Host) (dst src : Path) (opt : UInt32) (e : Entry) :
    ℕ → ℕ → FileSystem → FileSystem × (ℕ ⊕ Outcome)
  | 0, _, fs => (fs, .inr (.returns false))
  | k + 1, err, fs =>
    match copyEntry h dst src opt e err fs with
    | (fs, .goOn err) => (fs, .inl err)
    | (fs, .retry err) => copyTries h dst src opt e k err fs
    | (fs, .stop o) => (fs, .inr o)

/-- The loop over the items. -/
def copyLoop (h : Host) (dst src : Path) (opt : UInt32) : List Entry → ℕ → FileSystem → FileSystem × Outcome
  | [], _, fs => (fs, .returns true)
  | e :: flist, err, fs =>
    match copyTries h dst src opt e 3 err fs with
    | (fs, .inl err) => copyLoop h dst src opt flist err fs
    | (fs, .inr o) => (fs, o)

/-- The loop over the items of the destination, from the last to the first. -/
def mirrorLoop (dst : Path) (source_set : List Path) (dest_fnlist : List Entry) (fs : FileSystem) : FileSystem :=
  dest_fnlist.foldr (fun e fs => if source_set.contains e.name then fs else removeEntry fs dst e) fs

/-- The flags of the listings: hidden items are skipped when `CPOPT_HIDDEN_FILE` is set. -/
def listFlag (opt : UInt32) : UInt32 := FLAG_RECURSIVE ||| (if has opt CPOPT_HIDDEN_FILE then FLAG_SKIPHIDDEN else 0)

/-- `CopyPath`. -/
def copyPath (h : Host) (dst src : Path) (opt : UInt32) (fs : FileSystem) : FileSystem × Outcome :=
  match getPathTime h fs src with
  | none => (fs, .returns false)
  | some _ =>
    match createDirectories fs dst with
    | (fs, false) => (fs, .returns false)
    | (fs, true) =>
      let flist := populate fs src (listFlag opt)
      if flist.isEmpty then (fs, .returns true)
      else
        let fs :=
          if has opt CPOPT_MIRROR then mirrorLoop dst (flist.map Entry.name) (populate fs dst (listFlag opt)) fs
          else fs
        copyLoop h dst src opt flist 0 fs

/-! ### Directories -/

section

variable {h : Host} {fs : FileSystem} {p q : Path} {n : Name}

theorem get_createDirectory (hp : fs.get p = none) (hd : fs.get p.dropLast = some .dir) :
    (createDirectory fs p).1.get q = if q = p then some .dir else fs.get q := FileTree.get_create ⟨hp, hd⟩

/-- `mkdir` where there is no file, in a directory. -/
theorem get_mkdir (hd : fs.get p = some .dir) (hf : ∀ a, fs.get (p ++ [n]) ≠ some (.file a)) :
    (fs.create (p ++ [n]) .dir).get q = if q = p ++ [n] then some .dir else fs.get q := by
  by_cases hn : fs.get (p ++ [n]) = none
  · exact FileTree.get_create ⟨hn, by rwa [List.dropLast_concat]⟩
  · rw [FileTree.create_of_not fun hc => hn hc.1]
    split
    · rename_i hq
      obtain ⟨_ | a, hx⟩ := Option.ne_none_iff_exists'.mp hn
      · exact hq ▸ hx
      · exact absurd hx (hf a)
    · rfl

/-- No directory on the way to `p` is a file. -/
def Clear (fs : FileSystem) (p : Path) : Prop := ∀ q, q <+: p → ∀ a, fs.get q ≠ some (.file a)

/-- The directories on the way to a path under `p` are made, and that one. -/
theorem get_createParents (n : Name) (rest : List Name) : ∀ {fs : FileSystem} {p : Path}, fs.get p = some .dir →
    Clear fs (p ++ n :: rest) → ∀ q, (createDirectory (createParents fs p (n :: rest)) (p ++ n :: rest)).1.get q
      = if p <+: q ∧ q <+: p ++ n :: rest then some .dir else fs.get q := by
  induction rest generalizing n with
  | nil =>
    intro fs p hp hc q
    have hmk := get_mkdir (q := q) hp (hc (p ++ [n]) List.prefix_rfl)
    refine hmk.trans ?_
    by_cases hq : p <+: q ∧ q <+: p ++ [n]
    · rw [if_pos hq]
      rcases List.prefix_concat_iff.mp hq.2 with rfl | hqp
      · rw [if_pos rfl]
      · obtain rfl := hqp.eq_of_length_le hq.1.length_le
        rw [hp, ite_self]
    · rw [if_neg hq, if_neg]
      rintro rfl
      exact hq (by simp)
  | cons n' rest ih =>
    intro fs p hp hc q
    have hsplit : p ++ n :: n' :: rest = (p ++ [n]) ++ n' :: rest := by simp
    have hmk := fun q => get_mkdir (q := q) hp (hc (p ++ [n]) (by rw [hsplit]; exact List.prefix_append _ _))
    rw [createParents, hsplit]
    have hdir : (fs.create (p ++ [n]) .dir).get (p ++ [n]) = some .dir := by rw [hmk, if_pos rfl]
    rw [ih n' hdir, hmk]
    · by_cases hq : p ++ [n] <+: q ∧ q <+: (p ++ [n]) ++ n' :: rest
      · rw [if_pos hq, if_pos ⟨(List.prefix_append _ _).trans hq.1, hq.2⟩]
      · rw [if_neg hq]
        by_cases hp' : p <+: q ∧ q <+: (p ++ [n]) ++ n' :: rest
        · -- between `p` and the rest of the path there is only `p`
          rw [if_pos hp']
          have hqp : q <+: p := by
            rcases List.prefix_or_prefix_of_prefix hp'.2 (List.prefix_append (p ++ [n]) (n' :: rest)) with h | h
            · rcases List.prefix_concat_iff.mp h with rfl | h
              · exact absurd ⟨List.prefix_rfl, hp'.2⟩ hq
              · exact h
            · exact absurd ⟨h, hp'.2⟩ hq
          obtain rfl := hqp.eq_of_length_le hp'.1.length_le
          rw [hp, ite_self]
        · rw [if_neg hp', if_neg]
          rintro rfl
          exact hp' ⟨List.prefix_append _ _, List.prefix_append _ _⟩
    · intro q hq a
      rw [hmk]
      split
      · simp
      · exact hc q (by rwa [hsplit]) a

theorem createParents_keeps {x : Node Stored} (rest : List Name) : ∀ {fs : FileSystem} {p : Path}, fs.get q = some x →
    (createParents fs p rest).get q = some x := by
  induction rest with
  | nil => exact id
  | cons n rest ih =>
    intro fs p hq
    cases rest with
    | nil => exact hq
    | cons n' rest => exact ih (by rw [FileTree.get_create_of_ne_none (by simp [hq]), hq])

/-- `CreateDirectories` succeeds when no file is in the way. -/
theorem createDirectories_snd (hp : p ≠ []) : (createDirectories fs p).2 = true ↔ Clear fs p := by
  have hsnd : (createDirectories fs p).2 = (createDirectories fs p).1.isDirectory p := rfl
  rw [hsnd, FileTree.isDirectory_iff]
  constructor
  · intro hd q hq a hf
    have hkeep : (createDirectories fs p).1.get q = some (.file a) := by
      have := createParents_keeps (p := []) p hf
      exact (FileTree.get_create_of_ne_none (by simp [this])).trans this
    obtain ⟨s, rfl⟩ := hq
    by_cases hs : s = []
    · subst hs
      rw [List.append_nil] at hkeep hd
      rw [hkeep] at hd
      cases hd
    · rw [FileTree.get_append_eq_none (by simp [hkeep]) hs] at hd
      cases hd
  · intro hc
    obtain ⟨n, rest, rfl⟩ := List.exists_cons_of_ne_nil hp
    have := get_createParents n rest (p := []) FileTree.get_root hc (n :: rest)
    rw [if_pos ⟨List.nil_prefix, List.prefix_rfl⟩] at this
    exact this

theorem get_createDirectories (hp : p ≠ []) (hc : Clear fs p) :
    (createDirectories fs p).1.get q = if q <+: p then some .dir else fs.get q := by
  obtain ⟨n, rest, rfl⟩ := List.exists_cons_of_ne_nil hp
  have := get_createParents n rest (p := []) FileTree.get_root hc q
  simp only [List.nil_prefix, true_and, List.nil_append] at this
  exact this

/-! ### Removal -/

/-- Only the item itself can go. -/
theorem removeEntry_of_ne {root : Path} {e : Entry} (hq : q ≠ root ++ e.name) :
    (removeEntry fs root e).get q = fs.get q := by
  have hdir : (removeDirectory fs (root ++ e.name)).1.get q = fs.get q := by
    unfold removeDirectory
    split
    · rename_i hc
      simp only [ne_eq, decide_not, Bool.and_eq_true, Bool.not_eq_true', decide_eq_false_iff_not,
        List.isEmpty_iff] at hc
      rw [FileTree.get_remove hc.1.1 hc.2, if_neg hq]
    · rfl
  unfold removeEntry
  split
  · exact hdir
  · unfold remove
    split
    · rfl
    · exact hdir
    · rename_i a hf
      rw [FileTree.get_remove (by rintro he; simp [he] at hf) (FileTree.children_of_file hf), if_neg hq]

/-- An item with nothing in it goes. -/
theorem removeEntry_self (root : Path) (e : Entry) {x : Node Stored} (hne : root ++ e.name ≠ [])
    (hx : fs.get (root ++ e.name) = some x) (he : x.isDir = e.isDirectory) (hc : fs.children (root ++ e.name) = []) :
    (removeEntry fs root e).get (root ++ e.name) = none := by
  unfold removeEntry
  cases x with
  | dir =>
    have hd : fs.isDirectory (root ++ e.name) = true := FileTree.isDirectory_iff.mpr hx
    have he' : e.isDirectory = true := he.symm
    rw [if_pos he', removeDirectory, if_pos (by simp [hne, hd, hc]), FileTree.get_remove hne hc, if_pos rfl]
  | file a =>
    have hn : ¬e.isDirectory = true := by simp [← he, Node.isDir]
    rw [if_neg hn, remove, hx]
    exact (FileTree.get_remove hne hc).trans (if_pos rfl)

theorem removePath_file {a : Stored} (hf : fs.get p = some (.file a)) : removePath fs p = (fs.remove p, true) := by
  have hd : fs.isDirectory p = false := FileTree.isDirectory_eq_false_iff.mpr (by simp [hf])
  simp [removePath, hf, hd]

/-! ### One file -/

variable {h : Host} {s d : Path} {a : Stored} {err : ℕ}

/-- The contents of the file that may be at a path. -/
def contentOf : Option (Node Stored) → List UInt8
  | some (.file a) => a.content
  | _ => []

theorem extend_of_le {c : List UInt8} {k : ℕ} (hk : k ≤ c.length) : extend c k = c := by
  simp [extend, Nat.sub_eq_zero_of_le hk]

theorem openReadWrite_spec (hd : fs.get d ≠ some .dir) (hp : fs.get d.dropLast = some .dir) :
    ∃ t, ∀ q, (openReadWrite h fs d).get q
      = if q = d then some (.file ⟨contentOf (fs.get d), t⟩) else fs.get q := by
  unfold openReadWrite
  rcases hx : fs.get d with _ | _ | b
  · have hf : fs.isFile d = false := by simp [FileTree.isFile, hx]
    exact ⟨_, fun q => by rw [hf]; exact FileTree.get_create ⟨hx, hp⟩⟩
  · exact absurd hx hd
  · have hf : fs.isFile d = true := FileTree.isFile_iff.mpr ⟨b, hx⟩
    refine ⟨b.time, fun q => ?_⟩
    rw [hf, if_pos rfl]
    split
    · rename_i hq
      rw [hq, hx]
      rfl
    · rfl

/-- Where there is no directory the mapping for writing succeeds, with a file that is long enough. -/
theorem openMapping_write (k : ℕ) (hd : fs.get d ≠ some .dir) (hp : fs.get d.dropLast = some .dir) :
    ∃ fs' m t, openMapping h fs d k false = (fs', some m) ∧ m.path = d ∧
      ∀ q, fs'.get q = if q = d then some (.file ⟨extend (contentOf (fs.get d)) k, t⟩) else fs.get q := by
  obtain ⟨t, ht⟩ := openReadWrite_spec (h := h) hd hp
  have hself := ht d
  rw [if_pos rfl] at hself
  simp only [openMapping, Bool.false_eq_true, if_false, hself]
  split
  · refine ⟨_, _, h.stamp d, rfl, rfl, fun q => ?_⟩
    rw [FileTree.get_write hself]
    split
    · rfl
    · rename_i hq
      rw [ht, if_neg hq]
  · rename_i hk
    refine ⟨_, _, t, rfl, rfl, fun q => ?_⟩
    rw [ht, extend_of_le (by omega)]

theorem openMapping_read (hs : fs.get s = some (.file a)) :
    openMapping h fs s 0 true = (fs, some ⟨s, a.content.length, true⟩) := by simp [openMapping, hs]

/-- A directory where the file should be: the copy fails. -/
theorem copyFile_dir {s_tm : Int} (hs : fs.get s = some (.file a)) (hd : fs.get d = some .dir) :
    copyFile h fs d s s_tm err = (fs, if 3 ≤ err + 1 then .stop (.returns false) else .retry (err + 1)) := by
  have hopen : openMapping h fs d a.content.length false = (fs, none) := by
    have hf : fs.isFile d = false := by simp [FileTree.isFile, hd, Node.isDir]
    have : openReadWrite h fs d = fs := by
      rw [openReadWrite, hf]
      exact FileTree.create_of_not (by simp [hd])
    simp [openMapping, this, hd]
  simp only [copyFile, openMapping_read hs, hopen]

/-- The system stops the copy of a file that is not empty. -/
theorem copyFile_faults (s_tm : Int) (err : ℕ) (hs : fs.get s = some (.file a)) (hd : fs.get d ≠ some .dir)
    (hp : fs.get d.dropLast = some .dir) (ha : a.content ≠ []) (hw : h.stopsWrite = true) :
    (copyFile h fs d s s_tm err).2 = .stop .faults := by
  obtain ⟨fs', m, t, hopen, -, -⟩ := openMapping_write (h := h) a.content.length hd hp
  simp [copyFile, openMapping_read hs, hopen, memcpy, ha, hw]

/-- Where it is not stopped, the file of the destination gets the length, and the one of the source its contents. -/
theorem copyFile_goesOn (s_tm : Int) (err : ℕ) (hs : fs.get s = some (.file a)) (hd : fs.get d ≠ some .dir)
    (hp : fs.get d.dropLast = some .dir) (hsd : s ≠ d) (hw : a.content = [] ∨ h.stopsWrite = false) :
    ∃ fs' t, copyFile h fs d s s_tm err = (fs', .goOn 0) ∧ ∀ q, fs'.get q =
      if q = s then some (.file { a with content := (extend (contentOf (fs.get d)) a.content.length).take a.content.length })
      else if q = d then some (.file ⟨extend (contentOf (fs.get d)) a.content.length, t⟩)
      else fs.get q := by
  obtain ⟨fs₁, m, t, hopen, hm, hget⟩ := openMapping_write (h := h) a.content.length hd hp
  have hs₁ : fs₁.get s = some (.file a) := by rw [hget, if_neg hsd, hs]
  have hd₁ := hget d
  rw [if_pos rfl] at hd₁
  -- the file system after `memcpy`
  obtain ⟨fs₂, hcpy, hget₂⟩ : ∃ fs₂, memcpy h fs₁ ⟨s, a.content.length, true⟩ m a.content.length = some fs₂ ∧
      ∀ q, fs₂.get q = if q = s
        then some (.file { a with content := (extend (contentOf (fs.get d)) a.content.length).take a.content.length })
        else fs₁.get q := by
    by_cases ha : a.content = []
    · refine ⟨fs₁, by simp [memcpy, ha], fun q => ?_⟩
      split
      · rename_i hq
        rw [hq, hs₁, ha, List.length_nil, List.take_zero, ← ha]
      · rfl
    · have hw : h.stopsWrite = false := hw.resolve_left ha
      refine ⟨fs₁.write s { a with
        content := (extend (contentOf (fs.get d)) a.content.length).take a.content.length },
        by simp [memcpy, ha, hw, hs₁, hm, hd₁], fun q => ?_⟩
      rw [FileTree.get_write hs₁]
  have hd₂ := hget₂ d
  rw [if_neg hsd.symm, hd₁] at hd₂
  refine ⟨setPathTime h fs₂ d s_tm s_tm, h.stamp d, by simp only [copyFile, openMapping_read hs, hopen, hcpy],
    fun q => ?_⟩
  rw [setPathTime, hd₂]
  rw [FileTree.get_write hd₂, hget₂, hget]
  by_cases hqs : q = s
  · rw [if_pos hqs, if_pos hqs, if_neg (hqs ▸ hsd)]
  · rw [if_neg hqs, if_neg hqs]
    split
    · rfl
    · rfl

end

end Cpcf.Os.CopyPath
