import Cpcf.Os.CopyPath

/-!
What `os::File::CopyPath` leaves when it returns true.

The items are handled one by one and each step depends on the two paths of its item alone, so the whole run is
known from the file system it starts from. A copy meets what it is for only where its slips do not show: what
`memcpy` would copy back is there already, what is hidden needs nothing done, and the source is not empty.
-/

namespace Cpcf.Os.CopyPath

open Cpcf.Lib.Files Cpcf.Os.FileList

/-- Neither of the trees is in the other. -/
structure Apart (dst src : Path) : Prop where
  not_in : ¬src <+: dst
  not_around : ¬dst <+: src

theorem Apart.ne {dst src : Path} (h : Apart dst src) (r r' : Path) : src ++ r ≠ dst ++ r' := by
  intro heq
  rcases List.prefix_or_prefix_of_prefix (List.prefix_append src r) (heq ▸ List.prefix_append dst r') with hp | hp
  · exact h.not_in hp
  · exact h.not_around hp

theorem Apart.dst_ne_nil {dst src : Path} (h : Apart dst src) : dst ≠ [] := by
  rintro rfl
  exact h.not_around List.nil_prefix

/-- The time that `GetPathTime` gives for what is at a path. -/
def timeOf (h : Host) (p : Path) : Node Stored → Int
  | .dir => h.dirTime p
  | .file a => a.time

@[simp] theorem timeOf_file {h : Host} {p : Path} {a : Stored} : timeOf h p (.file a) = a.time := rfl

theorem getPathTime_eq {h : Host} {fs : FileSystem} {p : Path} : getPathTime h fs p = (fs.get p).map (timeOf h p) := by
  unfold getPathTime
  congr 1

/-- The file `a` is not copied to `p`, where `x` is: the times are the same, and files are not overwritten. -/
def Skips (h : Host) (opt : UInt32) (p : Path) (x : Option (Node Stored)) (a : Stored) : Prop :=
  has opt CPOPT_OVERWRITE = false ∧ x.map (timeOf h p) = some a.time

/-- The file `a` does not keep the copy to `p` from going on. -/
def Passes (h : Host) (opt : UInt32) (p : Path) (x : Option (Node Stored)) (a : Stored) : Prop :=
  Skips h opt p x a ∨ x ≠ some .dir ∧ (a.content = [] ∨ h.stopsWrite = false)

/-- What the file `a` is after it was copied to where `x` was. -/
def copiedBack (x : Option (Node Stored)) (a : Stored) : Stored :=
  { a with content := (extend (contentOf x) a.content.length).take a.content.length }

variable {h : Host} {dst src : Path} {opt : UInt32} {fs fs' fs₁ : FileSystem} {e : Entry} {err : ℕ} {r q : Path}

/-- What is at the two paths of an item after it was handled. -/
structure Handled (h : Host) (dst src : Path) (opt : UInt32) (fs fs' : FileSystem) (r : Path) : Prop where
  dir : fs.get (src ++ r) = some .dir → fs'.get (src ++ r) = some .dir ∧ fs'.get (dst ++ r) = some .dir
  skip : ∀ a, fs.get (src ++ r) = some (.file a) → Skips h opt (dst ++ r) (fs.get (dst ++ r)) a →
    fs'.get (src ++ r) = some (.file a) ∧ fs'.get (dst ++ r) = fs.get (dst ++ r)
  copy : ∀ a, fs.get (src ++ r) = some (.file a) → ¬Skips h opt (dst ++ r) (fs.get (dst ++ r)) a →
    fs'.get (src ++ r) = some (.file (copiedBack (fs.get (dst ++ r)) a)) ∧
      ∃ t, fs'.get (dst ++ r) = some (.file ⟨extend (contentOf (fs.get (dst ++ r))) a.content.length, t⟩)

theorem Handled.congr (hh : Handled h dst src opt fs fs' r) (hs : fs.get (src ++ r) = fs₁.get (src ++ r))
    (hd : fs.get (dst ++ r) = fs₁.get (dst ++ r)) : Handled h dst src opt fs₁ fs' r := by
  constructor
  · rw [← hs]
    exact hh.dir
  · rw [← hs, ← hd]
    exact hh.skip
  · rw [← hs, ← hd]
    exact hh.copy

/-- The source has the item, and the destination the directory for it. -/
structure Ready (dst src : Path) (fs : FileSystem) (e : Entry) : Prop where
  name : e.name ≠ []
  source : ∃ x, fs.get (src ++ e.name) = some x ∧ x.isDir = e.isDirectory
  parent : fs.get (dst ++ e.name).dropLast = some .dir

/-- The item does not keep the copy from going on. -/
def EntryPasses (h : Host) (dst src : Path) (opt : UInt32) (fs : FileSystem) (r : Path) : Prop :=
  ∀ a, fs.get (src ++ r) = some (.file a) → Passes h opt (dst ++ r) (fs.get (dst ++ r)) a

/-- Nothing has changed but at the paths of some items. -/
def Elsewhere (dst src : Path) (fs fs' : FileSystem) (rs : List Path) : Prop :=
  ∀ q, (∀ r ∈ rs, q ≠ src ++ r ∧ q ≠ dst ++ r) → fs'.get q = fs.get q

theorem elsewhere_singleton :
    Elsewhere dst src fs fs' [r] ↔ ∀ q, q ≠ src ++ r → q ≠ dst ++ r → fs'.get q = fs.get q := by
  simp [Elsewhere]

/-! ### One item -/

theorem copyEntry_dir (h : Host) (opt : UInt32) (err : ℕ) (hr : Ready dst src fs e) (hs : fs.get (src ++ e.name) = some .dir) :
    ∃ fs', copyEntry h dst src opt e err fs = (fs', .goOn err) ∧
      ∀ q, fs'.get q = if q = dst ++ e.name then some .dir else fs.get q := by
  have he : e.isDirectory = true := by
    obtain ⟨x, hx, hb⟩ := hr.source
    rw [hs, Option.some.injEq] at hx
    rw [← hb, ← hx]
    rfl
  unfold copyEntry
  simp only [getPathTime_eq, hs, Option.map_some, he, if_true]
  rcases hx : fs.get (dst ++ e.name) with _ | _ | b
  · exact ⟨_, rfl, fun q => get_createDirectory hx hr.parent⟩
  · have hd : fs.isDirectory (dst ++ e.name) = true := FileTree.isDirectory_iff.mpr hx
    refine ⟨fs, by simp [hd], fun q => ?_⟩
    split
    · rename_i hq
      rw [hq, hx]
    · rfl
  · -- a file is in the place of the directory
    have hd : fs.isDirectory (dst ++ e.name) = false := FileTree.isDirectory_eq_false_iff.mpr (by simp [hx])
    have hne : dst ++ e.name ≠ [] := by simp [hr.name]
    have hrem := fun q => FileTree.get_remove (q := q) hne (FileTree.children_of_file hx)
    refine ⟨(createDirectory (fs.remove (dst ++ e.name)) (dst ++ e.name)).1,
      by simp [hd, removePathTries, removePath_file hx], fun q => ?_⟩
    rw [get_createDirectory, hrem]
    · split <;> rfl
    · rw [hrem, if_pos rfl]
    · rw [hrem, if_neg, hr.parent]
      intro hc
      have := congrArg List.length hc
      have := List.length_pos_of_ne_nil hne
      rw [List.length_dropLast] at *
      omega

theorem copyEntry_skip {a : Stored} (hr : Ready dst src fs e) (hs : fs.get (src ++ e.name) = some (.file a))
    (hk : Skips h opt (dst ++ e.name) (fs.get (dst ++ e.name)) a) :
    copyEntry h dst src opt e err fs = (fs, .goOn err) := by
  obtain ⟨x, hx, hb⟩ := hr.source
  rw [hs, Option.some.injEq] at hx
  subst hx
  have he : e.isDirectory = false := hb.symm
  unfold copyEntry
  simp [getPathTime_eq, hs, he, hk.2, hk.1]

theorem copyEntry_copyFile {a : Stored} (hr : Ready dst src fs e) (hs : fs.get (src ++ e.name) = some (.file a))
    (hk : ¬Skips h opt (dst ++ e.name) (fs.get (dst ++ e.name)) a) :
    copyEntry h dst src opt e err fs = copyFile h fs (dst ++ e.name) (src ++ e.name) a.time err := by
  obtain ⟨x, hx, hb⟩ := hr.source
  rw [hs, Option.some.injEq] at hx
  subst hx
  have he : e.isDirectory = false := hb.symm
  unfold copyEntry
  simp only [getPathTime_eq, hs, Option.map_some, he]
  rcases hd : fs.get (dst ++ e.name) with _ | y
  · simp
  · have hne : ¬(has opt CPOPT_OVERWRITE = false ∧ timeOf h (dst ++ e.name) y = a.time) := by
      simpa [Skips, hd] using hk
    have hc : (!has opt CPOPT_OVERWRITE && timeOf h (dst ++ e.name) y == a.time) = false := by
      simpa [Bool.and_eq_false_iff] using hne
    simp [hc]

/-- An item that does not keep the copy from going on. -/
theorem copyTries_goesOn (err : ℕ) (hap : Apart dst src) (hr : Ready dst src fs e)
    (hp : EntryPasses h dst src opt fs e.name) :
    ∃ fs' err', copyTries h dst src opt e 3 err fs = (fs', .inl err') ∧ Handled h dst src opt fs fs' e.name ∧
      Elsewhere dst src fs fs' [e.name] ∧ ∀ q, fs.get q = some .dir → fs'.get q = some .dir := by
  have hsd := hap.ne e.name e.name
  obtain ⟨x, hx, -⟩ := hr.source
  cases x with
  | dir =>
    obtain ⟨fs', heq, hget⟩ := copyEntry_dir h opt err hr hx
    refine ⟨fs', err, by simp [copyTries, heq], ?_,
      elsewhere_singleton.mpr fun q _ hq => by rw [hget, if_neg hq], fun q hq => ?_⟩
    · constructor
      · exact fun _ => ⟨by rw [hget, if_neg hsd, hx], by rw [hget, if_pos rfl]⟩
      · exact fun a ha => absurd (hx.symm.trans ha) (by simp)
      · exact fun a ha => absurd (hx.symm.trans ha) (by simp)
    · rw [hget, hq, ite_self]
  | file a =>
    by_cases hk : Skips h opt (dst ++ e.name) (fs.get (dst ++ e.name)) a
    · refine ⟨fs, err, by simp [copyTries, copyEntry_skip hr hx hk], ?_, fun _ _ => rfl, fun _ hq => hq⟩
      constructor
      · exact fun hd => absurd (hx.symm.trans hd) (by simp)
      · intro b hb _
        exact ⟨hb, rfl⟩
      · intro b hb hkb
        rw [hx, Option.some.injEq, Node.file.injEq] at hb
        exact absurd hk (hb ▸ hkb)
    · obtain ⟨hd, hw⟩ := (hp a hx).resolve_left hk
      obtain ⟨fs', t, heq, hget⟩ := copyFile_goesOn a.time err hx hd hr.parent hsd hw
      refine ⟨fs', 0, by simp [copyTries, copyEntry_copyFile hr hx hk, heq], ?_,
        elsewhere_singleton.mpr fun q hqs hqd => by rw [hget, if_neg hqs, if_neg hqd], fun q hq => ?_⟩
      · constructor
        · exact fun hd => absurd (hx.symm.trans hd) (by simp)
        · intro b hb hkb
          rw [hx, Option.some.injEq, Node.file.injEq] at hb
          exact absurd (hb ▸ hkb) hk
        · intro b hb _
          rw [hx, Option.some.injEq, Node.file.injEq] at hb
          subst hb
          exact ⟨by rw [hget, if_pos rfl]; rfl, t, by rw [hget, if_neg hsd.symm, if_pos rfl]⟩
      · rw [hget, if_neg, if_neg, hq]
        · rintro rfl
          exact hd hq
        · rintro rfl
          simp [hx] at hq

/-- An item that does. -/
theorem copyTries_stops (err : ℕ) (hr : Ready dst src fs e) (hp : ¬EntryPasses h dst src opt fs e.name) :
    ∃ fs' o, copyTries h dst src opt e 3 err fs = (fs', .inr o) ∧ o ≠ .returns true := by
  simp only [EntryPasses, Passes, not_forall, not_or, not_and_or, not_not] at hp
  obtain ⟨a, ha, hk, hd⟩ := hp
  by_cases hdir : fs.get (dst ++ e.name) = some .dir
  · -- no retry can help against a directory
    have hround : ∀ err, copyEntry h dst src opt e err fs
        = (fs, if 3 ≤ err + 1 then .stop (.returns false) else .retry (err + 1)) := fun err =>
      (copyEntry_copyFile hr ha hk).trans (copyFile_dir ha hdir)
    refine ⟨fs, .returns false, ?_, by simp⟩
    rcases err with _ | _ | err <;> simp [copyTries, hround]
  · obtain ⟨hc, hw⟩ := hd.resolve_left hdir
    have hf := copyFile_faults a.time err ha hdir hr.parent hc (by simpa using hw)
    rcases hcf : copyFile h fs (dst ++ e.name) (src ++ e.name) a.time err with ⟨fs', n⟩
    rw [hcf] at hf
    obtain rfl : n = .stop .faults := hf
    exact ⟨fs', .faults, by rw [copyTries, copyEntry_copyFile hr ha hk, hcf], by simp⟩

/-! ### All items -/

/-- The items are those of the source, each once and after its directory, as far as the destination does not have that. -/
structure Listed (dst src : Path) (fs : FileSystem) (l : List Entry) : Prop where
  nodup : (l.map Entry.name).Nodup
  item : ∀ e ∈ l, e.name ≠ [] ∧ ∃ x, fs.get (src ++ e.name) = some x ∧ x.isDir = e.isDirectory
  parent : ∀ l₁ e l₂, l = l₁ ++ e :: l₂ →
    fs.get (dst ++ e.name.dropLast) = some .dir ∨ ⟨e.name.dropLast, true⟩ ∈ l₁

variable {l : List Entry}

theorem Listed.ready (hl : Listed dst src fs (e :: l)) : Ready dst src fs e := by
  obtain ⟨hne, hx⟩ := hl.item e (by simp)
  refine ⟨hne, hx, ?_⟩
  rw [List.dropLast_append_of_ne_nil hne]
  exact (hl.parent [] e l rfl).resolve_right (by simp)

theorem Elsewhere.get_eq (hap : Apart dst src) (helse : Elsewhere dst src fs fs₁ [e.name]) (hne : r ≠ e.name) :
    fs₁.get (src ++ r) = fs.get (src ++ r) ∧ fs₁.get (dst ++ r) = fs.get (dst ++ r) := by
  constructor
  · exact elsewhere_singleton.mp helse _ (by simpa using hne) (hap.ne r e.name)
  · exact elsewhere_singleton.mp helse _ (hap.ne e.name r).symm (by simpa using hne)

/-- After an item, the others are as they were. -/
theorem Listed.tail_get (hap : Apart dst src) (hl : Listed dst src fs (e :: l))
    (helse : Elsewhere dst src fs fs₁ [e.name]) : ∀ e' ∈ l, fs₁.get (src ++ e'.name) = fs.get (src ++ e'.name) ∧
      fs₁.get (dst ++ e'.name) = fs.get (dst ++ e'.name) := by
  have hnd := hl.nodup
  rw [List.map_cons, List.nodup_cons] at hnd
  exact fun e' he' => helse.get_eq hap fun hc => hnd.1 (hc ▸ List.mem_map_of_mem he')

theorem Listed.tail (hap : Apart dst src) (hl : Listed dst src fs (e :: l))
    (hh : Handled h dst src opt fs fs₁ e.name) (helse : Elsewhere dst src fs fs₁ [e.name])
    (hdir : ∀ q, fs.get q = some .dir → fs₁.get q = some .dir) : Listed dst src fs₁ l := by
  have hnd := hl.nodup
  rw [List.map_cons, List.nodup_cons] at hnd
  refine ⟨hnd.2, fun e' he' => ?_, fun l₁ e' l₂ hsplit => ?_⟩
  · rw [(hl.tail_get hap helse e' he').1]
    exact hl.item e' (by simp [he'])
  · rcases hl.parent (e :: l₁) e' l₂ (by simp [hsplit]) with hd | hd
    · exact .inl (hdir _ hd)
    · rcases List.mem_cons.mp hd with rfl | hd
      · obtain ⟨-, x, hx, hb⟩ := hl.item _ (List.mem_cons_self ..)
        rw [Node.isDir_iff] at hb
        subst hb
        exact .inl (hh.dir hx).2
      · exact .inr hd

theorem entryPasses_congr (hs : fs₁.get (src ++ r) = fs.get (src ++ r)) (hd : fs₁.get (dst ++ r) = fs.get (dst ++ r)) :
    EntryPasses h dst src opt fs₁ r ↔ EntryPasses h dst src opt fs r := by
  rw [EntryPasses, EntryPasses, hs, hd]

/-- Where no item keeps the copy from going on, each is handled as the file system at the start says. -/
theorem copyLoop_goesOn (hap : Apart dst src) : ∀ {l : List Entry} {fs : FileSystem} (err : ℕ),
    Listed dst src fs l → (∀ e ∈ l, EntryPasses h dst src opt fs e.name) →
    ∃ fs', copyLoop h dst src opt l err fs = (fs', .returns true) ∧
      (∀ e ∈ l, Handled h dst src opt fs fs' e.name) ∧ Elsewhere dst src fs fs' (l.map Entry.name)
  | [], fs, _, _, _ => ⟨fs, rfl, by simp, fun _ _ => rfl⟩
  | e :: l, fs, err, hl, hp => by
    obtain ⟨fs₁, err₁, heq, hh, helse, hdir⟩ := copyTries_goesOn err hap hl.ready (hp e (by simp))
    have hkeep := hl.tail_get hap helse
    obtain ⟨fs', heq', hh', helse'⟩ := copyLoop_goesOn hap err₁ (hl.tail hap hh helse hdir)
      fun e' he' => (entryPasses_congr (hkeep e' he').1 (hkeep e' he').2).mpr (hp e' (by simp [he']))
    refine ⟨fs', by rw [copyLoop, heq]; exact heq', fun e' he' => ?_, fun q hq => ?_⟩
    · have hnd := hl.nodup
      rw [List.map_cons, List.nodup_cons] at hnd
      rcases List.mem_cons.mp he' with rfl | he'
      · -- the later items leave the paths of this one alone
        have hstay : ∀ q, q = src ++ e'.name ∨ q = dst ++ e'.name → fs'.get q = fs₁.get q := by
          rintro q (rfl | rfl)
          · refine helse' _ fun r hr => ⟨?_, hap.ne e'.name r⟩
            rintro hc
            exact hnd.1 (List.append_cancel_left hc ▸ hr)
          · refine helse' _ fun r hr => ⟨(hap.ne r e'.name).symm, ?_⟩
            rintro hc
            exact hnd.1 (List.append_cancel_left hc ▸ hr)
        have hs := hstay _ (.inl rfl)
        have hd := hstay _ (.inr rfl)
        constructor
        · rw [hs, hd]
          exact hh.dir
        · rw [hs, hd]
          exact hh.skip
        · rw [hs, hd]
          exact hh.copy
      · exact (hh' e' he').congr (hkeep e' he').1 (hkeep e' he').2
    · rw [helse' q fun r hr => hq r (by simp only [List.map_cons, List.mem_cons, hr, or_true]),
        helse q (by simpa using hq e.name (by simp))]

/-- Otherwise it does not return true. -/
theorem copyLoop_stops (hap : Apart dst src) : ∀ {l : List Entry} {fs : FileSystem} {err : ℕ},
    Listed dst src fs l → (∃ e ∈ l, ¬EntryPasses h dst src opt fs e.name) →
    (copyLoop h dst src opt l err fs).2 ≠ .returns true
  | [], _, _, _, hp => by simp at hp
  | e :: l, fs, err, hl, hp => by
    by_cases he : EntryPasses h dst src opt fs e.name
    · obtain ⟨fs₁, err₁, heq, hh, helse, hdir⟩ := copyTries_goesOn err hap hl.ready he
      have hkeep := hl.tail_get hap helse
      obtain ⟨e', he', hn⟩ := hp
      have he' : e' ∈ l := (List.mem_cons.mp he').resolve_left fun hc => hn (hc ▸ he)
      rw [copyLoop, heq]
      refine copyLoop_stops hap (hl.tail hap hh helse hdir) ⟨e', he', ?_⟩
      rwa [entryPasses_congr (hkeep e' he').1 (hkeep e' he').2]
    · obtain ⟨fs₁, o, heq, ho⟩ := copyTries_stops err hl.ready he
      rw [copyLoop, heq]
      exact ho

/-! ### Mirroring -/

/-- Only items without a counterpart go. -/
theorem mirrorLoop_keeps {names : List Path} (hq : ∀ e ∈ l, e.name ∉ names → q ≠ dst ++ e.name) :
    (mirrorLoop dst names l fs).get q = fs.get q := by
  induction l with
  | nil => rfl
  | cons e l ih =>
    have ih := ih fun e' he' => hq e' (by simp [he'])
    rw [mirrorLoop, List.foldr_cons]
    split
    · exact ih
    · rename_i hn
      exact (removeEntry_of_ne (hq e (by simp) (by simpa using hn))).trans ih

/-- Nothing comes. -/
theorem mirrorLoop_none {names : List Path} (hq : fs.get q = none) : (mirrorLoop dst names l fs).get q = none := by
  induction l with
  | nil => exact hq
  | cons e l ih =>
    rw [mirrorLoop, List.foldr_cons]
    split
    · exact ih
    · by_cases he : q = dst ++ e.name
      · subst he
        have hd : (mirrorLoop dst names l fs).isDirectory (dst ++ e.name) = false :=
          FileTree.isDirectory_eq_false_iff.mpr (by simp [ih])
        change (removeEntry (mirrorLoop dst names l fs) dst e).get _ = none
        simp [removeEntry, removeDirectory, remove, hd, ih]
      · exact (removeEntry_of_ne he).trans ih

/-- They all go, where all that is below them is listed and has no counterpart either. -/
theorem mirrorLoop_removes {names : List Path} {all : List Entry} (hdst : dst ≠ [])
    (hnd : (all.map Entry.name).Nodup)
    (hitem : ∀ e ∈ all, e.name ≠ [] ∧ ∃ x, fs.get (dst ++ e.name) = some x ∧ x.isDir = e.isDirectory)
    (hparent : ∀ l₁ e l₂, all = l₁ ++ e :: l₂ → e.name.dropLast = [] ∨ ⟨e.name.dropLast, true⟩ ∈ l₁)
    (hbelow : ∀ e ∈ all, e.name ∉ names → ∀ n, fs.get (dst ++ e.name ++ [n]) ≠ none →
      ∃ e' ∈ all, e'.name = e.name ++ [n] ∧ e'.name ∉ names) :
    ∀ (l₁ : List Entry) {l : List Entry}, all = l₁ ++ l → ∀ e ∈ l, e.name ∉ names →
      (mirrorLoop dst names l fs).get (dst ++ e.name) = none := by
  intro l₁ l hall
  induction l generalizing l₁ with
  | nil => simp
  | cons e l ih =>
    have ih := ih (l₁ ++ [e]) (by simp [hall])
    have hnd' : e.name ∉ l.map Entry.name := by
      rw [hall, List.map_append, List.map_cons] at hnd
      exact (List.nodup_cons.mp (List.nodup_append.mp hnd).2.1).1
    have hkeep : ∀ q, q ≠ dst ++ e.name → (mirrorLoop dst names (e :: l) fs).get q = (mirrorLoop dst names l fs).get q := by
      intro q hq
      rw [mirrorLoop, List.foldr_cons]
      split
      · rfl
      · exact removeEntry_of_ne hq
    intro e' he' hn
    rcases List.mem_cons.mp he' with rfl | he'
    · -- its children are listed behind it, so they have gone
      have hch : (mirrorLoop dst names l fs).children (dst ++ e'.name) = [] := by
        rw [FileTree.children_eq_nil_iff]
        intro n
        by_contra hc
        have hfs : fs.get (dst ++ e'.name ++ [n]) ≠ none := fun hnone => hc (mirrorLoop_none hnone)
        obtain ⟨c, hc', hcn, hcnames⟩ := hbelow e' (by simp [hall]) hn n hfs
        have hcl : c ∈ l := by
          rw [hall, List.mem_append, List.mem_cons] at hc'
          rcases hc' with hc' | rfl | hc'
          · exfalso
            obtain ⟨k₁, k₂, rfl⟩ := List.append_of_mem hc'
            have hp := hparent k₁ c (k₂ ++ e' :: l) (by simp [hall])
            rw [hcn, List.dropLast_concat] at hp
            have hmem := hp.resolve_left (hitem e' (by simp [hall])).1
            rw [hall] at hnd
            simp only [List.map_append, List.map_cons, List.nodup_append, List.mem_append, List.mem_cons] at hnd
            exact hnd.2.2 e'.name (.inl (List.mem_map.mpr ⟨_, hmem, rfl⟩)) e'.name (.inl rfl) rfl
          · simp at hcn
          · exact hc'
        have := ih c hcl hcnames
        rw [hcn, ← List.append_assoc] at this
        exact hc this
      have hself : (mirrorLoop dst names l fs).get (dst ++ e'.name) = fs.get (dst ++ e'.name) :=
        mirrorLoop_keeps fun c hc _ heq => hnd' (List.append_cancel_left heq ▸ List.mem_map_of_mem hc)
      obtain ⟨-, x, hx, hb⟩ := hitem e' (by simp [hall])
      have hgone := removeEntry_self dst e' (by simp [hdst]) (hself.trans hx) hb hch
      rw [mirrorLoop, List.foldr_cons, if_neg (by simpa using hn)]
      exact hgone
    · rw [hkeep _ fun heq => hnd' (List.append_cancel_left heq ▸ List.mem_map_of_mem he')]
      exact ih e' he' hn

/-! ### The whole call -/

/-- The listings have what is at a path. -/
def Lists (opt : UInt32) (r : Path) : Prop := ∀ n ∈ r, shown (has opt CPOPT_HIDDEN_FILE) n

/-- The options cover what is at a path: what is hidden when `CPOPT_HIDDEN_FILE` is set. -/
def Covers (opt : UInt32) (r : Path) : Prop := ∀ n ∈ r, shown (!has opt CPOPT_HIDDEN_FILE) n

/-- The source has something that is listed. -/
def SourceShown (src : Path) (opt : UInt32) (fs : FileSystem) : Prop :=
  ∃ r, r ≠ [] ∧ Lists opt r ∧ fs.get (src ++ r) ≠ none

/-- There is a source, the destination can be made, and no item of the source keeps the copy from going on. -/
structure Finishes (h : Host) (dst src : Path) (opt : UInt32) (fs : FileSystem) : Prop where
  source : fs.get src ≠ none
  clear : Clear fs dst
  passes : ∀ r, r ≠ [] → Lists opt r → EntryPasses h dst src opt fs r

/-- What is in the destination below `r`, where that is listed, is listed too. -/
def ListsBelow (dst src : Path) (opt : UInt32) (fs : FileSystem) : Prop :=
  ∀ r n, r ≠ [] → Lists opt r → fs.get (src ++ r) = none → fs.get (dst ++ r ++ [n]) ≠ none → Lists opt (r ++ [n])

/-- What there is after a call that returns true. -/
structure Result (h : Host) (dst src : Path) (opt : UInt32) (fs fs' : FileSystem) : Prop where
  handled : ∀ r, r ≠ [] → Lists opt r → fs.get (src ++ r) ≠ none → Handled h dst src opt fs fs' r
  source : ∀ r, (r ≠ [] → Lists opt r → fs.get (src ++ r) = none) → fs'.get (src ++ r) = fs.get (src ++ r)
  unlisted : ∀ r, r ≠ [] → ¬Lists opt r → fs'.get (dst ++ r) = fs.get (dst ++ r)
  kept : ∀ r, r ≠ [] → fs.get (src ++ r) = none → ¬(has opt CPOPT_MIRROR = true ∧ SourceShown src opt fs) →
    fs'.get (dst ++ r) = fs.get (dst ++ r)
  gone : has opt CPOPT_MIRROR = true → SourceShown src opt fs → ListsBelow dst src opt fs →
    ∀ r, r ≠ [] → Lists opt r → fs.get (src ++ r) = none → fs'.get (dst ++ r) = none

section Made

/-! After `CreateDirectories`. -/

variable (hap : Apart dst src) (hc : Clear fs dst)

include hap hc

theorem get_made_src (r : Path) : (createDirectories fs dst).1.get (src ++ r) = fs.get (src ++ r) := by
  rw [get_createDirectories hap.dst_ne_nil hc, if_neg]
  exact fun hp => hap.not_in ((List.prefix_append _ _).trans hp)

theorem get_made_dst (hr : r ≠ []) : (createDirectories fs dst).1.get (dst ++ r) = fs.get (dst ++ r) := by
  rw [get_createDirectories hap.dst_ne_nil hc, if_neg]
  intro hp
  have := hp.length_le
  have := List.length_pos_of_ne_nil hr
  rw [List.length_append] at *
  omega

theorem get_made : (createDirectories fs dst).1.get dst = some .dir := by
  rw [get_createDirectories hap.dst_ne_nil hc, if_pos List.prefix_rfl]

theorem mem_flist {e : Entry} : e ∈ populate (createDirectories fs dst).1 src (listFlag opt) ↔
    e.name ≠ [] ∧ Lists opt e.name ∧ ∃ x, fs.get (src ++ e.name) = some x ∧ x.isDir = e.isDirectory := by
  rw [← get_made_src hap hc]
  exact mem_populate _ _ _ _

theorem mem_names (hr : r ≠ []) : r ∈ (populate (createDirectories fs dst).1 src (listFlag opt)).map Entry.name ↔
    Lists opt r ∧ fs.get (src ++ r) ≠ none := by
  rw [List.mem_map]
  constructor
  · rintro ⟨e, he, rfl⟩
    obtain ⟨-, hl, x, hx, -⟩ := (mem_flist hap hc).mp he
    exact ⟨hl, by simp [hx]⟩
  · rintro ⟨hl, hx⟩
    obtain ⟨x, hx⟩ := Option.ne_none_iff_exists'.mp hx
    exact ⟨⟨r, x.isDir⟩, (mem_flist hap hc).mpr ⟨hr, hl, x, hx, rfl⟩, rfl⟩

theorem mem_dest_fnlist {e : Entry} : e ∈ populate (createDirectories fs dst).1 dst (listFlag opt) ↔
    e.name ≠ [] ∧ Lists opt e.name ∧ ∃ x, fs.get (dst ++ e.name) = some x ∧ x.isDir = e.isDirectory := by
  have hmem := mem_populate (createDirectories fs dst).1 dst (has opt CPOPT_HIDDEN_FILE) e
  refine hmem.trans (and_congr_right fun hne => ?_)
  rw [get_made_dst hap hc hne]
  rfl

theorem flist_isEmpty : (populate (createDirectories fs dst).1 src (listFlag opt)).isEmpty = true ↔
    ¬SourceShown src opt fs := by
  rw [List.isEmpty_iff, List.eq_nil_iff_forall_not_mem]
  constructor
  · rintro hnone ⟨r, hr, hl, hx⟩
    obtain ⟨e, he, -⟩ := List.mem_map.mp ((mem_names hap hc hr).mpr ⟨hl, hx⟩)
    exact hnone e he
  · rintro hs e he
    obtain ⟨hne, hl, x, hx, -⟩ := (mem_flist hap hc).mp he
    exact hs ⟨e.name, hne, hl, by simp [hx]⟩

/-- The file system with which the items are copied. -/
def mirrored (dst src : Path) (opt : UInt32) (fs : FileSystem) : FileSystem :=
  if has opt CPOPT_MIRROR then
    mirrorLoop dst ((populate fs src (listFlag opt)).map Entry.name) (populate fs dst (listFlag opt)) fs
  else fs

theorem mirrored_src (r : Path) :
    (mirrored dst src opt (createDirectories fs dst).1).get (src ++ r) = fs.get (src ++ r) := by
  rw [← get_made_src hap hc r]
  unfold mirrored
  split
  · exact mirrorLoop_keeps fun e _ _ => hap.ne r e.name
  · rfl

theorem mirrored_dst (hr : r ≠ [])
    (hk : ¬Lists opt r ∨ fs.get (src ++ r) ≠ none ∨ ¬has opt CPOPT_MIRROR = true) :
    (mirrored dst src opt (createDirectories fs dst).1).get (dst ++ r) = fs.get (dst ++ r) := by
  rw [← get_made_dst hap hc hr]
  unfold mirrored
  split
  · rename_i hm
    refine mirrorLoop_keeps fun e he hn heq => ?_
    obtain rfl := List.append_cancel_left heq
    obtain ⟨-, hl, -⟩ := (mem_dest_fnlist hap hc).mp he
    rcases hk with hk | hk | hk
    · exact hk hl
    · exact hn ((mem_names hap hc hr).mpr ⟨hl, hk⟩)
    · exact hk hm
  · rfl

theorem mirrored_root : (mirrored dst src opt (createDirectories fs dst).1).get dst = some .dir := by
  rw [← get_made hap hc]
  unfold mirrored
  split
  · refine mirrorLoop_keeps fun e he _ heq => ?_
    exact ((mem_dest_fnlist hap hc).mp he).1 (List.append_right_eq_self.mp heq.symm)
  · rfl

theorem mirrored_gone (hm : has opt CPOPT_MIRROR = true) (hb : ListsBelow dst src opt fs) (hr : r ≠ [])
    (hl : Lists opt r) (hn : fs.get (src ++ r) = none) :
    (mirrored dst src opt (createDirectories fs dst).1).get (dst ++ r) = none := by
  rw [mirrored, if_pos hm]
  by_cases hx : fs.get (dst ++ r) = none
  · exact mirrorLoop_none (by rw [get_made_dst hap hc hr, hx])
  obtain ⟨x, hx⟩ := Option.ne_none_iff_exists'.mp hx
  have hmem : ⟨r, x.isDir⟩ ∈ populate (createDirectories fs dst).1 dst (listFlag opt) :=
    (mem_dest_fnlist hap hc).mpr ⟨hr, hl, x, hx, rfl⟩
  refine mirrorLoop_removes hap.dst_ne_nil populate_nodup (fun e he => ?_) (fun _ _ _ => populate_parent)
    (fun e he hne n hg => ?_) [] rfl _ hmem ?_
  · obtain ⟨hne, -, hx⟩ := (mem_dest_fnlist hap hc).mp he
    exact ⟨hne, by rwa [get_made_dst hap hc hne]⟩
  · -- below an item without a counterpart there is none with one
    obtain ⟨hene, hel, -⟩ := (mem_dest_fnlist hap hc).mp he
    have hnone : fs.get (src ++ e.name) = none := by
      by_contra hc'
      exact hne ((mem_names hap hc hene).mpr ⟨hel, hc'⟩)
    have hne' : e.name ++ [n] ≠ [] := by simp
    rw [List.append_assoc, get_made_dst hap hc hne', ← List.append_assoc] at hg
    have hln := hb e.name n hene hel hnone hg
    rw [List.append_assoc] at hg
    obtain ⟨y, hy⟩ := Option.ne_none_iff_exists'.mp hg
    refine ⟨⟨e.name ++ [n], y.isDir⟩, (mem_dest_fnlist hap hc).mpr ⟨hne', hln, y, hy, rfl⟩, rfl, ?_⟩
    rw [mem_names hap hc hne', ← List.append_assoc]
    exact fun hm => hm.2 (FileTree.get_append_eq_none (by simp [hnone]) (by simp))
  · rw [mem_names hap hc hr]
    exact fun hm => hm.2 hn

theorem listed_mirrored (opt : UInt32) : Listed dst src (mirrored dst src opt (createDirectories fs dst).1)
    (populate (createDirectories fs dst).1 src (listFlag opt)) := by
  refine ⟨populate_nodup, fun e he => ?_, fun l₁ e l₂ hsplit => ?_⟩
  · obtain ⟨hne, -, hx⟩ := (mem_flist hap hc).mp he
    exact ⟨hne, by rwa [mirrored_src hap hc]⟩
  · rcases populate_parent hsplit with hp | hp
    · rw [hp, List.append_nil]
      exact .inl (mirrored_root hap hc)
    · exact .inr hp

theorem copyPath_eq (hs : fs.get src ≠ none) : copyPath h dst src opt fs =
    if (populate (createDirectories fs dst).1 src (listFlag opt)).isEmpty
    then ((createDirectories fs dst).1, .returns true)
    else copyLoop h dst src opt (populate (createDirectories fs dst).1 src (listFlag opt)) 0
      (mirrored dst src opt (createDirectories fs dst).1) := by
  obtain ⟨x, hx⟩ := Option.ne_none_iff_exists'.mp hs
  have hok : createDirectories fs dst = ((createDirectories fs dst).1, true) :=
    Prod.ext rfl ((createDirectories_snd hap.dst_ne_nil).mpr hc)
  unfold copyPath
  rw [getPathTime_eq, hx, hok]
  rfl

theorem passes_mirrored (he : e ∈ populate (createDirectories fs dst).1 src (listFlag opt)) :
    EntryPasses h dst src opt (mirrored dst src opt (createDirectories fs dst).1) e.name ↔
      EntryPasses h dst src opt fs e.name := by
  obtain ⟨hne, hl, x, hx, -⟩ := (mem_flist hap hc).mp he
  exact entryPasses_congr (mirrored_src hap hc _) (mirrored_dst hap hc hne (.inr (.inl (by simp [hx]))))

end Made

theorem copyPath_finishes (hap : Apart dst src) (hf : Finishes h dst src opt fs) :
    ∃ fs', copyPath h dst src opt fs = (fs', .returns true) ∧ Result h dst src opt fs fs' := by
  have hc := hf.clear
  rw [copyPath_eq hap hc hf.source]
  by_cases hshown : SourceShown src opt fs
  · rw [if_neg fun hemp => (flist_isEmpty hap hc).mp hemp hshown]
    obtain ⟨fs', heq, hh, helse⟩ := copyLoop_goesOn (h := h) hap 0 (listed_mirrored hap hc opt)
      fun e he => by
        obtain ⟨hne, hl, -⟩ := (mem_flist hap hc).mp he
        exact (passes_mirrored hap hc he).mpr (hf.passes e.name hne hl)
    -- the paths that no item has
    have hnames : ∀ r ∈ (populate (createDirectories fs dst).1 src (listFlag opt)).map Entry.name,
        r ≠ [] ∧ Lists opt r ∧ fs.get (src ++ r) ≠ none := by
      intro r hr
      obtain ⟨e, he, rfl⟩ := List.mem_map.mp hr
      obtain ⟨hne, hl, x, hx, -⟩ := (mem_flist hap hc).mp he
      exact ⟨hne, hl, by simp [hx]⟩
    have hdst : ∀ r, ¬(Lists opt r ∧ fs.get (src ++ r) ≠ none) →
        fs'.get (dst ++ r) = (mirrored dst src opt (createDirectories fs dst).1).get (dst ++ r) := by
      intro r hr
      refine helse _ fun r' hr' => ⟨(hap.ne r' r).symm, fun heq => hr ?_⟩
      exact List.append_cancel_left heq ▸ (hnames r' hr').2
    refine ⟨fs', heq, ?_, ?_, ?_, ?_, ?_⟩
    · intro r hr hl hx
      obtain ⟨e, he, rfl⟩ := List.mem_map.mp ((mem_names hap hc hr).mpr ⟨hl, hx⟩)
      exact (hh e he).congr (mirrored_src hap hc _) (mirrored_dst hap hc hr (.inr (.inl hx)))
    · intro r hr
      rw [← mirrored_src hap hc r]
      refine helse _ fun r' hr' => ⟨fun heq => ?_, hap.ne r r'⟩
      obtain ⟨hne, hl, hx⟩ := hnames r' hr'
      obtain rfl := List.append_cancel_left heq
      exact hx (hr hne hl)
    · intro r hr hl
      rw [hdst r fun hc => hl hc.1, mirrored_dst hap hc hr (.inl hl)]
    · intro r hr hn hm
      rw [hdst r fun hc => hc.2 hn, mirrored_dst hap hc hr (.inr (.inr fun hmir => hm ⟨hmir, hshown⟩))]
    · intro hm _ hb r hr hl hn
      rw [hdst r fun hc => hc.2 hn, mirrored_gone hap hc hm hb hr hl hn]
  · rw [if_pos ((flist_isEmpty hap hc).mpr hshown)]
    refine ⟨_, rfl, ?_, ?_, ?_, ?_, ?_⟩
    · exact fun r hr hl hx => absurd ⟨r, hr, hl, hx⟩ hshown
    · exact fun r _ => get_made_src hap hc r
    · exact fun r hr _ => get_made_dst hap hc hr
    · exact fun r hr _ _ => get_made_dst hap hc hr
    · exact fun _ hs => absurd hs hshown

theorem copyPath_not_finishes (hap : Apart dst src) (hf : ¬Finishes h dst src opt fs) :
    (copyPath h dst src opt fs).2 ≠ .returns true := by
  by_cases hs : fs.get src = none
  · simp [copyPath, getPathTime_eq, hs]
  by_cases hc : Clear fs dst
  · -- some item keeps the copy from going on
    have hp : ∃ r, r ≠ [] ∧ Lists opt r ∧ ¬EntryPasses h dst src opt fs r := by
      by_contra hall
      refine hf ⟨hs, hc, fun r hr hl => ?_⟩
      by_contra hn
      exact hall ⟨r, hr, hl, hn⟩
    obtain ⟨r, hr, hl, hn⟩ := hp
    have hx : fs.get (src ++ r) ≠ none := fun hnone => hn fun a ha => by simp [hnone] at ha
    obtain ⟨e, he, rfl⟩ := List.mem_map.mp ((mem_names hap hc hr).mpr ⟨hl, hx⟩)
    rw [copyPath_eq hap hc hs, if_neg fun hemp => (flist_isEmpty hap hc).mp hemp ⟨_, hr, hl, hx⟩]
    exact copyLoop_stops hap (listed_mirrored hap hc opt) ⟨e, he, fun hp => hn ((passes_mirrored hap hc he).mp hp)⟩
  · obtain ⟨x, hx⟩ := Option.ne_none_iff_exists'.mp hs
    have hno : (createDirectories fs dst).2 = false := by
      rw [← Bool.not_eq_true, createDirectories_snd hap.dst_ne_nil]
      exact hc
    unfold copyPath
    rw [getPathTime_eq, hx]
    rcases hcd : createDirectories fs dst with ⟨fs₁, b⟩
    rw [hcd] at hno
    obtain rfl : b = false := hno
    simp

/-! ### What a copy is for -/

/-- The source is as it was. Each file of it that is not empty and covered is in the destination with its contents, or
was left out for its time; with `CPOPT_MIRROR` the destination has nothing that is covered and not in the source. -/
structure Copied (dst src : Path) (opt : UInt32) (fs fs' : FileSystem) : Prop where
  source : ∀ r, fs'.get (src ++ r) = fs.get (src ++ r)
  files : ∀ r a, r ≠ [] → fs.get (src ++ r) = some (.file a) → a.content ≠ [] → Covers opt r →
    (∃ t, fs'.get (dst ++ r) = some (.file ⟨a.content, t⟩)) ∨
      has opt CPOPT_OVERWRITE = false ∧ ∃ b, fs.get (dst ++ r) = some (.file b) ∧ b.time = a.time
  mirror : has opt CPOPT_MIRROR = true → ∀ r, r ≠ [] → Covers opt r → fs'.get (dst ++ r) ≠ none →
    fs.get (src ++ r) ≠ none

/-- Where the slips of the code do not show. -/
structure CopiesWell (h : Host) (dst src : Path) (opt : UInt32) (fs : FileSystem) : Prop where
  /-- What would be copied to a file of the source is there already. -/
  source : ∀ r a, r ≠ [] → Lists opt r → fs.get (src ++ r) = some (.file a) →
    ¬Skips h opt (dst ++ r) (fs.get (dst ++ r)) a → copiedBack (fs.get (dst ++ r)) a = a
  /-- The destination has a file already, but for zeros at its end when it is listed. -/
  files : ∀ r a, r ≠ [] → fs.get (src ++ r) = some (.file a) → a.content ≠ [] → Covers opt r →
    (Lists opt r ∧ ¬Skips h opt (dst ++ r) (fs.get (dst ++ r)) a ∧
      extend (contentOf (fs.get (dst ++ r))) a.content.length = a.content) ∨
      ∃ b, fs.get (dst ++ r) = some (.file b) ∧
        (b.content = a.content ∨ has opt CPOPT_OVERWRITE = false ∧ b.time = a.time)
  /-- What the destination has and the source does not is listed, and the source has something that is. -/
  mirror : has opt CPOPT_MIRROR = true → ∀ r, r ≠ [] → Covers opt r → fs.get (dst ++ r) ≠ none →
    fs.get (src ++ r) = none → Lists opt r ∧ SourceShown src opt fs

/-- One of the two always has everything. -/
theorem lists_or_covers (opt : UInt32) : (∀ r, Lists opt r) ∨ ∀ r, Covers opt r := by
  cases hh : has opt CPOPT_HIDDEN_FILE
  · exact .inl fun r n _ => by simp [hh, shown]
  · exact .inr fun r n _ => by simp [hh, shown]

theorem Result.copiesWell (hr : Result h dst src opt fs fs') (hcop : Copied dst src opt fs fs') :
    CopiesWell h dst src opt fs := by
  constructor
  · intro r a hne hl hs hk
    have hafter := ((hr.handled r hne hl (by simp [hs])).copy a hs hk).1
    rw [hcop.source r, hs, Option.some.injEq, Node.file.injEq] at hafter
    exact hafter.symm
  · intro r a hne hs ha hcov
    rcases hcop.files r a hne hs ha hcov with ⟨t, ht⟩ | ⟨ho, b, hb, htime⟩
    · -- the file is there afterwards: by the copy, or since before
      by_cases hl : Lists opt r
      · have hh := hr.handled r hne hl (by simp [hs])
        by_cases hk : Skips h opt (dst ++ r) (fs.get (dst ++ r)) a
        · exact .inr ⟨⟨a.content, t⟩, by rw [← (hh.skip a hs hk).2, ht], .inl rfl⟩
        · obtain ⟨t', ht'⟩ := (hh.copy a hs hk).2
          rw [ht, Option.some.injEq, Node.file.injEq, Stored.mk.injEq] at ht'
          exact .inl ⟨hl, hk, ht'.1.symm⟩
      · exact .inr ⟨⟨a.content, t⟩, by rw [← hr.unlisted r hne hl, ht], .inl rfl⟩
    · exact .inr ⟨b, hb, .inr ⟨ho, htime⟩⟩
  · intro hm r hne hcov hd hn
    by_contra hc
    have hstay : fs'.get (dst ++ r) = fs.get (dst ++ r) := by
      by_cases hl : Lists opt r
      · exact hr.kept r hne hn fun hms => hc ⟨hl, hms.2⟩
      · exact hr.unlisted r hne hl
    exact hcop.mirror hm r hne hcov (by rwa [hstay]) hn

theorem CopiesWell.listsBelow (hw : CopiesWell h dst src opt fs) (hm : has opt CPOPT_MIRROR = true) :
    ListsBelow dst src opt fs := by
  rcases lists_or_covers opt with hall | hall
  · exact fun r n _ _ _ _ => hall _
  · intro r n _ _ hn hd
    rw [List.append_assoc] at hd
    refine (hw.mirror hm (r ++ [n]) (by simp) (hall _) hd ?_).1
    rw [← List.append_assoc]
    exact FileTree.get_append_eq_none (by simp [hn]) (by simp)

theorem Result.copied (hr : Result h dst src opt fs fs') (hw : CopiesWell h dst src opt fs) :
    Copied dst src opt fs fs' := by
  constructor
  · intro r
    by_cases hitem : r ≠ [] ∧ Lists opt r ∧ fs.get (src ++ r) ≠ none
    · obtain ⟨hne, hl, hx⟩ := hitem
      have hh := hr.handled r hne hl hx
      obtain ⟨_ | a, hs⟩ := Option.ne_none_iff_exists'.mp hx
      · rw [(hh.dir hs).1, hs]
      · by_cases hk : Skips h opt (dst ++ r) (fs.get (dst ++ r)) a
        · rw [(hh.skip a hs hk).1, hs]
        · rw [(hh.copy a hs hk).1, hs, hw.source r a hne hl hs hk]
    · exact hr.source r fun hne hl => by
        by_contra hx
        exact hitem ⟨hne, hl, hx⟩
  · intro r a hne hs ha hcov
    rcases hw.files r a hne hs ha hcov with ⟨hl, hk, hext⟩ | ⟨b, hb, hbc | hbt⟩
    · obtain ⟨t, ht⟩ := ((hr.handled r hne hl (by simp [hs])).copy a hs hk).2
      exact .inl ⟨t, by rw [ht, hext]⟩
    · refine .inl ?_
      by_cases hl : Lists opt r
      · have hh := hr.handled r hne hl (by simp [hs])
        by_cases hk : Skips h opt (dst ++ r) (fs.get (dst ++ r)) a
        · exact ⟨b.time, by rw [(hh.skip a hs hk).2, hb, ← hbc]⟩
        · obtain ⟨t, ht⟩ := (hh.copy a hs hk).2
          refine ⟨t, ?_⟩
          rw [ht, hb, contentOf, hbc, extend_of_le le_rfl]
      · exact ⟨b.time, by rw [hr.unlisted r hne hl, hb, ← hbc]⟩
    · exact .inr ⟨hbt.1, b, hb, hbt.2⟩
  · intro hm r hne hcov hd hn
    by_cases hl : Lists opt r
    · by_cases hs : SourceShown src opt fs
      · exact hd (hr.gone hm hs (hw.listsBelow hm) r hne hl hn)
      · rw [hr.kept r hne hn fun hms => hs hms.2] at hd
        exact hs (hw.mirror hm r hne hcov hd hn).2
    · rw [hr.unlisted r hne hl] at hd
      exact hl (hw.mirror hm r hne hcov hd hn).1

section Fixed

def sourceDir : Path := [⟨['s'], by decide⟩]
def destDir : Path := [⟨['d'], by decide⟩]
def fileName : Name := ⟨['a'], by decide⟩
def hiddenName : Name := ⟨['.', 'a'], by decide⟩

/-- A system that stops writes to read-only memory. -/
def stopping : Host := ⟨true, fun _ => 0, fun _ => 0⟩

theorem apart_destDir : Apart destDir sourceDir := ⟨by decide, by decide⟩

/-- The same file in the source and in the destination. -/
def sameFile : FileSystem :=
  (((FileTree.empty.create sourceDir .dir).create destDir .dir).create (sourceDir ++ [fileName])
    (.file ⟨[1], 5⟩)).create (destDir ++ [fileName]) (.file ⟨[1], 5⟩)

theorem sameFile_get {r : Path} (hr : r ≠ [])
    (hx : sameFile.get (sourceDir ++ r) ≠ none ∨ sameFile.get (destDir ++ r) ≠ none) : r = [fileName] := by
  have hkeys : sameFile.nodes.keys = [destDir ++ [fileName], sourceDir ++ [fileName], destDir, sourceDir] := by
    decide
  rcases hx with hx | hx
  all_goals
    have hmem := FileTree.mem_keys_of_get hx
    rw [hkeys] at hmem
    simpa [sourceDir, destDir, hr] using hmem

theorem sameFile_copiesWell : CopiesWell stopping destDir sourceDir CPOPT_MIRROR sameFile := by
  have hs : sameFile.get (sourceDir ++ [fileName]) = some (.file ⟨[1], 5⟩) := by decide
  have hd : sameFile.get (destDir ++ [fileName]) = some (.file ⟨[1], 5⟩) := by decide
  constructor
  · intro r a hr _ ha hk
    obtain rfl := sameFile_get hr (.inl (by simp [ha]))
    rw [hs, Option.some.injEq, Node.file.injEq] at ha
    subst ha
    exact absurd ⟨by decide, by rw [hd]; rfl⟩ hk
  · intro r a hr ha _ _
    obtain rfl := sameFile_get hr (.inl (by simp [ha]))
    rw [hs, Option.some.injEq, Node.file.injEq] at ha
    subst ha
    exact .inr ⟨_, hd, .inl rfl⟩
  · intro _ r hr _ hx hn
    obtain rfl := sameFile_get hr (.inr hx)
    rw [hs] at hn
    cases hn

/-- A hidden file in the source, and no destination yet. -/
def hiddenFile : FileSystem :=
  (FileTree.empty.create sourceDir .dir).create (sourceDir ++ [hiddenName]) (.file ⟨[1], 5⟩)

/-- Where a write to the mapping of the source is not stopped, the file of the source is lost: `memcpy` copies to it. -/
theorem not_copied_of_swap : ∃ fs',
    copyPath { stopping with stopsWrite := false } destDir sourceDir 0 hiddenFile = (fs', .returns true) ∧
      fs'.get (sourceDir ++ [hiddenName]) = some (.file ⟨[0], 5⟩) :=
  ⟨_, Prod.ext rfl (by decide), by decide⟩

end Fixed

end Cpcf.Os.CopyPath
