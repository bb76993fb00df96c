import Cpcf.Inet.Request
import Cpcf.Lib.Segments

/-!
`HttpVirtualPath::OnRequest`: the files and directories that a request makes it touch.

The decoded target is put behind the mapped path as it is, so its `..` lead out of the mapped directory. An upload is
written whether or not the virtual path was set read-only; only the form for it is left out of a listing then.
-/

namespace Cpcf.Inet

open Cpcf.Lib.Search Cpcf.Lib.Segments

/-! ### The code -/

def slash : UInt8 := 0x2f

def backslash : UInt8 := 0x5c

/-- An `HttpVirtualPath`: `L1_Path`, `_MappedPath` and `_ReadOnly`. -/
structure VirtualPath where
  endPoint : Text
  mappedPath : Text
  readOnly : Bool
  mapped_ok : 0 ∉ mappedPath

/-- `SetMappedPath`, where `mapped` is what `os::File::ResolveRelativePath` makes of the path. -/
def VirtualPath.setMappedPath (v : VirtualPath) (mapped : Text) (h : 0 ∉ mapped) (readonly : Bool) : VirtualPath where
  endPoint := v.endPoint
  mappedPath := if mapped.getLast? = some backslash ∨ mapped.getLast? = some slash then mapped.dropLast else mapped
  readOnly := readonly
  mapped_ok := by
    split
    · exact fun h0 => h (List.mem_of_mem_dropLast h0)
    · exact h

/-- `GetLnPath`. -/
def VirtualPath.getLnPath (v : VirtualPath) (URI : Text) : Text :=
  if 1 < v.endPoint.length then URI.drop v.endPoint.length else URI

inductive AccessKind
  /-- `stat`. -/
  | test
  /-- `opendir`. -/
  | list
  /-- `fopen` for reading. -/
  | read
  /-- `fopen` for writing. -/
  | write
  /-- `mkdir`. -/
  | make
  deriving DecidableEq

/-- A call with a path, which ends at its terminator. -/
structure Access where
  kind : AccessKind
  path : Text
  deriving DecidableEq

/-- `_GetFileStat`, which does nothing for an empty path. -/
def stat (path : Text) : List Access := if cstr path = [] then [] else [⟨.test, cstr path⟩]

/-- What is on the disk. The names that a directory gives have no separator and no terminator in them. -/
structure Host where
  isDirectory : Text → Bool
  isFile : Text → Bool
  readdir : Text → List (Text × Bool)
  names_ok : ∀ p, ∀ x ∈ readdir p, x.1 ≠ [] ∧ slash ∉ x.1 ∧ 0 ∉ x.1

/-- The directory that `FileList::Populate` opens for `directory`. -/
def listRoot (directory : Text) : Text :=
  let dir := cstr directory
  if dir.getLast? = some slash ∨ dir.getLast? = some backslash then dir.dropLast else dir

/-- The listing of a directory: what is in it and does not begin with a dot is tested, a file for its size as well. -/
def listDirectory (host : Host) (a : Text) : List Access :=
  if cstr a = [] then []
  else
    let root := listRoot a
    let flist := (host.readdir root).filter fun x => x.1.head? ≠ some 0x2e
    let fullpath := fun (x : Text × Bool) => root ++ slash :: x.1
    ⟨.list, root⟩ :: ((flist.filter fun x => x.2).flatMap fun x => stat (fullpath x)) ++
      (flist.filter fun x => !x.2).flatMap fun x => stat (fullpath x) ++ stat (fullpath x)

/-- Tests until one is a file. -/
def testFiles (host : Host) : List Text → List Access
  | [] => []
  | q :: rest => stat q ++ if host.isFile (cstr q) then [] else testFiles host rest

/-- The pages that may stand for a directory. -/
def indexFiles (a : Text) : List Text :=
  [a ++ ascii "/index.html", a ++ ascii "/index.htm", a ++ ascii "/default.html", a ++ ascii "/default.htm"]

/-- `GetNextLine` from the start: the offset of the first line that is not empty, and the line. -/
def firstLine (body : Text) : Option (ℕ × Text) :=
  let eol : UInt8 → Bool := fun b => b = CR ∨ b = LF
  let start := (body.takeWhile eol).length
  if body.length ≤ start then none else some (start, (body.drop start).takeWhile fun b => !eol b)

/-- `SubStr(start, len)` where `start` may be negative, which is behind any text then. -/
def subStr (s : Text) (start : ℤ) (len : ℕ) : Text := if start < 0 then [] else (s.drop start.toNat).take len

/-- What of the body of a post is written to the file, if it has the shape of a form. -/
def upload (body : Text) : Option Text :=
  match firstLine body with
  | none => none
  | some (start, sep_line) =>
    if subStr body ((body.length : ℤ) - 4 - sep_line.length) sep_line.length ≠ sep_line then none
    else
      let p := start + sep_line.length
      let last := body.length - sep_line.length - 4 - 2
      match find (CRLF ++ CRLF) (body.drop p) with
      | none => none
      | some n => if p + n < last ∧ p + n + 4 < last then some ((body.take last).drop (p + n + 4)) else none

/-- The prefixes of a path that end before a separator. -/
def parents : Text → List Text
  | [] => []
  | b :: s => (if b = slash then [[]] else []) ++ (parents s).map (b :: ·)

/-- `path.Replace('\\', '/')`. -/
def replaced (pathin : Text) : Text := (cstr pathin).map fun b => if b = backslash then slash else b

/-- The directory that `CreateDirectories` tests at its end. -/
def parent (pathin : Text) : Text := (parents (replaced pathin)).getLast?.getD (replaced pathin)

/-- `CreateDirectories` for the path of a file. -/
def createDirectories (pathin : Text) : List Access :=
  (((parents (replaced pathin)).filter (· ≠ [])).map fun p => ⟨.make, p⟩) ++ stat (parent pathin)

/-- The branch for a target that is not a directory with a separator at its end. -/
def serveFile (host : Host) (v : VirtualPath) (req : Request) (uri : Text) : List Access :=
  let a := v.mappedPath ++ uri
  match req.HttpVerb with
  | .GET => stat a ++ if host.isDirectory (cstr a) then testFiles host (indexFiles a) else [⟨.read, cstr a⟩]
  | .POST =>
    match upload req.Body with
    | none => []
    | some _ => createDirectories a ++ [⟨.write, cstr a⟩]

/-- `OnRequest`: the calls that it makes, in order. -/
def onRequest (host : Host) (v : VirtualPath) (req : Request) : List Access :=
  let uri := v.getLnPath req.URI
  let a := v.mappedPath ++ uri.dropLast
  if uri.getLast? = some slash then
    stat a ++
      if host.isDirectory (cstr a) then
        match req.HttpVerb with
        | .GET => listDirectory host a
        | .POST => []
      else serveFile host v req uri
  else serveFile host v req uri

/-! ### What is inside -/

def spelling : Spelling UInt8 := ⟨slash, 0x2e⟩

/-- A path that leads into the directory `dir` when its `.` and `..` are resolved. -/
def Inside (dir path : Text) : Prop := spelling.resolve dir <+: spelling.resolve path

instance (dir path : Text) : Decidable (Inside dir path) := inferInstanceAs (Decidable (_ <+: _))

/-- What a call may do: it opens, lists or tests what is inside, and it writes only if that is allowed. -/
def VirtualPath.Permits (v : VirtualPath) (x : Access) : Prop :=
  (x.kind ≠ .make → Inside v.mappedPath x.path) ∧ (x.kind = .write → v.readOnly = false)

/-- The request has a `/` at the end and a directory in front of it. -/
def IsListed (host : Host) (v : VirtualPath) (req : Request) : Prop :=
  (v.getLnPath req.URI).getLast? = some slash ∧
    host.isDirectory (cstr (v.mappedPath ++ (v.getLnPath req.URI).dropLast)) = true

/-- The condition under which all calls are permitted. -/
structure VirtualPath.Allows (v : VirtualPath) (host : Host) (req : Request) : Prop where
  /-- The target leads inside, unless it is not looked at. -/
  target : req.HttpVerb = .GET ∨ (v.getLnPath req.URI).getLast? = some slash ∨ (upload req.Body).isSome →
    Inside v.mappedPath (cstr (v.mappedPath ++ v.getLnPath req.URI))
  /-- So does the directory that is listed, where one more separator is left out. -/
  listed : req.HttpVerb = .GET → IsListed host v req →
    Inside v.mappedPath (listRoot (v.mappedPath ++ (v.getLnPath req.URI).dropLast))
  /-- Nothing is uploaded below a path that is read-only, and the directory of what is uploaded is inside. -/
  uploaded : req.HttpVerb = .POST → ¬ IsListed host v req → (upload req.Body).isSome →
    v.readOnly = false ∧
      (parent (v.mappedPath ++ v.getLnPath req.URI) = [] ∨
        Inside v.mappedPath (parent (v.mappedPath ++ v.getLnPath req.URI)))

/-! ### Where the calls lead to -/

variable {host : Host} {v : VirtualPath} {req : Request} {p q w n : Text} {dir : Text} {x : Access}

theorem inside_append_slash : Inside dir (p ++ [slash]) ↔ Inside dir p := by
  unfold Inside
  rw [show p ++ [slash] = p ++ [spelling.sep] from rfl, resolve_append_sep]

theorem inside_name (hn : spelling.IsName n) (h : Inside dir p) : Inside dir (p ++ slash :: n) := by
  unfold Inside
  rw [show p ++ slash :: n = p ++ spelling.sep :: n from rfl, resolve_name hn]
  exact h.trans (List.prefix_append _ _)

/-- Nothing but the mapped path itself is an empty path. -/
theorem inside_of_nil (h : cstr (v.mappedPath ++ w) = []) : Inside v.mappedPath p := by
  rw [cstr_append v.mapped_ok, List.append_eq_nil_iff] at h
  rw [h.1]
  exact List.nil_prefix

theorem permits_nil : ∀ x ∈ ([] : List Access), v.Permits x := fun _ h => absurd h List.not_mem_nil

theorem permits_append {l l' : List Access} :
    (∀ x ∈ l ++ l', v.Permits x) ↔ (∀ x ∈ l, v.Permits x) ∧ ∀ x ∈ l', v.Permits x := List.forall_mem_append

theorem permits_stat_iff : (∀ x ∈ stat p, v.Permits x) ↔ cstr p = [] ∨ Inside v.mappedPath (cstr p) := by
  unfold stat
  split
  · rename_i h
    simp [h]
  · rename_i h
    simp [h, VirtualPath.Permits]

/-- A test of a path that begins with the mapped one. -/
theorem permits_stat : (∀ x ∈ stat (v.mappedPath ++ w), v.Permits x) ↔ Inside v.mappedPath (cstr (v.mappedPath ++ w)) := by
  rw [permits_stat_iff]
  exact or_iff_right_of_imp inside_of_nil

/-- A name behind a path that is inside, if it is still looked at. -/
theorem inside_cstr_append (hn : spelling.IsName n) (h0 : 0 ∉ n) (h : Inside dir (cstr p)) :
    Inside dir (cstr (p ++ slash :: n)) := by
  by_cases hp : 0 ∈ p
  · rwa [cstr_append_of_mem hp]
  · rw [cstr_append hp, cstr_of_notMem (s := slash :: n) (by simp [h0]; decide)]
    rw [cstr_of_notMem hp] at h
    exact inside_name hn h

/-- The separator at the end of a target changes nothing. -/
theorem inside_dropLast (h : w.getLast? = some slash) :
    Inside dir (cstr (p ++ w.dropLast)) ↔ Inside dir (cstr (p ++ w)) := by
  obtain ⟨w, rfl⟩ : ∃ u, w = u ++ [slash] := ⟨_, (List.dropLast_append_getLast? slash h).symm⟩
  rw [List.dropLast_concat, ← List.append_assoc]
  by_cases h0 : 0 ∈ p ++ w
  · rw [cstr_append_of_mem h0]
  · rw [cstr_append h0, cstr_of_notMem h0]
    exact inside_append_slash.symm

/-! ### A listing -/

theorem zero_notMem_cstr : 0 ∉ cstr p := fun h => by simpa using List.mem_takeWhile_imp h

theorem cstr_listRoot : cstr (listRoot p) = listRoot p := by
  apply cstr_of_notMem
  unfold listRoot
  simp only
  split
  · exact fun h => zero_notMem_cstr (List.mem_of_mem_dropLast h)
  · exact zero_notMem_cstr

theorem isName_of_shown (h : n ≠ [] ∧ slash ∉ n ∧ 0 ∉ n) (hdot : n.head? ≠ some 0x2e) : spelling.IsName n := by
  refine ⟨h.1, ?_, ?_, h.2.1⟩
  · rintro rfl
    exact hdot rfl
  · rintro rfl
    exact hdot rfl

theorem permits_listDirectory : (∀ x ∈ listDirectory host (v.mappedPath ++ w), v.Permits x) ↔
    Inside v.mappedPath (listRoot (v.mappedPath ++ w)) := by
  unfold listDirectory
  split
  · rename_i h
    exact iff_of_true permits_nil (inside_of_nil h)
  · constructor
    · intro h
      exact (h _ List.mem_cons_self).1 (by simp)
    · intro h
      -- each entry is a name behind the directory
      have hentry : ∀ x ∈ (host.readdir (listRoot (v.mappedPath ++ w))).filter fun x => x.1.head? ≠ some 0x2e,
          ∀ y ∈ stat (listRoot (v.mappedPath ++ w) ++ slash :: x.1), v.Permits y := by
        intro x hx
        rw [List.mem_filter] at hx
        have hok := host.names_ok _ x hx.1
        rw [permits_stat_iff]
        refine .inr (inside_cstr_append (isName_of_shown hok (by simpa using hx.2)) hok.2.2 ?_)
        rwa [cstr_listRoot]
      rw [List.cons_append, List.forall_mem_cons, permits_append]
      refine ⟨⟨fun _ => h, by simp⟩, ?_, ?_⟩
      · intro y hy
        obtain ⟨x, hx, hy⟩ := List.mem_flatMap.mp hy
        exact hentry x (List.mem_of_mem_filter hx) y hy
      · intro y hy
        obtain ⟨x, hx, hy⟩ := List.mem_flatMap.mp hy
        rcases List.mem_append.mp hy with hy | hy
        · exact hentry x (List.mem_of_mem_filter hx) y hy
        · exact hentry x (List.mem_of_mem_filter hx) y hy

/-! ### A file -/

theorem permits_testFiles {a : Text} (h : Inside v.mappedPath (cstr a)) {qs : List Text}
    (hqs : ∀ q ∈ qs, ∃ n, spelling.IsName n ∧ 0 ∉ n ∧ q = a ++ slash :: n) : ∀ x ∈ testFiles host qs, v.Permits x := by
  induction qs with
  | nil => exact permits_nil
  | cons q qs ih =>
    obtain ⟨n, hn, h0, rfl⟩ := hqs q List.mem_cons_self
    rw [testFiles, permits_append]
    refine ⟨permits_stat_iff.mpr (.inr (inside_cstr_append hn h0 h)), ?_⟩
    split
    · exact permits_nil
    · exact ih fun q hq => hqs q (List.mem_cons_of_mem _ hq)

theorem indexFiles_names {a : Text} : ∀ q ∈ indexFiles a, ∃ n, spelling.IsName n ∧ 0 ∉ n ∧ q = a ++ slash :: n := by
  intro q hq
  simp only [indexFiles, List.mem_cons, List.not_mem_nil, or_false] at hq
  rcases hq with rfl | rfl | rfl | rfl
  · exact ⟨ascii "index.html", by unfold Spelling.IsName; decide, by decide, rfl⟩
  · exact ⟨ascii "index.htm", by unfold Spelling.IsName; decide, by decide, rfl⟩
  · exact ⟨ascii "default.html", by unfold Spelling.IsName; decide, by decide, rfl⟩
  · exact ⟨ascii "default.htm", by unfold Spelling.IsName; decide, by decide, rfl⟩

theorem prefix_of_mem_parents (h : q ∈ parents p) : q <+: p := by
  induction p generalizing q with
  | nil => exact absurd h List.not_mem_nil
  | cons b p ih =>
    rw [parents, List.mem_append] at h
    rcases h with h | h
    · split at h
      · rw [List.mem_singleton.mp h]
        exact List.nil_prefix
      · exact absurd h List.not_mem_nil
    · obtain ⟨q, hq, rfl⟩ := List.mem_map.mp h
      exact (List.prefix_cons_inj b).mpr (ih hq)

theorem cstr_parent : cstr (parent p) = parent p := by
  have h0 : 0 ∉ replaced p := by
    intro h
    obtain ⟨b, hb, h⟩ := List.mem_map.mp h
    split at h
    · exact absurd h (by decide)
    · exact zero_notMem_cstr (h ▸ hb)
  apply cstr_of_notMem
  unfold parent
  cases hp : (parents (replaced p)).getLast? with
  | none => exact h0
  | some q => exact fun h => h0 ((prefix_of_mem_parents (List.mem_of_getLast? hp)).subset h)

theorem permits_createDirectories :
    (∀ x ∈ createDirectories p, v.Permits x) ↔ parent p = [] ∨ Inside v.mappedPath (parent p) := by
  unfold createDirectories
  rw [permits_append, permits_stat_iff, cstr_parent]
  refine and_iff_right ?_
  intro x hx
  obtain ⟨q, -, rfl⟩ := List.mem_map.mp hx
  exact ⟨fun h => absurd rfl h, fun h => by cases h⟩

theorem permits_serveFile_get (h : req.HttpVerb = .GET) :
    (∀ x ∈ serveFile host v req w, v.Permits x) ↔ Inside v.mappedPath (cstr (v.mappedPath ++ w)) := by
  unfold serveFile
  simp only [h]
  rw [permits_append, permits_stat]
  refine and_iff_left_of_imp fun h => ?_
  split
  · exact permits_testFiles h indexFiles_names
  · intro x hx
    rw [List.mem_singleton.mp hx]
    exact ⟨fun _ => h, fun h => by cases h⟩

theorem permits_serveFile_post (h : req.HttpVerb = .POST) :
    (∀ x ∈ serveFile host v req w, v.Permits x) ↔ ((upload req.Body).isSome →
      Inside v.mappedPath (cstr (v.mappedPath ++ w)) ∧ v.readOnly = false ∧
        (parent (v.mappedPath ++ w) = [] ∨ Inside v.mappedPath (parent (v.mappedPath ++ w)))) := by
  unfold serveFile
  simp only [h]
  cases upload req.Body with
  | none => exact iff_of_true permits_nil (by simp)
  | some b =>
    have hwrite : (∀ x ∈ [(⟨.write, cstr (v.mappedPath ++ w)⟩ : Access)], v.Permits x) ↔
        Inside v.mappedPath (cstr (v.mappedPath ++ w)) ∧ v.readOnly = false := by
      simp [VirtualPath.Permits]
    refine permits_append.trans ?_
    rw [permits_createDirectories, hwrite]
    simp only [Option.isSome_some, forall_const]
    tauto

/-! ### A request -/

theorem permits_listed (h : IsListed host v req) : (∀ x ∈ onRequest host v req, v.Permits x) ↔
    Inside v.mappedPath (cstr (v.mappedPath ++ v.getLnPath req.URI)) ∧ (req.HttpVerb = .GET →
      Inside v.mappedPath (listRoot (v.mappedPath ++ (v.getLnPath req.URI).dropLast))) := by
  unfold onRequest
  simp only [h.1, h.2, if_true]
  rw [permits_append, permits_stat, inside_dropLast h.1]
  refine and_congr_right fun _ => ?_
  cases req.HttpVerb with
  | GET => simp only [permits_listDirectory, forall_const]
  | POST => exact iff_of_true permits_nil nofun

theorem permits_not_listed (h : ¬ IsListed host v req) : (∀ x ∈ onRequest host v req, v.Permits x) ↔
    ((v.getLnPath req.URI).getLast? = some slash → Inside v.mappedPath (cstr (v.mappedPath ++ v.getLnPath req.URI))) ∧
      ∀ x ∈ serveFile host v req (v.getLnPath req.URI), v.Permits x := by
  unfold onRequest
  by_cases hs : (v.getLnPath req.URI).getLast? = some slash
  · have hd : ¬ host.isDirectory (cstr (v.mappedPath ++ (v.getLnPath req.URI).dropLast)) = true := fun hd => h ⟨hs, hd⟩
    simp only [if_pos hs, if_neg hd]
    rw [permits_append, permits_stat, inside_dropLast hs]
    exact and_congr_left' ⟨fun h _ => h, fun h => h hs⟩
  · simp only [if_neg hs]
    exact (and_iff_right fun h => absurd h hs).symm

/-- Exactly under the condition, every call stays inside and nothing is written below a path that is read-only. -/
theorem onRequest_permits_iff (host : Host) (v : VirtualPath) (req : Request) :
    (∀ x ∈ onRequest host v req, v.Permits x) ↔ v.Allows host req := by
  by_cases hl : IsListed host v req
  · rw [permits_listed hl]
    constructor
    · rintro ⟨htarget, hlisted⟩
      exact ⟨fun _ => htarget, fun h _ => hlisted h, fun _ h => absurd hl h⟩
    · intro h
      exact ⟨h.target (.inr (.inl hl.1)), fun hget => h.listed hget hl⟩
  · rw [permits_not_listed hl]
    cases hverb : req.HttpVerb with
    | GET =>
      rw [permits_serveFile_get hverb]
      constructor
      · rintro ⟨-, htarget⟩
        exact ⟨fun _ => htarget, fun _ h => absurd h hl, fun h => by rw [hverb] at h; cases h⟩
      · intro h
        have htarget := h.target (.inl hverb)
        exact ⟨fun _ => htarget, htarget⟩
    | POST =>
      rw [permits_serveFile_post hverb]
      constructor
      · rintro ⟨hslash, hupload⟩
        refine ⟨?_, fun _ h => absurd h hl, fun _ _ h => (hupload h).2⟩
        rintro (h | h | h)
        · rw [hverb] at h
          cases h
        · exact hslash h
        · exact (hupload h).1
      · intro h
        exact ⟨fun hs => h.target (.inr (.inl hs)), fun hu => ⟨h.target (.inr (.inr hu)), h.uploaded hverb hl hu⟩⟩

/-! ### What gets out -/

/-- A directory that is served under `/`, read-only as it is by default. -/
def served : VirtualPath := ⟨ascii "/", ascii "/srv", true, by decide⟩

def emptyHost : Host := ⟨fun _ => false, fun _ => false, fun _ => [], fun _ _ h => absurd h List.not_mem_nil⟩

/-- The request that `OnDataRecv` makes of a target and a body. -/
def requestOf (verb : Verb) (target body : Text) : Request where
  HttpVerb := verb
  URI := (splitQuery (convertToUTF8 target)).1
  Query := (splitQuery (convertToUTF8 target)).2
  RemainHeader := []
  Body := body

/-- A file outside is opened, and one is written although the path is read-only. -/
theorem onRequest_not_confined :
    (∃ x ∈ onRequest emptyHost served (requestOf .GET (ascii "/%2e%2e/etc/passwd") []),
      x.kind = .read ∧ ¬ Inside served.mappedPath x.path) ∧
    (∃ x ∈ onRequest emptyHost served (requestOf .POST (ascii "/a") (ascii "--x\r\n\r\nhi\r\n--x--\r\n")),
      x.kind = .write ∧ served.readOnly = true) := by
  refine ⟨⟨⟨.read, ascii "/srv/../etc/passwd"⟩, ?_, rfl, ?_⟩, ⟨.write, ascii "/srv/a"⟩, ?_, rfl, rfl⟩
  · decide +kernel
  · decide +kernel
  · decide +kernel

end Cpcf.Inet
