import Cpcf.Inet.CString
import Cpcf.Rt.RelativePath

/-!
References of one page to another: `HttpSession::ResolveRelativeURL` and `HttpNavigator::SetRedirected`.

The first one puts the host before the path and takes the dot segments out of both together, so that a `..` too many
takes the host off. The second one goes through `./` and `../` at the front of a reference with a pointer to the last
separator of the current address; for `../` it looks for the separator before it, beginning with the one it stands on.
-/

namespace Cpcf.Inet.RelativeURL

open Cpcf.Lib.Memory Cpcf.Lib.Search Cpcf.Rt Cpcf.Rt.StringRef

/-! ### The code -/

/-- `SplitURL`: protocol, host and path. -/
def splitURL (t : Text) : Text × Text × Text :=
  match t.findIdx? (· = Ch.colon) with
  | none => ([], [], t)
  | some s =>
    if t.length < s + 4 ∨ t.getD (s + 1) 0 ≠ Ch.slash ∨ t.getD (s + 2) 0 ≠ Ch.slash then ([], [], t)
    else
      let rest := t.drop (s + 3)
      match rest.findIdx? (· = Ch.slash) with
      | some h => (t.take s, rest.take h, rest.drop h)
      | none => (t.take s, rest, [Ch.slash])

/-- `GetDirectoryName`: up to the last separator, which is included. -/
def getDirectoryName (t : Text) : Text :=
  if t.any fun c => c = Ch.backslash ∨ c = Ch.slash then
    (t.reverse.dropWhile fun c => ¬ (c = Ch.backslash ∨ c = Ch.slash)).reverse
  else ascii "./"

/-- `ResolveRelativePath` of a string. -/
def resolvePath (t : Text) : Text :=
  let r := resolveRelativePath (ofBytes 1 t) ⟨1, t.length + 1⟩
  r.2.text r.1

/-- `ResolveRelativeURL`; `none` is `false`. -/
def resolveRelativeURL (tobe_resolved refer : Text) : Option Text :=
  let (_protocal, _host, _path) := splitURL tobe_resolved
  let (p, h, pth) := splitURL refer
  let _protocal := if _protocal = [] then p else _protocal
  let _protocal := if _protocal = [] then ascii "http" else _protocal
  let _host := if _host = [] then h else _host
  if _host = [] then none
  else
    match _path with
    | [] => some (_protocal ++ ascii "://" ++ _host ++ [Ch.slash])
    | c :: _ =>
      if c = Ch.slash then some (_protocal ++ ascii "://" ++ _host ++ _path)
      else if pth ≠ [] ∧ pth.head? ≠ some Ch.slash then none
      else
        let pth := if pth = [] then [Ch.slash] else pth
        some (_protocal ++ ascii "://" ++ resolvePath (_host ++ getDirectoryName pth ++ _path))

/-- The offset of the last separator in front of `p`, down to `start`, or else `p` itself:
`for(p = pdir;p>begin;p--) if(*p == '/'){ pdir = p; break; }`. -/
def upFrom (dest : Text) (start pdir : ℕ) : ℕ → ℕ
  | 0 => pdir
  | p + 1 => if start < p + 1 then if dest.getD (p + 1) 0 = Ch.slash then p + 1 else upFrom dest start pdir p else pdir

/-- The loop over `./` and `../`: what is left of the reference, and the separator. -/
def dotLoop (dest : Text) (start : ℕ) : Text → ℕ → Text × ℕ
  | a :: b :: path, pdir =>
    if a = dot ∧ b = Ch.slash then dotLoop dest start path pdir
    else
      match path with
      | c :: path' =>
        if a = dot ∧ b = dot ∧ c = Ch.slash then dotLoop dest start path' (upFrom dest start pdir pdir)
        else (a :: b :: path, pdir)
      | [] => (a :: b :: path, pdir)
  | path, pdir => (path, pdir)

/-- `i>0 && url[i+1] == '/' && url[i+2] == '/'`, at the first colon. -/
def isAbsolute (url : Text) : Bool :=
  match url.findIdx? (· = Ch.colon) with
  | some i => 0 < i && url.getD (i + 1) 0 = Ch.slash && url.getD (i + 2) 0 = Ch.slash
  | none => false

/-- `begin`: `Begin() + FindString("://") + 3`. -/
def beginOf (dest : Text) : ℕ :=
  match find (ascii "://") dest with
  | some k => k + 3
  | none => 2

/-- The last separator behind `begin`; where there is none, one is put at the end. -/
def lastSeparator (dest : Text) : Text × ℕ :=
  match (dest.drop (beginOf dest)).reverse.findIdx? (· = Ch.slash) with
  | some k => (dest, dest.length - 1 - k)
  | none => (dest ++ [Ch.slash], dest.length)

/-- `SetRedirected`: the destination. -/
def setRedirected (dest url : Text) : Text :=
  if dest = [] ∨ isAbsolute url = true then url
  else if url.head? = some Ch.slash then
    match (dest.drop (beginOf dest)).findIdx? (· = Ch.slash) with
    | some p => dest.take (beginOf dest + p) ++ url
    | none => dest ++ url
  else
    let d := lastSeparator dest
    let r := dotLoop d.1 (beginOf dest) url d.2
    d.1.take (r.2 + 1) ++ r.1

/-! ### The parts of an address -/

section Parts

variable {scheme host path rel t : Text}

/-- A reference has no scheme: its first colon is not followed by two separators. -/
def NoScheme (t : Text) : Prop :=
  ∀ s, t.findIdx? (· = Ch.colon) = some s → t.getD (s + 1) 0 ≠ Ch.slash ∨ t.getD (s + 2) 0 ≠ Ch.slash

/-- An address. -/
def address (scheme host path : Text) : Text := scheme ++ ascii "://" ++ host ++ path

theorem findIdx?_append_cons {c : UInt8} (h : c ∉ t) (rest : Text) :
    (t ++ c :: rest).findIdx? (fun b => decide (b = c)) = some t.length := by
  rw [List.findIdx?_eq_some_iff_getElem]
  refine ⟨by simp, by simp, fun j hj => ?_⟩
  rw [List.getElem_append_left hj]
  simp only [decide_eq_true_eq]
  exact fun heq => h (heq ▸ List.getElem_mem hj)

theorem splitURL_address (hscheme : Ch.colon ∉ scheme) (hhost : Ch.slash ∉ host) (path : Text) :
    splitURL (address scheme host (Ch.slash :: path)) = (scheme, host, Ch.slash :: path) := by
  have htext : address scheme host (Ch.slash :: path) =
      scheme ++ Ch.colon :: Ch.slash :: Ch.slash :: (host ++ Ch.slash :: path) := by
    rw [address, show ascii "://" = [Ch.colon, Ch.slash, Ch.slash] from rfl]
    simp
  have hdrop : (scheme ++ Ch.colon :: Ch.slash :: Ch.slash :: (host ++ Ch.slash :: path)).drop (scheme.length + 3) =
      host ++ Ch.slash :: path := by
    rw [List.drop_append]
    simp
  have hlen : ¬ (scheme ++ Ch.colon :: Ch.slash :: Ch.slash :: (host ++ Ch.slash :: path)).length <
      scheme.length + 4 := by
    simp only [List.length_append, List.length_cons]
    omega
  have hone : (scheme ++ Ch.colon :: Ch.slash :: Ch.slash :: (host ++ Ch.slash :: path)).getD (scheme.length + 1) 0 =
      Ch.slash := by
    rw [List.getD_append_right _ _ _ _ (by omega)]
    simp
  have htwo : (scheme ++ Ch.colon :: Ch.slash :: Ch.slash :: (host ++ Ch.slash :: path)).getD (scheme.length + 2) 0 =
      Ch.slash := by
    rw [List.getD_append_right _ _ _ _ (by omega)]
    simp
  rw [splitURL, htext, findIdx?_append_cons hscheme]
  dsimp only
  rw [if_neg (by simp only [hone, htwo, hlen]; simp), hdrop, findIdx?_append_cons hhost]
  simp

theorem splitURL_of_noScheme (h : NoScheme t) : splitURL t = ([], [], t) := by
  rw [splitURL]
  split
  · rfl
  · rename_i s hs
    exact if_pos (.inr (h s hs))

/-- A reference that is no path from the root is put behind the directory of the address. -/
theorem resolveRelativeURL_eq (hscheme : scheme ≠ [] ∧ Ch.colon ∉ scheme) (hhost : host ≠ [] ∧ Ch.slash ∉ host)
    (path : Text) (hrel : NoScheme rel) (hne : rel ≠ []) (hpath : rel.head? ≠ some Ch.slash) :
    resolveRelativeURL rel (address scheme host (Ch.slash :: path)) =
      some (scheme ++ ascii "://" ++ resolvePath (host ++ getDirectoryName (Ch.slash :: path) ++ rel)) := by
  obtain ⟨c, rest, rfl⟩ := List.exists_cons_of_ne_nil hne
  have hc : ¬ c = 0x2f := fun heq => hpath (by rw [heq]; rfl)
  rw [resolveRelativeURL, splitURL_of_noScheme hrel, splitURL_address hscheme.2 hhost.2]
  simp [hscheme.1, hhost.1, hc]

end Parts

/-! ### Hosts and segments -/

section Segments

variable {host s : List UInt8} {k segs : List (List UInt8)}

theorem normStep_root (s : List UInt8) (k : List (List UInt8)) : ∃ k', normStep ([] :: k) s = [] :: k' := by
  unfold normStep
  split
  · exact ⟨k, rfl⟩
  · split
    · split
      · exact ⟨k, rfl⟩
      · rename_i hne
        obtain ⟨a, k, rfl⟩ := List.exists_cons_of_ne_nil (l := k) (fun hnil => hne (by rw [hnil]))
        exact ⟨(a :: k).dropLast, rfl⟩
    · exact ⟨k ++ [s], rfl⟩

/-- The normalised path stays absolute. -/
theorem norm_root (segs : List (List UInt8)) : ∃ k, norm ([] :: segs) = [] :: k := by
  have hall : ∀ k, ∃ k', segs.foldl normStep ([] :: k) = [] :: k' := by
    induction segs with
    | nil => exact fun k => ⟨k, rfl⟩
    | cons s segs ih =>
      intro k
      obtain ⟨k', hk'⟩ := normStep_root s k
      rw [List.foldl_cons, hk']
      exact ih k'
  exact hall []

/-- A segment that is not misread does to a host what it does to the root. -/
theorem openStep_host (h : ¬ Misread ([] :: k) s) (host : List UInt8) :
    ∃ k', normStep ([] :: k) s = [] :: k' ∧ openStep (host :: k) s = host :: k' := by
  rw [← openStep_eq h]
  unfold openStep
  split
  · exact ⟨k, rfl, rfl⟩
  · split
    · rename_i htwo
      obtain ⟨a, k, rfl⟩ := List.exists_cons_of_ne_nil (l := k) fun hnil =>
        h ⟨htwo.1, htwo.2, fun _ => by rw [hnil]⟩
      exact ⟨(a :: k).dropLast, rfl, rfl⟩
    · exact ⟨k ++ [s], rfl, rfl⟩

theorem length_openStep {a b : List (List UInt8)} (h : a.length = b.length) (s : List UInt8) :
    (openStep a s).length = (openStep b s).length := by
  unfold openStep
  split
  · exact h
  · split
    · rw [List.length_dropLast, List.length_dropLast, h]
    · rw [List.length_append, List.length_append, h]

theorem length_foldl_openStep {a b : List (List UInt8)} (h : a.length = b.length) (segs : List (List UInt8)) :
    (segs.foldl openStep a).length = (segs.foldl openStep b).length := by
  induction segs generalizing a b with
  | nil => exact h
  | cons s segs ih => exact ih (length_openStep h s)

theorem mem_of_mem_opened (h : s ∈ opened segs) : s ∈ segs := by
  refine (mem_foldl (fun kept s x hx => ?_) h).resolve_left List.not_mem_nil
  unfold openStep at hx
  split at hx
  · exact .inl hx
  · split at hx
    · exact .inl (List.dropLast_subset kept hx)
    · simpa using hx

theorem mem_of_mem_norm (h : s ∈ norm segs) : s ∈ segs := by
  refine (mem_foldl (fun kept s x hx => ?_) h).resolve_left List.not_mem_nil
  unfold normStep at hx
  split at hx
  · exact .inl hx
  · split at hx
    · split at hx
      · exact .inl hx
      · exact .inl (List.dropLast_subset kept hx)
    · simpa using hx

/-- The segments of a path from the root are read as they are meant. -/
def WellRead (segs : List (List UInt8)) : Prop :=
  ∀ i, (hi : i < segs.length) → ¬ Misread (norm (segs.take i)) segs[i]

instance (segs : List (List UInt8)) : Decidable (WellRead segs) :=
  inferInstanceAs (Decidable (∀ i, (hi : i < segs.length) → ¬ Misread (norm (segs.take i)) segs[i]))

theorem foldl_openStep_host (h : ∀ i, (hi : i < segs.length) → ¬ Misread ((segs.take i).foldl normStep ([] :: k)) segs[i])
    (host : List UInt8) : ∃ k', segs.foldl normStep ([] :: k) = [] :: k' ∧ segs.foldl openStep (host :: k) = host :: k' := by
  induction segs generalizing k with
  | nil => exact ⟨k, rfl, rfl⟩
  | cons s segs ih =>
    obtain ⟨k', hn, ho⟩ := openStep_host (s := s) (h 0 (Nat.succ_pos _)) host
    rw [List.foldl_cons, List.foldl_cons, hn, ho]
    refine ih fun i hi => ?_
    have := h (i + 1) (Nat.succ_lt_succ hi)
    rw [List.take_succ_cons, List.foldl_cons, hn] at this
    exact this

theorem intercalate_cons (x : List UInt8) (k : List (List UInt8)) :
    [Ch.slash].intercalate (x :: k) = x ++ [Ch.slash].intercalate ([] :: k) := by
  cases k <;> simp [List.intercalate, List.intersperse]

/-- With a host in front a path is resolved as it is without one if and only if its segments are read as they are
meant. -/
theorem intercalate_opened_iff (hhost : host ≠ [] ∧ Ch.slash ∉ host ∧ host.head? ≠ some dot)
    (hsegs : ∀ s ∈ segs, Ch.slash ∉ s) :
    [Ch.slash].intercalate (opened (host :: segs)) = host ++ [Ch.slash].intercalate (norm ([] :: segs)) ↔
      WellRead ([] :: segs) := by
  have hfirst : opened (host :: segs) = segs.foldl openStep [host] := by
    have hone : host ≠ [dot] := fun heq => hhost.2.2 (by rw [heq]; rfl)
    rw [opened, List.foldl_cons, openStep, if_neg hone, if_neg (fun h => hhost.2.2 h.2)]
    rfl
  obtain ⟨k, hk⟩ := norm_root segs
  rw [hk, ← intercalate_cons]
  constructor
  · intro htext i hi hm
    have hlt := opened_lt_of_misread hi hm hi le_rfl (by
      intro j hij hj
      obtain ⟨j, rfl⟩ : ∃ n, j = n + 1 := ⟨j - 1, by omega⟩
      obtain ⟨k', hk'⟩ := norm_root (segs.take j)
      rw [List.take_succ_cons, hk']
      exact List.cons_ne_nil _ _)
    rw [List.take_length, hk] at hlt
    have hlen : (opened (host :: segs)).length = (opened ([] :: segs)).length := by
      rw [hfirst]
      exact length_foldl_openStep (a := [host]) (b := [[]]) rfl segs
    have hopen : ∀ s ∈ opened (host :: segs), Ch.slash ∉ s := fun s hs =>
      (List.mem_cons.mp (mem_of_mem_opened hs)).elim (fun heq => heq ▸ hhost.2.1) (hsegs s)
    have hnorm : ∀ s ∈ host :: k, Ch.slash ∉ s := by
      intro s hs
      obtain rfl | hs := List.mem_cons.mp hs
      · exact hhost.2.1
      · have hmem : s ∈ norm ([] :: segs) := hk ▸ List.mem_cons_of_mem _ hs
        exact (List.mem_cons.mp (mem_of_mem_norm hmem)).elim (fun heq => heq ▸ List.not_mem_nil) (hsegs s)
    obtain heq | ⟨-, heq⟩ | ⟨-, heq⟩ := intercalate_inj hopen hnorm htext
    · rw [← hlen, heq] at hlt
      exact absurd hlt (lt_irrefl _)
    · exact hhost.1 (List.cons.inj heq).1
    · cases heq
  · intro h
    obtain ⟨k', hn, ho⟩ := foldl_openStep_host (k := []) (fun i hi => h (i + 1) (Nat.succ_lt_succ hi)) host
    have hkk : k' = k := by
      have hroot : norm ([] :: segs) = segs.foldl normStep [[]] := rfl
      rw [hroot, hn] at hk
      exact (List.cons_inj_right _).mp hk
    rw [hfirst, ho, hkk]

end Segments

/-! ### The path of an address -/

section Path

variable {host t path rel : Text}

theorem merged_append (h : Ch.slash ∉ host) (t : Text) :
    merged (· == Ch.slash) false (host ++ t) = host ++ merged (· == Ch.slash) false t := by
  induction host with
  | nil => rfl
  | cons c host ih =>
    have hc : ¬ (c == Ch.slash) = true := fun heq => h (by simp [beq_iff_eq.mp heq])
    rw [List.cons_append, merged, if_neg hc, ih fun hmem => h (List.mem_cons_of_mem _ hmem)]
    rfl

theorem pathNames_host (h : Ch.slash ∉ host) (t : Text) :
    pathNames (host ++ Ch.slash :: t) = host :: (merged (· == Ch.slash) true t).splitOn Ch.slash := by
  have hmerged : merged (· == Ch.slash) false (host ++ Ch.slash :: t) =
      host ++ Ch.slash :: merged (· == Ch.slash) true t := by
    rw [merged_append h]
    simp [merged]
  rw [pathNames, hmerged]
  refine List.splitOn_append_cons_of_forall_mem_beq_eq_false (fun x hx => ?_) _ (beq_self_eq_true _) _
  exact beq_eq_false_iff_ne.mpr fun heq => h (heq ▸ hx)

theorem getDirectoryName_root (path : Text) : ∃ d, getDirectoryName (Ch.slash :: path) = Ch.slash :: d := by
  have hany : (Ch.slash :: path).any (fun c => decide (c = Ch.backslash ∨ c = Ch.slash)) = true := by simp
  rw [getDirectoryName, if_pos hany, List.reverse_cons, List.dropWhile_append]
  split
  · rw [List.dropWhile_cons_of_neg (by simp)]
    exact ⟨[], rfl⟩
  · rw [List.reverse_append]
    exact ⟨_, rfl⟩

theorem resolvePath_text (hq : ∀ c ∈ t, c ≠ Ch.dquote ∧ c ≠ Ch.squote) (hfew : (pathNames t).length < 256)
    (hsize : ∀ s ∈ pathNames t, IntLength s.length) :
    resolvePath t = [Ch.slash].intercalate (opened (pathNames t)) := by
  have htext : (⟨1, t.length + 1⟩ : Ref).text (ofBytes 1 t) = t := (holds_ofBytes 1 t).read_eq
  have h := resolveRelativePath_text (m := ofBytes 1 t) (r := ⟨1, t.length + 1⟩) (by simp) (htext.symm ▸ hq)
    (htext.symm ▸ hfew) (htext.symm ▸ hsize)
  rw [htext] at h
  exact h

theorem unquoted_of_all (h : (t.all fun c => decide (c ≠ Ch.dquote ∧ c ≠ Ch.squote)) = true) :
    ∀ c ∈ t, c ≠ Ch.dquote ∧ c ≠ Ch.squote := fun c hc => of_decide_eq_true (List.all_eq_true.mp h c hc)

end Path

/-! ### Redirections -/

section Redirected

variable {scheme host file rest url dest : Text} {ds : List Text}

/-- Directories, each with the separator behind it. -/
def directories (ds : List Text) : Text := (ds.map fun d => d ++ [Ch.slash]).flatten

/-- What stands at the front of a reference: `true` is `../` and `false` is `./`. -/
def dots (bs : List Bool) : Text := (bs.map fun b => if b then ascii "../" else ascii "./").flatten

/-- The address of a file. -/
def fileAddress (scheme host : Text) (ds : List Text) (file : Text) : Text :=
  address scheme host (Ch.slash :: (directories ds ++ file))

/-- The pointer is at a separator behind the start: it finds itself. -/
theorem upFrom_self {start pdir : ℕ} (hlt : start < pdir) (hsep : dest.getD pdir 0 = Ch.slash) :
    upFrom dest start pdir pdir = pdir := by
  obtain ⟨p, rfl⟩ : ∃ p, pdir = p + 1 := ⟨pdir - 1, by omega⟩
  rw [upFrom, if_pos hlt, if_pos hsep]

/-- Neither `./` nor `../` is at the front. -/
def NoDots (rest : Text) : Prop := ¬ ascii "./" <+: rest ∧ ¬ ascii "../" <+: rest

theorem dotLoop_noDots (h : NoDots rest) (dest : Text) (start pdir : ℕ) : dotLoop dest start rest pdir = (rest, pdir) := by
  unfold dotLoop
  split
  · rename_i a b path
    rw [if_neg]
    · split
      · rename_i c path'
        refine if_neg ?_
        rintro ⟨rfl, rfl, rfl⟩
        exact h.2 ⟨path', rfl⟩
      · rfl
    · rintro ⟨rfl, rfl⟩
      exact h.1 ⟨path, rfl⟩
  · rfl

theorem dotLoop_here (dest : Text) (start : ℕ) (path : Text) (pdir : ℕ) :
    dotLoop dest start (dot :: Ch.slash :: path) pdir = dotLoop dest start path pdir := by
  conv_lhs => unfold dotLoop
  exact if_pos ⟨rfl, rfl⟩

theorem dotLoop_up (dest : Text) (start : ℕ) (path : Text) (pdir : ℕ) :
    dotLoop dest start (dot :: dot :: Ch.slash :: path) pdir = dotLoop dest start path (upFrom dest start pdir pdir) := by
  conv_lhs => unfold dotLoop
  exact (if_neg (by decide)).trans (if_pos ⟨rfl, rfl, rfl⟩)

/-- The loop goes over `./` and `../`, and the pointer stays where it is. -/
theorem dotLoop_dots {start pdir : ℕ} (hlt : start < pdir) (hsep : dest.getD pdir 0 = Ch.slash) (bs : List Bool)
    (h : NoDots rest) : dotLoop dest start (dots bs ++ rest) pdir = (rest, pdir) := by
  induction bs with
  | nil => exact dotLoop_noDots h dest start pdir
  | cons b bs ih =>
    cases b with
    | false =>
      have htext : dots (false :: bs) ++ rest = dot :: Ch.slash :: (dots bs ++ rest) := rfl
      rw [htext, dotLoop_here, ih]
    | true =>
      have htext : dots (true :: bs) ++ rest = dot :: dot :: Ch.slash :: (dots bs ++ rest) := rfl
      rw [htext, dotLoop_up, upFrom_self hlt hsep, ih]

theorem isAbsolute_of_noScheme (h : NoScheme url) : isAbsolute url = false := by
  rw [isAbsolute]
  split
  · rename_i i hi
    obtain hne | hne := h i hi
    · rw [decide_eq_false hne, Bool.and_false, Bool.false_and]
    · rw [decide_eq_false hne, Bool.and_false]
  · rfl

theorem find_address (h : Ch.colon ∉ scheme) (rest : Text) :
    find (ascii "://") (scheme ++ (ascii "://" ++ rest)) = some scheme.length := by
  induction scheme with
  | nil => exact find_of_prefix (List.prefix_append _ _)
  | cons c scheme ih =>
    have hc : ¬ ascii "://" <+: c :: (scheme ++ (ascii "://" ++ rest)) := fun hpre =>
      h (List.mem_cons.mpr (.inl (List.cons_prefix_cons.mp hpre).1))
    rw [List.cons_append, find_cons, if_neg hc, ih fun hmem => h (List.mem_cons_of_mem _ hmem)]
    rfl

theorem findIdx?_reverse (h : Ch.slash ∉ file) (t : Text) :
    (t ++ Ch.slash :: file).reverse.findIdx? (fun b => decide (b = Ch.slash)) = some file.length := by
  rw [List.reverse_append, List.reverse_cons, List.append_assoc, ← List.length_reverse]
  exact findIdx?_append_cons (fun hmem => h (List.mem_reverse.mp hmem)) t.reverse

/-- The separator behind the last directory. -/
theorem exists_last (host : Text) (ds : List Text) : ∃ q : Text, host ++ Ch.slash :: directories ds = q ++ [Ch.slash] := by
  induction ds using List.reverseRecOn with
  | nil => exact ⟨host, rfl⟩
  | append_singleton ds d => exact ⟨host ++ Ch.slash :: (directories ds ++ d), by simp [directories]⟩

theorem drop_begin (h : Ch.colon ∉ scheme) (rest : Text) :
    (scheme ++ (ascii "://" ++ rest)).drop (beginOf (scheme ++ (ascii "://" ++ rest))) = rest := by
  have hlen : (ascii "://").length = 3 := rfl
  rw [beginOf, find_address h]
  dsimp only
  rw [← hlen, ← List.length_append, ← List.append_assoc, List.drop_left]

/-- A path from the root. -/
theorem setRedirected_root (hscheme : Ch.colon ∉ scheme) (hhost : Ch.slash ∉ host) (path : Text)
    (hurl : NoScheme (Ch.slash :: url)) :
    setRedirected (address scheme host (Ch.slash :: path)) (Ch.slash :: url) =
      address scheme host (Ch.slash :: url) := by
  have haddress : ∀ t, address scheme host t = scheme ++ (ascii "://" ++ (host ++ t)) := by simp [address]
  have hne : ¬ (scheme ++ (ascii "://" ++ (host ++ Ch.slash :: path)) = [] ∨ isAbsolute (Ch.slash :: url) = true) := by
    rw [isAbsolute_of_noScheme hurl]
    simp
  have htake : (scheme ++ (ascii "://" ++ (host ++ Ch.slash :: path))).take (scheme.length + 3 + host.length) =
      scheme ++ (ascii "://" ++ host) := by
    have htext : scheme ++ (ascii "://" ++ (host ++ Ch.slash :: path)) =
        scheme ++ (ascii "://" ++ host) ++ Ch.slash :: path := by simp
    have hlen : (ascii "://").length = 3 := rfl
    rw [htext]
    refine List.take_left' ?_
    rw [List.length_append, List.length_append, hlen]
    omega
  rw [haddress, haddress, setRedirected, if_neg hne, if_pos (by rfl), drop_begin hscheme, findIdx?_append_cons hhost]
  dsimp only
  rw [beginOf, find_address hscheme]
  dsimp only
  rw [htake]
  simp

/-- A path from the directory: the last separator is found, and the dots move it nowhere. -/
theorem setRedirected_relative (hscheme : Ch.colon ∉ scheme) (hhost : host ≠ []) (ds : List Text)
    (hfile : Ch.slash ∉ file) (bs : List Bool) (hurl : NoScheme (dots bs ++ rest)) (hrest : NoDots rest)
    (hpath : (dots bs ++ rest).head? ≠ some Ch.slash) :
    setRedirected (fileAddress scheme host ds file) (dots bs ++ rest) = fileAddress scheme host ds rest := by
  obtain ⟨q, hq⟩ := exists_last host ds
  have hlen : (ascii "://").length = 3 := rfl
  have haddress : ∀ t, fileAddress scheme host ds t = scheme ++ (ascii "://" ++ (q ++ Ch.slash :: t)) := by
    intro t
    have := congrArg (fun x => scheme ++ (ascii "://" ++ (x ++ t))) hq
    simpa [fileAddress, address] using this
  have hpos : 0 < q.length := by
    have := congrArg List.length hq
    have := List.length_pos_iff.mpr hhost
    simp only [List.length_append, List.length_cons, List.length_nil] at *
    omega
  have hbegin : beginOf (scheme ++ (ascii "://" ++ (q ++ Ch.slash :: file))) = scheme.length + 3 := by
    rw [beginOf, find_address hscheme]
  have hlast : lastSeparator (scheme ++ (ascii "://" ++ (q ++ Ch.slash :: file))) =
      (scheme ++ (ascii "://" ++ (q ++ Ch.slash :: file)), scheme.length + 3 + q.length) := by
    rw [lastSeparator, drop_begin hscheme, findIdx?_reverse hfile]
    simp only [List.length_append, List.length_cons, hlen]
    refine Prod.ext rfl ?_
    dsimp only
    omega
  have htext : scheme ++ (ascii "://" ++ (q ++ Ch.slash :: file)) = (scheme ++ (ascii "://" ++ q)) ++ Ch.slash :: file := by
    simp
  have hfront : (scheme ++ (ascii "://" ++ q)).length = scheme.length + 3 + q.length := by
    rw [List.length_append, List.length_append, hlen]
    omega
  have hsep : (scheme ++ (ascii "://" ++ (q ++ Ch.slash :: file))).getD (scheme.length + 3 + q.length) 0 = Ch.slash := by
    rw [htext, ← hfront, List.getD_append_right _ _ _ _ le_rfl, Nat.sub_self]
    rfl
  have hne : ¬ (scheme ++ (ascii "://" ++ (q ++ Ch.slash :: file)) = [] ∨ isAbsolute (dots bs ++ rest) = true) := by
    rw [isAbsolute_of_noScheme hurl]
    simp
  rw [haddress, haddress, setRedirected, if_neg hne, if_neg hpath, hlast, hbegin]
  dsimp only
  rw [dotLoop_dots (by omega) hsep bs hrest]
  dsimp only
  rw [htext, ← hfront, List.take_append, List.take_of_length_le (Nat.le_succ _)]
  simp

/-- An address without a path gets a separator. -/
theorem setRedirected_noPath (hscheme : Ch.colon ∉ scheme) (hhost : host ≠ [] ∧ Ch.slash ∉ host) (bs : List Bool)
    (hurl : NoScheme (dots bs ++ rest)) (hrest : NoDots rest) (hpath : (dots bs ++ rest).head? ≠ some Ch.slash) :
    setRedirected (address scheme host []) (dots bs ++ rest) = fileAddress scheme host [] rest := by
  have hlen : (ascii "://").length = 3 := rfl
  have haddress : address scheme host [] = scheme ++ (ascii "://" ++ host) := by simp [address]
  have hbegin : beginOf (scheme ++ (ascii "://" ++ host)) = scheme.length + 3 := by
    rw [beginOf, find_address hscheme]
  have hnone : host.reverse.findIdx? (fun b => decide (b = Ch.slash)) = none := by
    refine List.findIdx?_eq_none_iff.mpr fun x hx => decide_eq_false fun heq => ?_
    exact hhost.2 (heq ▸ List.mem_reverse.mp hx)
  have hlast : lastSeparator (scheme ++ (ascii "://" ++ host)) =
      (scheme ++ (ascii "://" ++ host) ++ [Ch.slash], (scheme ++ (ascii "://" ++ host)).length) := by
    rw [lastSeparator, drop_begin hscheme, hnone]
  have hfront : scheme.length + 3 < (scheme ++ (ascii "://" ++ host)).length := by
    have := List.length_pos_iff.mpr hhost.1
    rw [List.length_append, List.length_append, hlen]
    omega
  have hsep : (scheme ++ (ascii "://" ++ host) ++ [Ch.slash]).getD (scheme ++ (ascii "://" ++ host)).length 0 =
      Ch.slash := by
    rw [List.getD_append_right _ _ _ _ le_rfl, Nat.sub_self]
    rfl
  have hne : ¬ (scheme ++ (ascii "://" ++ host) = [] ∨ isAbsolute (dots bs ++ rest) = true) := by
    rw [isAbsolute_of_noScheme hurl]
    simp [hhost.1]
  rw [haddress, setRedirected, if_neg hne, if_neg hpath, hlast, hbegin]
  dsimp only
  rw [dotLoop_dots hfront hsep bs hrest]
  dsimp only
  have hall : (scheme ++ (ascii "://" ++ host) ++ [Ch.slash]).length ≤ (scheme ++ (ascii "://" ++ host)).length + 1 := by
    rw [List.length_append]
    exact le_rfl
  rw [List.take_of_length_le hall]
  simp [fileAddress, address, directories]

theorem fileAddress_take_iff {n : ℕ} :
    fileAddress scheme host ds rest = fileAddress scheme host (ds.take n) rest ↔ ds.length ≤ n := by
  constructor
  · intro h
    by_contra hlt
    have hlen := congrArg List.length h
    have hsplit : directories ds = directories (ds.take n) ++ directories (ds.drop n) := by
      rw [directories, directories, directories, ← List.flatten_append, ← List.map_append, List.take_append_drop]
    have hpos : 0 < (directories (ds.drop n)).length := by
      obtain ⟨d, rest, hd⟩ := List.exists_cons_of_ne_nil (l := ds.drop n) fun hnil => hlt (List.drop_eq_nil_iff.mp hnil)
      rw [hd]
      simp [directories]
    rw [fileAddress, fileAddress, address, address, hsplit] at hlen
    simp only [List.length_append, List.length_cons] at hlen
    omega
  · intro h
    rw [List.take_of_length_le h]

end Redirected

end Cpcf.Inet.RelativeURL
