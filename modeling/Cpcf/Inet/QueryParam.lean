import Cpcf.Inet.RequestAssembly
import Cpcf.Os.Url

/-!
`HttpResponse::GetQueryParam` on the query of a target that was encoded with `os::UrlEncode`.

The target is decoded before it is split, so what was encoded is taken for a separator again, and a lookup compares the
name with whatever is in front of a `=`. A text such as `a=1&b` is in front of one as well.
-/

namespace Cpcf.Inet

open Cpcf.Lib.Search Cpcf.Rt Cpcf.Os.Url

/-! ### The code -/

/-- What `GetQueryParam` checks at a `=`. In front of the query there are its terminator, the path and a blank. -/
def isParamAt (r : Request) (name : Text) (offset : ℕ) : Bool :=
  let mem := 0x20 :: r.URI ++ 0 :: r.Query
  let begin_ := r.URI.length + 2
  name.length ≤ offset + 1 && r.Query[offset]? = some 0x3d &&
    decide (schar (mem[begin_ + offset - name.length - 1]?.getD 0) < 0x30) &&
    decide ((mem.drop (begin_ + offset - name.length)).take name.length = name)

/-- `GetQueryParam`. For an empty name the search begins at -1, which is behind any text. -/
def getQueryParam (r : Request) (name : Text) : Text :=
  if name = [] then []
  else
    match (List.range r.Query.length).find? (isParamAt r name) with
    | some offset => (r.Query.drop (offset + 1)).takeWhile (· ≠ 0x26)
    | none => []

/-! ### What is sent -/

/-- A parameter. -/
structure Param where
  name : Text
  value : Text
  name_ok : 0 ∉ name
  value_ok : 0 ∉ value

/-- Parameters joined by `&`, where `f` writes a name or a value. -/
def joinParams (f : Text → Text) : List Param → Text
  | [] => []
  | [p] => f p.name ++ 0x3d :: f p.value
  | p :: ps => f p.name ++ 0x3d :: f p.value ++ 0x26 :: joinParams f ps

attribute [local simp] joinParams

/-- A target: the path and the parameters behind a `?`. -/
def joinTarget (f : Text → Text) (path : Text) (ps : List Param) : Text :=
  f path ++ if ps = [] then [] else 0x3f :: joinParams f ps

/-- The value of the first parameter with a name. -/
def valueOf (ps : List Param) (name : Text) : Text := ((ps.find? (·.name = name)).map (·.value)).getD []

/-! ### Decoding -/

variable {s t : Text} {ps : List Param} {w : Text} {o k : ℕ} {r : Request}

theorem decode_binary : ∀ b : UInt8, hexDigit (binaryLow b) ||| (hexDigit (binaryHigh b) <<< 4) = b := by
  set_option maxRecDepth 20000 in decide

theorem convertToUTF8_cons {c : UInt8} (h : c ≠ 0x25) : convertToUTF8 (c :: s) = c :: convertToUTF8 s := by
  rw [convertToUTF8.eq_def]
  exact if_pos h

theorem convertToUTF8_encodeByte (b : UInt8) (s : Text) : convertToUTF8 (encodeByte b ++ s) = b :: convertToUTF8 s := by
  unfold encodeByte
  split
  · rename_i h
    exact convertToUTF8_cons (percent_reserved b h).1
  · rw [convertToUTF8.eq_def]
    simp only [List.cons_append, List.nil_append, Ch.percent, ne_eq, not_true_eq_false, if_false, decode_binary]

theorem convertToUTF8_urlEncode (s t : Text) : convertToUTF8 (urlEncode s ++ t) = s ++ convertToUTF8 t := by
  unfold urlEncode
  induction s with
  | nil => rfl
  | cons b s ih => rw [List.flatMap_cons, List.append_assoc, convertToUTF8_encodeByte, ih, List.cons_append]

theorem convertToUTF8_joinParams (ps : List Param) : convertToUTF8 (joinParams urlEncode ps) = joinParams id ps := by
  have hvalue : ∀ s : Text, convertToUTF8 (urlEncode s) = s := by
    intro s
    rw [← List.append_nil (urlEncode s), convertToUTF8_urlEncode]
    exact List.append_nil s
  induction ps with
  | nil => rfl
  | cons p ps ih =>
    cases ps with
    | nil =>
      rw [joinParams, convertToUTF8_urlEncode, convertToUTF8_cons (by decide), hvalue]
      rfl
    | cons q ps =>
      rw [joinParams, List.append_assoc, convertToUTF8_urlEncode, List.cons_append, convertToUTF8_cons (by decide),
        convertToUTF8_urlEncode, convertToUTF8_cons (by decide), ih]
      · simp
      · simp

theorem convertToUTF8_joinTarget (path : Text) (ps : List Param) :
    convertToUTF8 (joinTarget urlEncode path ps) = joinTarget id path ps := by
  unfold joinTarget
  rw [convertToUTF8_urlEncode]
  split
  · rfl
  · rw [convertToUTF8_cons (by decide), convertToUTF8_joinParams]
    rfl

/-! ### Looking up -/

/-- At `o` there is a `=` with `w` in front of it, and in front of that a byte below `0` or nothing. -/
def Place (q w : Text) (o : ℕ) : Prop :=
  q[o]? = some 0x3d ∧ ∃ s, q.take o = s ++ w ∧ ∀ c ∈ s.getLast?, schar c < 0x30

/-- What is behind the `=` at `o`, up to the next `&`. -/
def valueAt (q : Text) (o : ℕ) : Text := (q.drop (o + 1)).takeWhile (· ≠ 0x26)

theorem Place.length_le (h : Place s w o) : w.length ≤ o := by
  obtain ⟨-, u, hu, -⟩ := h
  have := congrArg List.length hu
  rw [List.length_take, List.length_append] at this
  omega

theorem Place.lt_length (h : Place s w o) : o < s.length := (List.getElem?_eq_some_iff.mp h.1).1

theorem isParamAt_iff (hw : w ≠ []) (h0 : 0 ∉ w) : isParamAt r w o = true ↔ Place r.Query w o := by
  have hmem : ∀ k, (0x20 :: r.URI ++ 0 :: r.Query)[r.URI.length + 2 + k]? = r.Query[k]? := by
    intro k
    rw [List.getElem?_append_right (by simp; omega)]
    simp [show r.URI.length + 2 + k - (r.URI.length + 1) = k + 1 by omega]
  have hdrop : ∀ k, (0x20 :: r.URI ++ 0 :: r.Query).drop (r.URI.length + 2 + k) = r.Query.drop k := by
    intro k
    rw [List.drop_append, List.drop_of_length_le (by simp; omega), List.nil_append, List.length_cons,
      show r.URI.length + 2 + k - (r.URI.length + 1) = k + 1 by omega, List.drop_succ_cons]
  have hzero : (0x20 :: r.URI ++ 0 :: r.Query)[r.URI.length + 1]? = some 0 := by
    rw [List.getElem?_append_right (by simp)]
    simp
  have hlen := List.length_pos_iff.mpr hw
  unfold isParamAt
  simp only [Bool.and_eq_true, decide_eq_true_eq]
  constructor
  · rintro ⟨⟨⟨hle, heq⟩, hbound⟩, hcmp⟩
    have hle : w.length ≤ o := by
      by_contra hgt
      -- the terminator in front of the query is no part of the name
      have ho : r.URI.length + 2 + o - w.length = (0x20 :: r.URI).length := by
        rw [List.length_cons]
        omega
      rw [ho, List.drop_left] at hcmp
      obtain ⟨n, hn⟩ := Nat.exists_eq_add_one.mpr hlen
      rw [hn, List.take_succ_cons] at hcmp
      exact h0 (hcmp ▸ List.mem_cons_self)
    have hlt : o < r.Query.length := (List.getElem?_eq_some_iff.mp heq).1
    rw [show r.URI.length + 2 + o - w.length = r.URI.length + 2 + (o - w.length) by omega, hdrop] at hcmp
    refine ⟨heq, r.Query.take (o - w.length), ?_, ?_⟩
    · rw [← Nat.sub_add_cancel hle, List.take_add, Nat.sub_add_cancel hle, hcmp]
    · intro c hc
      have hk : 0 < o - w.length := by
        by_contra hk
        rw [Nat.eq_zero_of_not_pos hk] at hc
        cases hc
      have hlast : r.Query[o - w.length - 1]? = some c := by
        rwa [Option.mem_def, List.getLast?_eq_getElem?, List.length_take, List.getElem?_take_of_lt (by omega),
          show min (o - w.length) r.Query.length - 1 = o - w.length - 1 by omega] at hc
      rw [show r.URI.length + 2 + o - w.length - 1 = r.URI.length + 2 + (o - w.length - 1) by omega, hmem, hlast] at hbound
      exact hbound
  · rintro ⟨heq, s, hs, hlast⟩
    have hlt : o < r.Query.length := (List.getElem?_eq_some_iff.mp heq).1
    have hlen := congrArg List.length hs
    rw [List.length_take, List.length_append, Nat.min_eq_left hlt.le] at hlen
    refine ⟨⟨⟨by omega, heq⟩, ?_⟩, ?_⟩
    · cases hl : s.getLast? with
      | none =>
        rw [List.getLast?_eq_none_iff] at hl
        rw [hl, List.length_nil] at hlen
        rw [show r.URI.length + 2 + o - w.length - 1 = r.URI.length + 1 by omega, hzero]
        decide
      | some c =>
        have hpos : 0 < s.length := List.length_pos_iff.mpr (by rintro rfl; cases hl)
        have hc : r.Query[s.length - 1]? = some c := by
          rw [← List.getElem?_take_of_lt (show s.length - 1 < o by omega), hs,
            List.getElem?_append_left (by omega), ← List.getLast?_eq_getElem?, hl]
        rw [show r.URI.length + 2 + o - w.length - 1 = r.URI.length + 2 + (s.length - 1) by omega, hmem, hc]
        exact hlast c hl
    · rw [show r.URI.length + 2 + o - w.length = r.URI.length + 2 + s.length by omega, hdrop]
      have h := congrArg (List.drop s.length) hs
      rw [List.drop_left, List.drop_take] at h
      rw [← h]
      simp [hlen]

/-- The first place counts. -/
theorem getQueryParam_of_first (hw : w ≠ []) (h0 : 0 ∉ w) (h : Place r.Query w o)
    (hmin : ∀ o' < o, ¬ Place r.Query w o') : getQueryParam r w = valueAt r.Query o := by
  have hfind : (List.range r.Query.length).find? (isParamAt r w) = some o := by
    rw [List.find?_range_eq_some]
    refine ⟨(isParamAt_iff hw h0).mpr h, List.mem_range.mpr h.lt_length, fun o' ho' => ?_⟩
    rw [Bool.not_eq_true', ← Bool.not_eq_true, isParamAt_iff hw h0]
    exact hmin o' ho'
  unfold getQueryParam
  rw [if_neg hw, hfind]
  rfl

theorem getQueryParam_of_none (h0 : 0 ∉ w) (h : w ≠ [] → ∀ o, ¬ Place r.Query w o) : getQueryParam r w = [] := by
  unfold getQueryParam
  split
  · rfl
  · rename_i hw
    have hfind : (List.range r.Query.length).find? (isParamAt r w) = none := by
      rw [List.find?_eq_none]
      intro o _
      rw [isParamAt_iff hw h0]
      exact h hw o
    rw [hfind]

/-- Either there is a first place or there is none. -/
theorem getQueryParam_cases (h0 : 0 ∉ w) : getQueryParam r w = [] ∨
    ∃ o, Place r.Query w o ∧ (∀ o' < o, ¬ Place r.Query w o') ∧ getQueryParam r w = valueAt r.Query o := by
  by_cases hw : w = []
  · exact .inl (getQueryParam_of_none h0 fun h => absurd hw h)
  · by_cases hex : ∃ o, Place r.Query w o
    · classical
      have hmin : ∀ o' < Nat.find hex, ¬ Place r.Query w o' := fun o' ho' => Nat.find_min hex ho'
      exact .inr ⟨_, Nat.find_spec hex, hmin, getQueryParam_of_first hw h0 (Nat.find_spec hex) hmin⟩
    · exact .inl (getQueryParam_of_none h0 fun _ o ho => hex ⟨o, ho⟩)

/-- All of the query in front of a `=` counts as a name. -/
theorem getQueryParam_take (h0 : 0 ∉ r.Query) (ho : 0 < o) (h : r.Query[o]? = some 0x3d) :
    getQueryParam r (r.Query.take o) = valueAt r.Query o := by
  have hlt : o < r.Query.length := (List.getElem?_eq_some_iff.mp h).1
  have hlen : (r.Query.take o).length = o := by rw [List.length_take, Nat.min_eq_left hlt.le]
  apply getQueryParam_of_first
  · exact List.ne_nil_of_length_pos (by omega)
  · exact fun hm => h0 (List.mem_of_mem_take hm)
  · exact ⟨h, [], by simp, nofun⟩
  · intro o' ho' hp
    have := hp.length_le
    omega

/-! ### The parameters in the query -/

variable {p x : Param} {as bs : List Param}

theorem zero_notMem_joinParams (ps : List Param) : 0 ∉ joinParams id ps := by
  induction ps with
  | nil => exact List.not_mem_nil
  | cons p ps ih =>
    cases ps with
    | nil => simp [p.name_ok, p.value_ok]
    | cons y ps => simp [p.name_ok, p.value_ok, ih]

theorem joinParams_head (p : Param) (ps : List Param) : ∃ post, joinParams id (p :: ps) = p.name ++ 0x3d :: (p.value ++ post) ∧
    ∀ c ∈ post.head?, c = 0x26 := by
  cases ps with
  | nil => exact ⟨[], by simp, nofun⟩
  | cons y ps => exact ⟨0x26 :: joinParams id (y :: ps), by simp, by simp⟩

/-- A parameter in the query: in front of it is nothing, or the others up to a `&`. -/
theorem joinParams_split (as bs : List Param) (p : Param) : ∃ pre post,
    joinParams id (as ++ p :: bs) = pre ++ (p.name ++ 0x3d :: (p.value ++ post)) ∧ (∀ c ∈ post.head?, c = 0x26) ∧
      (∀ c ∈ pre.getLast?, c = 0x26) ∧ ∀ x ∈ as.head?, x.name.length < pre.length := by
  induction as with
  | nil =>
    obtain ⟨post, h, hpost⟩ := joinParams_head p bs
    exact ⟨[], post, h, hpost, nofun, nofun⟩
  | cons y as ih =>
    obtain ⟨pre, post, h, hpost, hpre, -⟩ := ih
    refine ⟨y.name ++ 0x3d :: y.value ++ [0x26] ++ pre, post, ?_, hpost, ?_, ?_⟩
    · rw [List.cons_append]
      obtain ⟨z, zs, hz⟩ := List.exists_cons_of_ne_nil (show as ++ p :: bs ≠ [] by simp)
      rw [hz, joinParams, ← hz, h]
      · simp
      · exact List.cons_ne_nil _ _
    · intro c hc
      rw [Option.mem_def, List.getLast?_append, Option.or_eq_some_iff] at hc
      rcases hc with hc | ⟨-, hc⟩
      · exact hpre c hc
      · rw [List.getLast?_concat, Option.some.injEq] at hc
        exact hc.symm
    · intro x hx
      rw [List.head?_cons, Option.mem_some_iff] at hx
      simp [← hx]

theorem takeWhile_value {v post : Text} (h : ∀ c ∈ post.head?, c = 0x26) :
    (v ++ post).takeWhile (· ≠ 0x26) = v.takeWhile (· ≠ 0x26) := by
  have hpost : post.takeWhile (· ≠ 0x26) = [] := by
    cases post with
    | nil => rfl
    | cons c post => exact List.takeWhile_cons_of_neg (by simp [h c rfl])
  rw [List.takeWhile_append, hpost, List.append_nil]
  split
  · rename_i hlen
    exact ((List.takeWhile_prefix _).eq_of_length hlen).symm
  · rfl

/-- A name and its value in a query. -/
theorem place_of_eq {q pre n v post : Text} (h : q = pre ++ (n ++ 0x3d :: (v ++ post)))
    (hpost : ∀ c ∈ post.head?, c = 0x26) (hpre : ∀ c ∈ pre.getLast?, c = 0x26) :
    Place q n (pre ++ n).length ∧ valueAt q (pre ++ n).length = v.takeWhile (· ≠ 0x26) := by
  rw [← List.append_assoc] at h
  refine ⟨⟨?_, pre, ?_, ?_⟩, ?_⟩
  · rw [h, List.getElem?_append_right le_rfl, Nat.sub_self]
    rfl
  · rw [h, List.take_left]
  · intro c hc
    rw [hpre c hc]
    decide
  · rw [valueAt, h, List.drop_append, List.drop_of_length_le (by omega), List.nil_append,
      Nat.add_sub_cancel_left, List.drop_succ_cons, List.drop_zero, takeWhile_value hpost]

/-- Where the first parameter has its `=`. -/
theorem place_head (p : Param) (ps : List Param) : Place (joinParams id (p :: ps)) p.name p.name.length ∧
    valueAt (joinParams id (p :: ps)) p.name.length = p.value.takeWhile (· ≠ 0x26) := by
  obtain ⟨post, h, hpost⟩ := joinParams_head p ps
  exact @place_of_eq _ [] _ _ _ h hpost nofun

/-- Any other has it behind that of the first. -/
theorem place_split (as bs : List Param) (p : Param) : ∃ o, Place (joinParams id (as ++ p :: bs)) p.name o ∧
    valueAt (joinParams id (as ++ p :: bs)) o = p.value.takeWhile (· ≠ 0x26) ∧
      ∀ x ∈ as.head?, p.name.length + x.name.length < o := by
  obtain ⟨pre, post, h, hpost, hpre, hlen⟩ := joinParams_split as bs p
  obtain ⟨hplace, hvalue⟩ := place_of_eq h hpost hpre
  refine ⟨_, hplace, hvalue, fun x hx => ?_⟩
  have := hlen x hx
  rw [List.length_append]
  omega

/-! ### When every lookup is right -/

/-- The condition on a query that has parameters: but for the first of them it could not be told from one without any
values. -/
structure Alone (p : Param) (ps : List Param) : Prop where
  /-- The first parameter, if it has a value, has a name. -/
  named : p.name = [] → p.value = []
  /-- Its value has no `&`. -/
  value : 0x26 ∉ p.value
  /-- Another name has no value. -/
  others : ∀ x ∈ ps, x.name ≠ p.name → valueOf (p :: ps) x.name = []
  /-- There is nothing behind any other `=`, up to the next `&`. -/
  equals : ∀ o, 0 < o → o ≠ p.name.length → (joinParams id (p :: ps))[o]? = some 0x3d →
    ∀ c ∈ (joinParams id (p :: ps))[o + 1]?, c = 0x26
  /-- What the name ends with, behind a byte below `0`, is found in front of an earlier `=`. -/
  ending : p.value ≠ [] → ∀ w, w ≠ [] → w ≠ p.name → Place (joinParams id (p :: ps)) w p.name.length →
    ∃ o < p.name.length, Place (joinParams id (p :: ps)) w o

/-- The condition on the parameters. -/
def LookedUp : List Param → Prop
  | [] => True
  | p :: ps => Alone p ps

/-- The condition on the path. -/
def PathKept (path : Text) (ps : List Param) : Prop := 0x3f ∉ cstr path ∧ (ps ≠ [] → 0 ∉ path)

theorem valueAt_eq_nil_iff : valueAt s o = [] ↔ ∀ c ∈ s[o + 1]?, c = 0x26 := by
  unfold valueAt
  rw [← List.head?_drop]
  cases s.drop (o + 1) with
  | nil => simp
  | cons c t => simp [List.takeWhile_cons]

theorem valueOf_eq_some (h : valueOf ps w ≠ []) :
    ∃ as x bs, ps = as ++ x :: bs ∧ x.name = w ∧ x.value = valueOf ps w := by
  unfold valueOf at h ⊢
  cases hf : ps.find? (·.name = w) with
  | none =>
    rw [hf] at h
    exact absurd rfl h
  | some x =>
    obtain ⟨hx, as, bs, hps, -⟩ := List.find?_eq_some_iff_append.mp hf
    exact ⟨as, x, bs, hps, of_decide_eq_true hx, rfl⟩

theorem valueOf_head (p : Param) (ps : List Param) : valueOf (p :: ps) p.name = p.value := by
  simp [valueOf]

section Lookups

variable (hq : r.Query = joinParams id (p :: ps))
  (hall : ∀ name, 0 ∉ name → getQueryParam r name = valueOf (p :: ps) name)
include hq hall

/-- If every lookup is right there is nothing behind a `=` but the first parameter's. What is in front of it would be
a name, with the same value, and that again behind. -/
theorem valueAt_eq_nil (ho : 0 < o) (hne : o ≠ p.name.length) (heq : r.Query[o]? = some 0x3d) : valueAt r.Query o = [] := by
  induction hk : r.Query.length - o using Nat.strong_induction_on generalizing o with
  | _ k ih =>
    by_contra hv
    have h0 : 0 ∉ r.Query := hq ▸ zero_notMem_joinParams _
    have hlt : o < r.Query.length := (List.getElem?_eq_some_iff.mp heq).1
    have htake := getQueryParam_take h0 ho heq
    rw [hall _ fun h => h0 (List.mem_of_mem_take h)] at htake
    obtain ⟨as, x, bs, hps, hname, hvalue⟩ := valueOf_eq_some (htake ▸ hv)
    rw [htake] at hvalue
    have hlen : x.name.length = o := by rw [hname, List.length_take, Nat.min_eq_left hlt.le]
    cases as with
    | nil =>
      rw [List.nil_append, List.cons.injEq] at hps
      exact hne (hps.1 ▸ hlen.symm)
    | cons y as =>
      have hy : p = y := (List.cons.inj hps).1
      obtain ⟨o', hplace, hv', hlt'⟩ := place_split (y :: as) bs x
      rw [← hps, ← hq] at hplace hv'
      have h1 := hlt' y rfl
      have h2 := hplace.lt_length
      have hnil := ih (r.Query.length - o') (by omega) (by omega) (by rw [hy]; omega) hplace.1 rfl
      rw [hnil, hvalue, valueAt, List.takeWhile_takeWhile] at hv'
      apply hv
      simpa [valueAt] using hv'.symm

theorem amp_notMem_value : 0x26 ∉ p.value := by
  by_cases hn : p.name = []
  · have h := hall p.name p.name_ok
    rw [valueOf_head, hn] at h
    rw [← h]
    exact List.not_mem_nil
  · obtain ⟨hplace, hvalue⟩ := place_head p ps
    rw [← hq] at hplace hvalue
    have h := getQueryParam_of_first hn p.name_ok hplace fun o' ho' hp => by have := hp.length_le; omega
    rw [hall _ p.name_ok, valueOf_head, hvalue, eq_comm, List.takeWhile_eq_self_iff] at h
    intro hm
    simpa using h _ hm

/-- A place of another name that gives the first parameter's value. -/
theorem valueOf_eq_nil (h0 : 0 ∉ w) (hne : w ≠ p.name) : valueOf (p :: ps) w = [] := by
  have hamp := amp_notMem_value hq hall
  have hself : p.value.takeWhile (· ≠ 0x26) = p.value :=
    List.takeWhile_eq_self_iff.mpr fun c hc => by simpa using ne_of_mem_of_not_mem hc hamp
  by_contra hv
  obtain ⟨as, x, bs, hps, rfl, hvalue⟩ := valueOf_eq_some hv
  obtain ⟨y, as, rfl⟩ : ∃ y ys, as = y :: ys := by
    cases as with
    | nil =>
      rw [List.nil_append, List.cons.injEq] at hps
      exact absurd (hps.1 ▸ rfl) hne
    | cons y as => exact ⟨y, as, rfl⟩
  have hy : p = y := (List.cons.inj hps).1
  -- its own `=` is behind that of the first
  obtain ⟨o, hplace, hvo, hlt⟩ := place_split (y :: as) bs x
  have hlt := hlt y rfl
  rw [← hps, ← hq] at hplace hvo
  rw [valueAt_eq_nil hq hall (by omega) (by rw [hy]; omega) hplace.1] at hvo
  rcases getQueryParam_cases (r := r) h0 with h | ⟨o', hplace', -, h⟩
  · exact hv ((hall _ h0).symm.trans h)
  · rw [hall _ h0] at h
    have hpos : 0 < o' := by
      by_contra hz
      rw [Nat.eq_zero_of_not_pos hz] at hplace'
      have hnil : x.name = [] := List.length_eq_zero_iff.mp (Nat.le_zero.mp hplace'.length_le)
      rw [hnil] at hv
      exact hv ((hall [] List.not_mem_nil).symm.trans rfl)
    by_cases ho' : o' = p.name.length
    · rw [ho', hq, (place_head p ps).2, hself, ← hvalue] at h
      rw [h, hself] at hvo
      exact hv (hvalue ▸ h ▸ hvo.symm)
    · exact hv (h.trans (valueAt_eq_nil hq hall hpos ho' hplace'.1))

theorem alone_of_lookups : Alone p ps := by
  have h0 : 0 ∉ r.Query := hq ▸ zero_notMem_joinParams _
  have hamp := amp_notMem_value hq hall
  refine ⟨?_, hamp, ?_, ?_, ?_⟩
  · intro hn
    have h := hall p.name p.name_ok
    rw [valueOf_head, hn] at h
    exact h.symm
  · exact fun x _ hne => valueOf_eq_nil hq hall x.name_ok hne
  · intro o ho hne heq
    rw [← hq] at heq ⊢
    exact valueAt_eq_nil_iff.mp (valueAt_eq_nil hq hall ho hne heq)
  · intro hv w hw hne hplace
    rw [← hq] at hplace ⊢
    by_contra hno
    have hw0 : 0 ∉ w := by
      obtain ⟨-, s, hs, -⟩ := hplace
      exact fun h => h0 (List.mem_of_mem_take (hs ▸ List.mem_append_right s h))
    have h := getQueryParam_of_first hw hw0 hplace fun o' ho' hp => hno ⟨o', ho', hp⟩
    rw [hall _ hw0, valueOf_eq_nil hq hall hw0 hne, hq, (place_head p ps).2,
      List.takeWhile_eq_self_iff.mpr fun c hc => by simpa using ne_of_mem_of_not_mem hc hamp] at h
    exact hv h.symm

end Lookups

/-- Under the condition every lookup is right. -/
theorem lookup_of_alone (hq : r.Query = joinParams id (p :: ps)) (h : Alone p ps) (h0 : 0 ∉ w) :
    getQueryParam r w = valueOf (p :: ps) w := by
  obtain ⟨hplace, hvalue⟩ := place_head p ps
  rw [List.takeWhile_eq_self_iff.mpr fun c hc => by simpa using ne_of_mem_of_not_mem hc h.value] at hvalue
  rw [← hq] at hplace hvalue
  by_cases hne : w = p.name
  · subst hne
    rw [valueOf_head]
    by_cases hn : p.name = []
    · rw [h.named hn, getQueryParam_of_none p.name_ok fun hw => absurd hn hw]
    · rw [getQueryParam_of_first hn p.name_ok hplace fun o' ho' hp => by have := hp.length_le; omega, hvalue]
  · have hnone : valueOf (p :: ps) w = [] := by
      by_contra hv
      obtain ⟨as, x, bs, hps, rfl, -⟩ := valueOf_eq_some hv
      have hx : x ∈ p :: ps := hps ▸ List.mem_append_right _ List.mem_cons_self
      rcases List.mem_cons.mp hx with rfl | hx
      · exact hne rfl
      · exact hv (h.others x hx hne)
    rw [hnone]
    by_cases hw : w = []
    · exact getQueryParam_of_none h0 fun h => absurd hw h
    rcases getQueryParam_cases (r := r) h0 with hg | ⟨o, ho, hmin, hg⟩
    · exact hg
    · have hpos : 0 < o := lt_of_lt_of_le (List.length_pos_iff.mpr hw) ho.length_le
      rw [hg]
      by_cases hlen : o = p.name.length
      · rw [hlen, hvalue]
        by_contra hv
        rw [hlen, hq] at ho
        obtain ⟨o', ho', hp⟩ := h.ending hv w hw hne ho
        exact hmin o' (hlen ▸ ho') (hq ▸ hp)
      · exact valueAt_eq_nil_iff.mpr (hq ▸ h.equals o hpos hlen (hq ▸ ho.1))

theorem lookups_iff (hq : r.Query = joinParams id ps) :
    (∀ name, 0 ∉ name → getQueryParam r name = valueOf ps name) ↔ LookedUp ps := by
  cases ps with
  | nil =>
    refine iff_of_true (fun name h0 => getQueryParam_of_none h0 fun _ o ho => ?_) trivial
    rw [hq] at ho
    exact absurd ho.lt_length (Nat.not_lt_zero o)
  | cons p ps => exact ⟨alone_of_lookups hq, fun h _ h0 => lookup_of_alone hq h h0⟩

/-! ### The path -/

variable {path target : Text}

/-- The first `?` in front of the terminator is where the target is cut. -/
theorem splitQuery_of_mem (h : 0x3f ∈ cstr s) : ∃ n < s.length, (splitQuery (s ++ t)).1.length = n := by
  obtain ⟨a, b, hab, ha⟩ := List.eq_append_cons_of_mem h
  have hs : cstr s <+: s := List.takeWhile_prefix _
  have hst : strchr (s ++ t) 0x3f = some a.length := by
    unfold strchr
    by_cases h0 : 0 ∈ s
    · rw [cstr_append_of_mem h0, hab, find_singleton ha]
    · rw [cstr_of_notMem h0] at hab
      rw [cstr_append h0, hab, List.append_assoc, List.cons_append, find_singleton ha]
  have hlen : a.length < s.length := by
    have := hs.length_le
    rw [hab, List.length_append, List.length_cons] at this
    omega
  refine ⟨a.length, hlen, ?_⟩
  unfold splitQuery
  rw [hst]
  simp
  omega

theorem splitQuery_of_notMem (h : 0x3f ∉ cstr s) : splitQuery s = (s, []) := by
  unfold splitQuery strchr
  rw [find_singleton_eq_none.mpr h]

theorem splitQuery_append (h : 0x3f ∉ s) (h0 : 0 ∉ s) : splitQuery (s ++ 0x3f :: t) = (s, t) := by
  unfold splitQuery
  rw [strchr_append h0 h (by decide)]
  simp

theorem pathKept_iff : (splitQuery (joinTarget id path ps)).1 = path ↔ PathKept path ps := by
  constructor
  · intro h
    have hq : 0x3f ∉ cstr path := by
      intro hm
      obtain ⟨n, hn, hlen⟩ := splitQuery_of_mem (t := if ps = [] then [] else 0x3f :: joinParams id ps) hm
      rw [show path ++ _ = joinTarget id path ps from rfl, h] at hlen
      omega
    refine ⟨hq, fun hps h0 => ?_⟩
    have hcut : 0x3f ∉ cstr (joinTarget id path ps) := by
      unfold joinTarget
      rwa [id, cstr_append_of_mem h0]
    rw [splitQuery_of_notMem hcut] at h
    have := congrArg List.length h
    simp [joinTarget, hps] at this
  · rintro ⟨hq, h0⟩
    unfold joinTarget
    by_cases hps : ps = []
    · rw [if_pos hps, List.append_nil, id, splitQuery_of_notMem hq]
    · have h0 := h0 hps
      rw [cstr_of_notMem h0] at hq
      rw [if_neg hps, id, splitQuery_append hq h0]

theorem splitQuery_joinTarget (h : PathKept path ps) : (splitQuery (joinTarget id path ps)).2 = joinParams id ps := by
  unfold joinTarget
  by_cases hps : ps = []
  · rw [if_pos hps, List.append_nil, id, splitQuery_of_notMem h.1, hps]
    rfl
  · have h0 := h.2 hps
    have hq := h.1
    rw [cstr_of_notMem h0] at hq
    rw [if_neg hps, id, splitQuery_append hq h0]

theorem slash_notMem_encodeByte : ∀ b : UInt8, 0x2f ∉ encodeByte b := by set_option maxRecDepth 20000 in decide

theorem slash_notMem_urlEncode (s : Text) : 0x2f ∉ urlEncode s := by
  rw [urlEncode, List.mem_flatMap]
  rintro ⟨b, -, h⟩
  exact slash_notMem_encodeByte b h

theorem slash_notMem_joinTarget (path : Text) (ps : List Param) : 0x2f ∉ joinTarget urlEncode path ps := by
  have hparams : 0x2f ∉ joinParams urlEncode ps := by
    induction ps with
    | nil => exact List.not_mem_nil
    | cons p ps ih =>
      cases ps with
      | nil => simp [slash_notMem_urlEncode]
      | cons y ps => simp [slash_notMem_urlEncode, ih]
  unfold joinTarget
  rw [List.mem_append, not_or]
  refine ⟨slash_notMem_urlEncode path, ?_⟩
  split
  · exact List.not_mem_nil
  · simp [hparams]

/-- A request with an encoded target is not refused for it. -/
theorem versionOnce_of_encoded {m : Message} (h : m.target = joinTarget urlEncode path ps) : m.VersionOnce := by
  intro hin
  have hslash : 0x2f ∈ (m.verb.text ++ m.target).drop 5 := hin.subset (by decide)
  have hmem := List.mem_of_mem_drop hslash
  rw [List.mem_append, h] at hmem
  rcases hmem with hmem | hmem
  · revert hmem
    cases m.verb <;> decide
  · exact slash_notMem_joinTarget path ps hmem

theorem version_one : 0 ∉ ascii "1" ∧ CR ∉ ascii "1" ∧ LF ∉ ascii "1" := by decide

theorem isLine_of_no_fields : ∀ l ∈ ([] : List Text) ++ [], IsLine l := nofun

theorem isDigit_of_no_number : ∀ n ∈ (none : Option Text), ∀ b ∈ n, isDigit b = true := nofun

theorem announced_nothing : ((none : Option Text).map (digitsValue 0)).getD 0 = ([] : Text).length := rfl

/-- A request without any field. -/
def getMessage (target : Text) (h : target ≠ [] ∧ 0 ∉ target ∧ CR ∉ target ∧ LF ∉ target ∧ 0x20 ∉ target)
    (honly : ¬ ascii "Content-Length: " <:+: requestLine .GET target (ascii "1")) : Message where
  verb := .GET
  target := target
  version := ascii "1"
  before := []
  contentLength := none
  after := []
  body := []
  target_ok := h
  version_ok := version_one
  fields_ok := isLine_of_no_fields
  number_ok := isDigit_of_no_number
  announced := announced_nothing
  limited := Nat.zero_le _
  only := by
    intro l hl
    rw [List.mem_singleton.mp hl]
    exact honly

/-- `/a` with `n=v`. -/
def plainParam : Message := getMessage (ascii "%2Fa?n=v") (by decide) (by decide)

/-- `/a` with the value `b&c` of `q`. -/
def reservedValue : Message := getMessage (ascii "%2Fa?q=b%26c") (by decide) (by decide)

end Cpcf.Inet
