import Cpcf.Json.Cooked
import Cpcf.Rt.StringRef

/-!
`JsonObject::GetValue` and `_LocateValue`: the value at a path of names and indices.

The path is split at its dots and brackets, and one pointer goes through the text of the document: to a name it is
moved from member to member, and to an index from item to item. Whether a segment is a name or an index is told by
the byte in front of it.

As everywhere for JSON, the `int` the length of a reference goes through is left out.
-/

namespace Cpcf.Json

open Cpcf.Rt Cpcf.Lib.Memory Cpcf.Lib.Word
open Cpcf.Rt.StringRef (CharacterSet dot)

/-! ### The path -/

/-- A field of `Split`; quotation marks around it are taken off. -/
def pathField (m : Mem) (start p : ℕ) : StringRef :=
  let v := StringRef.ofRange start p
  if 2 ≤ v.len ∧ m v.p = m (v.p + v.len - 1) ∧ (m v.p = Ch.dquote ∨ m v.p = Ch.squote) then ⟨v.p + 1, v.len - 2⟩ else v

/-- The loop of `Split<true>` at `p`, in a field from `start` on and with room for `count` fields; `quote` is
`quote_cur`. -/
def pathLoop (m : Mem) (tail : ℕ) (seps : CharacterSet) : ℕ → ℕ → ℕ → ℕ → UInt8 → List StringRef
  | 0, _, _, _, _ => []
  | n + 1, count, start, p, quote =>
    if p < tail ∧ quote ≠ 0 then
      let closes : Bool := quote = m p ∧ start < p ∧ m (p - 1) ≠ Ch.backslash
      pathLoop m tail seps n count start (p + 1) (if closes then 0 else quote)
    else if p < tail ∧ (m p = Ch.dquote ∨ Ch.squote = m p) then pathLoop m tail seps n count start (p + 1) (m p)
    else if p < tail ∧ seps.has (m p) = false then pathLoop m tail seps n count start (p + 1) 0
    else
      let v := pathField m start p
      if count ≤ 1 ∨ p = tail then [v]
      else
        let next := scanWhile m seps.has (p + 1) (tail - (p + 1))
        v :: pathLoop m tail seps n (count - 1) next next 0

/-- The separators of a path. -/
def pathSeps (bDoNotSplitDot : Bool) : CharacterSet :=
  if bDoNotSplitDot then CharacterSet.init [Ch.lbracket, Ch.rbracket] [Ch.lbracket, Ch.rbracket]
  else CharacterSet.init [dot, Ch.lbracket, Ch.rbracket] [dot, Ch.lbracket, Ch.rbracket]

/-- `path_seg`: 256 segments at most, without an empty one at the end. -/
def pathSegs (m : Mem) (xpath : StringRef) (bDoNotSplitDot : Bool) : List StringRef :=
  let segs := pathLoop m xpath.tail (pathSeps bDoNotSplitDot) (xpath.len + 1) 256 xpath.p xpath.p 0
  if segs.getLast?.any StringRef.isEmpty then segs.dropLast else segs

/-! ### The pointer -/

/-- The loop `for(;;)` that looks for the member `name`; `none` when `n` turns are not enough. -/
def findMember (m : Mem) (e : ℕ) (name : StringRef) : ℕ → ℕ → Option (Option ℕ)
  | 0, _ => none
  | n + 1, p =>
    let p := skipWhitespace m (p + 1) e
    if m p = Ch.rbrace then some none
    else
      let (p, name_end) := readName m p e
      if e = name_end ∨ p = name_end then some none
      else
        let value := seekChar m name_end e Ch.colon
        if value = e then some none
        else
          let value := skipWhitespace m (value + 1) e
          if (StringRef.ofRange p name_end).bytes m = name.bytes m then some (some value)
          else
            match seekJsonObjectClosure m value e with
            | none => some none
            | some p =>
              let p := skipWhitespace m p e
              if m p = Ch.comma then findMember m e name n p else some none

/-- The loop over the items up to the one with the index `co`, of which `s` is the last seen. -/
def findItem (m : Mem) (arr : StringRef) (co : ℤ) : ℕ → ℤ → StringRef → Option (Option StringRef)
  | 0, _, _ => none
  | n + 1, s, item =>
    match getNextObjectRaw m arr item with
    | (false, _) => some none
    | (true, item) => if s + 1 < co then findItem m arr co n (s + 1) item else some (some item)

/-- The segments `path_seg[i]`, ... from the pointer `p` on. -/
def locateSegs (m : Mem) (e : ℕ) : List StringRef → ℕ → Option (Option ℕ)
  | [], _ => some none
  | name :: segs, p =>
    if m (name.p - 1) ≠ Ch.lbracket then
      match findMember m e name (e - p + 1) p with
      | none => none
      | some none => some none
      | some (some value) =>
        if segs = [] then some (some value)
        else if m value ≠ Ch.lbrace ∧ m value ≠ Ch.lbracket then some none
        else locateSegs m e segs value
    else if m p ≠ Ch.lbracket then some none
    else
      let co := (toNumber m name.p name.tail).1
      match findItem m (attachArray m (.ofRange p e)) (intOf co) (e - p + 1) (-1) .null with
      | none => none
      | some none => some none
      | some (some item) => if segs = [] then some (some item.p) else locateSegs m e segs item.p

/-- `_LocateValue`: the pointer returned, `none` when the turns are not enough. -/
def locateValue (m : Mem) (doc xpath : StringRef) (bDoNotSplitDot : Bool) : Option (Option ℕ) :=
  if doc.isEmpty then some none
  else if m doc.p ≠ Ch.lbrace then some none
  else locateSegs m doc.tail (pathSegs m xpath bDoNotSplitDot) doc.p

/-- `GetValue`. -/
def getValue (m : Mem) (doc xpath default_val : StringRef) (bDoNotSplitDot : Bool) : Option StringRef :=
  if xpath.isEmpty then some doc
  else
    match locateValue m doc xpath bDoNotSplitDot with
    | none => none
    | some none => some default_val
    | some (some p) =>
      match seekJsonObjectClosure m p doc.tail with
      | none => some default_val
      | some tail =>
        let (p, tail) := cookRawValue m p tail
        some (.ofRange p tail)

/-! ### Fields -/

section Fields

variable {m : Mem} {tail : ℕ} {seps : CharacterSet} {count start p n : ℕ} {xs : List UInt8}

/-- The field has no separators and no quotes. -/
def PlainField (seps : CharacterSet) (xs : List UInt8) : Prop :=
  ∀ b ∈ xs, seps.has b = false ∧ b ≠ Ch.dquote ∧ b ≠ Ch.squote

/-- The loop passes the characters of a field. -/
theorem pathLoop_field (h : Holds m p xs) (hplain : PlainField seps xs) (hp : p + xs.length ≤ tail)
    (hn : xs.length ≤ n) :
    pathLoop m tail seps n count start p 0 = pathLoop m tail seps (n - xs.length) count start (p + xs.length) 0 := by
  induction xs generalizing p n with
  | nil => rfl
  | cons b xs ih =>
    rw [List.length_cons] at hp hn
    obtain ⟨n, rfl⟩ : ∃ k, n = k + 1 := ⟨n - 1, by omega⟩
    obtain ⟨⟨hsep, hd, hs⟩, hrest⟩ := List.forall_mem_cons.mp hplain
    have hstep : pathLoop m tail seps (n + 1) count start p 0 = pathLoop m tail seps n count start (p + 1) 0 := by
      rw [pathLoop, if_neg (fun h => h.2 rfl), h.1, if_neg, if_pos ⟨by omega, hsep⟩]
      rintro ⟨-, hq | hq⟩
      · exact hd hq
      · exact hs hq.symm
    rw [hstep, ih h.2 hrest (by omega) (by omega), List.length_cons, Nat.add_sub_add_right, Nat.add_right_comm,
      Nat.add_assoc]

/-- A field without quotes is taken as it is. -/
theorem pathField_eq (h : Holds m start xs) (hplain : PlainField seps xs) :
    pathField m start (start + xs.length) = ⟨start, xs.length⟩ := by
  have hv : StringRef.ofRange start (start + xs.length) = ⟨start, xs.length⟩ := by
    rw [StringRef.ofRange, Nat.add_sub_cancel_left]
  simp only [pathField, hv]
  apply if_neg
  rintro ⟨hlen, -, hq⟩
  obtain ⟨b, ys, rfl⟩ : ∃ b ys, xs = b :: ys := by
    cases xs with
    | nil => exact absurd hlen (by decide)
    | cons b ys => exact ⟨b, ys, rfl⟩
  obtain ⟨-, hd, hs⟩ := hplain b (List.mem_cons_self ..)
  rw [h.1] at hq
  rcases hq with hq | hq
  · exact hd hq
  · exact hs hq

/-- The last field. -/
theorem pathLoop_last (h : Holds m start xs) (hplain : PlainField seps xs) (hp : start + xs.length = tail)
    (hn : xs.length < n) : pathLoop m tail seps n count start start 0 = [⟨start, xs.length⟩] := by
  obtain ⟨k, hk⟩ : ∃ k, n - xs.length = k + 1 := ⟨n - xs.length - 1, by omega⟩
  rw [pathLoop_field h hplain hp.le hn.le, hk, pathLoop, if_neg (fun h => h.2 rfl), if_neg (fun h => by omega),
    if_neg (fun h => by omega), pathField_eq h hplain]
  exact if_pos (Or.inr hp)

end Fields

/-! ### Members -/

/-- Where the members of an object stand, the entries of which stand at `x`. -/
def Entries.memberSpots : ℕ → Entries .object → List (Key × ℕ × Value)
  | x, .one h v _ => [(h.key, x + h.text.length, v)]
  | x, .cons h v post rest =>
    (h.key, x + h.text.length, v) ::
      rest.memberSpots (x + h.text.length + v.text.length + post.text.length + 1)

attribute [local simp] Entries.memberSpots

theorem Entries.map_memberSpots : ∀ (es : Entries .object) (x : ℕ),
    (es.memberSpots x).map (fun t => (t.1, t.2.2)) = es.members
  | .one _ _ _, _ => by
    rw [Entries.memberSpots, Entries.members]
    rfl
  | .cons _ _ _ rest, _ => by
    rw [Entries.memberSpots, List.map_cons, rest.map_memberSpots, Entries.members]

theorem Entries.find_memberSpots_none (es : Entries .object) {x : ℕ} {k : List UInt8}
    (h : ∀ kv ∈ es.members, kv.1.name ≠ k) : (es.memberSpots x).find? (fun t => decide (t.1.name = k)) = none := by
  rw [List.find?_eq_none]
  intro t ht
  rw [decide_eq_true_eq]
  apply h (t.1, t.2.2)
  rw [← es.map_memberSpots x]
  exact List.mem_map_of_mem ht

/-- Where the values of a container stand. -/
def Entries.spots : {k : Kind} → ℕ → Entries k → List (ℕ × Value)
  | _, x, .one h v _ => [(x + h.text.length, v)]
  | _, x, .cons h v post rest =>
    (x + h.text.length, v) :: rest.spots (x + h.text.length + v.text.length + post.text.length + 1)

theorem Entries.map_spots : ∀ {k : Kind} (es : Entries k) (x : ℕ), (es.spots x).map Prod.snd = es.values
  | _, .one _ _ _, _ => rfl
  | _, .cons _ _ _ rest, _ => by
    rw [Entries.spots, List.map_cons, rest.map_spots, Entries.values]

theorem Entries.memberSpots_snd : ∀ (es : Entries .object) (x : ℕ), (es.memberSpots x).map Prod.snd = es.spots x
  | .one _ _ _, _ => by
    rw [Entries.memberSpots, Entries.spots]
    rfl
  | .cons _ _ _ rest, _ => by
    rw [Entries.memberSpots, List.map_cons, rest.memberSpots_snd, Entries.spots]

/-- The search for the name does not fail on the way: before the first member of this name no key is empty, and the
scanner finds the end of each value. Where there is no such member, an empty key may end the search. -/
def Findable (k : List UInt8) : List (Key × Value) → Prop
  | [] => True
  | kv :: rest =>
    if kv.1.name = k then True
    else if kv.1.name = [] then ∀ kv' ∈ rest, kv'.1.name ≠ k
    else kv.2.Clean ∧ Findable k rest

/-- The value stands in the document, with more of the document behind it. -/
structure Placed (m : Mem) (e y : ℕ) (v : Value) : Prop where
  pos : 0 < y
  holds : Holds m y v.text
  inside : y + v.text.length < e
  delimited : isDelimiter (m (y + v.text.length)) = true

theorem Placed.seek {m : Mem} {e y : ℕ} {v : Value} (h : Placed m e y v) (hclean : v.Clean) :
    seekJsonObjectClosure m y e = some (y + v.text.length) :=
  (seek_value v h.holds h.inside h.delimited).mpr hclean

theorem Kind.isDelimiter_closing (k : Kind) : isDelimiter k.closing = true := by cases k <;> rfl

/-- The values of a container are inside it. -/
theorem placed_spots {m : Mem} {e : ℕ} : ∀ {k : Kind} (es : Entries k) {x : ℕ}, 0 < x →
    Holds m x (es.text ++ [k.closing]) → x + es.text.length < e → ∀ s ∈ es.spots x, Placed m e s.1 s.2
  | k, .one hd v post, x, hx, h, he, s, hs => by
    obtain rfl := List.mem_singleton.mp hs
    simp only [Entries.text, List.append_assoc, List.length_append] at h he
    obtain ⟨h2, h3⟩ := holds_append.mp (holds_append.mp h).2
    exact ⟨Nat.add_pos_left hx _, h2, by simp only; omega, isDelimiter_after h3 k.isDelimiter_closing⟩
  | k, .cons hd v post rest, x, hx, h, he, s, hs => by
    simp only [Entries.text, List.append_assoc, List.cons_append, List.length_append, List.length_cons] at h he
    obtain ⟨h2, h3⟩ := holds_append.mp (holds_append.mp h).2
    rcases List.mem_cons.mp hs with rfl | hs
    · exact ⟨Nat.add_pos_left hx _, h2, by simp only; omega, isDelimiter_after h3 (by decide)⟩
    · exact placed_spots rest (by omega) (holds_append.mp h3).2.2 (by omega) s hs

section Members

variable {m : Mem} {e x n : ℕ} {name : StringRef} {pre mid post : Ws} {key : Key} {v : Value}

/-- At a member the key is read, and the value found. -/
theorem member_read (hx : 0 < x) (h : Holds m x ((Head.member pre key mid post).text ++ v.text))
    (he : x + (Head.member pre key mid post).text.length + v.text.length < e) :
    skipWhitespace m (x - 1 + 1) e = x + pre.text.length ∧ m (x + pre.text.length) ≠ Ch.rbrace ∧
      readName m (x + pre.text.length) e =
        (x + pre.text.length + key.offset, x + pre.text.length + key.offset + key.name.length) ∧
      x + pre.text.length + key.offset + key.name.length < e ∧
      seekChar m (x + pre.text.length + key.offset + key.name.length) e Ch.colon < e ∧
      skipWhitespace m (seekChar m (x + pre.text.length + key.offset + key.name.length) e Ch.colon + 1) e =
        x + (Head.member pre key mid post).text.length ∧
      Holds m (x + pre.text.length + key.offset) key.name := by
  have hkl := key.length_text
  have hhead : (Head.member pre key mid post).text.length =
      pre.text.length + (key.text.length + (mid.text.length + (post.text.length + 1))) := by
    simp only [Head.text, List.length_append, List.length_cons]
  rw [hhead] at he ⊢
  simp only [Head.text, List.append_assoc, List.cons_append] at h
  have hcolon := seekChar_colon (e := e) (holds_append.mp h).2 (by omega)
  simp only [holds_append, holds_cons] at h
  obtain ⟨h0, h1, h2, h3, h4, h5⟩ := h
  obtain ⟨f1, f2, -⟩ := key.first_byte h1
  have hafter : Holds m (x + pre.text.length + key.text.length) (mid.text ++ Ch.colon :: post.text) :=
    holds_append.mpr ⟨h2, h3, h4⟩
  have hpost : skipWhitespace m (x + pre.text.length + key.text.length + mid.text.length + 1) e =
      x + pre.text.length + key.text.length + mid.text.length + 1 + post.text.length :=
    scanWhile_eq h4 (fun b hb => (isWs_facts b (post.isWs_of_mem hb)).1) (by omega) (fun _ => (v.not_skipped h5).1)
  rw [Nat.sub_add_cancel hx, hcolon, hpost]
  exact ⟨skipWhitespace_ws h0 (by omega) f1, f2, readName_key h1 (by omega) (not_isText_after_key hafter), by omega,
    by omega, by omega, key.holds_name h1⟩

/-- An empty key ends the search. -/
theorem findMember_unnamed (hx : 0 < x) (h : Holds m x ((Head.member pre key mid post).text ++ v.text))
    (he : x + (Head.member pre key mid post).text.length + v.text.length < e) (hk : key.name = []) :
    findMember m e name (n + 1) (x - 1) = some none := by
  obtain ⟨hskip, hbrace, hread, -⟩ := member_read hx h he
  rw [findMember, hskip, if_neg hbrace, hread, hk]
  simp

/-- The member is the one the search is for. -/
theorem findMember_found (hx : 0 < x) (h : Holds m x ((Head.member pre key mid post).text ++ v.text))
    (he : x + (Head.member pre key mid post).text.length + v.text.length < e) (hk : key.name ≠ [])
    (hname : name.bytes m = key.name) :
    findMember m e name (n + 1) (x - 1) = some (some (x + (Head.member pre key mid post).text.length)) := by
  obtain ⟨hskip, hbrace, hread, hlt, hcolon, hvalue, hholds⟩ := member_read hx h he
  have hpos := List.length_pos_of_ne_nil hk
  have hbytes : (StringRef.ofRange (x + pre.text.length + key.offset)
      (x + pre.text.length + key.offset + key.name.length)).bytes m = name.bytes m := by
    rw [StringRef.ofRange, Nat.add_sub_cancel_left, hname]
    exact hholds.read_eq
  rw [findMember, hskip, if_neg hbrace, hread]
  simp only
  rw [if_neg (by omega), if_neg hcolon.ne, hvalue, if_pos hbytes]

/-- The search goes on behind a member of another name. -/
theorem findMember_next {q : ℕ} (hx : 0 < x) (h : Holds m x ((Head.member pre key mid post).text ++ v.text))
    (he : x + (Head.member pre key mid post).text.length + v.text.length < e) (hk : key.name ≠ [])
    (hname : name.bytes m ≠ key.name)
    (hseek : seekJsonObjectClosure m (x + (Head.member pre key mid post).text.length) e = some q) :
    findMember m e name (n + 1) (x - 1) =
      if m (skipWhitespace m q e) = Ch.comma then findMember m e name n (skipWhitespace m q e) else some none := by
  obtain ⟨hskip, hbrace, hread, hlt, hcolon, hvalue, hholds⟩ := member_read hx h he
  have hpos := List.length_pos_of_ne_nil hk
  have hbytes : ¬ (StringRef.ofRange (x + pre.text.length + key.offset)
      (x + pre.text.length + key.offset + key.name.length)).bytes m = name.bytes m := by
    rw [StringRef.ofRange, Nat.add_sub_cancel_left]
    intro heq
    exact hname (heq.symm.trans hholds.read_eq)
  rw [findMember, hskip, if_neg hbrace, hread]
  simp only
  rw [if_neg (by omega), if_neg hcolon.ne, hvalue, if_neg hbytes, hseek]

/-- Behind a value, at the comma or the closing bracket. -/
theorem skip_post {q : ℕ} {b : UInt8} {t : List UInt8} (h : Holds m q (post.text ++ b :: t))
    (he : q + post.text.length ≤ e) (hb : isSkipped b = false) :
    skipWhitespace m q e = q + post.text.length ∧ m (q + post.text.length) = b := by
  obtain ⟨h1, h2, -⟩ := holds_append.mp h
  exact ⟨skipWhitespace_ws h1 he (by rw [h2]; exact hb), h2⟩

/-- **The search for a member.** From the opening brace or a comma it finds the first member of this name. -/
theorem findMember_entries {k : List UInt8} (hk : k ≠ []) (hname : name.bytes m = k) :
    ∀ (es : Entries .object) {x n : ℕ}, 0 < x → Holds m x (es.text ++ [Ch.rbrace]) → x + es.text.length < e →
      es.members.length ≤ n → Findable k es.members →
      findMember m e name n (x - 1) =
        some (((es.memberSpots x).find? fun t => decide (t.1.name = k)).map fun t => t.2.1)
  | .one (.member pre key mid mpost) v post, x, n, hx, h, he, hn, hfind => by
    obtain ⟨n, rfl⟩ : ∃ i, n = i + 1 := ⟨n - 1, by simp [Entries.members] at hn; omega⟩
    simp only [Entries.text, List.length_append] at h he
    rw [← List.append_assoc, List.append_assoc, holds_append, List.length_append, ← Nat.add_assoc] at h
    obtain ⟨h1, h2⟩ := h
    simp only [Entries.memberSpots, Head.key, List.find?_cons, List.find?_nil]
    by_cases hkey : key.name = k
    · rw [findMember_found hx h1 (by omega) (hkey ▸ hk) (hname.trans hkey.symm), decide_eq_true hkey]
      rfl
    rw [decide_eq_false hkey]
    by_cases hnil : key.name = []
    · exact findMember_unnamed hx h1 (by omega) hnil
    · simp only [Entries.members, Head.key, Findable, if_neg hkey, if_neg hnil, and_true] at hfind
      have hseek := (seek_value (e := e) v (holds_append.mp h1).2 (by omega) (isDelimiter_after h2 (by decide))).mpr
        hfind
      obtain ⟨hskip, hb⟩ := skip_post (e := e) h2 (by omega) (by decide)
      rw [findMember_next hx h1 (by omega) hnil (fun h => hkey (h.symm.trans hname)) hseek, hskip, hb,
        if_neg (by decide)]
      rfl
  | .cons (.member pre key mid mpost) v post rest, x, n, hx, h, he, hn, hfind => by
    obtain ⟨n, rfl⟩ : ∃ i, n = i + 1 := ⟨n - 1, by simp [Entries.members] at hn; omega⟩
    simp only [Entries.text, List.length_append, List.length_cons] at h he
    rw [← List.append_assoc, List.append_assoc, holds_append, List.length_append, ← Nat.add_assoc, List.append_assoc,
      List.cons_append] at h
    obtain ⟨h1, h2⟩ := h
    simp only [Entries.memberSpots, Head.key, List.find?_cons]
    by_cases hkey : key.name = k
    · rw [findMember_found hx h1 (by omega) (hkey ▸ hk) (hname.trans hkey.symm), decide_eq_true hkey]
      rfl
    rw [decide_eq_false hkey]
    simp only [Entries.members, Head.key, Findable, if_neg hkey, List.length_cons] at hfind hn
    by_cases hnil : key.name = []
    · rw [if_pos hnil] at hfind
      rw [findMember_unnamed hx h1 (by omega) hnil, rest.find_memberSpots_none hfind]
      rfl
    · rw [if_neg hnil] at hfind
      have hseek := (seek_value (e := e) v (holds_append.mp h1).2 (by omega) (isDelimiter_after h2 (by decide))).mpr
        hfind.1
      obtain ⟨hskip, hb⟩ := skip_post (e := e) h2 (by omega) (by decide)
      rw [findMember_next hx h1 (by omega) hnil (fun h => hkey (h.symm.trans hname)) hseek, hskip, hb, if_pos rfl]
      have hrest := (holds_append.mp h2).2.2
      have ih := findMember_entries hk hname rest (n := n) (Nat.succ_pos _) hrest (by omega) (by omega) hfind.2
      exact ih

/-- The member `k` of an object that stands at `y`, and where it stands. -/
def Value.memberAt (y : ℕ) : Value → List UInt8 → Option (ℕ × Value)
  | .node .object es, k => ((es.memberSpots (y + 1)).find? fun t => decide (t.1.name = k)).map Prod.snd
  | _, _ => none

theorem Value.object_cases {v : Value} (hv : v.isObject = true) :
    (∃ ws, v = .empty .object ws) ∨ ∃ es, v = .node .object es := by
  cases v with
  | empty k ws =>
    cases k with
    | array => cases hv
    | object => exact Or.inl ⟨ws, rfl⟩
  | node k es =>
    cases k with
    | array => cases hv
    | object => exact Or.inr ⟨es, rfl⟩
  | _ => cases hv

/-- The search for a member of an object that stands at `y`. -/
theorem findMember_object {k : List UInt8} {y : ℕ} (hk : k ≠ []) (hname : name.bytes m = k) (hv : v.isObject = true)
    (h : Holds m y v.text) (he : y + v.text.length ≤ e) (hfind : Findable k v.members) :
    findMember m e name (e - y + 1) y = some ((v.memberAt y k).map Prod.fst) := by
  rcases v.object_cases hv with ⟨ws, rfl⟩ | ⟨es, rfl⟩
  · simp only [Value.text, List.length_cons, List.length_append, List.length_nil] at he
    obtain ⟨hws, hend, -⟩ := holds_append.mp h.2
    have hskip : skipWhitespace m (y + 1) e = y + 1 + ws.text.length :=
      skipWhitespace_ws hws (by omega) (by rw [hend]; rfl)
    have hbrace : m (y + 1 + ws.text.length) = Ch.rbrace := hend
    rw [findMember, hskip, if_pos hbrace]
    rfl
  · simp only [Value.text, List.length_cons, List.length_append, List.length_nil] at he
    have hlen := es.length_values_le
    rw [es.values_eq, List.length_map] at hlen
    have hsearch := findMember_entries (e := e) hk hname es (n := e - y + 1) y.succ_pos h.2 (by omega) (by omega) hfind
    rw [Nat.succ_sub_one] at hsearch
    rw [hsearch, Value.memberAt, Option.map_map]
    rfl

theorem memberAt_placed {k : List UInt8} {y : ℕ} (h : Holds m y v.text) (he : y + v.text.length ≤ e) {s : ℕ × Value}
    (hs : v.memberAt y k = some s) : Placed m e s.1 s.2 := by
  match v, hs with
  | .node .object es, hs =>
    simp only [Value.text, List.length_cons, List.length_append, List.length_nil] at he
    obtain ⟨t, ht, rfl⟩ := Option.map_eq_some_iff.mp hs
    refine placed_spots es y.succ_pos h.2 (by omega) _ ?_
    rw [← es.memberSpots_snd]
    exact List.mem_map_of_mem (List.mem_of_find?_eq_some ht)

theorem memberAt_snd (v : Value) (y : ℕ) (k : List UInt8) :
    (v.memberAt y k).map Prod.snd = (v.members.find? fun kv => decide (kv.1.name = k)).map Prod.snd := by
  match v with
  | .node .object es =>
    rw [Value.memberAt, Value.members, ← es.map_memberSpots (y + 1), List.find?_map, Option.map_map, Option.map_map]
    rfl
  | .node .array _ | .str _ | .lit _ | .bin _ | .empty _ _ => rfl

end Members

/-- Where no key is empty and every end is found, every name can be looked up. -/
theorem findable_of_all (k : List UInt8) : ∀ {l : List (Key × Value)},
    (∀ kv ∈ l, kv.1.name ≠ [] ∧ kv.2.Clean) → Findable k l
  | [], _ => trivial
  | kv :: rest, h => by
    obtain ⟨hkv, hrest⟩ := List.forall_mem_cons.mp h
    rw [Findable]
    split_ifs with h1 h2
    · exact absurd h2 hkv.1
    · exact ⟨hkv.2, findable_of_all k hrest⟩

/-! ### The document -/

section Document

variable {m : Mem} {doc xpath default_val : StringRef} {b : Bool} {y : ℕ} {v : Value}

/-- A value that has been located is returned without its quotes. -/
theorem getValue_located (hx : xpath.isEmpty = false) (hloc : locateValue m doc xpath b = some (some y))
    (hv : Placed m doc.tail y v) (hclean : v.Clean) :
    getValue m doc xpath default_val b = some (cookedRef y v) := by
  rw [getValue, hx, hloc]
  simp only [Bool.false_eq_true, if_false, hv.seek hclean, (cookRawValue_at v hv.holds).1, StringRef.ofRange,
    Nat.add_sub_cancel_left]
  rfl

theorem getValue_missing (hx : xpath.isEmpty = false) (hloc : locateValue m doc xpath b = some none) :
    getValue m doc xpath default_val b = some default_val := by
  rw [getValue, hx, hloc]
  rfl

/-- In an object the pointer is moved along the path. -/
theorem locateValue_object (hp : 0 < doc.p) (ho : v.isObject = true) (h : Holds m doc.p v.text)
    (hlen : v.text.length ≤ doc.len) :
    locateValue m doc xpath b = locateSegs m doc.tail (pathSegs m xpath b) doc.p := by
  have hpos := List.length_pos_of_ne_nil v.text_ne_nil
  have hdoc : doc.isEmpty = false := StringRef.isEmpty_of_pos hp (by omega)
  have hbrace : m doc.p = Ch.lbrace := by
    rcases v.object_cases ho with ⟨ws, rfl⟩ | ⟨es, rfl⟩
    · exact h.1
    · exact h.1
  rw [locateValue, hdoc, if_neg Bool.false_ne_true, if_neg (not_not.mpr hbrace)]

end Document

/-! ### One key -/

section Key

variable {m : Mem} {ref xpath : StringRef} {k : List UInt8}

theorem pathSeps_true : ∀ b : UInt8, b ≠ Ch.lbracket ∧ b ≠ Ch.rbracket → (pathSeps true).has b = false := by
  set_option maxRecDepth 20000 in decide

/-- A key is one segment. -/
theorem pathSegs_key (h : TextAt m xpath k) (h0 : k ≠ [])
    (hk : ∀ b ∈ k, b ≠ Ch.lbracket ∧ b ≠ Ch.rbracket ∧ b ≠ Ch.dquote ∧ b ≠ Ch.squote) :
    pathSegs m xpath true = [xpath] := by
  have hempty := h.isEmpty h0
  obtain ⟨p, len⟩ := xpath
  obtain ⟨hp, hlen, hholds⟩ := h
  simp only at hp hlen hholds
  subst hlen
  have hplain : PlainField (pathSeps true) k := by
    intro b hb
    obtain ⟨h1, h2, h3⟩ := hk b hb
    exact ⟨pathSeps_true b ⟨h1, h2⟩, h3⟩
  have hlast : pathLoop m (p + k.length) (pathSeps true) (k.length + 1) 256 p p 0 = [⟨p, k.length⟩] :=
    pathLoop_last hholds hplain rfl (Nat.lt_succ_self _)
  simp only [pathSegs, StringRef.tail, hlast, List.getLast?_singleton, Option.any_some, hempty]
  rfl

/-- The first member with the key `k` is found, and where there is none the default is returned. -/
def LooksUp (m : Mem) (doc xpath : StringRef) (members : List (Key × Value)) (k : List UInt8) : Prop :=
  ∀ default_val, ∃ r, getValue m doc xpath default_val true = some r ∧
    ((members.find? fun kv => decide (kv.1.name = k)) = none → r = default_val) ∧
    ∀ kv, (members.find? fun kv => decide (kv.1.name = k)) = some kv → CookedAt m r kv.2

end Key

/-- `{a:1}`. -/
def memberA : Value :=
  .node .object (.one (.member .none (.bare ⟨[0x61], List.cons_ne_nil _ _, rfl⟩) .none .none) (.lit .one) .none)

/-- `{a:1}`, and the key `a` behind it. -/
def memberAAndKey : Mem := ofBytes 16 (memberA.text ++ [0x2c, 0x61])

theorem textAt_memberA : TextAt memberAAndKey ⟨16, 5⟩ memberA.text :=
  ⟨by decide, rfl, (holds_append.mp (holds_ofBytes 16 (memberA.text ++ [0x2c, 0x61]))).1⟩

theorem textAt_keyA : TextAt memberAAndKey ⟨22, 1⟩ [0x61] :=
  ⟨by decide, rfl, (holds_append.mp (holds_ofBytes 16 (memberA.text ++ [0x2c, 0x61]))).2.2⟩

end Cpcf.Json
