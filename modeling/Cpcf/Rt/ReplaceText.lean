import Cpcf.Lib.Occurrences
import Cpcf.Rt.StringBuffers

/-!
`String::Replace` and `String_Ref::ReplaceTo` for two texts.

Each turn looks for the next occurrence behind the text that was inserted last and puts the whole text together anew.
The offset that `FindString` returns has gone through an `int`, and the occurrences are counted in a `UINT`.
-/

namespace Cpcf.Rt.StringOwned

open Cpcf.Lib.Memory Cpcf.Lib.Word Cpcf.Lib.Occurrences Cpcf.Rt.StringRef

/-! ### The functions -/

/-- The loop of `ReplaceTo(a, b, replaced)` and of `Replace(a, b)`, from the offset `s` on and with `co` occurrences
counted, or `none` when the turns do not suffice. -/
def replaceToLoop (a : List UInt8) (b : Ref) : ℕ → ℕ → ℕ → Heap → Str → Option (Heap × Str × ℕ)
  | 0, _, _, _, _ => none
  | n + 1, s, co, h, replaced =>
    let p := findString h.mem replaced a s
    if p < 0 then some (h, replaced, co)
    else
      let e := Expr.add (.add (.ref (replaced.subStrHead p.toNat)) (.ref b))
        (.ref (replaced.subStr (p.toNat + a.length)))
      let t := assignExpr h replaced e
      replaceToLoop a b n (p.toNat + b.getLength) ((co + 1) % 2 ^ 32) t.1 t.2

/-- `ReplaceTo(a, b, replaced)` of a reference: the memory, `replaced` and what is returned. `a` is the text that
`strstr` looks for. -/
def replaceTo (h : Heap) (x : Ref) (a : List UInt8) (b : Ref) (replaced : Str) : Option (Heap × Str × ℕ) :=
  let t := assign h replaced x
  replaceToLoop a b (x.getLength + 1) 0 0 t.1 t.2

/-- `Replace(a, b)` of a string. -/
def replace (h : Heap) (s : Str) (a : List UInt8) (b : Ref) : Option (Heap × Str × ℕ) :=
  if a.length = 0 then some (h, s, 0)
  else
    let t := assign h Str.new s.toRef
    replaceToLoop a b (s.getLength + 1) 0 0 t.1 t.2

/-- What `replaceText` leaves of a string is what `replace` does. -/
theorem replaceToLoop_text {a : List UInt8} {b : Ref} {n s co : ℕ} {h : Heap} {replaced : Str}
    {r : Heap × Str × ℕ} (hr : replaceToLoop a b n s co h replaced = some r) :
    replaceTextLoop a a.length b n s h replaced = (r.1, r.2.1) := by
  induction n generalizing s co h replaced with
  | zero => cases hr
  | succ n ih =>
    rw [replaceToLoop] at hr
    rw [replaceTextLoop]
    dsimp only at hr ⊢
    split
    · rename_i hp
      rw [if_pos hp] at hr
      obtain rfl := Option.some.inj hr
      rfl
    · rename_i hp
      rw [if_neg hp] at hr
      exact ih hr

theorem replace_text {h : Heap} {s : Str} {a : List UInt8} {b : Ref} {r : Heap × Str × ℕ}
    (hr : replace h s a b = some r) : replaceText h s a a.length b = (r.1, r.2.1) := by
  rw [replace] at hr
  rw [replaceText]
  split
  · rename_i ha
    rw [if_pos ha] at hr
    obtain rfl := Option.some.inj hr
    rfl
  · rename_i ha
    rw [if_neg ha] at hr
    exact replaceToLoop_text hr

/-! ### Finding a text -/

section

variable {m : Mem} {p : ℕ} {a xs : List UInt8}

/-- A text without a zero byte does not go on behind the end of another one. -/
theorem holds_text_iff (ha : 0 ∉ a) (h : Holds m p (xs ++ [0])) : Holds m p a ↔ a <+: xs := by
  induction a generalizing p xs with
  | nil => simp
  | cons d a ih =>
    rw [List.mem_cons, not_or] at ha
    cases xs with
    | nil =>
      rw [holds_cons, show m p = 0 from h.1]
      exact ⟨fun hd => absurd hd.1 ha.1, fun hp => absurd hp (by simp)⟩
    | cons c xs =>
      rw [holds_cons, show m p = c from h.1, List.cons_prefix_cons, eq_comm, ih ha.2 h.2]

theorem strstr_eq (ha : a ≠ []) (hza : 0 ∉ a) (hz : 0 ∉ xs) (h : Holds m p (xs ++ [0])) :
    strstr m a (xs.length + 1) p = (xs.dropInfix? a).map fun t => p + t.1.length := by
  induction xs generalizing p with
  | nil =>
    have hnot : ¬ Holds m p a := fun hp => ha (List.prefix_nil.mp ((holds_text_iff hza h).mp hp))
    rw [dropInfix?_nil_left ha, List.length_nil, strstr, if_neg hnot, if_pos h.1]
    rfl
  | cons c xs ih =>
    rw [List.length_cons, strstr]
    by_cases hpre : a <+: c :: xs
    · obtain ⟨v, hv⟩ := hpre
      rw [if_pos ((holds_text_iff hza h).mpr ⟨v, hv⟩), ← hv, dropInfix?_append]
      rfl
    · rw [List.mem_cons, not_or] at hz
      have hc : m p ≠ 0 := by
        rw [show m p = c from h.1]
        exact Ne.symm hz.1
      rw [if_neg (mt (holds_text_iff hza h).mp hpre), if_neg hc, ih hz.2 h.2, dropInfix?_cons hpre, Option.map_map]
      refine congrArg (Option.map · _) (funext fun t => ?_)
      rw [Function.comp_apply, List.length_cons]
      omega

end

/-! ### Strings and expressions -/

/-- The string has the text `xs`, with a zero byte behind it, in allocated memory. -/
structure Shows (h : Heap) (s : Str) (xs : List UInt8) : Prop where
  text : s.text h.mem = xs
  zero : xs ≠ [] → h.mem s.stop = 0
  below : s.stop ≤ h.brk

theorem Shows.getLength {h : Heap} {s : Str} {xs : List UInt8} (hs : Shows h s xs) : s.getLength = xs.length := by
  rw [← hs.text, Ref.text, length_read]

/-- `FindString` behind the first part of a text. -/
theorem findString_eq {h : Heap} {s : Str} {a w xs : List UInt8} (ha : a ≠ []) (hza : 0 ∉ a)
    (hs : Shows h s (w ++ xs)) (hz : 0 ∉ xs) :
    findString h.mem s a w.length =
      ((xs.dropInfix? a).map fun t => intOf ((w.length + t.1.length : ℕ) : ℤ)).getD (-1) := by
  have hlen := hs.getLength
  rw [List.length_append] at hlen
  rw [findString]
  by_cases hxs : xs = []
  · subst hxs
    rw [if_neg (by rw [hlen]; simp), dropInfix?_nil_left ha]
    rfl
  · have hpos := List.length_pos_iff.mpr hxs
    have hread : Holds h.mem s.p (w ++ xs) := by
      have := holds_read h.mem s.p s.getLength
      rwa [← Ref.text, hs.text] at this
    have hzero : h.mem (s.p + w.length + xs.length) = 0 := by
      rw [Nat.add_assoc, ← hlen]
      exact hs.zero (by simp [hxs])
    have hholds : Holds h.mem (s.p + w.length) (xs ++ [0]) :=
      holds_append.mpr ⟨(holds_append.mp hread).2, hzero, holds_nil⟩
    rw [if_pos (by omega), show s.getLength - w.length + 1 = xs.length + 1 by omega, strstr_eq ha hza hz hholds]
    -- the cast is not to be evaluated
    generalize intOf = f
    cases xs.dropInfix? a with
    | none => rfl
    | some t =>
      have hoff : ((s.p + w.length + t.1.length : ℕ) : ℤ) - s.p = (w.length + t.1.length : ℕ) := by
        push_cast
        omega
      rw [Option.map_some, Option.map_some, Option.getD_some]
      exact congrArg f hoff

theorem subStrHead_text (r : Ref) (m : Mem) (n : ℕ) : (r.subStrHead n).text m = (r.text m).take n :=
  read_take m r.p n r.getLength

theorem subStr_text (r : Ref) (m : Mem) (n : ℕ) : (r.subStr n).text m = (r.text m).drop n := by
  rw [Ref.subStr]
  split
  · rename_i hlt
    exact read_drop m r.p hlt.le
  · rename_i hle
    rw [Ref.text, Ref.text, List.drop_of_length_le (by rw [length_read]; omega)]
    rfl

/-- The text of an expression. -/
def Expr.text (m : Mem) : Expr → List UInt8
  | .ref x => x.text m
  | .add left right => left.text m ++ right.text m

/-- All references of an expression end before an address. -/
def Expr.Below (p : ℕ) : Expr → Prop
  | .ref x => x.stop ≤ p
  | .add left right => left.Below p ∧ right.Below p

section

variable {e : Expr} {m m' : Mem} {p q : ℕ}

theorem Expr.length_text (e : Expr) (m : Mem) : (e.text m).length = e.getLength := by
  induction e with
  | ref x => exact length_read _ _ _
  | add l r ihl ihr => rw [Expr.text, List.length_append, ihl, ihr, Expr.getLength]

theorem Expr.text_congr (he : e.Below p) (hm : ∀ a < p, m' a = m a) : e.text m' = e.text m := by
  induction e with
  | ref x => exact read_congr fun a _ ha => hm a (ha.trans_le he)
  | add l r ihl ihr => rw [Expr.text, Expr.text, ihl he.1, ihr he.2]

/-- An expression is copied to a place behind all of its references. -/
theorem Expr.copyTo_holds (he : e.Below p) (hq : p ≤ q) : Holds (e.copyTo m q).1 q (e.text m) := by
  induction e generalizing m q with
  | ref x => exact holds_memcpy _ _ _
  | add l r ihl ihr =>
    have hsame : r.text (l.copyTo m q).1 = r.text m :=
      Expr.text_congr he.2 fun a ha => l.copyTo_outside m (Or.inl (by omega))
    have hright := ihr (m := (l.copyTo m q).1) (q := q + l.getLength) he.2 (by omega)
    rw [hsame] at hright
    simp only [Expr.copyTo, Expr.copyTo_snd]
    refine holds_append.mpr ⟨?_, by rw [Expr.length_text]; exact hright⟩
    refine (ihl he.1 hq).congr fun a _ ha => r.copyTo_outside _ (Or.inl ?_)
    rwa [Expr.length_text] at ha

end

/-- What an expression is assigned to shows its text, and what was allocated before is not changed. -/
theorem assignExpr_shows {h : Heap} (s : Str) {e : Expr} (he : e.Below h.brk) :
    Shows (assignExpr h s e).1 (assignExpr h s e).2 (e.text h.mem) ∧
      (∀ a < h.brk, (assignExpr h s e).1.mem a = h.mem a) ∧ h.brk ≤ (assignExpr h s e).1.brk := by
  have hpoke : ∀ a < h.brk, poke h.mem (h.brk + e.getLength) 0 a = h.mem a := fun a ha => poke_other _ _ (by omega)
  have hholds := Expr.copyTo_holds (m := poke h.mem (h.brk + e.getLength) 0) he le_rfl
  rw [Expr.text_congr he hpoke] at hholds
  refine ⟨⟨?_, fun _ => ?_, ?_⟩, fun a ha => ?_, Nat.le_add_right _ _⟩
  · have hread := hholds.read_eq
    rwa [Expr.length_text] at hread
  · exact (e.copyTo_outside _ (Or.inr le_rfl)).trans (poke_same _ _ _)
  · exact Nat.add_le_add_left (Nat.le_succ _) _
  · exact (e.copyTo_outside _ (Or.inl ha)).trans (hpoke a ha)

/-! ### The loop -/

theorem intOf_far {n : ℕ} (h1 : 2 ^ 31 ≤ n) (h2 : n < 2 ^ 32) : intOf n < 0 := by
  rw [intOf, Int.bmod_def]
  split
  · omega
  · omega

/-- One text in place of another. -/
theorem replaced_expr {h : Heap} {t : Str} {a u v : List UInt8} {b : Ref} (ht : Shows h t (u ++ (a ++ v)))
    (hb : b.stop ≤ h.brk) :
    Expr.text h.mem (.add (.add (.ref (t.subStrHead u.length)) (.ref b)) (.ref (t.subStr (u.length + a.length)))) =
        u ++ b.text h.mem ++ v ∧
      Expr.Below h.brk (.add (.add (.ref (t.subStrHead u.length)) (.ref b))
        (.ref (t.subStr (u.length + a.length)))) := by
  have hlen := ht.getLength
  have hbelow := ht.below
  have hstop : t.stop = t.p + t.getLength := rfl
  refine ⟨?_, ⟨?_, hb⟩, ?_⟩
  · rw [Expr.text, Expr.text, Expr.text, Expr.text, Expr.text, subStrHead_text, subStr_text, ht.text,
      List.take_left' rfl, ← List.append_assoc u, List.drop_left' (List.length_append)]
  · have hmin : min u.length t.getLength ≤ t.getLength := Nat.min_le_right _ _
    have hhead : (t.subStrHead u.length).stop = t.p + min u.length t.getLength := rfl
    show (t.subStrHead u.length).stop ≤ h.brk
    omega
  · show (t.subStr (u.length + a.length)).stop ≤ h.brk
    rw [Ref.subStr]
    split
    · have htail : Ref.stop ⟨t.p + (u.length + a.length), t.getLength - (u.length + a.length) + 1⟩ =
          t.p + (u.length + a.length) + (t.getLength - (u.length + a.length)) := rfl
      omega
    · exact Nat.zero_le _

/-- From the end of the text `w` on, the loop replaces the occurrences up to the first one that comes to stand at an
offset which is negative as an `int`. -/
theorem replaceToLoop_eq {a bs : List UInt8} {b : Ref} (ha : a ≠ []) (hza : 0 ∉ a) {n : ℕ} (co : ℕ) {w xs : List UInt8}
    {h : Heap} {t : Str} (ht : Shows h t (w ++ xs)) (hz : 0 ∉ xs) (hb : b.stop ≤ h.brk) (hbs : b.text h.mem = bs)
    (hn : xs.length < n) (hco : co < 2 ^ 32) (hfar : ∀ k ∈ places bs w.length (pieces a xs), k < 2 ^ 32) :
    ∃ r, replaceToLoop a b n w.length co h t = some r ∧
      r.2.2 = (co + ((places bs w.length (pieces a xs)).takeWhile (· < 2 ^ 31)).length) % 2 ^ 32 ∧
      ((∀ k ∈ places bs w.length (pieces a xs), k < 2 ^ 31) →
        r.2.1.text r.1.mem = w ++ bs.intercalate (pieces a xs)) := by
  induction n generalizing w xs co h t with
  | zero => omega
  | succ n ih =>
    have hfind := findString_eq ha hza ht hz
    rw [replaceToLoop]
    dsimp only
    cases hdrop : xs.dropInfix? a with
    | none =>
      rw [hdrop, Option.map_none, Option.getD_none] at hfind
      rw [hfind, places_pieces_none bs _ hdrop, pieces_none hdrop, List.intercalate_singleton]
      refine ⟨_, if_pos (by decide), ?_, fun _ => ht.text⟩
      exact (Nat.mod_eq_of_lt hco).symm
    | some c =>
      obtain ⟨u, v⟩ := c
      obtain ⟨rfl, -⟩ := dropInfix?_eq_some.mp hdrop
      rw [hdrop, Option.map_some, Option.getD_some] at hfind
      rw [places_pieces_some bs _ ha hdrop] at hfar ⊢
      rw [intercalate_pieces_some bs ha hdrop, hfind]
      have hp := hfar (w.length + u.length) (by simp)
      by_cases hnear : w.length + u.length < 2 ^ 31
      · have hint : intOf ((w.length + u.length : ℕ) : ℤ) = (w.length + u.length : ℕ) :=
          intOf_eq (by omega) (by omega)
        rw [hint, if_neg (by omega), Int.toNat_natCast]
        rw [List.append_assoc u, ← List.append_assoc w] at ht
        obtain ⟨htext, hbelow⟩ := replaced_expr ht hb
        rw [List.length_append, hbs] at htext
        rw [List.length_append] at hbelow
        obtain ⟨hshows, hmem, hbrk⟩ := assignExpr_shows t hbelow
        rw [htext] at hshows
        have hlen : w.length + u.length + b.getLength = (w ++ u ++ bs).length := by
          rw [List.length_append, List.length_append, ← hbs, Ref.text, length_read]
        have hplace : w.length + u.length + bs.length = (w ++ u ++ bs).length := by
          rw [List.length_append, List.length_append]
        have hsame := (read_congr fun c _ hc => hmem c (hc.trans_le hb)).trans hbs
        rw [hplace] at hfar ⊢
        rw [hlen]
        have hshorter := (length_lt_of_dropInfix? ha hdrop).trans_le (Nat.le_of_lt_succ hn)
        obtain ⟨r, hr, hcount, hresult⟩ := ih ((co + 1) % 2 ^ 32) hshows (fun h0 => hz (by simp [h0]))
          (hb.trans hbrk) hsame hshorter (Nat.mod_lt _ (by omega)) fun k hk => hfar k (List.mem_cons_of_mem _ hk)
        refine ⟨r, hr, ?_, fun hall => ?_⟩
        · rw [hcount, List.takeWhile_cons_of_pos (by simpa using hnear), List.length_cons, Nat.mod_add_mod, Nat.add_assoc,
            Nat.add_comm 1]
        · rw [hresult fun k hk => hall k (List.mem_cons_of_mem _ hk)]
          simp only [List.append_assoc]
      · refine ⟨_, if_pos (intOf_far (by omega) hp), ?_, fun hall => absurd (hall _ (by simp)) hnear⟩
        rw [List.takeWhile_cons_of_neg (by simpa using hnear)]
        exact (Nat.mod_eq_of_lt hco).symm

/-! ### `Replace` and `ReplaceTo` -/

/-- The result of a replacement: the text, with the occurrences replaced from the left on, and their number. -/
def Replaces (r : Option (Heap × Str × ℕ)) (a bs xs : List UInt8) : Prop :=
  ∃ t, r = some t ∧ t.2.1.text t.1.mem = bs.intercalate (pieces a xs) ∧ t.2.2 + 1 = (pieces a xs).length

/-- Each inserted text begins before `2^31`, and there are less than `2^32` of them. -/
def Near (a bs xs : List UInt8) : Prop :=
  (∀ k ∈ places bs 0 (pieces a xs), k < 2 ^ 31) ∧ (pieces a xs).length ≤ 2 ^ 32

/-- A text that is assigned. -/
theorem assign_shows {h : Heap} {s : Str} (hs : Sized s) (hbrk : s.p + s.reserved ≤ h.brk) {x : Ref}
    (hx : x.stop ≤ h.brk) (hnull : x.p = 0 → x.getLength = 0) :
    Shows (assign h s x).1 (assign h s x).2 (x.text h.mem) := by
  have hok := assign_ok h hs x
  have htext := assign_text hs hx hnull
  have hplace := assign_beside (s := s) (d := Str.new) (x := x) ⟨hbrk, Nat.zero_le _, Or.inr (Nat.zero_le _)⟩
  have hlen := hok.len_le
  have hget : (assign h s x).2.getLength = (assign h s x).2.len - 1 := rfl
  have hstop : (assign h s x).2.stop = (assign h s x).2.p + (assign h s x).2.getLength := rfl
  refine ⟨htext, fun hne => hok.zero ?_, ?_⟩
  · rw [← htext, ← List.length_pos_iff, Ref.text, length_read] at hne
    omega
  · have := hplace.1
    omega

/-- A text beside the buffer is not changed by an assignment. -/
theorem assign_apart {h : Heap} {s : Str} (hs : Sized s) {b : Ref} (hb : Apart h s b) (x : Ref) :
    b.text (assign h s x).1.mem = b.text h.mem ∧ h.brk ≤ (assign h s x).1.brk := by
  have hstop : b.stop = b.p + b.getLength := rfl
  have hkept : Holds h.mem b.p (b.text h.mem) := holds_read _ _ _
  rw [assign]
  split
  · have hread := (setLength_holds hs hb 0 hkept (length_read _ _ _).le).read_eq
    refine ⟨by rwa [Ref.text, length_read] at hread, ?_⟩
    rw [empty, setLength, if_pos rfl]
    split
    · exact le_rfl
    · exact le_rfl
  · obtain ⟨hbrk, hside⟩ := hb
    have hplace : (b.stop ≤ (changeSize h s (x.getLength + 1)).2.p ∨
        (changeSize h s (x.getLength + 1)).2.p + (x.getLength + 1) ≤ b.p) ∧
          h.brk ≤ (changeSize h s (x.getLength + 1)).1.brk := by
      rw [changeSize]
      split
      · refine ⟨?_, le_rfl⟩
        simp only
        omega
      · exact ⟨Or.inl hbrk, Nat.le_add_right _ _⟩
    have hlen : (changeSize h s (x.getLength + 1)).2.getLength = x.getLength := by
      rw [Ref.getLength, (changeSize_spec h hs x.getLength.succ_pos).1]
      rfl
    refine ⟨read_congr fun c h1 h2 => ?_, hplace.2⟩
    have hout := hplace.1
    refine (poke_other _ _ (by omega)).trans ((memcpy_outside _ _ ?_).trans (changeSize_below h s _ (by omega)))
    rw [length_read, hlen]
    omega

/-- The text is as it should be, and its count, exactly when all occurrences are near. -/
theorem replaceTo_iff {h : Heap} {a : List UInt8} {x b : Ref} {out : Str} (ha : a ≠ []) (hza : 0 ∉ a)
    (hs : Sized out) (hbrk : out.p + out.reserved ≤ h.brk) (hx : x.stop ≤ h.brk) (hnull : x.p = 0 → x.getLength = 0)
    (hb : Apart h out b) (hz : 0 ∉ x.text h.mem)
    (hfar : ∀ k ∈ places (b.text h.mem) 0 (pieces a (x.text h.mem)), k < 2 ^ 32) :
    Replaces (replaceTo h x a b out) a (b.text h.mem) (x.text h.mem) ↔ Near a (b.text h.mem) (x.text h.mem) := by
  obtain ⟨hsame, hle⟩ := assign_apart hs hb x
  have hlen : (x.text h.mem).length < x.getLength + 1 := (length_read _ _ _).trans_lt (Nat.lt_succ_self _)
  have hshows := assign_shows hs hbrk hx hnull
  generalize x.text h.mem = xs at *
  generalize b.text h.mem = bs at *
  obtain ⟨r, hr, hcount, htext⟩ := replaceToLoop_eq ha hza 0 (w := []) hshows hz (hb.1.trans hle) hsame hlen
    (by omega) hfar
  rw [List.length_nil, Nat.zero_add] at hcount
  rw [List.length_nil, List.nil_append] at htext
  have hplaces := length_places bs 0 (pieces a xs)
  have hpos := List.length_pos_iff.mpr (pieces_ne_nil a xs)
  constructor
  · rintro ⟨t, ht, -, hnumber⟩
    obtain rfl := Option.some.inj (ht.symm.trans hr)
    have htake := List.takeWhile_prefix (l := places bs 0 (pieces a xs)) fun k => decide (k < 2 ^ 31)
    -- the count is that of the first occurrences, so these are all of them
    have hmod := Nat.mod_le ((places bs 0 (pieces a xs)).takeWhile fun k => decide (k < 2 ^ 31)).length (2 ^ 32)
    have hlt := Nat.mod_lt ((places bs 0 (pieces a xs)).takeWhile fun k => decide (k < 2 ^ 31)).length
      (show 0 < 2 ^ 32 by omega)
    rw [← hcount] at hmod hlt
    have hall := List.takeWhile_eq_self_iff.mp (htake.eq_of_length_le (by omega))
    exact ⟨fun k hk => by simpa using hall k hk, by omega⟩
  · rintro ⟨hnear, hfew⟩
    refine ⟨r, hr, htext hnear, ?_⟩
    rw [List.takeWhile_eq_self_iff.mpr (by simpa using hnear), hplaces, Nat.mod_eq_of_lt (by omega)] at hcount
    omega

/-- `Replace` works on a new string. -/
theorem replace_eq {a : List UInt8} (ha : a ≠ []) (h : Heap) (s : Str) (b : Ref) :
    replace h s a b = replaceTo h s.toRef a b Str.new := by
  rw [replace, if_neg (mt List.eq_nil_of_length_eq_zero ha), replaceTo]

theorem replace_near_iff {h : Heap} {a : List UInt8} {s : Str} {b : Ref} (ha : a ≠ []) (hza : 0 ∉ a) (hs : Sized s)
    (hx : s.stop ≤ h.brk) (hb : b.stop ≤ h.brk) (hz : 0 ∉ s.text h.mem)
    (hfar : ∀ k ∈ places (b.text h.mem) 0 (pieces a (s.text h.mem)), k < 2 ^ 32) :
    Replaces (replace h s a b) a (b.text h.mem) (s.text h.mem) ↔ Near a (b.text h.mem) (s.text h.mem) := by
  have hnull : s.p = 0 → s.getLength = 0 := by
    intro hp
    have hres := hs.null.mp hp
    have hle := hs.len_le
    rw [Ref.getLength]
    omega
  rw [replace_eq ha]
  exact replaceTo_iff ha hza sized_new (Nat.zero_le _) hx hnull ⟨hb, Or.inr (Nat.zero_le _)⟩ hz hfar

/-- With `a` not empty, `Replace` and `ReplaceTo` end, replace the leftmost occurrences that do not overlap and return
their number exactly when each inserted text begins before `2^31` and there are less than `2^32` of them, among the
texts in which none begins at `2^32` or later. -/
theorem replace_iff {h : Heap} {a : List UInt8} {b : Ref} (ha : a ≠ []) (hza : 0 ∉ a) :
    (∀ s : Str, Sized s → s.stop ≤ h.brk → b.stop ≤ h.brk → 0 ∉ s.text h.mem →
      (Near a (b.text h.mem) (s.text h.mem) → Replaces (replace h s a b) a (b.text h.mem) (s.text h.mem)) ∧
      ((∀ k ∈ places (b.text h.mem) 0 (pieces a (s.text h.mem)), k < 2 ^ 32) →
        Replaces (replace h s a b) a (b.text h.mem) (s.text h.mem) → Near a (b.text h.mem) (s.text h.mem))) ∧
    ∀ (x : Ref) (out : Str), Sized out → out.p + out.reserved ≤ h.brk → Apart h out b → x.stop ≤ h.brk →
      (x.p = 0 → x.getLength = 0) → 0 ∉ x.text h.mem →
      (Near a (b.text h.mem) (x.text h.mem) → Replaces (replaceTo h x a b out) a (b.text h.mem) (x.text h.mem)) ∧
      ((∀ k ∈ places (b.text h.mem) 0 (pieces a (x.text h.mem)), k < 2 ^ 32) →
        Replaces (replaceTo h x a b out) a (b.text h.mem) (x.text h.mem) → Near a (b.text h.mem) (x.text h.mem)) := by
  have hfar : ∀ {bs xs}, Near a bs xs → ∀ k ∈ places bs 0 (pieces a xs), k < 2 ^ 32 := by
    intro bs xs hnear k hk
    have := hnear.1 k hk
    omega
  constructor
  · intro s hs hx hb hz
    have hiff := replace_near_iff ha hza hs hx hb hz
    exact ⟨fun h => (hiff (hfar h)).mpr h, fun hfar => (hiff hfar).mp⟩
  · intro x out hs hbrk hb hx hnull hz
    have hiff := replaceTo_iff ha hza hs hbrk hx hnull hb hz
    exact ⟨fun h => (hiff (hfar h)).mpr h, fun hfar => (hiff hfar).mp⟩

/-- In `aab`, `ab` for `a`: what is put in contains what is looked for. -/
theorem replace_iff_grows : Replaces (replace (Heap.ofText [0x61, 0x61, 0x62]) ⟨⟨1, 4⟩, 4⟩ [0x61] ⟨2, 3⟩) [0x61]
    [0x61, 0x62] [0x61, 0x61, 0x62] := by
  have hpieces : pieces [0x61] [0x61, 0x61, 0x62] = ([[], [], [0x62]] : List (List UInt8)) := by
    rw [pieces_some (u := []) (v := [0x61, 0x62]) (by decide) (by decide),
      pieces_some (u := []) (v := [0x62]) (by decide) (by decide), pieces_none (by decide)]
  have hnear : Near [0x61] [0x61, 0x62] [0x61, 0x61, 0x62] := by
    rw [Near, hpieces]
    decide
  exact ((replace_iff (h := Heap.ofText [0x61, 0x61, 0x62]) (b := ⟨2, 3⟩) (by decide) (by decide)).1 ⟨⟨1, 4⟩, 4⟩
    ⟨by decide, by decide⟩ (by decide) (by decide) (by decide)).1 hnear

/-! ### Texts that are too long -/

/-- A text of its own in the memory. -/
theorem ofText_text (xs : List UInt8) : Ref.text ⟨1, xs.length + 1⟩ (Heap.ofText xs).mem = xs :=
  (holds_ofBytes 1 xs).read_eq

theorem not_replaces_ofText {a xs : List UInt8} (ha : a ≠ []) (hza : 0 ∉ a) (hz : 0 ∉ xs)
    (hfar : ∀ k ∈ places [] 0 (pieces a xs), k < 2 ^ 32) (hnot : ¬ Near a [] xs) :
    ¬ Replaces (replace (Heap.ofText xs) ⟨⟨1, xs.length + 1⟩, xs.length + 1⟩ a ⟨0, 0⟩) a [] xs := by
  have htext := ofText_text xs
  have hiff := replace_near_iff (h := Heap.ofText xs) (s := ⟨⟨1, xs.length + 1⟩, xs.length + 1⟩) (b := ⟨0, 0⟩) ha hza
    ⟨le_rfl, by simp⟩ (by show 1 + xs.length ≤ xs.length + 2; omega) (Nat.zero_le _) (by rwa [htext])
  rw [htext] at hiff
  exact mt (hiff hfar).mp hnot

/-- `Replace` of each `a` by nothing, in a string of its own. -/
def dropped (xs : List UInt8) : Option (Heap × Str × ℕ) :=
  replace (Heap.ofText xs) ⟨⟨1, xs.length + 1⟩, xs.length + 1⟩ [0x61] ⟨0, 0⟩

/-- An occurrence at an offset that is negative as an `int`. -/
theorem dropped_far {n : ℕ} (h1 : 2 ^ 31 ≤ n) (h2 : n < 2 ^ 32) :
    ¬ Replaces (dropped (List.replicate n 0x78 ++ [0x61])) [0x61] [] (List.replicate n 0x78 ++ [0x61]) := by
  have hdrop := dropInfix?_replicate (x := (0x78 : UInt8)) (c := 0x61) (by decide) n
  have hplaces : places [] 0 (pieces [0x61] (List.replicate n (0x78 : UInt8) ++ [0x61])) = [n] := by
    rw [places_pieces_some [] 0 (by decide) hdrop, pieces_none (by decide), List.length_replicate, Nat.zero_add]
    rfl
  refine not_replaces_ofText (by decide) (by decide) (by simp) ?_ fun hnear => ?_
  · rw [hplaces]
    intro k hk
    rwa [List.mem_singleton.mp hk]
  · have := hnear.1 n (by rw [hplaces]; exact List.mem_singleton_self _)
    omega

/-- More occurrences than a `UINT` counts. -/
theorem dropped_many {n : ℕ} (hn : 2 ^ 32 ≤ n) :
    ¬ Replaces (dropped (List.replicate n 0x61)) [0x61] [] (List.replicate n 0x61) := by
  refine not_replaces_ofText (by decide) (by decide) (by simp) ?_ fun hnear => ?_
  · rw [pieces_replicate, places_replicate]
    intro k hk
    rw [List.eq_of_mem_replicate hk]
    omega
  · have hfew := hnear.2
    rw [pieces_replicate, List.length_replicate] at hfew
    omega

/-- The only occurrence is at `2^31`, so that it is not replaced; or there are `2^32` of them, which are counted as
none. -/
theorem replace_fails :
    ¬ Replaces (dropped (List.replicate (2 ^ 31) 0x78 ++ [0x61])) [0x61] [] (List.replicate (2 ^ 31) 0x78 ++ [0x61]) ∧
      ¬ Replaces (dropped (List.replicate (2 ^ 32) 0x61)) [0x61] [] (List.replicate (2 ^ 32) 0x61) :=
  ⟨dropped_far le_rfl (by omega), dropped_many le_rfl⟩

end Cpcf.Rt.StringOwned
