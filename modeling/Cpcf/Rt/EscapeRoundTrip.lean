import Cpcf.Lib.Written
import Cpcf.Rt.StringBuffers
import Mathlib.Data.FinEnum

/-!
Escaping a text and taking the escapes out again.

The loop of `UnescapeCharacters` ends one character early and copies the last one, unless that is the escape sign.
When the last two characters are an escape the loop has taken both already, and what is copied is the byte behind the
text; the same happens to an empty text.
-/

namespace Cpcf.Rt.StringRef

open Cpcf.Lib.Memory

/-- `UnescapeCharacters(unescape, escape_sign)` of a reference. -/
def Ref.unescapeCharacters (r : Ref) (m : Mem) (unescape : CharacterSet) (sign : UInt8) : Option (Mem × Ref) :=
  if r.p = 0 then none
  else
    let t := unescapeLoop unescape.mapped sign r.getLength m r.p r.p
    some (t.1, { r with len := t.2 - r.p + 1 })

end Cpcf.Rt.StringRef

namespace Cpcf.Rt.StringOwned

open Cpcf.Lib.Memory Cpcf.Rt.StringRef

/-! ### Texts -/

/-- A text with escapes. -/
def escaped (set : CharacterSet) (sign : UInt8) (xs : List UInt8) : List UInt8 :=
  xs.flatMap fun c => if isEscaped set sign c then [sign, set.mapped c] else [c]

/-- What is left of a text with the byte `b` behind it. -/
def unescaped (f : UInt8 → UInt8) (sign b : UInt8) : List UInt8 → List UInt8
  | c :: d :: xs => if c = sign then f d :: unescaped f sign b xs else c :: unescaped f sign b (d :: xs)
  | [c] => if c ≠ sign then [c] else []
  | [] => if b ≠ sign then [b] else []

/-- The last character is there and is not escaped. -/
def EndsPlain (set : CharacterSet) (sign : UInt8) (xs : List UInt8) : Prop :=
  ∃ c ∈ xs.getLast?, isEscaped set sign c = false

section

variable {set : CharacterSet} {sign b c d : UInt8} {xs : List UInt8}

theorem escaped_cons_pos (hc : isEscaped set sign c = true) (xs : List UInt8) :
    escaped set sign (c :: xs) = sign :: set.mapped c :: escaped set sign xs := by
  rw [escaped, List.flatMap_cons, if_pos hc]
  rfl

theorem escaped_cons_neg (hc : ¬ isEscaped set sign c = true) (xs : List UInt8) :
    escaped set sign (c :: xs) = c :: escaped set sign xs := by
  rw [escaped, List.flatMap_cons, if_neg hc]
  rfl

theorem escaped_append (xs ys : List UInt8) :
    escaped set sign (xs ++ ys) = escaped set sign xs ++ escaped set sign ys := List.flatMap_append

theorem length_escaped (xs : List UInt8) :
    (escaped set sign xs).length = xs.length + xs.countP (isEscaped set sign) := by
  induction xs with
  | nil => rfl
  | cons c xs ih =>
    by_cases hc : isEscaped set sign c = true
    · rw [escaped_cons_pos hc, List.countP_cons_of_pos hc, List.length_cons, List.length_cons, ih, List.length_cons]
      omega
    · rw [escaped_cons_neg hc, List.countP_cons_of_neg hc, List.length_cons, ih, List.length_cons]
      omega

theorem escaped_eq_self (hxs : xs.countP (isEscaped set sign) = 0) : escaped set sign xs = xs := by
  induction xs with
  | nil => rfl
  | cons c xs ih =>
    by_cases hc : isEscaped set sign c = true
    · rw [List.countP_cons_of_pos hc] at hxs
      omega
    · rw [List.countP_cons_of_neg hc] at hxs
      rw [escaped_cons_neg hc, ih hxs]

theorem not_endsPlain_nil : ¬ EndsPlain set sign [] := by
  rintro ⟨c, hc, -⟩
  cases hc

theorem endsPlain_singleton : EndsPlain set sign [c] ↔ isEscaped set sign c = false := by
  rw [EndsPlain, List.getLast?_singleton]
  simp

theorem endsPlain_cons_cons : EndsPlain set sign (c :: d :: xs) ↔ EndsPlain set sign (d :: xs) := by
  rw [EndsPlain, List.getLast?_cons_cons, EndsPlain]

/-- The escapes are taken out, and a text that does not end in a plain character goes on with the byte behind it. -/
theorem unescaped_escaped {f : UInt8 → UInt8} (hf : ∀ c, isEscaped set sign c = true → f (set.mapped c) = c)
    (xs : List UInt8) :
    (EndsPlain set sign xs → unescaped f sign b (escaped set sign xs) = xs) ∧
      (¬ EndsPlain set sign xs →
        unescaped f sign b (escaped set sign xs) = xs ++ if b ≠ sign then [b] else []) := by
  induction xs with
  | nil => exact ⟨fun h => absurd h not_endsPlain_nil, fun _ => rfl⟩
  | cons c xs ih =>
    by_cases hc : isEscaped set sign c = true
    · rw [escaped_cons_pos hc, unescaped, if_pos rfl, hf c hc, List.cons_append, List.cons_inj_right,
        List.cons_inj_right]
      cases xs with
      | nil =>
        refine ⟨fun h => ?_, fun _ => rfl⟩
        rw [endsPlain_singleton, hc] at h
        cases h
      | cons d xs =>
        rw [endsPlain_cons_cons]
        exact ih
    · have hne : c ≠ sign := by
        rintro rfl
        exact hc (by simp [isEscaped])
      rw [escaped_cons_neg hc]
      cases xs with
      | nil =>
        have hplain : EndsPlain set sign [c] := endsPlain_singleton.mpr (Bool.not_eq_true _ ▸ hc)
        exact ⟨fun _ => if_pos hne, fun h => absurd hplain h⟩
      | cons d xs =>
        obtain ⟨y, ys, hys⟩ : ∃ y ys, escaped set sign (d :: xs) = y :: ys := by
          refine List.exists_cons_of_length_pos ?_
          rw [length_escaped, List.length_cons]
          omega
        rw [endsPlain_cons_cons, hys, unescaped, if_neg hne, ← hys, List.cons_append, List.cons_inj_right,
          List.cons_inj_right]
        exact ih

theorem unescaped_escaped_iff {f : UInt8 → UInt8} (hf : ∀ c, isEscaped set sign c = true → f (set.mapped c) = c) :
    unescaped f sign b (escaped set sign xs) = xs ↔ EndsPlain set sign xs ∨ b = sign := by
  obtain ⟨hplain, hother⟩ := unescaped_escaped (b := b) hf xs
  by_cases hx : EndsPlain set sign xs
  · exact ⟨fun _ => Or.inl hx, fun _ => hplain hx⟩
  · rw [hother hx]
    by_cases hb : b = sign
    · simp [hb]
    · simp [hb, hx]

end

/-! ### Loops -/

/-- The text is written in its own place or to somewhere behind it. -/
theorem unescapeLoop_written (f : UInt8 → UInt8) (sign : UInt8) {b : UInt8} {xs : List UInt8} {m : Mem} {s p : ℕ}
    (hs : Holds m s xs) (hb : m (s + xs.length) = b) (hap : p ≤ s ∨ s + xs.length < p) :
    Written m p (unescaped f sign b xs) (unescapeLoop f sign xs.length m s p) := by
  fun_induction unescaped f sign b xs generalizing m s p with
  | case1 d xs ih =>
    obtain ⟨hc, hd, hrest⟩ := hs
    rw [List.length_cons, List.length_cons] at hb hap ⊢
    rw [unescapeLoop, if_pos hc, hd]
    refine (ih ?_ ?_ (by omega)).cons
    · exact hrest.poke (by omega)
    · rw [poke_other _ _ (by omega), Nat.add_assoc, Nat.add_comm 2]
      exact hb
  | case2 c d xs hne ih =>
    obtain ⟨hc, hrest⟩ := hs
    rw [List.length_cons] at hb hap ⊢
    rw [List.length_cons, unescapeLoop, hc, if_neg hne]
    refine (ih ?_ ?_ (by omega)).cons
    · exact hrest.poke (by omega)
    · rw [poke_other _ _ (by omega), Nat.add_assoc, Nat.add_comm 1]
      exact hb
  | case3 c hne =>
    show Written m p [c] (if m s ≠ sign then (poke m p (m s), p + 1) else (m, p))
    rw [hs.1, if_pos hne]
    exact (Written.nil _ _).cons
  | case4 c heq =>
    show Written m p [] (if m s ≠ sign then (poke m p (m s), p + 1) else (m, p))
    rw [hs.1, if_neg heq]
    exact Written.nil m p
  | case5 hne =>
    show Written m p [b] (if m s ≠ sign then (poke m p (m s), p + 1) else (m, p))
    rw [show m s = b from hb, if_pos hne]
    exact (Written.nil _ _).cons
  | case6 heq =>
    show Written m p [] (if m s ≠ sign then (poke m p (m s), p + 1) else (m, p))
    rw [show m s = b from hb, if_neg heq]
    exact Written.nil m p

section

variable (set : CharacterSet) (sign : UInt8)

theorem replaceCount_eq {m : Mem} {p : ℕ} {xs : List UInt8} (h : Holds m p xs) :
    replaceCount set sign m p xs.length = xs.countP (isEscaped set sign) := by
  rw [replaceCount, h.read_eq]

/-- A text that lies beside is escaped. -/
theorem escapeLoop_holds {xs : List UInt8} {m : Mem} {s p : ℕ} (hs : Holds m s xs)
    (hap : s + xs.length ≤ p ∨ p + (escaped set sign xs).length ≤ s) :
    Holds (escapeLoop set sign xs.length m s p) p (escaped set sign xs) := by
  induction xs generalizing m s p with
  | nil => exact holds_nil
  | cons c xs ih =>
    obtain ⟨hc, hrest⟩ := hs
    rw [List.length_cons, escapeLoop, hc]
    by_cases hesc : isEscaped set sign c = true
    · rw [escaped_cons_pos hesc, List.length_cons, List.length_cons, List.length_cons] at hap
      rw [if_pos hesc, escaped_cons_pos hesc]
      dsimp only
      rw [poke_other _ _ (by omega), hc]
      have hxs : Holds (poke (poke m p sign) (p + 1) (set.mapped c)) (s + 1) xs :=
        (hrest.poke (by omega)).poke (by omega)
      have hbeside : s + 1 + xs.length ≤ p + 2 ∨ p + 2 + (xs.length + xs.countP (isEscaped set sign)) ≤ s + 1 := by
        rw [← length_escaped]
        omega
      have hout := fun a ha => escapeLoop_outside set sign (a := a) (replaceCount_eq set sign hxs) hbeside (Or.inl ha)
      refine ⟨?_, ?_, ih hxs (by omega)⟩
      · rw [hout p (by omega), poke_other _ _ (by omega), poke_same]
      · rw [hout (p + 1) (by omega), poke_same]
    · rw [escaped_cons_neg hesc, List.length_cons, List.length_cons] at hap
      rw [if_neg hesc, escaped_cons_neg hesc]
      have hxs : Holds (poke m p c) (s + 1) xs := hrest.poke (by omega)
      have hbeside : s + 1 + xs.length ≤ p + 1 ∨ p + 1 + (xs.length + xs.countP (isEscaped set sign)) ≤ s + 1 := by
        rw [← length_escaped]
        omega
      refine ⟨?_, ih hxs (by omega)⟩
      rw [escapeLoop_outside set sign (replaceCount_eq set sign hxs) hbeside (Or.inl (by omega)), poke_same]

/-- From the last character to the first one, a text is escaped in its own place: what is written lies behind what has
still to be read. -/
theorem escapeBackLoop_holds {base : ℕ} (hbase : 0 < base) {xs : List UInt8} {m : Mem} (hxs : Holds m base xs) :
    Holds (escapeBackLoop set sign base xs.length m (base + (escaped set sign xs).length)) base
      (escaped set sign xs) := by
  induction xs using List.reverseRecOn generalizing m with
  | nil => exact holds_nil
  | append_singleton xs c ih =>
    obtain ⟨hrest, hc⟩ := holds_append.mp hxs
    have hc : m (base + xs.length) = c := hc.1
    have hle : xs.length ≤ (escaped set sign xs).length := by
      rw [length_escaped]
      omega
    rw [List.length_append, List.length_singleton, escapeBackLoop, escaped_append]
    simp only [hc]
    by_cases hesc : isEscaped set sign c = true
    · rw [if_pos hesc, escaped_cons_pos hesc, List.length_append, holds_append]
      have hend : base + ((escaped set sign xs).length + (sign :: set.mapped c :: escaped set sign []).length) - 2 =
          base + (escaped set sign xs).length := rfl
      have hlast : base + ((escaped set sign xs).length + (sign :: set.mapped c :: escaped set sign []).length) - 1 =
          base + (escaped set sign xs).length + 1 := rfl
      rw [hend, hlast]
      refine ⟨ih ?_, ?_, ?_, holds_nil⟩
      · exact (hrest.poke (by omega)).poke (by omega)
      · rw [escapeBackLoop_outside _ _ _ _ _ le_rfl (by omega), poke_same]
      · rw [escapeBackLoop_outside _ _ _ _ _ (by omega) (by omega), poke_other _ _ (by omega), poke_same]
    · rw [if_neg hesc, escaped_cons_neg hesc, List.length_append, holds_append]
      have hend : base + ((escaped set sign xs).length + (c :: escaped set sign []).length) - 1 =
          base + (escaped set sign xs).length := rfl
      rw [hend]
      refine ⟨ih ?_, ?_, holds_nil⟩
      · exact hrest.poke (by omega)
      · rw [escapeBackLoop_outside _ _ _ _ _ le_rfl (by omega), poke_same]

end

/-! ### `EscapeCharacters` -/

section

variable {h : Heap} {s d : Str} (set : CharacterSet) (sign : UInt8)

theorem escapeFrom_beside (hb : Beside h s d) (x : Ref) :
    Beside (escapeFrom h s x set sign).1 (escapeFrom h s x set sign).2 d := by
  simp only [escapeFrom]
  split
  · exact assign_beside hb x
  · exact setLength_beside hb _

theorem escapeFrom_text (hs : Sized s) {x : Ref} (hx : Apart h s x) (hnull : x.p = 0 → x.getLength = 0) :
    (escapeFrom h s x set sign).2.text (escapeFrom h s x set sign).1.mem = escaped set sign (x.text h.mem) := by
  have hxs : Holds h.mem x.p (x.text h.mem) := holds_read _ _ _
  have hlen : (x.text h.mem).length = x.getLength := length_read _ _ _
  have hcount := replaceCount_eq set sign hxs
  rw [hlen] at hcount
  simp only [escapeFrom]
  split
  · rename_i hzero
    rw [hcount] at hzero
    rw [assign_text hs hx.1 hnull, escaped_eq_self hzero]
  · rename_i hpos
    have hsize : x.getLength + replaceCount set sign h.mem x.p x.getLength =
        (escaped set sign (x.text h.mem)).length := by
      rw [length_escaped, hlen, hcount]
    rw [hsize]
    have hn : (escaped set sign (x.text h.mem)).length ≠ 0 := by omega
    obtain ⟨-, hap⟩ := setLength_apart hx hn
    have hstop : x.stop = x.p + x.getLength := rfl
    have hloop := escapeLoop_holds set sign
      (setLength_holds hs hx (escaped set sign (x.text h.mem)).length hxs hlen.le)
      (p := (setLength h s (escaped set sign (x.text h.mem)).length).2.p) (by omega)
    rw [hlen] at hloop
    rw [Ref.text, setLength_getLength h hs]
    exact hloop.read_eq

theorem escapeCharacters_text (hs : Sized s) :
    (escapeCharacters h s set sign).2.text (escapeCharacters h s set sign).1.mem =
      escaped set sign (s.text h.mem) := by
  have hxs : Holds h.mem s.p (s.text h.mem) := holds_read _ _ _
  have hlen : (s.text h.mem).length = s.getLength := length_read _ _ _
  have hcount := replaceCount_eq set sign hxs
  rw [hlen] at hcount
  simp only [escapeCharacters]
  split
  · rename_i hzero
    rw [hcount] at hzero
    rw [escaped_eq_self hzero]
  · rename_i hpos
    have hsize : s.getLength + replaceCount set sign h.mem s.p s.getLength =
        (escaped set sign (s.text h.mem)).length := by
      rw [length_escaped, hlen, hcount]
    rw [hsize]
    have hn : (escaped set sign (s.text h.mem)).length ≠ 0 := by omega
    have hbase : (setLength h s (escaped set sign (s.text h.mem)).length).2.p ≠ 0 := by
      have hok := setLength_ok h hs (escaped set sign (s.text h.mem)).length
      have hle := hok.len_le
      rw [setLength_len h hs hn] at hle
      exact mt hok.null.mp (by omega)
    have hkept := setLength_read h s (k := s.getLength) hn (by omega) (Nat.sub_le _ _)
    have hloop := escapeBackLoop_holds set sign (Nat.pos_of_ne_zero hbase) hkept
    rw [length_read] at hloop
    rw [Ref.text, setLength_getLength h hs]
    exact hloop.read_eq

/-! ### `UnescapeCharacters` -/

theorem ref_unescapeCharacters_eq_iff {r : Ref} {m : Mem} {unescape : CharacterSet} {w : List UInt8} :
    (∃ t, r.unescapeCharacters m unescape sign = some t ∧ t.2.text t.1 = w) ↔
      r.p ≠ 0 ∧ unescaped unescape.mapped sign (m r.stop) (r.text m) = w := by
  have hwritten := unescapeLoop_written unescape.mapped sign (b := m r.stop) (p := r.p)
    (holds_read m r.p r.getLength) (by rw [length_read]; rfl) (Or.inl le_rfl)
  rw [length_read] at hwritten
  have htext := hwritten.read_stop
  rw [← Ref.text] at htext
  rw [← htext, Ref.unescapeCharacters]
  by_cases hp : r.p = 0
  · simp [hp]
  · rw [if_neg hp]
    constructor
    · rintro ⟨t, ht, hback⟩
      obtain rfl := Option.some.inj ht
      exact ⟨hp, hback⟩
    · rintro ⟨-, hback⟩
      exact ⟨_, rfl, hback⟩

/-- The byte behind the text is read too. -/
theorem unescapeFrom_text (f : UInt8 → UInt8) (sign : UInt8) (hs : Sized s) {x : Ref}
    (hx : Apart h s ⟨x.p, x.getLength + 2⟩) (hp : x.p ≠ 0) (hroom : x.getLength = 0 → s.p ≠ 0) :
    ∃ t, unescapeFrom f h s x sign = some t ∧
      t.2.text t.1.mem = unescaped f sign (h.mem x.stop) (x.text h.mem) := by
  have hlen : (x.text h.mem).length = x.getLength := length_read _ _ _
  have hkept : Holds (setLength h s x.getLength).1.mem x.p (read h.mem x.p (x.getLength + 1)) :=
    setLength_holds hs hx _ (holds_read _ _ _) (by rw [length_read, Ref.getLength]; exact le_rfl)
  rw [read_add, holds_append, length_read] at hkept
  have hplace : (setLength h s x.getLength).2.p ≠ 0 ∧ ((setLength h s x.getLength).2.p ≤ x.p ∨
      x.p + x.getLength < (setLength h s x.getLength).2.p) := by
    by_cases hn : x.getLength = 0
    · rw [hn, (setLength_zero h hs).1]
      exact ⟨hroom hn, by omega⟩
    · have hok := setLength_ok h hs x.getLength
      have hle := hok.len_le
      rw [setLength_len h hs hn] at hle
      have hap := (setLength_apart hx hn).2
      have hstop : Ref.stop ⟨x.p, x.getLength + 2⟩ = x.p + (x.getLength + 1) := rfl
      refine ⟨mt hok.null.mp (by omega), ?_⟩
      simp only at hap
      omega
  have hwritten := unescapeLoop_written f sign (b := h.mem x.stop)
    (p := (setLength h s x.getLength).2.p) hkept.1 (by rw [length_read]; exact hkept.2.1)
    (by rw [length_read]; exact hplace.2)
  rw [length_read] at hwritten
  refine ⟨_, if_neg (not_or.mpr ⟨hp, hplace.1⟩), ?_⟩
  exact hwritten.read_eq 0

theorem unescapeFrom_eq_iff {f : UInt8 → UInt8} (hs : Sized s) {x : Ref} {w : List UInt8}
    (hx : x.p ≠ 0 → Apart h s ⟨x.p, x.getLength + 2⟩) :
    (∃ t, unescapeFrom f h s x sign = some t ∧ t.2.text t.1.mem = w) ↔
      (x.p ≠ 0 ∧ unescaped f sign (h.mem x.stop) (x.text h.mem) = w) ∧ (x.getLength = 0 → s.p ≠ 0) := by
  constructor
  · rintro ⟨t, ht, hback⟩
    have hp : x.p ≠ 0 := by
      intro hp
      simp [unescapeFrom, hp] at ht
    have hroom : x.getLength = 0 → s.p ≠ 0 := by
      intro h0 hp'
      simp [unescapeFrom, h0, (setLength_zero h hs).1, hp'] at ht
    obtain ⟨u, hu, htext⟩ := unescapeFrom_text f sign hs (hx hp) hp hroom
    obtain rfl := Option.some.inj (ht.symm.trans hu)
    exact ⟨⟨hp, htext.symm.trans hback⟩, hroom⟩
  · rintro ⟨⟨hp, hback⟩, hroom⟩
    obtain ⟨u, hu, htext⟩ := unescapeFrom_text f sign hs (hx hp) hp hroom
    exact ⟨u, hu, htext.trans hback⟩

/-! ### The round trip -/

/-- What `EscapeCharacters` leaves of an empty text: the buffer that there was. -/
theorem escapeFrom_nil (hs : Sized s) {x : Ref} (hx : x.getLength = 0) :
    (escapeFrom h s x set sign).2.p = s.p ∧ (escapeFrom h s x set sign).2.getLength = 0 ∧
      (s.p ≠ 0 → (escapeFrom h s x set sign).1.mem s.p = if 1 < s.len then 0 else h.mem s.p) := by
  have hempty : x.isEmpty = true := by
    rw [Ref.getLength] at hx
    simp only [Ref.isEmpty, Bool.or_eq_true, decide_eq_true_eq]
    omega
  have hresult : escapeFrom h s x set sign = setLength h s 0 := by
    simp only [escapeFrom, hx]
    rw [if_pos (show replaceCount set sign h.mem x.p 0 = 0 from rfl), assign, if_pos hempty, empty]
  rw [hresult]
  refine ⟨(setLength_zero h hs).1, setLength_getLength h hs 0, fun hp => ?_⟩
  rw [setLength, if_pos rfl]
  by_cases hlen : 1 < s.len
  · rw [if_pos ⟨hp, hlen⟩, if_pos hlen]
    exact poke_same _ _ _
  · rw [if_neg fun hc => hlen hc.2, if_neg hlen]

/-- A text that is not empty has a zero byte behind it when it is escaped. -/
theorem escapeFrom_cons (hs : Sized s) {x : Ref} (hx : Apart h s x) (hnull : x.p = 0 → x.getLength = 0)
    (hpos : x.getLength ≠ 0) : (escapeFrom h s x set sign).2.p ≠ 0 ∧
      (escapeFrom h s x set sign).1.mem (escapeFrom h s x set sign).2.stop = 0 := by
  have hok : Ok (escapeFrom h s x set sign).1 (escapeFrom h s x set sign).2 := escapeFrom_ok hs (Or.inr hx)
  have htext := congrArg List.length (escapeFrom_text set sign hs hx hnull)
  have hlen : (x.text h.mem).length = x.getLength := length_read _ _ _
  rw [length_escaped, hlen, Ref.text, length_read, Ref.getLength] at htext
  have hle := hok.len_le
  exact ⟨mt hok.null.mp (by omega), hok.zero (by omega)⟩

/-- The condition on a text `xs` that is put into a string and escaped, for the escapes to be taken out again. An
empty text comes back when the string has a buffer with the escape sign at its start. -/
def Restored (h : Heap) (s : Str) (set : CharacterSet) (sign : UInt8) (xs : List UInt8) : Prop :=
  if xs = [] then s.p ≠ 0 ∧ (if 1 < s.len then 0 else h.mem s.p) = sign else EndsPlain set sign xs ∨ sign = 0

/-- The byte behind an escaped text, and when it does no harm. -/
theorem restored_iff (hs : Sized s) {x : Ref} (hx : Apart h s x) (hnull : x.p = 0 → x.getLength = 0)
    {f : UInt8 → UInt8} (hf : ∀ c, isEscaped set sign c = true → f (set.mapped c) = c) :
    Restored h s set sign (x.text h.mem) ↔ (escapeFrom h s x set sign).2.p ≠ 0 ∧
      unescaped f sign ((escapeFrom h s x set sign).1.mem (escapeFrom h s x set sign).2.stop)
        (escaped set sign (x.text h.mem)) = x.text h.mem := by
  have hlen : (x.text h.mem).length = x.getLength := length_read _ _ _
  rw [unescaped_escaped_iff hf, Restored]
  by_cases hpos : x.getLength = 0
  · obtain ⟨hp, hget, hbyte⟩ := escapeFrom_nil (h := h) set sign hs hpos
    have hnil := List.eq_nil_of_length_eq_zero (hlen.trans hpos)
    rw [if_pos hnil, hnil, Ref.stop, hget, hp, Nat.add_zero]
    refine and_congr_right fun hp => ?_
    rw [hbyte hp]
    exact ⟨Or.inr, fun h => h.resolve_left not_endsPlain_nil⟩
  · obtain ⟨hp, hzero⟩ := escapeFrom_cons set sign hs hx hnull hpos
    have hne : x.text h.mem ≠ [] := fun hnil => hpos (by rw [← hlen, hnil]; rfl)
    rw [if_neg hne, hzero, eq_comm (a := sign)]
    exact (and_iff_right hp).symm

variable {set sign}

/-- When `unescape` undoes the mapping, `UnescapeCharacters` takes out again what `EscapeCharacters` put in exactly if
the text ends in a plain character or the escape sign is the zero byte; of an empty text the buffer decides. In its own
place a text is escaped as in another string. -/
theorem unescape_escape_iff {unescape : CharacterSet} {x : Ref} (hs : Sized s) (hd : Sized d) (hb : Beside h s d)
    (hx : Apart h s x) (hnull : x.p = 0 → x.getLength = 0)
    (hun : ∀ c, isEscaped set sign c = true → unescape.mapped (set.mapped c) = c) :
    ((∃ t, (escapeFrom h s x set sign).2.unescapeCharacters (escapeFrom h s x set sign).1.mem unescape sign = some t ∧
        t.2.text t.1 = x.text h.mem) ↔ Restored h s set sign (x.text h.mem)) ∧
      ((∃ t, unescapeFrom unescape.mapped (escapeFrom h s x set sign).1 d (escapeFrom h s x set sign).2.toRef sign =
        some t ∧ t.2.text t.1.mem = x.text h.mem) ↔
          Restored h s set sign (x.text h.mem) ∧ (x.text h.mem = [] → d.p ≠ 0)) ∧
      ∀ s', Sized s' → s'.text h.mem = x.text h.mem →
        (escapeCharacters h s' set sign).2.text (escapeCharacters h s' set sign).1.mem =
          (escapeFrom h s x set sign).2.text (escapeFrom h s x set sign).1.mem := by
  have htext := escapeFrom_text set sign hs hx hnull
  have hbeside := escapeFrom_beside set sign hb x
  have hok : Ok (escapeFrom h s x set sign).1 (escapeFrom h s x set sign).2 := escapeFrom_ok hs (Or.inr hx)
  have hsized := hok.toSized
  have hapart : (escapeFrom h s x set sign).2.p ≠ 0 → Apart (escapeFrom h s x set sign).1 d
      ⟨(escapeFrom h s x set sign).2.p, (escapeFrom h s x set sign).2.getLength + 2⟩ := by
    intro hp
    obtain ⟨h1, h2, h3⟩ := hbeside
    have hlt := hsized.getLength_lt hp
    have hstop : Ref.stop ⟨(escapeFrom h s x set sign).2.p, (escapeFrom h s x set sign).2.getLength + 2⟩ =
        (escapeFrom h s x set sign).2.p + ((escapeFrom h s x set sign).2.getLength + 1) := rfl
    refine ⟨?_, ?_⟩
    · omega
    · simp only
      omega
  have hnil : x.text h.mem = [] ↔ (escapeFrom h s x set sign).2.getLength = 0 := by
    have hlen := congrArg List.length htext
    rw [Ref.text, length_read, length_escaped] at hlen
    rw [← List.length_eq_zero_iff]
    constructor
    · intro h0
      rw [hlen, List.eq_nil_of_length_eq_zero h0]
      rfl
    · omega
  refine ⟨?_, ?_, fun s' hs' hsame => by rw [escapeCharacters_text set sign hs', hsame, htext]⟩
  · rw [restored_iff set sign hs hx hnull hun, ← htext]
    exact ref_unescapeCharacters_eq_iff sign
  · rw [restored_iff set sign hs hx hnull hun, hnil, ← htext]
    exact unescapeFrom_eq_iff sign hd hapart

end

/-- `"` and the backslash. -/
def quoteSet : CharacterSet := CharacterSet.single Ch.dquote

/-- `a"b`, with a backslash as the escape sign. -/
theorem unescape_escape_iff_quote :
    (∃ t, unescapeFrom quoteSet.mapped (escapeFrom (Heap.ofText [0x61, 0x22, 0x62]) Str.new ⟨1, 4⟩ quoteSet 0x5c).1
      Str.new (escapeFrom (Heap.ofText [0x61, 0x22, 0x62]) Str.new ⟨1, 4⟩ quoteSet 0x5c).2.toRef 0x5c = some t ∧
        t.2.text t.1.mem = [0x61, 0x22, 0x62]) :=
  ((unescape_escape_iff (h := Heap.ofText [0x61, 0x22, 0x62]) (x := ⟨1, 4⟩) sized_new sized_new (by decide)
    (by decide) (by decide) (by decide +kernel)).2.1).mpr ⟨Or.inl ⟨0x62, by decide, by decide⟩, by decide⟩

/-- Of `"` and of a backslash a zero byte is left behind the text, whether the escapes are taken out in place or not;
an empty text has no buffer. -/
theorem unescape_escape_fails :
    (∃ t, unescapeFrom quoteSet.mapped (escapeFrom (Heap.ofText [0x22]) Str.new ⟨1, 2⟩ quoteSet 0x5c).1 Str.new
      (escapeFrom (Heap.ofText [0x22]) Str.new ⟨1, 2⟩ quoteSet 0x5c).2.toRef 0x5c = some t ∧
        t.2.text t.1.mem = [0x22, 0]) ∧
      (∃ t, (escapeFrom (Heap.ofText [0x5c]) Str.new ⟨1, 2⟩ quoteSet 0x5c).2.unescapeCharacters
        (escapeFrom (Heap.ofText [0x5c]) Str.new ⟨1, 2⟩ quoteSet 0x5c).1.mem quoteSet 0x5c = some t ∧
          t.2.text t.1 = [0x5c, 0]) ∧
      (escapeFrom (Heap.ofText []) Str.new ⟨1, 1⟩ quoteSet 0x5c).2.unescapeCharacters
        (escapeFrom (Heap.ofText []) Str.new ⟨1, 1⟩ quoteSet 0x5c).1.mem quoteSet 0x5c = none :=
  ⟨⟨_, rfl, by decide⟩, ⟨_, rfl, by decide⟩, rfl⟩

end Cpcf.Rt.StringOwned
