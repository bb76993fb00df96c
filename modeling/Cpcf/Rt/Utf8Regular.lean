import Mathlib.Data.FinEnum
import Cpcf.Lib.Written
import Cpcf.Rt.StringOwned

/-!
`String::RegularizeUTF8` over any bytes.

The loop takes the bytes behind a lead byte without a look at how many are left. A sequence that is cut off by the end
of the text is completed with what stands behind the text, and the text gets longer than it was.
-/

namespace Cpcf.Rt.StringOwned

open Cpcf.Lib.Memory Cpcf.Rt.StringRef

/-! ### The source -/

/-- The addresses the loop of `RegularizeUTF8` reads from the byte `i` on. -/
def regularizeReads (p n : ℕ) : ℕ → Mem → ℕ → ℕ → List ℕ
  | 0, _, _, _ => []
  | k + 1, m, i, out =>
    if i < n then
      let c := m (p + i)
      if c &&& 0x80 = 0 then (p + i) :: regularizeReads p n k (poke m out c) (i + 1) (out + 1)
      else if c &&& 0xe0 = 0xc0 then
        let m := poke m out c
        let m := poke m (out + 1) (continuation (m (p + i + 1)))
        (p + i) :: (p + i + 1) :: regularizeReads p n k m (i + 2) (out + 2)
      else if c &&& 0xf0 = 0xe0 then
        let m := poke m out c
        let m := poke m (out + 1) (continuation (m (p + i + 1)))
        let m := poke m (out + 2) (continuation (m (p + i + 2)))
        (p + i) :: (p + i + 1) :: (p + i + 2) :: regularizeReads p n k m (i + 3) (out + 3)
      else (p + i) :: regularizeReads p n k m (i + 1) out
    else []

/-! ### Texts -/

/-- Complete sequences of one, two or three bytes, one behind the other. -/
inductive Sequences : List UInt8 → Prop
  | nil : Sequences []
  | one {c : UInt8} {t : List UInt8} (hc : c &&& 0x80 = 0) (h : Sequences t) : Sequences (c :: t)
  | two {c x : UInt8} {t : List UInt8} (hc : c &&& 0xe0 = 0xc0) (hx : x &&& 0xc0 = 0x80) (h : Sequences t) :
      Sequences (c :: x :: t)
  | three {c x y : UInt8} {t : List UInt8} (hc : c &&& 0xf0 = 0xe0) (hx : x &&& 0xc0 = 0x80) (hy : y &&& 0xc0 = 0x80)
      (h : Sequences t) : Sequences (c :: x :: y :: t)

/-- The text `RegularizeUTF8` leaves of one whose last sequence is not cut off. -/
def regularized : List UInt8 → List UInt8
  | [] => []
  | [c] => if c &&& 0x80 = 0 then [c] else []
  | [c, x] =>
    if c &&& 0x80 = 0 then c :: regularized [x]
    else if c &&& 0xe0 = 0xc0 then [c, continuation x]
    else regularized [x]
  | c :: x :: y :: t =>
    if c &&& 0x80 = 0 then c :: regularized (x :: y :: t)
    else if c &&& 0xe0 = 0xc0 then c :: continuation x :: regularized (y :: t)
    else if c &&& 0xf0 = 0xe0 then c :: continuation x :: continuation y :: regularized t
    else regularized (x :: y :: t)

attribute [local simp] regularized

/-- The end of the text cuts a sequence off that the scan comes to. -/
def cutOff : List UInt8 → Bool
  | [] => false
  | [c] => c &&& 0xe0 = 0xc0 || c &&& 0xf0 = 0xe0
  | [c, x] => if c &&& 0xe0 = 0xc0 then false else c &&& 0xf0 = 0xe0 || cutOff [x]
  | c :: x :: y :: t =>
    if c &&& 0xe0 = 0xc0 then cutOff (y :: t) else if c &&& 0xf0 = 0xe0 then cutOff t else cutOff (x :: y :: t)

attribute [local simp] cutOff

section

variable {c x y : UInt8} {t : List UInt8}

theorem not_lead_of_ascii : ∀ c : UInt8, c &&& 0x80 = 0 → ¬ c &&& 0xe0 = 0xc0 ∧ ¬ c &&& 0xf0 = 0xe0 := by
  set_option maxRecDepth 20000 in decide

theorem not_ascii_of_two : ∀ c : UInt8, c &&& 0xe0 = 0xc0 → ¬ c &&& 0x80 = 0 := by
  set_option maxRecDepth 20000 in decide

theorem not_two_of_three : ∀ c : UInt8, c &&& 0xf0 = 0xe0 → ¬ c &&& 0x80 = 0 ∧ ¬ c &&& 0xe0 = 0xc0 := by
  set_option maxRecDepth 20000 in decide

theorem continuation_proper : ∀ c : UInt8, continuation c &&& 0xc0 = 0x80 ∧
    (c &&& 0xc0 = 0x80 → continuation c = c) := by
  set_option maxRecDepth 20000 in decide

theorem regularized_ascii (hc : c &&& 0x80 = 0) (t : List UInt8) : regularized (c :: t) = c :: regularized t := by
  rcases t with _ | ⟨x, _ | ⟨y, t⟩⟩
  · simp [hc]
  · simp [hc]
  · rw [regularized, if_pos hc]

theorem regularized_two (hc : c &&& 0xe0 = 0xc0) (x : UInt8) (t : List UInt8) :
    regularized (c :: x :: t) = c :: continuation x :: regularized t := by
  rcases t with _ | ⟨y, t⟩
  · simp [not_ascii_of_two c hc, hc]
  · rw [regularized, if_neg (not_ascii_of_two c hc), if_pos hc]

theorem regularized_three (hc : c &&& 0xf0 = 0xe0) (x y : UInt8) (t : List UInt8) :
    regularized (c :: x :: y :: t) = c :: continuation x :: continuation y :: regularized t := by
  rw [regularized, if_neg (not_two_of_three c hc).1, if_neg (not_two_of_three c hc).2, if_pos hc]

theorem regularized_other (h1 : ¬ c &&& 0x80 = 0) (h2 : ¬ c &&& 0xe0 = 0xc0) (h3 : ¬ c &&& 0xf0 = 0xe0)
    (t : List UInt8) : regularized (c :: t) = regularized t := by
  rcases t with _ | ⟨x, _ | ⟨y, t⟩⟩
  · simp [h1]
  · simp [h1, h2]
  · rw [regularized, if_neg h1, if_neg h2, if_neg h3]

theorem cutOff_one (h2 : ¬ c &&& 0xe0 = 0xc0) (h3 : ¬ c &&& 0xf0 = 0xe0) (t : List UInt8) :
    cutOff (c :: t) = cutOff t := by
  rcases t with _ | ⟨x, _ | ⟨y, t⟩⟩
  · simp [h2, h3]
  · simp [h2, h3]
  · rw [cutOff, if_neg h2, if_neg h3]

theorem cutOff_two (hc : c &&& 0xe0 = 0xc0) (x : UInt8) (t : List UInt8) : cutOff (c :: x :: t) = cutOff t := by
  rcases t with _ | ⟨y, t⟩
  · simp [hc]
  · rw [cutOff, if_pos hc]

theorem cutOff_three (hc : c &&& 0xf0 = 0xe0) (x y : UInt8) (t : List UInt8) :
    cutOff (c :: x :: y :: t) = cutOff t := by
  rw [cutOff, if_neg (not_two_of_three c hc).2, if_pos hc]

theorem cutOff_two_nil (hc : c &&& 0xe0 = 0xc0) : cutOff [c] = true := by simp [hc]

theorem cutOff_three_short (hc : c &&& 0xf0 = 0xe0) (h : t.length < 2) : cutOff (c :: t) = true := by
  rcases t with _ | ⟨x, _ | ⟨y, t⟩⟩
  · simp [hc]
  · simp [hc, (not_two_of_three c hc).2]
  · simp at h

theorem sequences_regularized (s : List UInt8) : Sequences (regularized s) := by
  fun_induction regularized s with
  | case1 => exact .nil
  | case2 c hc => exact .one hc .nil
  | case3 c hc => exact .nil
  | case4 c x hc ih => exact .one hc ih
  | case5 c x h1 h2 => exact .two h2 (continuation_proper x).1 .nil
  | case6 c x h1 h2 ih => exact ih
  | case7 c x y t hc ih => exact .one hc ih
  | case8 c x y t h1 h2 ih => exact .two h2 (continuation_proper x).1 ih
  | case9 c x y t h1 h2 h3 ih => exact .three h3 (continuation_proper x).1 (continuation_proper y).1 ih
  | case10 c x y t h1 h2 h3 ih => exact ih

theorem length_regularized_le (s : List UInt8) : (regularized s).length ≤ s.length := by
  fun_induction regularized s with
  | case1 => exact le_rfl
  | case2 c hc => exact le_rfl
  | case3 c hc => exact Nat.zero_le _
  | case4 c x hc ih => exact Nat.succ_le_succ ih
  | case5 c x h1 h2 => exact le_rfl
  | case6 c x h1 h2 ih => exact ih.trans (Nat.le_succ _)
  | case7 c x y t hc ih => exact Nat.succ_le_succ ih
  | case8 c x y t h1 h2 ih => exact Nat.succ_le_succ (Nat.succ_le_succ ih)
  | case9 c x y t h1 h2 h3 ih => exact Nat.succ_le_succ (Nat.succ_le_succ (Nat.succ_le_succ ih))
  | case10 c x y t h1 h2 h3 ih => exact ih.trans (Nat.le_succ _)

/-- Complete sequences stay as they are. -/
theorem Sequences.fixed {s : List UInt8} (h : Sequences s) : cutOff s = false ∧ regularized s = s := by
  induction h with
  | nil => exact ⟨rfl, rfl⟩
  | @one c t hc h ih =>
    obtain ⟨h2, h3⟩ := not_lead_of_ascii c hc
    rw [cutOff_one h2 h3, regularized_ascii hc, ih.2]
    exact ⟨ih.1, rfl⟩
  | @two c x t hc hx h ih =>
    rw [cutOff_two hc, regularized_two hc, ih.2, (continuation_proper x).2 hx]
    exact ⟨ih.1, rfl⟩
  | @three c x y t hc hx hy h ih =>
    rw [cutOff_three hc, regularized_three hc, ih.2, (continuation_proper x).2 hx, (continuation_proper y).2 hy]
    exact ⟨ih.1, rfl⟩

end

/-! ### The loop -/

section

variable {p n : ℕ} {m : Mem} {s : List UInt8}

/-- The loop writes the text to the left of what it has still to read. -/
theorem regularizeLoop_written {k i out : ℕ} (hs : Holds m (p + i) s) (hn : i + s.length = n) (hk : s.length ≤ k)
    (hout : out ≤ p + i) (hcut : cutOff s = false) : Written m out (regularized s) (regularizeLoop p n k m i out) := by
  induction k generalizing i out m s with
  | zero =>
    obtain rfl := List.eq_nil_of_length_eq_zero (show s.length = 0 by omega)
    exact Written.nil m out
  | succ k ih =>
    cases s with
    | nil =>
      rw [List.length_nil] at hn
      rw [regularizeLoop, if_neg (by omega)]
      exact Written.nil m out
    | cons c s =>
      obtain ⟨hc, hrest⟩ := hs
      rw [List.length_cons] at hn hk
      rw [regularizeLoop, if_pos (by omega), hc]
      dsimp only
      by_cases h1 : c &&& 0x80 = 0
      · obtain ⟨h2, h3⟩ := not_lead_of_ascii c h1
        rw [if_pos h1, regularized_ascii h1]
        rw [cutOff_one h2 h3] at hcut
        refine (ih ?_ (by omega) (by omega) (by omega) hcut).cons
        exact Holds.poke (m := m) hrest (by omega)
      · rw [if_neg h1]
        by_cases h2 : c &&& 0xe0 = 0xc0
        · rw [if_pos h2]
          rcases s with _ | ⟨x, s⟩
          · rw [cutOff_two_nil h2] at hcut
            cases hcut
          · obtain ⟨hx, hrest⟩ := hrest
            rw [List.length_cons] at hn hk
            rw [poke_other _ _ (by omega), hx, regularized_two h2]
            rw [cutOff_two h2] at hcut
            refine (ih ?_ (by omega) (by omega) (by omega) hcut).cons.cons
            exact (Holds.poke (m := m) hrest (by omega)).poke (by omega)
        · rw [if_neg h2]
          by_cases h3 : c &&& 0xf0 = 0xe0
          · rw [if_pos h3]
            rcases s with _ | ⟨x, _ | ⟨y, s⟩⟩
            · rw [cutOff_three_short h3 (by decide)] at hcut
              cases hcut
            · rw [cutOff_three_short h3 (by simp)] at hcut
              cases hcut
            · obtain ⟨hx, hy, hrest⟩ := hrest
              have hy' : m (p + i + 2) = y := hy
              rw [List.length_cons, List.length_cons] at hn hk
              rw [poke_other _ _ (by omega), poke_other _ _ (by omega), poke_other _ _ (by omega), hx, hy',
                regularized_three h3]
              rw [cutOff_three h3] at hcut
              refine (ih ?_ (by omega) (by omega) (by omega) hcut).cons.cons.cons
              exact ((Holds.poke (m := m) hrest (by omega)).poke (by omega)).poke (by omega)
          · rw [if_neg h3, regularized_other h1 h2 h3]
            rw [cutOff_one h2 h3] at hcut
            exact ih hrest (by omega) (by omega) (by omega) hcut

/-- A byte at the end of the text is read that is not in it. -/
theorem not_inside {l : List ℕ} {a : ℕ} (ha : a ∈ l) (hout : p + n ≤ a) : ¬ ∀ a ∈ l, p ≤ a ∧ a < p + n := by
  intro h
  have := (h a ha).2
  omega

/-- All that is read lies in the text exactly when no sequence is cut off. -/
theorem regularizeReads_inside {k i out : ℕ} (hs : Holds m (p + i) s) (hn : i + s.length = n) (hk : s.length ≤ k)
    (hout : out ≤ p + i) :
    (∀ a ∈ regularizeReads p n k m i out, p ≤ a ∧ a < p + n) ↔ cutOff s = false := by
  induction k generalizing i out m s with
  | zero =>
    obtain rfl := List.eq_nil_of_length_eq_zero (show s.length = 0 by omega)
    simp [regularizeReads]
  | succ k ih =>
    cases s with
    | nil =>
      rw [List.length_nil] at hn
      rw [regularizeReads, if_neg (by omega)]
      simp
    | cons c s =>
      obtain ⟨hc, hrest⟩ := hs
      rw [List.length_cons] at hn hk
      have hin : p ≤ p + i ∧ p + i < p + n := by omega
      rw [regularizeReads, if_pos (by omega), hc]
      dsimp only
      by_cases h1 : c &&& 0x80 = 0
      · obtain ⟨h2, h3⟩ := not_lead_of_ascii c h1
        rw [if_pos h1, cutOff_one h2 h3, List.forall_mem_cons, and_iff_right hin]
        refine ih ?_ (by omega) (by omega) (by omega)
        exact Holds.poke (m := m) hrest (by omega)
      · rw [if_neg h1]
        by_cases h2 : c &&& 0xe0 = 0xc0
        · rw [if_pos h2]
          rcases s with _ | ⟨x, s⟩
          · rw [List.length_nil] at hn
            rw [cutOff_two_nil h2]
            exact iff_of_false (not_inside (a := p + i + 1) (by simp) (by omega)) Bool.noConfusion
          · obtain ⟨hx, hrest⟩ := hrest
            rw [List.length_cons] at hn hk
            rw [cutOff_two h2, List.forall_mem_cons, and_iff_right hin, List.forall_mem_cons,
              and_iff_right (by omega)]
            refine ih ?_ (by omega) (by omega) (by omega)
            exact (Holds.poke (m := m) hrest (by omega)).poke (by omega)
        · rw [if_neg h2]
          by_cases h3 : c &&& 0xf0 = 0xe0
          · rw [if_pos h3]
            rcases Nat.lt_or_ge s.length 2 with hshort | hlong
            · rw [cutOff_three_short h3 hshort]
              exact iff_of_false (not_inside (a := p + i + 2) (by simp) (by omega)) Bool.noConfusion
            · rcases s with _ | ⟨x, _ | ⟨y, s⟩⟩
              · simp at hlong
              · simp at hlong
              · obtain ⟨hx, hy, hrest⟩ := hrest
                rw [List.length_cons, List.length_cons] at hn hk
                rw [cutOff_three h3, List.forall_mem_cons, and_iff_right hin, List.forall_mem_cons,
                  and_iff_right (by omega), List.forall_mem_cons, and_iff_right (by omega)]
                refine ih ?_ (by omega) (by omega) (by omega)
                exact ((Holds.poke (m := m) hrest (by omega)).poke (by omega)).poke (by omega)
          · rw [if_neg h3, cutOff_one h2 h3, List.forall_mem_cons, and_iff_right hin]
            exact ih hrest (by omega) (by omega) (by omega)

end

/-! ### `RegularizeUTF8` -/

/-- The text of a string after `RegularizeUTF8`. -/
theorem regularizeUTF8_text {h : Heap} {s : Str} (hp : s.p ≠ 0) (hlen : s.len ≠ 0)
    (hcut : cutOff (s.text h.mem) = false) :
    ∃ t, regularizeUTF8 h s = some t ∧ t.2.text t.1.mem = regularized (s.text h.mem) ∧ t.2.p = s.p ∧ t.2.len ≠ 0 := by
  have hlength : (s.text h.mem).length = s.len - 1 := length_read _ _ _
  have hwritten := regularizeLoop_written (p := s.p) (n := s.len - 1) (s := s.text h.mem) (k := s.len - 1) (i := 0)
    (holds_read h.mem s.p (s.len - 1)) (by omega) hlength.le le_rfl hcut
  refine ⟨_, by rw [regularizeUTF8, if_neg (not_or.mpr ⟨hp, hlen⟩)], ?_, rfl, Nat.succ_ne_zero _⟩
  exact hwritten.read_eq 0

/-- What `RegularizeUTF8` is to do: a text that is not longer and has complete sequences only is left, all bytes that
are read are in the text, and the next time nothing changes. -/
structure Regular (h : Heap) (s : Str) (t : Heap × Str) : Prop where
  length_le : t.2.getLength ≤ s.getLength
  sequences : Sequences (t.2.text t.1.mem)
  inside : ∀ a ∈ regularizeReads s.p (s.len - 1) (s.len - 1) h.mem 0 s.p, s.p ≤ a ∧ a < s.p + s.getLength
  again : ∃ u, regularizeUTF8 t.1 t.2 = some u ∧ u.2.text u.1.mem = t.2.text t.1.mem

/-- `RegularizeUTF8` does it exactly when the string has a buffer and a length and no sequence is cut off by its end. -/
theorem regularizeUTF8_regular_iff (h : Heap) (s : Str) :
    (∃ t, regularizeUTF8 h s = some t ∧ Regular h s t) ↔
      s.p ≠ 0 ∧ s.len ≠ 0 ∧ cutOff (s.text h.mem) = false := by
  have hlength : (s.text h.mem).length = s.len - 1 := length_read _ _ _
  have hreads := regularizeReads_inside (p := s.p) (n := s.len - 1) (s := s.text h.mem) (k := s.len - 1) (i := 0)
    (holds_read h.mem s.p (s.len - 1)) (by omega) hlength.le le_rfl
  constructor
  · rintro ⟨t, ht, hregular⟩
    have hnull : ¬ (s.p = 0 ∨ s.len = 0) := by
      intro hnull
      rw [regularizeUTF8, if_pos hnull] at ht
      cases ht
    obtain ⟨hp, hlen⟩ := not_or.mp hnull
    exact ⟨hp, hlen, hreads.mp hregular.inside⟩
  · rintro ⟨hp, hlen, hcut⟩
    obtain ⟨t, ht, htext, htp, htlen⟩ := regularizeUTF8_text hp hlen hcut
    have hseq := sequences_regularized (s.text h.mem)
    obtain ⟨hcut', hfixed⟩ := hseq.fixed
    rw [← htext] at hcut' hfixed hseq
    obtain ⟨u, hu, hutext, -, -⟩ := regularizeUTF8_text (by rw [htp]; exact hp) htlen hcut'
    refine ⟨t, ht, ?_, hseq, hreads.mpr hcut, u, hu, hutext.trans hfixed⟩
    have hle := length_regularized_le (s.text h.mem)
    rw [← htext, Ref.text, length_read, hlength] at hle
    exact hle

/-- The text `a` and a lead byte of two becomes three bytes long with the terminator taken in; a string without a
buffer is written to at the null pointer. -/
theorem regularizeUTF8_regular_fails :
    (∃ t, regularizeUTF8 (Heap.ofText [0x61, 0xc3]) ⟨⟨1, 3⟩, 3⟩ = some t ∧ t.2.text t.1.mem = [0x61, 0xc3, 0x80] ∧
      ¬ Regular (Heap.ofText [0x61, 0xc3]) ⟨⟨1, 3⟩, 3⟩ t) ∧
    regularizeUTF8 (Heap.ofText []) Str.new = none := by
  refine ⟨⟨_, rfl, by decide, fun h => absurd h.length_le (by decide)⟩, rfl⟩

end Cpcf.Rt.StringOwned
