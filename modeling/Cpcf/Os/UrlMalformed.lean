import Cpcf.Os.Url

/-!
`UrlDecode` of `os/kernal_encode.cpp` on texts no encoder wrote.

At every `%` it comes to the decoder reads the two characters behind before it looks at either, so it reads over
the end of a text whose scan comes to a `%` on one of the last two places. It stops at the first `%` without two
digits behind. Where every `%` has two digits, the result is the standard one as long as no first digit is a letter.
-/

namespace Cpcf.Os.Url

open Cpcf.Rt Cpcf.Lib Cpcf.Lib.Memory

/-! ### The source -/

/-- The addresses the loop of `UrlDecode` reads from index `i` on. Both digits are read at a `%`. -/
def readsLoop (m : Mem) (encoded_url encoded_url_len : ℕ) : ℕ → ℕ → List ℕ
  | 0, _ => []
  | n + 1, i =>
    if i < encoded_url_len then
      if m (encoded_url + i) = Ch.percent then
        (encoded_url + i) :: (encoded_url + i + 1) :: (encoded_url + i + 2) ::
          match decodeTriple (m (encoded_url + i + 1)) (m (encoded_url + i + 2)) with
          | none => []
          | some _ => readsLoop m encoded_url encoded_url_len n (i + 3)
      else (encoded_url + i) :: readsLoop m encoded_url encoded_url_len n (i + 1)
    else []

/-- `UrlDecode(encoded_url, url)`, which cuts the length to a `UINT`: the text left in `url`. -/
def urlDecodeText (m : Mem) (p len : ℕ) : List UInt8 := urlDecode m p (len % 2 ^ 32)

/-- The addresses it reads. -/
def urlDecodeReads (m : Mem) (p len : ℕ) : List ℕ := readsLoop m p (len % 2 ^ 32) (len % 2 ^ 32) 0

/-! ### The standard decoding -/

/-- The value of a hexadecimal digit of either case. -/
def hexValue (b : UInt8) : Option ℕ :=
  if 0x30 ≤ b ∧ b ≤ 0x39 then some (b.toNat - 0x30)
  else if 0x41 ≤ b ∧ b ≤ 0x46 then some (b.toNat - 0x41 + 10)
  else if 0x61 ≤ b ∧ b ≤ 0x66 then some (b.toNat - 0x61 + 10)
  else none

/-- Percent-decoding. -/
def percentDecode : List UInt8 → List UInt8
  | [] => []
  | b :: x :: y :: s =>
    if b = Ch.percent then
      match hexValue x, hexValue y with
      | some h, some l => UInt8.ofNat (16 * h + l) :: percentDecode s
      | _, _ => b :: percentDecode (x :: y :: s)
    else b :: percentDecode (x :: y :: s)
  | b :: s => b :: percentDecode s

attribute [local simp] percentDecode

/-- Every `%` is followed by two hexadecimal digits. -/
def WellFormed (s : List UInt8) : Prop :=
  ∀ a b, s = a ++ Ch.percent :: b → ∃ x y c, b = x :: y :: c ∧ (hexValue x).isSome ∧ (hexValue y).isSome

/-- No `%` is followed by a letter. -/
def DecimalFirst (s : List UInt8) : Prop :=
  ∀ a x b, s = a ++ Ch.percent :: x :: b → 0x30 ≤ x ∧ x ≤ 0x39

/-- Over the first `n` characters: no `%` that the scan comes to stands on one of the last two places. The scan goes
on behind two hexadecimal digits and ends where they are missing. -/
def guarded : ℕ → List UInt8 → Bool
  | n + 1, b :: x :: y :: s =>
    if b = Ch.percent then !((hexValue x).isSome && (hexValue y).isSome) || guarded (n - 2) s
    else guarded n (x :: y :: s)
  | n + 1, b :: s => b != Ch.percent && guarded n s
  | _, _ => true

/-! ### Digits -/

section Digits

variable {x y : UInt8} {h l : ℕ}

theorem digit1_eq : ∀ x : UInt8, (hexValue x).isSome = (digit1 x).isSome ∧ ∀ h ∈ hexValue x, h < 16 ∧
    digit1 x = some (if 0x30 ≤ x ∧ x ≤ 0x39 then h else if x ≤ 0x46 then 55 else 87) ∧
      ((0x30 ≤ x ∧ x ≤ 0x39) ↔ h < 10) := by
  set_option maxRecDepth 20000 in decide

theorem digit2_eq : ∀ y : UInt8, (digit2 y) = (hexValue y).map Int.ofNat := by set_option maxRecDepth 20000 in decide

theorem join_digits : ∀ h l : Fin 16, UInt8.ofNat ((h.val <<< 4) ||| l.val) = UInt8.ofNat (16 * h.val + l.val) ∧
    (10 ≤ h.val → UInt8.ofNat ((55 <<< 4) ||| l.val) ≠ UInt8.ofNat (16 * h.val + l.val) ∧
      UInt8.ofNat ((87 <<< 4) ||| l.val) ≠ UInt8.ofNat (16 * h.val + l.val)) := by
  decide

/-- The loop breaks at a triple that is none. -/
theorem decodeTriple_isSome (x y : UInt8) :
    (decodeTriple x y).isSome = ((hexValue x).isSome && (hexValue y).isSome) := by
  rw [(digit1_eq x).1, decodeTriple, digit2_eq]
  cases digit1 x with
  | none => rfl
  | some c1 => cases hexValue y <;> rfl

/-- A triple is read as it should be when its first digit is no letter. -/
theorem decodeTriple_eq (hx : hexValue x = some h) (hy : hexValue y = some l) :
    ∃ b, decodeTriple x y = some b ∧ (b = UInt8.ofNat (16 * h + l) ↔ 0x30 ≤ x ∧ x ≤ 0x39) := by
  obtain ⟨-, hdigit⟩ := digit1_eq x
  obtain ⟨h16, hd, hiff⟩ := hdigit h hx
  have hl16 : l < 16 := by
    obtain ⟨-, hl⟩ := digit1_eq y
    exact (hl l hy).1
  obtain ⟨hsame, hother⟩ := join_digits ⟨h, h16⟩ ⟨l, hl16⟩
  rw [decodeTriple, digit2_eq, hy, hd]
  refine ⟨_, rfl, ?_⟩
  by_cases hdec : 0x30 ≤ x ∧ x ≤ 0x39
  · rw [if_pos hdec]
    exact ⟨fun _ => hdec, fun _ => hsame⟩
  · obtain ⟨h55, h87⟩ := hother (show 10 ≤ h by rw [hiff] at hdec; omega)
    refine ⟨fun heq => absurd heq ?_, fun h => absurd h hdec⟩
    rw [if_neg hdec]
    split_ifs
    · exact h55
    · exact h87

theorem percent_not_digit : hexValue Ch.percent = none := by decide

end Digits

/-! ### Well-formed texts -/

section WellFormed

variable {b x y : UInt8} {s : List UInt8}

theorem WellFormed.of_append {a : List UInt8} (h : WellFormed (a ++ s)) : WellFormed s := by
  rintro c d rfl
  exact h (a ++ c) d (List.append_assoc _ _ _).symm

theorem WellFormed.triple (h : WellFormed (Ch.percent :: s)) :
    ∃ x y t, s = x :: y :: t ∧ (hexValue x).isSome ∧ (hexValue y).isSome := h [] s rfl

theorem decimalFirst_cons (hb : b ≠ Ch.percent) : DecimalFirst (b :: s) ↔ DecimalFirst s := by
  constructor
  · rintro h a x c rfl
    exact h (b :: a) x c rfl
  · intro h a x c heq
    cases a with
    | nil => exact absurd (List.cons.inj heq).1 hb
    | cons d a => exact h a x c (List.cons.inj heq).2

theorem decimalFirst_triple (hx : (hexValue x).isSome) (hy : (hexValue y).isSome) :
    DecimalFirst (Ch.percent :: x :: y :: s) ↔ (0x30 ≤ x ∧ x ≤ 0x39) ∧ DecimalFirst s := by
  have hx' : x ≠ Ch.percent := by
    rintro rfl
    rw [percent_not_digit] at hx
    cases hx
  have hy' : y ≠ Ch.percent := by
    rintro rfl
    rw [percent_not_digit] at hy
    cases hy
  rw [← decimalFirst_cons (s := s) hy', ← decimalFirst_cons (s := y :: s) hx']
  constructor
  · intro h
    refine ⟨h [] x (y :: s) rfl, ?_⟩
    intro a c d heq
    exact h (Ch.percent :: a) c d (congrArg _ heq)
  · rintro ⟨h1, h2⟩ a c d heq
    cases a with
    | nil =>
      obtain ⟨rfl, -⟩ := List.cons.inj (List.cons.inj heq).2
      exact h1
    | cons e a => exact h2 a c d (List.cons.inj heq).2

theorem percentDecode_cons (hb : b ≠ Ch.percent) (s : List UInt8) : percentDecode (b :: s) = b :: percentDecode s := by
  rcases s with _ | ⟨x, _ | ⟨y, s⟩⟩
  · rfl
  · rfl
  · rw [percentDecode, if_neg hb]

theorem percentDecode_triple {h l : ℕ} (hx : hexValue x = some h) (hy : hexValue y = some l) (s : List UInt8) :
    percentDecode (Ch.percent :: x :: y :: s) = UInt8.ofNat (16 * h + l) :: percentDecode s := by
  rw [percentDecode, if_pos rfl, hx, hy]

theorem guarded_cons (hb : b ≠ Ch.percent) (n : ℕ) (s : List UInt8) : guarded (n + 1) (b :: s) = guarded n s := by
  have hne : (b != Ch.percent) = true := bne_iff_ne.mpr hb
  rcases s with _ | ⟨x, _ | ⟨y, s⟩⟩
  · rw [guarded, hne, Bool.true_and]
    simp
  · rw [guarded, hne, Bool.true_and]
    simp
  · rw [guarded, if_neg hb]

theorem length_percentDecode_pos (h : 0 < s.length) : 0 < (percentDecode s).length := by
  cases s with
  | nil => exact h
  | cons b s =>
    rcases s with _ | ⟨x, _ | ⟨y, s⟩⟩
    · simp
    · simp
    · rw [percentDecode]
      split_ifs
      · split <;> simp
      · simp

end WellFormed

/-! ### What is read and what is written -/

section Decode

variable {m : Mem} {p len n k i : ℕ} {s : List UInt8}

theorem length_decodeLoop_le (m : Mem) (p n k i : ℕ) : (decodeLoop m p n k i).length ≤ n - i := by
  induction k generalizing i with
  | zero => exact Nat.zero_le _
  | succ k ih =>
    rw [decodeLoop]
    split
    · split
      · split
        · exact Nat.zero_le _
        · have := ih (i := i + 3)
          rw [List.length_cons]
          omega
      · have := ih (i := i + 1)
        rw [List.length_cons]
        omega
    · exact Nat.zero_le _

/-- All that is read lies in the text exactly when the scan comes to no `%` near its end. -/
theorem readsLoop_inside (hs : Holds m (p + i) s) (hlen : len = i + s.length) (hn : n ≤ len) (hk : n - i ≤ k) :
    (∀ a ∈ readsLoop m p n k i, p ≤ a ∧ a < p + len) ↔ guarded (n - i) s = true := by
  induction k generalizing i s with
  | zero =>
    rw [show n - i = 0 by omega]
    simp [readsLoop, guarded]
  | succ k ih =>
    rw [readsLoop]
    rcases Nat.lt_or_ge i n with hi | hi
    swap
    · rw [if_neg (by omega), show n - i = 0 by omega]
      simp [guarded]
    rw [if_pos hi]
    obtain ⟨j, hj⟩ : ∃ j, n - i = j + 1 := ⟨n - i - 1, by omega⟩
    rw [hj]
    cases s with
    | nil =>
      rw [List.length_nil] at hlen
      omega
    | cons b s =>
      obtain ⟨hb, hs⟩ := hs
      rw [List.length_cons] at hlen
      rw [hb]
      by_cases hper : b = Ch.percent
      · rw [if_pos hper]
        rcases s with _ | ⟨x, _ | ⟨y, s⟩⟩
        · simp only [hper, guarded, bne_self_eq_false, Bool.false_and, Bool.false_eq_true, iff_false]
          intro h
          have := h (p + i + 1) (by simp)
          rw [List.length_nil] at hlen
          omega
        · simp only [hper, guarded, bne_self_eq_false, Bool.false_and, Bool.false_eq_true, iff_false]
          intro h
          have := h (p + i + 2) (by simp)
          rw [List.length_cons, List.length_nil] at hlen
          omega
        · obtain ⟨hx, hy, hs⟩ := hs
          rw [List.length_cons, List.length_cons] at hlen
          have hhead : ∀ l : List ℕ, (∀ a ∈ (p + i) :: (p + i + 1) :: (p + i + 2) :: l, p ≤ a ∧ a < p + len) ↔
              ∀ a ∈ l, p ≤ a ∧ a < p + len := by
            intro l
            simp only [List.forall_mem_cons]
            constructor
            · rintro ⟨-, -, -, h⟩
              exact h
            · intro h
              exact ⟨by omega, by omega, by omega, h⟩
          have hy' : m (p + i + 2) = y := hy
          rw [hhead, hx, hy', guarded, if_pos hper, ← decodeTriple_isSome]
          cases decodeTriple x y with
          | none => simp
          | some c =>
            have hrest : Holds m (p + (i + 3)) s := hs
            simp only [Option.isSome_some, Bool.not_true, Bool.false_or]
            rw [ih hrest (by omega) (by omega), show n - (i + 3) = j - 2 by omega]
      · have hrest : Holds m (p + (i + 1)) s := hs
        rw [if_neg hper, guarded_cons hper, List.forall_mem_cons, ih hrest (by omega) (by omega),
          show n - (i + 1) = j by omega]
        exact and_iff_right ⟨by omega, by omega⟩

/-- Of a well-formed text that is scanned to its end, the standard decoding is left exactly when no first digit is a
letter. -/
theorem decodeLoop_eq_iff (hw : WellFormed s) (hs : Holds m (p + i) s) (hlen : n = i + s.length) (hk : n - i ≤ k) :
    decodeLoop m p n k i = percentDecode s ↔ DecimalFirst s := by
  induction k generalizing i s with
  | zero =>
    obtain rfl := List.eq_nil_of_length_eq_zero (show s.length = 0 by omega)
    simp [decodeLoop, DecimalFirst]
  | succ k ih =>
    cases s with
    | nil => simp [decodeLoop, DecimalFirst, hlen]
    | cons b s =>
      rw [List.length_cons] at hlen
      rw [decodeLoop, if_pos (by omega), hs.1]
      by_cases hper : b = Ch.percent
      · subst hper
        obtain ⟨x, y, t, rfl, hx, hy⟩ := hw.triple
        obtain ⟨-, hmx, hmy, ht⟩ := hs
        obtain ⟨h, hh⟩ := Option.isSome_iff_exists.mp hx
        obtain ⟨l, hl⟩ := Option.isSome_iff_exists.mp hy
        obtain ⟨c, hc, hiff⟩ := decodeTriple_eq hh hl
        have hmy' : m (p + i + 2) = y := hmy
        have hrest : Holds m (p + (i + 3)) t := ht
        rw [List.length_cons, List.length_cons] at hlen
        rw [if_pos rfl, hmx, hmy', hc, percentDecode_triple hh hl, List.cons_eq_cons, hiff,
          ih (WellFormed.of_append (a := [Ch.percent, x, y]) hw) hrest (by omega) (by omega), decimalFirst_triple hx hy]
      · have hrest : Holds m (p + (i + 1)) s := hs.2
        rw [if_neg hper, percentDecode_cons hper, List.cons_eq_cons, ih (WellFormed.of_append (a := [b]) hw) hrest
          (by omega) (by omega), decimalFirst_cons hper]
        exact and_iff_right rfl

/-- Of a well-formed text that is not scanned to its end, less is left than the standard decoding. -/
theorem length_decodeLoop_lt (hw : WellFormed s) (hs : Holds m (p + i) s) (hi : i ≤ n + 2)
    (hlen : n + 2 < i + s.length) : (decodeLoop m p n k i).length < (percentDecode s).length := by
  induction k generalizing i s with
  | zero => exact length_percentDecode_pos (by omega)
  | succ k ih =>
    rw [decodeLoop]
    split
    · cases s with
      | nil =>
        rw [List.length_nil] at hlen
        omega
      | cons b s =>
        rw [List.length_cons] at hlen
        rw [hs.1]
        by_cases hper : b = Ch.percent
        · subst hper
          obtain ⟨x, y, t, rfl, hx, hy⟩ := hw.triple
          obtain ⟨-, hmx, hmy, ht⟩ := hs
          obtain ⟨h, hh⟩ := Option.isSome_iff_exists.mp hx
          obtain ⟨l, hl⟩ := Option.isSome_iff_exists.mp hy
          obtain ⟨c, hc, -⟩ := decodeTriple_eq hh hl
          have hmy' : m (p + i + 2) = y := hmy
          have ht' : Holds m (p + (i + 3)) t := ht
          rw [List.length_cons, List.length_cons] at hlen
          have hlt := ih (WellFormed.of_append (a := [Ch.percent, x, y]) hw) ht' (by omega) (by omega)
          rw [if_pos rfl, hmx, hmy', hc, percentDecode_triple hh hl, List.length_cons, List.length_cons]
          omega
        · have ht : Holds m (p + (i + 1)) s := hs.2
          have hlt := ih (WellFormed.of_append (a := [b]) hw) ht (by omega) (by omega)
          rw [if_neg hper, percentDecode_cons hper, List.length_cons, List.length_cons]
          omega
    · exact length_percentDecode_pos (by omega)

/-- **Decoding any text.** Nothing outside the text is read, not more than its length is written, and a text in which
every `%` has its two digits gets the standard decoding: this holds exactly when no `%` that the scan comes to stands
on one of the last two places and, where every `%` has two digits, the length fits a `UINT` and no first digit is a
letter. -/
theorem urlDecode_safe_iff (m : Mem) (p len : ℕ) :
    ((∀ a ∈ urlDecodeReads m p len, p ≤ a ∧ a < p + len) ∧ (urlDecodeText m p len).length ≤ len ∧
      (WellFormed (Memory.read m p len) → urlDecodeText m p len = percentDecode (Memory.read m p len))) ↔
    guarded (len % 2 ^ 32) (Memory.read m p len) = true ∧
      (WellFormed (Memory.read m p len) → len < 2 ^ 32 ∧ DecimalFirst (Memory.read m p len)) := by
  have hs : Holds m (p + 0) (Memory.read m p len) := holds_read m p len
  have hlen : len = 0 + (Memory.read m p len).length := by rw [length_read, Nat.zero_add]
  have hmod : len % 2 ^ 32 ≤ len := Nat.mod_le _ _
  have hreads := readsLoop_inside hs hlen hmod le_rfl
  rw [Nat.sub_zero] at hreads
  have hwritten : (urlDecodeText m p len).length ≤ len := (length_decodeLoop_le m p _ _ 0).trans (by omega)
  have hdecode : WellFormed (Memory.read m p len) → (urlDecodeText m p len = percentDecode (Memory.read m p len) ↔
      len < 2 ^ 32 ∧ DecimalFirst (Memory.read m p len)) := by
    intro hw
    rcases Nat.lt_or_ge len (2 ^ 32) with hlt | hge
    · rw [urlDecodeText, Nat.mod_eq_of_lt hlt, urlDecode, decodeLoop_eq_iff hw hs hlen (Nat.sub_le _ _)]
      exact (and_iff_right hlt).symm
    · -- only the first part of the text is decoded
      have hcut := Nat.mod_lt len (show 2 ^ 32 > 0 by norm_num)
      have hless := length_decodeLoop_lt (n := len % 2 ^ 32) (k := len % 2 ^ 32) hw hs (by omega) (by omega)
      constructor
      · intro heq
        rw [← heq] at hless
        exact absurd hless (lt_irrefl _)
      · intro h
        exact absurd h.1 (by omega)
  rw [urlDecodeReads, hreads]
  constructor
  · rintro ⟨h1, -, h2⟩
    exact ⟨h1, fun hw => (hdecode hw).mp (h2 hw)⟩
  · rintro ⟨h1, h2⟩
    exact ⟨h1, hwritten, fun hw => (hdecode hw).mpr (h2 hw)⟩

/-- The decoder reads two bytes behind a `%` that is all of the text, and gives `y` for `%A9`. -/
theorem urlDecode_unsafe : urlDecodeReads (ofBytes 8 [0x25]) 8 1 = [8, 9, 10] ∧
    urlDecodeText (ofBytes 8 [0x25, 0x41, 0x39]) 8 3 = [0x79] ∧ percentDecode [0x25, 0x41, 0x39] = [0xa9] ∧
    ¬ ∀ (m : Mem) (p len : ℕ), ∀ a ∈ urlDecodeReads m p len, p ≤ a ∧ a < p + len := by
  refine ⟨by decide, by decide, by decide, ?_⟩
  intro h
  have h9 := h (ofBytes 8 [0x25]) 8 1 9 (by decide)
  omega

end Decode

end Cpcf.Os.Url
