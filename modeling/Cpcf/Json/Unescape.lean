import Cpcf.Os.Utf8
import Cpcf.Rt.StringOwned

/-!
`JsonObject::UnescapeStringValue` of `rt/json.cpp`, which writes into a `String` and sets its length itself.
-/

namespace Cpcf.Json.Unescape

open Cpcf.Lib.Memory Cpcf.Lib.Word Cpcf.Rt Cpcf.Rt.StringRef Cpcf.Rt.StringOwned Cpcf.Os.Utf8

/-- `esc`. -/
def esc : CharacterSet := CharacterSet.init [0x62, 0x66, 0x72, 0x6e, 0x74, 0x76] [0x08, 0x0c, 0x0d, 0x0a, 0x09, 0x0b]

/-- `hex`: a digit is mapped to its value and one. -/
def hex : CharacterSet :=
  CharacterSet.init
    [0x30, 0x31, 0x32, 0x33, 0x34, 0x35, 0x36, 0x37, 0x38, 0x39, 0x61, 0x62, 0x63, 0x64, 0x65, 0x66, 0x41, 0x42, 0x43,
      0x44, 0x45, 0x46]
    [0x1, 0x2, 0x3, 0x4, 0x5, 0x6, 0x7, 0x8, 0x9, 0xa, 0xb, 0xc, 0xd, 0xe, 0xf, 0x10, 0xb, 0xc, 0xd, 0xe, 0xf, 0x10]

/-- `hex.Mapped(c)-1`. -/
def hexValue (c : UInt8) : ℤ := schar (hex.mapped c) - 1

/-- The code of the four digits at `s`. -/
def code (m : Mem) (s : ℕ) : ℤ :=
  hexValue (m s) * 2 ^ 12 + hexValue (m (s + 1)) * 2 ^ 8 + hexValue (m (s + 2)) * 2 ^ 4 + hexValue (m (s + 3))

/-- An `int` cut to a `char`. -/
def charOf (x : ℤ) : UInt8 := UInt8.ofNat (x % 256).toNat

/-- The code `c` is written at `p`; the four bytes of a `DWORD` are written for three. -/
def putCode (m : Mem) (p : ℕ) (c : ℤ) : Mem × ℕ :=
  if c ≤ 0x7f then (poke m p (charOf c), p + 1)
  else if c > 0x7ff then (store m p 4 (threeBytes c.toNat), p + 3)
  else (store m p 2 (twoBytes c.toNat), p + 2)

/-- The loop of `UnescapeStringValue` with `n` characters left at `s`, and the last character. -/
def valueLoop : ℕ → Mem → ℕ → ℕ → ℕ → Mem × ℕ
  | 0, m, _, _, p => (m, p)
  | k + 1, m, s, n, p =>
    if 2 ≤ n then
      if m s = Ch.backslash then
        if m (s + 1) = 0x75 ∧ 5 < n then
          let t := putCode m p (code m (s + 2))
          valueLoop k t.1 (s + 6) (n - 6) t.2
        else if m (s + 1) = 0x78 ∧ 3 < n then
          let x := hexValue (m (s + 2)) * 2 ^ 4 + hexValue (m (s + 3))
          valueLoop k (poke m p (charOf x)) (s + 4) (n - 4) (p + 1)
        else valueLoop k (poke m p (esc.mapped (m (s + 1)))) (s + 2) (n - 2) (p + 1)
      else valueLoop k (poke m p (m s)) (s + 1) (n - 1) (p + 1)
    else if 1 ≤ n then (poke m p (m s), p + 1)
    else (m, p)

attribute [local simp] valueLoop

/-- `UnescapeStringValue(in, val_out)`. -/
def unescapeStringValue (h : Heap) (val_out : StringOwned.Str) (input : Ref) : Heap × StringOwned.Str :=
  if input.isEmpty then empty h val_out
  else
    let n := input.getLength
    let t := setLength h val_out n
    let u := valueLoop n t.1.mem input.p n t.2.p
    (t.1.set u.1, { t.2 with len := u.2 - t.2.p + 1 })

/-! ### Where the loop ends -/

/-- Does the text of `n` characters at `s` end in an escape that gives three bytes? -/
def endsWide (m : Mem) : ℕ → ℕ → ℕ → Bool
  | 0, _, _ => false
  | k + 1, s, n =>
    if 2 ≤ n then
      if m s = Ch.backslash then
        if m (s + 1) = 0x75 ∧ 5 < n then
          if n = 6 then 0x7ff < code m (s + 2) else endsWide m k (s + 6) (n - 6)
        else if m (s + 1) = 0x78 ∧ 3 < n then endsWide m k (s + 4) (n - 4)
        else endsWide m k (s + 2) (n - 2)
      else endsWide m k (s + 1) (n - 1)
    else false

section

variable {m : Mem} {k s n p : ℕ}

theorem putCode_spec (m : Mem) (p : ℕ) (c : ℤ) :
    p < (putCode m p c).2 ∧ (putCode m p c).2 ≤ p + 3 ∧
      ∀ a, a < p ∨ p + 4 ≤ a → (putCode m p c).1 a = m a := by
  unfold putCode
  split_ifs
  · exact ⟨by simp, by simp, fun a ha => poke_other _ _ (by omega)⟩
  · exact ⟨by simp, by simp, fun a ha => store_outside _ _ (by omega)⟩
  · exact ⟨by simp, by simp, fun a ha => store_outside _ _ (by omega)⟩

/-- Not more is written than is read. -/
theorem valueLoop_spec (k : ℕ) (m : Mem) (s n p : ℕ) :
    p ≤ (valueLoop k m s n p).2 ∧ (valueLoop k m s n p).2 ≤ p + n ∧
      ∀ a, a < p ∨ p + n ≤ a → (valueLoop k m s n p).1 a = m a := by
  induction k generalizing m s n p with
  | zero => exact ⟨le_rfl, Nat.le_add_right _ _, fun _ _ => rfl⟩
  | succ k ih =>
    -- a character is written for `c` ones
    have hone : ∀ (x : UInt8) (c : ℕ), 0 < c → c ≤ n → ∀ r, r = valueLoop k (poke m p x) (s + c) (n - c) (p + 1) →
        p ≤ r.2 ∧ r.2 ≤ p + n ∧ ∀ a, a < p ∨ p + n ≤ a → r.1 a = m a := by
      rintro x c hc hn r rfl
      obtain ⟨h1, h2, h3⟩ := ih (poke m p x) (s + c) (n - c) (p + 1)
      refine ⟨by omega, by omega, fun a ha => ?_⟩
      rw [h3 a (by omega)]
      exact poke_other _ _ (by omega)
    rw [valueLoop]
    split
    · split
      · split
        · rename_i hu
          obtain ⟨h1, h2, h3⟩ := putCode_spec m p (code m (s + 2))
          obtain ⟨h4, h5, h6⟩ := ih (putCode m p (code m (s + 2))).1 (s + 6) (n - 6) (putCode m p (code m (s + 2))).2
          simp only
          refine ⟨by omega, by omega, fun a ha => ?_⟩
          rw [h6 a (by omega)]
          exact h3 a (by omega)
        · split
          · exact hone _ 4 (by omega) (by omega) _ rfl
          · exact hone _ 2 (by omega) (by omega) _ rfl
      · exact hone _ 1 (by omega) (by omega) _ rfl
    · split
      · exact ⟨Nat.le_succ p, by simp only; omega, fun a ha => poke_other _ _ (by omega)⟩
      · exact ⟨le_rfl, Nat.le_add_right _ _, fun _ _ => rfl⟩

/-- A text without an escape keeps its length. -/
theorem valueLoop_plain (hk : n ≤ k) (hap : s + n ≤ p ∨ p + n ≤ s) (hplain : ∀ i < n - 1, m (s + i) ≠ Ch.backslash) :
    (valueLoop k m s n p).2 = p + n := by
  induction k generalizing m s n p with
  | zero =>
    obtain rfl : n = 0 := by omega
    rfl
  | succ k ih =>
    rw [valueLoop]
    split
    · have hs : m s ≠ Ch.backslash := hplain 0 (by omega)
      rw [if_neg hs, ih (by omega) (by omega)]
      · omega
      · intro i hi
        rw [poke_other _ _ (by omega), Nat.add_assoc]
        exact hplain (1 + i) (by omega)
    · split
      · obtain rfl : n = 1 := by omega
        rfl
      · obtain rfl : n = 0 := by omega
        rfl

theorem threeBytes_lt (c : ℕ) : threeBytes c < 2 ^ 24 := by
  unfold threeBytes
  refine Nat.or_lt_two_pow (Nat.or_lt_two_pow (Nat.or_lt_two_pow (by norm_num) ?_) ?_) ?_
  · exact Nat.and_lt_two_pow _ (by norm_num)
  · exact Nat.and_lt_two_pow _ (by norm_num)
  · rw [Nat.shiftLeft_eq]
    have := Nat.and_le_left (n := 0x3f) (m := c)
    omega

/-- The last byte of the `DWORD` is zero. -/
theorem store_threeBytes (m : Mem) (p c : ℕ) : store m p 4 (threeBytes c) (p + 3) = 0 := by
  have h := threeBytes_lt c
  have hz : threeBytes c / 256 / 256 / 256 = 0 := by omega
  simp only [store, leBytes, memcpy, hz]
  exact poke_same _ _ _

theorem valueLoop_zero (k : ℕ) (m : Mem) (s p : ℕ) : valueLoop k m s 0 p = (m, p) := by
  cases k <;> rfl

/-- A text that ends in an escape for three bytes leaves a zero byte behind them. -/
theorem valueLoop_wide {m' : Mem} (hap : s + n ≤ p ∨ p + n ≤ s) (hm : ∀ a, s ≤ a → a < s + n → m' a = m a)
    (hwide : endsWide m k s n = true) : (valueLoop k m' s n p).1 (valueLoop k m' s n p).2 = 0 := by
  induction k generalizing m' s n p with
  | zero => simp [endsWide] at hwide
  | succ k ih =>
    rw [endsWide] at hwide
    rw [valueLoop]
    split at hwide
    · rename_i hn
      rw [if_pos hn, hm s le_rfl (by omega), hm (s + 1) (by omega) (by omega)]
      -- what is written lies beside the rest of the text
      have hone : ∀ (x : UInt8) (c : ℕ), c ≤ n → 0 < c → endsWide m k (s + c) (n - c) = true →
          (valueLoop k (poke m' p x) (s + c) (n - c) (p + 1)).1
            (valueLoop k (poke m' p x) (s + c) (n - c) (p + 1)).2 = 0 := by
        intro x c hc hpos hw
        refine ih (by omega) ?_ hw
        intro a h1 h2
        rw [poke_other _ _ (by omega)]
        exact hm a (by omega) (by omega)
      split at hwide
      · rename_i hb
        rw [if_pos hb]
        split at hwide
        · rename_i hu
          rw [if_pos hu]
          have hcode : code m' (s + 2) = code m (s + 2) := by
            rw [code, code, hm _ (by omega) (by omega), hm _ (by omega) (by omega), hm _ (by omega) (by omega),
              hm _ (by omega) (by omega)]
          obtain ⟨h1, h2, h3⟩ := putCode_spec m' p (code m' (s + 2))
          split at hwide
          · rename_i h6
            have hlarge : code m (s + 2) > 0x7ff := by simpa using hwide
            have hput : putCode m' p (code m' (s + 2)) = (store m' p 4 (threeBytes (code m (s + 2)).toNat), p + 3) := by
              rw [putCode, hcode, if_neg (by omega), if_pos hlarge]
            simp only [h6, hput, Nat.sub_self, valueLoop_zero]
            exact store_threeBytes _ _ _
          · refine ih (by omega) ?_ hwide
            intro a h4 h5
            rw [h3 a (by omega)]
            exact hm a (by omega) (by omega)
        · rename_i hu
          rw [if_neg hu]
          split at hwide
          · rename_i hx
            rw [if_pos hx]
            exact hone _ 4 (by omega) (by omega) hwide
          · rename_i hx
            rw [if_neg hx]
            exact hone _ 2 (by omega) (by omega) hwide
      · rename_i hb
        rw [if_neg hb]
        exact hone _ 1 (by omega) (by omega) hwide
    · cases hwide

end

end Cpcf.Json.Unescape
