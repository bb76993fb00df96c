import Mathlib.Data.FinEnum
import Cpcf.Json.Dialect
import Cpcf.Json.Scan

/-!
Where `_seek_json_object_closure` ends on a well-formed value.

Inside a bracket the scanner counts one kind of bracket and skips strings and binary values. After
a binary value it steps over one byte too many: the recursive call returns the position behind the
`>`, and the loop then still does `p++`. The byte it steps over is a comma, whitespace or a closing
bracket. Only the last case matters, and only when the bracket is of the kind being counted.
`missed k v` is the number of closing brackets of kind `k` lost in this way inside `v`;
`scan_value` says that scanning over `v` leaves the depth higher by exactly this number, and
`seek_closure_iff` that the scanner finds the end of a container if and only if it misses none.
-/

namespace Cpcf.Json

open Cpcf.Rt Cpcf.Lib.Memory

/-! ### Characters -/

theorem isWs_facts : ∀ b : UInt8, isWs b = true → isSkipped b = true ∧ isText b = false ∧ isBare b = false ∧
    b ≠ Ch.dquote ∧ b ≠ Ch.squote ∧ b ≠ Ch.lt ∧ b ≠ Ch.lbracket ∧ b ≠ Ch.rbracket ∧ b ≠ Ch.lbrace ∧
    b ≠ Ch.rbrace ∧ b ≠ Ch.comma ∧ b ≠ Ch.colon ∧ b ≠ Ch.gt ∧ b ≠ Ch.slash ∧ b ≠ Ch.backslash := by
  set_option maxRecDepth 20000 in decide

theorem isBare_facts : ∀ b : UInt8, isBare b = true → isSkipped b = false ∧ isText b = true ∧
    b ≠ Ch.dquote ∧ b ≠ Ch.squote ∧ b ≠ Ch.lt ∧ b ≠ Ch.lbracket ∧ b ≠ Ch.rbracket ∧ b ≠ Ch.lbrace ∧
    b ≠ Ch.rbrace ∧ b ≠ Ch.comma ∧ b ≠ Ch.colon ∧ b ≠ Ch.gt := by
  set_option maxRecDepth 20000 in decide

/-- A byte the loop inside a bracket of kind `k` just passes. -/
def Inert (k : Kind) (b : UInt8) : Prop :=
  b ≠ k.opening ∧ b ≠ k.closing ∧ b ≠ Ch.dquote ∧ b ≠ Ch.squote ∧ b ≠ Ch.lt

instance (k : Kind) (b : UInt8) : Decidable (Inert k b) := by unfold Inert; infer_instance

theorem inert_ws {k : Kind} {b : UInt8} (h : isWs b = true) : Inert k b := by
  obtain ⟨-, -, -, h1, h2, h3, h4, h5, h6, h7, -⟩ := isWs_facts b h
  cases k <;> exact ⟨by assumption, by assumption, h1, h2, h3⟩

theorem inert_bare {k : Kind} {b : UInt8} (h : isBare b = true) : Inert k b := by
  obtain ⟨-, -, h1, h2, h3, h4, h5, h6, h7, -⟩ := isBare_facts b h
  cases k <;> exact ⟨by assumption, by assumption, h1, h2, h3⟩

theorem inert_comma (k : Kind) : Inert k Ch.comma := by cases k <;> decide

theorem inert_colon (k : Kind) : Inert k Ch.colon := by cases k <;> decide

/-- The brackets of the other kind are passed. -/
theorem inert_opening {k k' : Kind} (h : k' ≠ k) : Inert k k'.opening := by
  cases k <;> cases k' <;> first | exact absurd rfl h | decide

theorem inert_closing {k k' : Kind} (h : k' ≠ k) : Inert k k'.closing := by
  cases k <;> cases k' <;> first | exact absurd rfl h | decide

/-! ### Strings -/

section Strings

variable {m : Mem} {p e : ℕ}

theorem backslashes_succ_of_ne (h : m p ≠ Ch.backslash) : backslashes m (p + 1) = 0 := by
  rw [backslashes, if_neg h]

theorem Quote.char_ne_backslash (q : Quote) : q.char ≠ Ch.backslash := by cases q <;> decide

/-- From a point inside a string with an even number of backslashes before it, the backward parity
count finds exactly the closing quote. -/
theorem seekCharEscapeLoop_body {q : UInt8} (hq : q ≠ Ch.backslash) {body : List UInt8} {n : ℕ}
    (hb : escaped q body = true) (h : Holds m p body) (heven : backslashes m p % 2 = 0)
    (hn : body.length < n) (hend : m (p + body.length) = q) :
    seekCharEscapeLoop m q e n p = p + body.length := by
  -- the recursion of `escaped` takes an escape sequence as one step, which keeps the parity
  induction body using escaped.induct generalizing p n with
  | case1 =>
    obtain ⟨n, rfl⟩ : ∃ k, n = k + 1 := ⟨n - 1, by omega⟩
    rw [seekCharEscapeLoop, if_pos ⟨by simpa using hend, heven⟩]
    simp
  | case2 b =>
    simp only [escaped, Bool.and_eq_true, bne_iff_ne] at hb
    obtain ⟨n, rfl⟩ : ∃ k, n = k + 2 := ⟨n - 2, by simp at hn; omega⟩
    have hp : m p = b := h.1
    rw [seekCharEscapeLoop, if_neg (by rw [hp]; exact fun hh => hb.2 hh.1), seekCharEscapeLoop, if_pos]
    · simp
    · refine ⟨by simpa using hend, ?_⟩
      rw [backslashes_succ_of_ne (by rw [hp]; exact hb.1)]
  | case3 c s ih =>
    simp only [escaped, if_true] at hb
    obtain ⟨n, rfl⟩ : ∃ k, n = k + 2 := ⟨n - 2, by simp at hn; omega⟩
    obtain ⟨hp, hp1, hs⟩ := h
    have hodd : backslashes m (p + 1) % 2 = 1 := by
      rw [backslashes, if_pos hp]
      omega
    have heven2 : backslashes m (p + 1 + 1) % 2 = 0 := by
      rw [backslashes]
      split
      · omega
      · rfl
    rw [seekCharEscapeLoop, if_neg (by rw [hp]; exact fun hh => hq hh.1.symm), seekCharEscapeLoop,
      if_neg (by omega), ih hb hs heven2 (by simp at hn; omega)]
    · simp only [List.length_cons]
      omega
    · rw [← hend]
      simp only [List.length_cons]
      congr 1
      omega
  | case4 b c s hne ih =>
    simp only [escaped, if_neg hne, Bool.and_eq_true, bne_iff_ne] at hb
    obtain ⟨n, rfl⟩ : ∃ k, n = k + 1 := ⟨n - 1, by simp at hn; omega⟩
    obtain ⟨hp, hs⟩ := h
    rw [seekCharEscapeLoop, if_neg (by rw [hp]; exact fun hh => hb.1 hh.1), ih hb.2 hs]
    · simp only [List.length_cons]
      omega
    · rw [backslashes_succ_of_ne (by rw [hp]; exact hne)]
    · simpa using hn
    · rw [← hend]
      simp only [List.length_cons]
      congr 1
      omega

theorem Str.length_text (s : Str) : s.text.length = s.body.length + 2 := by simp [Str.text]

/-- From behind the opening quote, `_seek_char_escape` finds the closing one. -/
theorem seekCharEscape_str {s : Str} (h : Holds m p s.text) (he : p + s.text.length ≤ e) :
    seekCharEscape m (p + 1) e s.quote.char = p + 1 + s.body.length := by
  rw [s.length_text] at he
  obtain ⟨hq, hrest⟩ := h
  obtain ⟨hb, hend, -⟩ := holds_append.mp hrest
  refine seekCharEscapeLoop_body s.quote.char_ne_backslash s.wf hb ?_ (by omega) hend
  rw [backslashes_succ_of_ne (by rw [hq]; exact s.quote.char_ne_backslash)]

end Strings

/-! ### Binary values -/

/-- `_seek_json_object_closure` steps over a binary value whatever its bytes are. -/
theorem seekBinaryClosure_payload {m : Mem} {p e : ℕ} {b : Payload} (h : Holds m p b.text)
    (he : p + b.text.length ≤ e) : seekBinaryClosure m p e = some (p + b.text.length) := by
  have hlen : b.text.length = (itoaUnsigned b.bytes.length).length + b.bytes.length + 3 := by
    simp [Payload.text]
    omega
  have hb := b.fits
  obtain ⟨-, hrest⟩ := h
  obtain ⟨hd, hslash, hpay⟩ := holds_append.mp hrest
  obtain ⟨-, hgt, -⟩ := holds_append.mp hpay
  have hnum := toNumber_itoaUnsigned (e := e) hd (by omega) (by rw [hslash]; decide)
    (by rw [hslash]; decide) (by omega)
  unfold seekBinaryClosure
  simp only [hnum]
  have e1 : ((p + 1 : ℕ) + ((itoaUnsigned b.bytes.length).length : ℤ)).toNat =
      p + 1 + (itoaUnsigned b.bytes.length).length := by omega
  rw [e1, Nat.mod_eq_of_lt (by omega)]
  have e2 : p + 1 + (itoaUnsigned b.bytes.length).length + (1 + b.bytes.length) =
      p + 1 + (itoaUnsigned b.bytes.length).length + 1 + b.bytes.length := by omega
  rw [e2, if_pos hgt]
  congr 1
  omega

/-- The reading loop of `ToNumber` only moves forward. -/
theorem le_toNumberLoop (m : Mem) (n d x : ℕ) : d ≤ (toNumberLoop m n d x).2 := by
  induction n generalizing d x with
  | zero => exact le_rfl
  | succ n ih =>
    rw [toNumberLoop]
    split
    · exact (Nat.le_succ d).trans (ih _ _)
    · split
      · exact (Nat.le_succ d).trans (ih _ _)
      · exact le_rfl

/-- `ToNumber` never steps back by more than one. -/
theorem toNumber_ge (m : Mem) (p e : ℕ) : -1 ≤ (toNumber m p e).2 := by
  unfold toNumber
  split
  · exact le_rfl
  · simp only
    split
    · exact le_rfl
    · have h1 := le_scanWhile m (fun b => decide (10 ≤ toNum b)) p (e - p)
      have h2 := le_toNumberLoop m (e - scanWhile m (fun b => decide (10 ≤ toNum b)) p (e - p))
        (scanWhile m (fun b => decide (10 ≤ toNum b)) p (e - p)) 0
      simp only
      omega

/-- A binary value found ends to the right of where it starts. -/
theorem lt_of_seekBinaryClosure {m : Mem} {p e q : ℕ} (h : seekBinaryClosure m p e = some q) : p < q := by
  unfold seekBinaryClosure at h
  simp only at h
  split at h
  · simp only [Option.some.injEq] at h
    have h1 := toNumber_ge m (p + 1) e
    omega
  · simp at h

/-! ### The loop inside a bracket -/

section Closure

variable {m : Mem} {e : ℕ} {k : Kind} {p d n : ℕ}

theorem seekCharEscapeLoop_ge {c : UInt8} (hp : p + n = e) : p ≤ seekCharEscapeLoop m c e n p := by
  induction n generalizing p with
  | zero =>
    rw [seekCharEscapeLoop]
    omega
  | succ n ih =>
    rw [seekCharEscapeLoop]
    split
    · exact le_rfl
    · exact (Nat.le_succ p).trans (ih (by omega))

theorem seekCharEscape_ge {c : UInt8} (hp : p ≤ e) : p ≤ seekCharEscape m p e c :=
  seekCharEscapeLoop_ge (by omega)

/-- The loop of `_seek_json_object_closure` from `p` at depth `d`, with as many turns as it can take. -/
def closureScan (m : Mem) (e : ℕ) (k : Kind) (p d : ℕ) : Option ℕ :=
  closureLoop m e k.opening k.closing (e - p) p d

/-- Every turn moves forward, so `end - p` turns are as good as more. -/
theorem closureLoop_eq_closureScan (hn : e - p ≤ n) :
    closureLoop m e k.opening k.closing n p d = closureScan m e k p d := by
  -- both sides take the same turn; the bounds left are compared by induction on the larger one
  suffices H : ∀ n n' p d, e - p ≤ n → e - p ≤ n' →
      closureLoop m e k.opening k.closing n p d = closureLoop m e k.opening k.closing n' p d from
    H _ _ _ _ hn le_rfl
  intro n
  induction n with
  | zero =>
    intro n' p d h _
    cases n' with
    | zero => rfl
    | succ n' => rw [closureLoop, closureLoop, if_neg (by omega)]
  | succ n ih =>
    intro n' p d h h'
    cases n' with
    | zero => rw [closureLoop, closureLoop, if_neg (by omega)]
    | succ n' =>
      rw [closureLoop, closureLoop]
      split
      · rename_i hp
        have h1 : ∀ d, closureLoop m e k.opening k.closing n (p + 1) d =
            closureLoop m e k.opening k.closing n' (p + 1) d := fun d => ih n' _ d (by omega) (by omega)
        have hq := seekCharEscape_ge (m := m) (c := m p) (show p + 1 ≤ e by omega)
        simp only [h1]
        rw [ih n' _ d (by omega) (by omega)]
        cases hb : seekBinaryClosure m p e with
        | none => rfl
        | some q =>
          have := lt_of_seekBinaryClosure hb
          simp only
          rw [ih n' (q + 1) d (by omega) (by omega)]
      · rfl

/-- One turn of the loop. -/
theorem closureScan_eq (hp : p < e) :
    closureScan m e k p d =
      if m p = k.opening then closureScan m e k (p + 1) (d + 1)
      else if m p = k.closing then
        if d - 1 = 0 then some (p + 1) else closureScan m e k (p + 1) (d - 1)
      else if m p = Ch.dquote ∨ m p = Ch.squote then
        if seekCharEscape m (p + 1) e (m p) = e then none
        else closureScan m e k (seekCharEscape m (p + 1) e (m p) + 1) d
      else if m p = Ch.lt then
        match seekBinaryClosure m p e with
        | none => none
        | some q => closureScan m e k (q + 1) d
      else closureScan m e k (p + 1) d := by
  obtain ⟨n, hn⟩ : ∃ n, e - p = n + 1 := ⟨e - p - 1, by omega⟩
  have hq := seekCharEscape_ge (m := m) (c := m p) (show p + 1 ≤ e by omega)
  rw [closureScan, hn, closureLoop, if_pos hp]
  simp only [closureLoop_eq_closureScan (show e - (p + 1) ≤ n by omega)]
  rw [closureLoop_eq_closureScan (show e - (seekCharEscape m (p + 1) e (m p) + 1) ≤ n by omega)]
  cases hb : seekBinaryClosure m p e with
  | none => rfl
  | some q =>
    have := lt_of_seekBinaryClosure hb
    simp only [closureLoop_eq_closureScan (show e - (q + 1) ≤ n by omega)]

/-- Behind the end the loop is over. -/
theorem closureScan_end (hp : e ≤ p) : closureScan m e k p d = none := by
  rw [closureScan, show e - p = 0 by omega, closureLoop]

/-- The loop returns a position to the right of where it stands. -/
theorem lt_of_closureScan {r : ℕ} (h : closureScan m e k p d = some r) : p < r := by
  induction hn : e - p using Nat.strong_induction_on generalizing p d with
  | _ n ih =>
    by_cases hp : p < e
    · have hq := seekCharEscape_ge (m := m) (c := m p) (show p + 1 ≤ e by omega)
      have step : ∀ q d, p < q → closureScan m e k q d = some r → p < r := fun q d hpq hr =>
        lt_trans hpq (ih (e - q) (by omega) hr rfl)
      rw [closureScan_eq hp] at h
      split at h
      · exact step _ _ (by omega) h
      · split at h
        · split at h
          · simp only [Option.some.injEq] at h
            omega
          · exact step _ _ (by omega) h
        · split at h
          · split at h
            · simp at h
            · exact step _ _ (by omega) h
          · split at h
            · cases hb : seekBinaryClosure m p e with
              | none => simp [hb] at h
              | some q =>
                have := lt_of_seekBinaryClosure hb
                simp only [hb] at h
                exact step _ _ (by omega) h
            · exact step _ _ (by omega) h
    · rw [closureScan_end (by omega)] at h
      simp at h

/-! ### One piece at a time -/

theorem scan_inert (hp : p < e) (h : Inert k (m p)) : closureScan m e k p d = closureScan m e k (p + 1) d := by
  obtain ⟨h1, h2, h3, h4, h5⟩ := h
  rw [closureScan_eq hp, if_neg h1, if_neg h2, if_neg (not_or.mpr ⟨h3, h4⟩), if_neg h5]

theorem scan_inerts {xs : List UInt8} (h : Holds m p xs) (hx : ∀ b ∈ xs, Inert k b)
    (he : p + xs.length ≤ e) : closureScan m e k p d = closureScan m e k (p + xs.length) d := by
  induction xs generalizing p with
  | nil => rfl
  | cons b xs ih =>
    simp only [List.length_cons] at he ⊢
    rw [scan_inert (by omega) (by rw [h.1]; exact hx b (by simp)),
      ih h.2 (fun y hy => hx y (by simp [hy])) (by omega)]
    congr 1
    omega

theorem scan_str {s : Str} (h : Holds m p s.text) (he : p + s.text.length ≤ e) :
    closureScan m e k p d = closureScan m e k (p + s.text.length) d := by
  have hl := s.length_text
  have hq : m p = s.quote.char := h.1
  have hseek := seekCharEscape_str h he
  have hc : s.quote.char ≠ k.opening ∧ s.quote.char ≠ k.closing ∧
      (s.quote.char = Ch.dquote ∨ s.quote.char = Ch.squote) := by
    cases s.quote <;> cases k <;> decide
  rw [closureScan_eq (by omega), hq, if_neg hc.1, if_neg hc.2.1, if_pos hc.2.2, hseek, if_neg (by omega)]
  congr 1
  omega

/-- A binary value and the byte behind it. -/
theorem scan_bin {b : Payload} (h : Holds m p b.text) (he : p + b.text.length ≤ e) :
    closureScan m e k p d = closureScan m e k (p + b.text.length + 1) d := by
  have hq : m p = Ch.lt := h.1
  have hpos : 0 < b.text.length := by simp [Payload.text]
  have hc : Ch.lt ≠ k.opening ∧ Ch.lt ≠ k.closing ∧ ¬ (Ch.lt = Ch.dquote ∨ Ch.lt = Ch.squote) := by
    cases k <;> decide
  rw [closureScan_eq (by omega), hq, if_neg hc.1, if_neg hc.2.1, if_neg hc.2.2, if_pos rfl,
    seekBinaryClosure_payload h he]

theorem scan_opening (hp : p < e) (h : m p = k.opening) :
    closureScan m e k p d = closureScan m e k (p + 1) (d + 1) := by
  rw [closureScan_eq hp, if_pos h]

theorem Kind.closing_ne_opening (k : Kind) : k.closing ≠ k.opening := by cases k <;> decide

theorem scan_closing (hp : p < e) (h : m p = k.closing) (hd : 1 < d) :
    closureScan m e k p d = closureScan m e k (p + 1) (d - 1) := by
  rw [closureScan_eq hp, h, if_neg k.closing_ne_opening, if_pos rfl, if_neg (by omega)]

theorem scan_last_closing (hp : p < e) (h : m p = k.closing) : closureScan m e k p 1 = some (p + 1) := by
  rw [closureScan_eq hp, h, if_neg k.closing_ne_opening, if_pos rfl]
  simp

theorem scan_head {k' : Kind} (h : Head k') (hm : Holds m p h.text) (he : p + h.text.length ≤ e) :
    closureScan m e k p d = closureScan m e k (p + h.text.length) d := by
  cases h with
  | item pre => exact scan_inerts hm (fun b hb => inert_ws (pre.isWs_of_mem hb)) he
  | member pre key mid post =>
    simp only [Head.text, holds_append, holds_cons, List.length_append, List.length_cons] at hm he ⊢
    obtain ⟨h1, h2, h3, h4, h5⟩ := hm
    have hkey : closureScan m e k (p + pre.text.length) d =
        closureScan m e k (p + pre.text.length + key.text.length) d := by
      cases key with
      | quoted s => exact scan_str h2 (by simp only [Key.text] at he ⊢; omega)
      | bare w => exact scan_inerts h2 (fun b hb => inert_bare (w.isBare_of_mem hb)) (by omega)
    rw [scan_inerts h1 (fun b hb => inert_ws (pre.isWs_of_mem hb)) (by omega), hkey,
      scan_inerts h3 (fun b hb => inert_ws (mid.isWs_of_mem hb)) (by omega),
      scan_inert (by omega) (by rw [h4]; exact inert_colon k),
      scan_inerts h5 (fun b hb => inert_ws (post.isWs_of_mem hb)) (by omega)]
    congr 1
    omega

end Closure

/-! ### Closing brackets lost behind a binary value -/

/-- How far behind the value the loop stands after it: one byte for a binary value. -/
def Value.overrun : Value → ℕ
  | .bin _ => 1
  | _ => 0

attribute [local simp] Value.overrun

/-- How far behind the entries the loop stands after them: one byte when the last one is a binary
value with nothing between it and the closing bracket. -/
def Entries.overrun : {k : Kind} → Entries k → ℕ
  | _, .one _ v post => if post.text = [] then v.overrun else 0
  | _, .cons _ _ _ rest => rest.overrun

attribute [local simp] Entries.overrun

mutual
/-- The number of closing brackets of kind `k` inside `v` that stand directly behind a binary value. -/
def Value.missed (k : Kind) : Value → ℕ
  | .node k' es => es.missed k + if k' = k then es.overrun else 0
  | _ => 0
/-- The same, inside the entries of a container. -/
def Entries.missed (k : Kind) : {k' : Kind} → Entries k' → ℕ
  | _, .one _ v _ => v.missed k
  | _, .cons _ v _ rest => v.missed k + rest.missed k
end

attribute [local simp] Value.missed Entries.missed

/-- The scanner loses no closing bracket of the kind it counts in `v`: no binary value at any depth of
a container `v` is directly followed by a closing bracket of the kind of `v` itself. -/
def Value.Clean : Value → Prop
  | .node k es => (Value.node k es).missed k = 0
  | _ => True

instance (v : Value) : Decidable v.Clean := by
  cases v <;> unfold Value.Clean <;> infer_instance

theorem Value.overrun_le (v : Value) : v.overrun ≤ 1 := by cases v <;> simp

theorem Entries.overrun_le : ∀ {k : Kind} (es : Entries k), es.overrun ≤ 1
  | _, .one _ v post => by
    rw [Entries.overrun]
    split
    · exact v.overrun_le
    · omega
  | _, .cons _ _ _ rest => by
    rw [Entries.overrun]
    exact rest.overrun_le

section Values

variable {m : Mem} {e : ℕ} {k : Kind}

/-- Passed bytes take up an overrun, when there is one at least. -/
theorem scan_overrun {p d n : ℕ} {xs : List UInt8} (h : Holds m p xs) (hx : ∀ b ∈ xs, Inert k b)
    (he : p + xs.length ≤ e) (hn : n ≤ 1) (h0 : xs ≠ []) :
    closureScan m e k (p + n) d = closureScan m e k (p + xs.length) d := by
  obtain ⟨b, xs, rfl⟩ := List.exists_cons_of_ne_nil h0
  simp only [List.length_cons] at he ⊢
  have hrest : closureScan m e k (p + 1) d = closureScan m e k (p + (xs.length + 1)) d := by
    rw [scan_inerts h.2 (fun y hy => hx y (by simp [hy])) (by omega)]
    congr 1
    omega
  rcases Nat.le_one_iff_eq_zero_or_eq_one.mp hn with rfl | rfl
  · rw [add_zero, scan_inert (by omega) (by rw [h.1]; exact hx b (by simp)), hrest]
  · exact hrest

mutual
/-- **Scanning over a value.** Inside a bracket of kind `k` the loop passes `v`, with one byte more
behind a binary value, and the depth is higher by the closing brackets it missed. -/
theorem scan_value (v : Value) {p d : ℕ} (h : Holds m p v.text) (he : p + v.text.length < e) (hd : 0 < d) :
    closureScan m e k p d = closureScan m e k (p + v.text.length + v.overrun) (d + v.missed k) := by
  match v with
  | .str s => exact scan_str h (by simp only [Value.text] at he; omega)
  | .lit w => exact scan_inerts h (fun b hb => inert_bare (w.isBare_of_mem hb)) (by omega)
  | .bin b => exact scan_bin h (by simp only [Value.text] at he; omega)
  | .empty k' ws =>
    simp only [Value.text, holds_cons, holds_append, List.length_cons, List.length_append, List.length_nil,
      holds_nil, and_true] at h he
    obtain ⟨h1, h2, h3⟩ := h
    have hws : ∀ d, closureScan m e k (p + 1) d = closureScan m e k (p + 1 + ws.text.length) d := fun d =>
      scan_inerts h2 (fun b hb => inert_ws (ws.isWs_of_mem hb)) (by omega)
    have hl : p + (Value.empty k' ws).text.length + (Value.empty k' ws).overrun = p + 1 + ws.text.length + 1 := by
      simp only [Value.text, Value.overrun, List.length_cons, List.length_append, List.length_nil]
      omega
    rw [hl, show (Value.empty k' ws).missed k = 0 by simp, add_zero]
    by_cases hk : k' = k
    · subst hk
      rw [scan_opening (by omega) h1, hws, scan_closing (by omega) h3 (by omega), Nat.add_sub_cancel]
    · rw [scan_inert (by omega) (by rw [h1]; exact inert_opening hk), hws,
        scan_inert (by omega) (by rw [h3]; exact inert_closing hk)]
  | .node k' es =>
    simp only [Value.text, holds_cons, holds_append, List.length_cons, List.length_append, List.length_nil,
      holds_nil, and_true] at h he
    obtain ⟨h1, h2, h3⟩ := h
    have hes : ∀ {d}, 0 < d → closureScan m e k (p + 1) d =
        closureScan m e k (p + 1 + es.text.length + es.overrun) (d + es.missed k) := fun hd =>
      scan_entries es h2 (by omega) hd
    have hl : p + (Value.node k' es).text.length + (Value.node k' es).overrun = p + 1 + es.text.length + 1 := by
      simp only [Value.text, Value.overrun, List.length_cons, List.length_append, List.length_nil]
      omega
    rw [hl, Value.missed]
    rcases Nat.le_one_iff_eq_zero_or_eq_one.mp es.overrun_le with ho | ho
    · -- the loop meets the closing bracket
      simp only [ho, ite_self, add_zero]
      by_cases hk : k' = k
      · subst hk
        rw [scan_opening (by omega) h1, hes (by omega), ho, add_zero,
          scan_closing (by omega) h3 (by omega)]
        congr 1
        omega
      · rw [scan_inert (by omega) (by rw [h1]; exact inert_opening hk), hes hd, ho, add_zero,
          scan_inert (by omega) (by rw [h3]; exact inert_closing hk)]
    · -- the loop has stepped over the closing bracket
      simp only [ho]
      by_cases hk : k' = k
      · subst hk
        rw [scan_opening (by omega) h1, hes (by omega), ho, if_pos rfl]
        congr 1
        omega
      · rw [scan_inert (by omega) (by rw [h1]; exact inert_opening hk), hes hd, ho, if_neg hk, add_zero]
theorem scan_entries : ∀ {k' : Kind} (es : Entries k') {p d : ℕ}, Holds m p es.text →
    p + es.text.length < e → 0 < d →
    closureScan m e k p d = closureScan m e k (p + es.text.length + es.overrun) (d + es.missed k)
  | _, .one hd v post, p, d, h, he, hpos => by
    simp only [Entries.text, holds_append, List.length_append] at h he
    obtain ⟨h1, h2, h3⟩ := h
    rw [scan_head hd h1 (by omega), scan_value v h2 (by omega) hpos, Entries.overrun, Entries.missed,
      Entries.text]
    by_cases h0 : post.text = []
    · rw [if_pos h0, h0]
      simp only [List.length_append, List.length_nil, add_zero]
      congr 1
      omega
    · rw [if_neg h0, scan_overrun h3 (fun b hb => inert_ws (post.isWs_of_mem hb)) (by omega) v.overrun_le h0]
      simp only [List.length_append, add_zero]
      congr 1
      omega
  | _, .cons hd v post rest, p, d, h, he, hpos => by
    simp only [Entries.text, holds_append, holds_cons, List.length_append, List.length_cons] at h he
    obtain ⟨h1, h2, h3, h4, h5⟩ := h
    -- the comma is always there to take up an overrun
    have h34 : Holds m (p + hd.text.length + v.text.length) (post.text ++ [Ch.comma]) := by
      simp only [holds_append, holds_cons, holds_nil, and_true]
      exact ⟨h3, h4⟩
    have hin : ∀ b ∈ post.text ++ [Ch.comma], Inert k b := by
      intro b hb
      rcases List.mem_append.mp hb with hb | hb
      · exact inert_ws (post.isWs_of_mem hb)
      · rw [List.mem_singleton.mp hb]
        exact inert_comma k
    rw [scan_head hd h1 (by omega), scan_value v h2 (by omega) hpos,
      scan_overrun h34 hin (by simp only [List.length_append, List.length_cons, List.length_nil]; omega)
        v.overrun_le (by simp)]
    have e1 : p + hd.text.length + v.text.length + (post.text ++ [Ch.comma]).length =
        p + hd.text.length + v.text.length + post.text.length + 1 := by
      simp only [List.length_append, List.length_cons, List.length_nil]
      omega
    rw [e1, scan_entries rest h5 (by omega) (by omega), Entries.overrun, Entries.missed, Entries.text]
    simp only [List.length_append, List.length_cons]
    congr 1 <;> omega
end

end Values

/-! ### The end of a value -/

/-- The bytes that may follow a value. -/
def isDelimiter (b : UInt8) : Bool :=
  b == Ch.comma || b == Ch.rbracket || b == Ch.rbrace || isWs b

theorem isDelimiter_facts : ∀ b : UInt8, isDelimiter b = true → isText b = false ∧ b ≠ Ch.dquote ∧
    b ≠ Ch.squote ∧ b ≠ Ch.gt := by
  set_option maxRecDepth 20000 in decide

section Seek

variable {m : Mem} {p e : ℕ}

theorem seek_str {s : Str} (h : Holds m p s.text) (he : p + s.text.length ≤ e) :
    seekJsonObjectClosure m p e = some (p + s.text.length) := by
  have hl := s.length_text
  have hq : m p = s.quote.char := h.1
  have hc : s.quote.char = Ch.dquote ∨ s.quote.char = Ch.squote := by cases s.quote <;> decide
  rw [seekJsonObjectClosure, hq, if_pos hc]
  simp only [seekCharEscape_str h he]
  rw [if_pos (by omega)]
  congr 1
  omega

theorem seek_lit {w : Word} (h : Holds m p w.text) (he : p + w.text.length < e)
    (hs : isText (m (p + w.text.length)) = false) : seekJsonObjectClosure m p e = some (p + w.text.length) := by
  obtain ⟨b, s, hw, hb⟩ := w.exists_cons
  have hp : m p = b := by
    rw [hw] at h
    exact h.1
  obtain ⟨-, -, h1, h2, h3, h4, -, h6, -⟩ := isBare_facts b hb
  have hc : matchClosure b = 0 := by
    simp only [matchClosure, h1, h2, h4, h6, or_self, if_false]
  rw [seekJsonObjectClosure, hp, if_neg (not_or.mpr ⟨h1, h2⟩), if_neg h3]
  simp only [hc, ne_eq, not_true_eq_false, if_false, scanText]
  rw [scanWhile_eq h (fun x hx => (isBare_facts x (w.isBare_of_mem hx)).2.1) (by omega) (fun _ => hs)]

theorem seek_bin {b : Payload} (h : Holds m p b.text) (he : p + b.text.length ≤ e) :
    seekJsonObjectClosure m p e = some (p + b.text.length) := by
  have hq : m p = Ch.lt := h.1
  rw [seekJsonObjectClosure, hq, if_neg (by decide), if_pos rfl, seekBinaryClosure_payload h he]

/-- At an opening bracket the scanner enters the loop at depth one. -/
theorem seek_opening {k : Kind} (h : m p = k.opening) :
    seekJsonObjectClosure m p e = closureScan m e k (p + 1) 1 := by
  rw [seekJsonObjectClosure, h]
  cases k <;> rfl

/-- The scanner finds the end of a container exactly when it misses no closing bracket of its kind. -/
theorem seek_node {k : Kind} {es : Entries k} (h : Holds m p (Value.node k es).text)
    (he : p + (Value.node k es).text.length ≤ e) :
    seekJsonObjectClosure m p e = some (p + (Value.node k es).text.length) ↔ (Value.node k es).missed k = 0 := by
  simp only [Value.text, holds_cons, holds_append, List.length_cons, List.length_append, List.length_nil,
    holds_nil, and_true] at h he ⊢
  obtain ⟨h1, h2, h3⟩ := h
  rw [seek_opening h1, scan_entries es h2 (by omega) (by omega), Value.missed, if_pos rfl]
  have hl : p + (es.text.length + (0 + 1) + 1) = p + 1 + es.text.length + 1 := by omega
  rw [hl]
  -- once a bracket is missed the loop runs on behind the value
  have hlate : ∀ d, closureScan m e k (p + 1 + es.text.length + 1) d ≠ some (p + 1 + es.text.length + 1) :=
    fun d hh => lt_irrefl _ (lt_of_closureScan hh)
  rcases Nat.le_one_iff_eq_zero_or_eq_one.mp es.overrun_le with ho | ho
  · rw [ho]
    by_cases h0 : es.missed k = 0
    · rw [h0]
      simp only [add_zero, iff_true]
      exact scan_last_closing (by omega) h3
    · rw [add_zero, add_zero, scan_closing (by omega) h3 (by omega)]
      exact iff_of_false (hlate _) h0
  · rw [ho]
    exact iff_of_false (hlate _) (by omega)

/-- Followed by a delimiter before `end`, a value is found exactly when it is clean. -/
theorem seek_value (v : Value) (h : Holds m p v.text) (he : p + v.text.length < e)
    (hb : isDelimiter (m (p + v.text.length)) = true) :
    seekJsonObjectClosure m p e = some (p + v.text.length) ↔ v.Clean := by
  cases v with
  | str s => exact iff_of_true (seek_str h (by simp only [Value.text] at he; omega)) trivial
  | lit w => exact iff_of_true (seek_lit h he (isDelimiter_facts _ hb).1) trivial
  | bin b => exact iff_of_true (seek_bin h (by simp only [Value.text] at he; omega)) trivial
  | empty k ws =>
    refine iff_of_true ?_ trivial
    simp only [Value.text, holds_cons, holds_append, List.length_cons, List.length_append, List.length_nil,
      holds_nil, and_true] at h he ⊢
    obtain ⟨h1, h2, h3⟩ := h
    rw [seek_opening h1, scan_inerts h2 (fun b hb => inert_ws (ws.isWs_of_mem hb)) (by omega),
      scan_last_closing (by omega) h3]
    congr 1
    omega
  | node k es => exact seek_node h (by omega)

end Seek

/-- `[<1/a>]`: a binary value directly before the closing bracket of the array scanned. -/
def tightArray : Value := .node .array (.one (.item .none) (.bin ⟨[0x61], by decide⟩) .none)

/-- `{"":[<1/a>]}`: the bracket missed is not of the kind counted. -/
def tightInObject : Value :=
  .node .object (.one (.member .none (.quoted (.empty .double)) .none .none) tightArray .none)

end Cpcf.Json
