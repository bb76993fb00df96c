import Cpcf.Lib.Strides
import Cpcf.Os.Utf8

/-!
How the UTF-8 decoders of `os/kernal_encode.cpp` walk over a byte string, well-formed or not: the offset
`UTF8ByteOffset` finds for a number of characters, and the decoder of one character beside the decoder of all.

All of them look at the lead bytes only. The byte string is the `len` bytes at `pIn`, and what stands behind it is
read where a sequence is cut off.
-/

namespace Cpcf.Os.Utf8

open Cpcf.Lib Cpcf.Lib.Memory Cpcf.Lib.Strides

/-! ### The source -/

/-- The loop of `UTF8ByteOffset` with so many characters still to be counted. -/
def utf8ByteOffsetLoop (m : Mem) (pIn len : ℕ) : ℕ → ℕ → ℕ
  | 0, i => i
  | k + 1, i => if len ≤ i then 0 else utf8ByteOffsetLoop m pIn len k (i + advance (m (pIn + i)))

/-- `UTF8ByteOffset`. -/
def utf8ByteOffset (m : Mem) (pIn len num_of_utf8_char : ℕ) : ℕ := utf8ByteOffsetLoop m pIn len num_of_utf8_char 0

/-- `UTF8Decode(LPCSTR& p)`: the unit, and `p` afterwards. -/
def utf8DecodeChar (m : Mem) (p : ℕ) : UInt16 × ℕ :=
  let c := (m p).toNat
  if m p ≤ 0x7f then (UInt16.ofNat c, p + 1)
  else if m p &&& 0xf0 = 0xe0 then
    (UInt16.ofNat (((c &&& 0xf) <<< 12) ||| (((m (p + 1)).toNat &&& 0x3f) <<< 6) ||| ((m (p + 2)).toNat &&& 0x3f)),
      p + 3)
  else if m p &&& 0xe0 = 0xc0 then
    (UInt16.ofNat (((c &&& 0x1f) <<< 6) ||| ((m (p + 1)).toNat &&& 0x3f)), p + 2)
  else (0x3f, p + 4)

theorem lt_utf8DecodeChar (m : Mem) (p : ℕ) : p < (utf8DecodeChar m p).2 := by
  unfold utf8DecodeChar
  split_ifs <;> simp

/-- `while(p < e) UTF8Decode(p)`: the units, and where the cursor is left. -/
def decodeChars (m : Mem) (e p : ℕ) : List UInt16 × ℕ :=
  if p < e then
    let r := utf8DecodeChar m p
    let t := decodeChars m e r.2
    (r.1 :: t.1, t.2)
  else ([], p)
termination_by e - p
decreasing_by
  have := lt_utf8DecodeChar m p
  omega

/-! ### Whole sequences -/

/-- A byte that begins a sequence of one, two or three bytes. -/
def isLead (c : UInt8) : Bool := c ≤ 0x7f || c &&& 0xf0 == 0xe0 || c &&& 0xe0 == 0xc0

/-- The byte string is one sequence after another, none of them cut off, with such bytes in front. -/
inductive Whole (lead : UInt8 → Bool) : List UInt8 → Prop
  | nil : Whole lead []
  | seq {c : UInt8} {t rest : List UInt8} : lead c = true → advance c = t.length + 1 → Whole lead rest →
      Whole lead (c :: (t ++ rest))

/-! ### The walk -/

section Walk

variable {m : Mem} {pIn len i : ℕ}

/-- The place of the next lead byte. -/
def next (m : Mem) (pIn i : ℕ) : ℕ := i + advance (m (pIn + i))

theorem lt_next (m : Mem) (pIn i : ℕ) : i < next m pIn i := Nat.lt_add_of_pos_right (advance_pos _)

theorem utf8DecodeLengthLoop_eq (m : Mem) (pIn len i outlen : ℕ) :
    utf8DecodeLengthLoop m pIn len i outlen = outlen + strides (next m pIn) (lt_next m pIn) len i := by
  induction i, outlen using utf8DecodeLengthLoop.induct m pIn len with
  | case1 i outlen h ih =>
    rw [utf8DecodeLengthLoop, if_pos h, ih, strides_of_lt _ h]
    unfold next
    omega
  | case2 i outlen h =>
    rw [utf8DecodeLengthLoop, if_neg h, strides_of_le _ (by omega)]
    rfl

theorem utf8DecodeLength_eq (m : Mem) (pIn len : ℕ) :
    utf8DecodeLength m pIn len = strides (next m pIn) (lt_next m pIn) len 0 := by
  rw [utf8DecodeLength, utf8DecodeLengthLoop_eq, Nat.zero_add]

/-- A sequence in front, in terms of what stands in the memory. -/
theorem whole_read_iff {lead : UInt8 → Bool} {p n : ℕ} (hn : 0 < n) :
    Whole lead (read m p n) ↔ lead (m p) = true ∧ advance (m p) ≤ n ∧
      Whole lead (read m (p + advance (m p)) (n - advance (m p))) := by
  obtain ⟨n, rfl⟩ : ∃ k, n = k + 1 := ⟨n - 1, by omega⟩
  have hpos := advance_pos (m p)
  rw [Memory.read]
  constructor
  · intro h
    generalize hs : read m (p + 1) n = s at h
    cases h with
    | seq hlead hadv hrest =>
      rename_i t rest
      have hlen := congrArg List.length hs
      rw [length_read, List.length_append] at hlen
      subst hlen
      rw [read_add] at hs
      obtain ⟨-, hr⟩ := List.append_inj hs (length_read _ _ _)
      refine ⟨hlead, by omega, ?_⟩
      have e1 : p + advance (m p) = p + 1 + t.length := by omega
      have e2 : t.length + rest.length + 1 - advance (m p) = rest.length := by omega
      rw [e1, e2, hr]
      exact hrest
  · rintro ⟨hlead, hle, hrest⟩
    have e1 : n = (advance (m p) - 1) + (n + 1 - advance (m p)) := by omega
    have e2 : p + 1 + (advance (m p) - 1) = p + advance (m p) := by omega
    rw [e1, read_add, e2]
    refine .seq hlead ?_ hrest
    rw [length_read]
    omega

/-- The byte string is whole when the walk ends at its end. -/
theorem whole_iff {lead : UInt8 → Bool} (hi : i ≤ len) :
    Whole lead (read m (pIn + i) (len - i)) ↔
      (next m pIn)^[strides (next m pIn) (lt_next m pIn) len i] i = len ∧
        ∀ j < strides (next m pIn) (lt_next m pIn) len i, lead (m (pIn + (next m pIn)^[j] i)) = true := by
  induction hk : len - i using Nat.strong_induction_on generalizing i with
  | h n ih =>
    subst hk
    rcases Nat.eq_or_lt_of_le hi with rfl | hlt
    · rw [strides_of_le _ le_rfl, Nat.sub_self]
      exact ⟨fun _ => ⟨rfl, fun j hj => absurd hj (Nat.not_lt_zero j)⟩, fun _ => .nil⟩
    · have hnext := lt_next m pIn i
      rw [whole_read_iff (by omega), strides_of_lt _ hlt, Function.iterate_succ_apply, Nat.forall_lt_succ_left]
      simp only [Function.iterate_succ_apply, Function.iterate_zero_apply]
      have e : pIn + i + advance (m (pIn + i)) = pIn + next m pIn i := Nat.add_assoc _ _ _
      have e' : len - i - advance (m (pIn + i)) = len - next m pIn i := Nat.sub_sub _ _ _
      rw [e, e']
      rcases Nat.lt_or_ge len (next m pIn i) with hover | hle
      · rw [strides_of_le _ hover.le]
        simp only [Function.iterate_zero_apply]
        unfold next at hover ⊢
        constructor
        · rintro ⟨-, h, -⟩
          omega
        · rintro ⟨h, -⟩
          omega
      · rw [ih _ (by omega) hle rfl]
        unfold next at hle ⊢
        constructor
        · rintro ⟨h1, -, h2, h3⟩
          exact ⟨h2, h1, h3⟩
        · rintro ⟨h2, h1, h3⟩
          exact ⟨h1, by omega, h2, h3⟩

end Walk

/-! ### The offset of a number of characters -/

section Offset

variable (m : Mem) (pIn len : ℕ)

theorem utf8ByteOffsetLoop_eq (k i : ℕ) : utf8ByteOffsetLoop m pIn len k i =
    if k ≤ strides (next m pIn) (lt_next m pIn) len i then (next m pIn)^[k] i else 0 := by
  induction k generalizing i with
  | zero => simp [utf8ByteOffsetLoop]
  | succ k ih =>
    rw [utf8ByteOffsetLoop]
    rcases Nat.lt_or_ge i len with h | h
    · rw [if_neg (by omega), show i + advance (m (pIn + i)) = next m pIn i from rfl, ih, strides_of_lt _ h,
        Function.iterate_succ_apply]
      simp only [Nat.add_le_add_iff_right]
    · rw [if_pos h, strides_of_le _ h, if_neg (by omega)]

/-- **The offset of a number of characters.** When the byte string has as many, the offset lies inside it and cuts
off exactly that many, and otherwise it is zero: this holds unless all characters are asked for and the last one is
cut off. -/
theorem utf8ByteOffset_iff (n : ℕ) :
    ((n ≤ utf8DecodeLength m pIn len → utf8ByteOffset m pIn len n ≤ len ∧
        utf8DecodeLength m pIn (utf8ByteOffset m pIn len n) = n) ∧
      (¬ n ≤ utf8DecodeLength m pIn len → utf8ByteOffset m pIn len n = 0)) ↔
    (n = utf8DecodeLength m pIn len → Whole (fun _ => true) (read m pIn len)) := by
  have hwhole := @whole_iff m pIn len 0 (fun _ => true) (Nat.zero_le len)
  rw [Nat.add_zero, Nat.sub_zero] at hwhole
  rw [hwhole, utf8DecodeLength_eq, utf8ByteOffset, utf8ByteOffsetLoop_eq]
  set count := strides (next m pIn) (lt_next m pIn) len 0 with hcount
  have hlast : len ≤ (next m pIn)^[count] 0 := le_iterate_strides _ _ _
  rcases Nat.lt_trichotomy n count with h | rfl | h
  · have hlt : (next m pIn)^[n] 0 < len := (iterate_lt_iff (lt_next m pIn)).mpr h
    rw [if_pos h.le, utf8DecodeLength_eq, strides_iterate]
    exact ⟨fun _ he => absurd he h.ne, fun _ => ⟨fun _ => ⟨hlt.le, rfl⟩, fun hn => absurd h.le hn⟩⟩
  · rw [if_pos le_rfl, utf8DecodeLength_eq, strides_iterate]
    constructor
    · rintro ⟨h1, -⟩ -
      exact ⟨Nat.le_antisymm (h1 le_rfl).1 hlast, fun _ _ => rfl⟩
    · intro h
      exact ⟨fun _ => ⟨(h rfl).1.le, rfl⟩, fun hn => absurd le_rfl hn⟩
  · rw [if_neg (by omega)]
    exact ⟨fun _ he => absurd he h.ne', fun _ => ⟨fun hn => by omega, fun _ => rfl⟩⟩

/-- One byte that begins a sequence of three is one character, and its end is found behind the third. -/
theorem utf8ByteOffset_overshoots : utf8DecodeLength (ofBytes 8 [0xe0]) 8 1 = 1 ∧
    utf8ByteOffset (ofBytes 8 [0xe0]) 8 1 1 = 3 ∧
    ¬ ∀ (m : Mem) (pIn len n : ℕ), n ≤ utf8DecodeLength m pIn len → utf8ByteOffset m pIn len n ≤ len := by
  have hone : utf8DecodeLength (ofBytes 8 [0xe0]) 8 1 = 1 := by
    rw [utf8DecodeLength, utf8DecodeLengthLoop, if_pos (by decide), utf8DecodeLengthLoop, if_neg (by decide)]
  refine ⟨hone, by decide, ?_⟩
  intro h
  have hle := h (ofBytes 8 [0xe0]) 8 1 1 hone.ge
  revert hle
  decide

end Offset

/-! ### One character at a time -/

section Chars

variable {m : Mem} {pIn len : ℕ}

/-- Where the cursor goes. -/
def cursor (m : Mem) (p : ℕ) : ℕ := (utf8DecodeChar m p).2

theorem lt_cursor (m : Mem) (p : ℕ) : p < cursor m p := lt_utf8DecodeChar m p

/-- What one call gives, beside what the other decoder writes there. -/
theorem utf8DecodeChar_eq (m : Mem) (p : ℕ) :
    (isLead (m p) = true ∧ decodeUnit m p = some (utf8DecodeChar m p).1 ∧ cursor m p = p + advance (m p)) ∨
      (isLead (m p) = false ∧ decodeUnit m p = none) := by
  unfold cursor decodeUnit utf8DecodeChar advance isLead
  by_cases h1 : m p ≤ 0x7f
  · left
    simp [h1]
  · by_cases h2 : m p &&& 0xf0 = 0xe0
    · left
      simp [h1, h2]
    · by_cases h3 : m p &&& 0xe0 = 0xc0
      · left
        simp [h1, h2, h3]
      · right
        simp [h1, h2, h3]

theorem decodeChars_eq (m : Mem) (e p : ℕ) :
    (decodeChars m e p).2 = (cursor m)^[strides (cursor m) (lt_cursor m) e p] p ∧
      (decodeChars m e p).1.length = strides (cursor m) (lt_cursor m) e p ∧
      ∀ (k : ℕ) (hk : k < (decodeChars m e p).1.length),
        (decodeChars m e p).1[k] = (utf8DecodeChar m ((cursor m)^[k] p)).1 := by
  induction p using decodeChars.induct m e with
  | case1 p h r ih =>
    obtain ⟨h1, h2, h3⟩ := ih
    rw [decodeChars, if_pos h, strides_of_lt _ h]
    refine ⟨h1, congrArg (· + 1) h2, ?_⟩
    intro k hk
    cases k with
    | zero => rfl
    | succ k => exact h3 k (Nat.lt_of_succ_lt_succ hk)
  | case2 p h =>
    rw [decodeChars, if_neg h, strides_of_le _ (by omega)]
    exact ⟨rfl, rfl, fun k hk => absurd hk (Nat.not_lt_zero k)⟩

/-- The cells the loop writes, and the ones it passes without writing. -/
theorem utf8DecodeLoop_eq (m : Mem) (pIn len i : ℕ) (out : ℕ → UInt16) (p : ℕ) :
    (utf8DecodeLoop m pIn len i out p).2 = p + strides (next m pIn) (lt_next m pIn) len i ∧
      (∀ q, q < p → (utf8DecodeLoop m pIn len i out p).1 q = out q) ∧
      ∀ k < strides (next m pIn) (lt_next m pIn) len i, (utf8DecodeLoop m pIn len i out p).1 (p + k) =
        (decodeUnit m (pIn + (next m pIn)^[k] i)).getD (out (p + k)) := by
  induction i, out, p using utf8DecodeLoop.induct m pIn len with
  | case1 i out p h ih =>
    have hput : ∀ q, q ≠ p → putUnit out p (decodeUnit m (pIn + i)) q = out q := by
      intro q hq
      cases decodeUnit m (pIn + i) with
      | none => rfl
      | some c => exact Function.update_of_ne hq c out
    obtain ⟨hend, hfront, hcells⟩ := ih
    rw [utf8DecodeLoop, if_pos h, strides_of_lt _ h]
    have hnext : i + advance (m (pIn + i)) = next m pIn i := rfl
    rw [hnext] at hend hfront hcells ⊢
    refine ⟨by rw [hend]; omega, ?_, ?_⟩
    · intro q hq
      rw [hfront q (by omega), hput q (by omega)]
    · intro k hk
      cases k with
      | zero =>
        rw [show p + 0 = p from rfl, hfront p (by omega), Function.iterate_zero_apply]
        cases decodeUnit m (pIn + i) with
        | none => rfl
        | some c => exact Function.update_self p c out
      | succ k =>
        rw [show p + (k + 1) = p + 1 + k by omega, hcells k (by omega), hput _ (by omega),
          Function.iterate_succ_apply]
  | case2 i out p h =>
    rw [utf8DecodeLoop, if_neg h, strides_of_le _ (by omega)]
    exact ⟨rfl, fun _ _ => rfl, fun k hk => absurd hk (Nat.not_lt_zero k)⟩

/-- Over lead bytes both walks make the same strides. -/
theorem cursor_iterate {n : ℕ} (h : ∀ j < n, isLead (m (pIn + (next m pIn)^[j] 0)) = true) :
    (cursor m)^[n] pIn = pIn + (next m pIn)^[n] 0 := by
  have hn := iterate_congr (f := next m pIn) (g := cursor m) (a := pIn) (i := 0) (n := n) ?_
  · exact hn
  · intro k hk
    rcases utf8DecodeChar_eq m (pIn + (next m pIn)^[k] 0) with ⟨-, -, hc⟩ | ⟨hl, -⟩
    · rw [hc]
      exact Nat.add_assoc _ _ _
    · rw [h k hk] at hl
      cases hl

theorem strides_cursor (h : ∀ j < utf8DecodeLength m pIn len, isLead (m (pIn + (next m pIn)^[j] 0)) = true) :
    strides (cursor m) (lt_cursor m) (pIn + len) pIn = utf8DecodeLength m pIn len := by
  apply eq_of_forall_lt_iff
  intro k
  rw [← iterate_lt_iff]
  rcases Nat.lt_or_ge (utf8DecodeLength m pIn len) k with hk | hk
  · -- the walk over all characters has come to the end already
    have hend := cursor_iterate h
    have hlast := le_iterate_strides (lt_next m pIn) len 0
    rw [← utf8DecodeLength_eq] at hlast
    have hmono : (cursor m)^[utf8DecodeLength m pIn len] pIn ≤ (cursor m)^[k] pIn :=
      (strictMono_iterate (lt_cursor m) pIn).monotone hk.le
    omega
  · rw [cursor_iterate fun j hj => h j (by omega), Nat.add_lt_add_iff_left, utf8DecodeLength_eq]
    exact iterate_lt_iff (lt_next m pIn)

/-- **The two decoders.** Decoding one character after the other ends at the end of the byte string and gives the
units that decoding all of it leaves, whatever stood in their cells: this holds exactly when the byte string is
made of whole sequences of one, two or three bytes and the number of units fits the `UINT` it is cast to. -/
theorem decodeChars_iff (m : Mem) (pIn len : ℕ) :
    ((decodeChars m (pIn + len) pIn).2 = pIn + len ∧ ∀ (out : ℕ → UInt16) (q : ℕ),
      (utf8Decode m pIn len out q).2 = (decodeChars m (pIn + len) pIn).1.length ∧
      HoldsUnits (utf8Decode m pIn len out q).1 q (decodeChars m (pIn + len) pIn).1) ↔
    Whole isLead (read m pIn len) ∧ utf8DecodeLength m pIn len < 2 ^ 32 := by
  obtain ⟨hcur, hlen, hunit⟩ := decodeChars_eq m (pIn + len) pIn
  have hbulk : ∀ (out : ℕ → UInt16) (q : ℕ), (utf8Decode m pIn len out q).2 = utf8DecodeLength m pIn len % 2 ^ 32 := by
    intro out q
    rw [utf8Decode, (utf8DecodeLoop_eq m pIn len 0 out q).1, ← utf8DecodeLength_eq, Nat.add_sub_cancel_left]
  have hwhole := @whole_iff m pIn len 0 isLead (Nat.zero_le len)
  rw [Nat.add_zero, Nat.sub_zero, ← utf8DecodeLength_eq] at hwhole
  rw [hwhole]
  constructor
  · rintro ⟨hend, hall⟩
    set n := (decodeChars m (pIn + len) pIn).1.length with hn
    have hmod : utf8DecodeLength m pIn len % 2 ^ 32 = n := (hbulk (fun _ => 0) 0).symm.trans (hall _ _).1
    have hle : n ≤ utf8DecodeLength m pIn len := hmod ▸ Nat.mod_le _ _
    -- a cell that is passed keeps what stood there
    have hlead : ∀ j < n, isLead (m (pIn + (next m pIn)^[j] 0)) = true := by
      intro j hj
      rcases utf8DecodeChar_eq m (pIn + (next m pIn)^[j] 0) with ⟨hl, -⟩ | ⟨-, hnone⟩
      · exact hl
      · have hcell : ∀ c : UInt16, (decodeChars m (pIn + len) pIn).1[j] = c := by
          intro c
          rw [← (hall (fun _ => c) 0).2 j hj, utf8Decode,
            (utf8DecodeLoop_eq m pIn len 0 (fun _ => c) 0).2.2 j (by rw [← utf8DecodeLength_eq]; omega), hnone]
          rfl
        exact absurd ((hcell 0).symm.trans (hcell 1)) (by decide)
    have hcursor := cursor_iterate hlead
    have hreach := le_iterate_strides (lt_cursor m) (pIn + len) pIn
    rw [← hlen, hcursor] at hreach
    have hcount : utf8DecodeLength m pIn len = n := by
      refine Nat.le_antisymm ?_ hle
      by_contra hlt
      have hin : (next m pIn)^[n] 0 < len := (iterate_lt_iff (lt_next m pIn)).mpr (by rw [← utf8DecodeLength_eq]; omega)
      omega
    rw [hcount]
    refine ⟨⟨?_, hlead⟩, ?_⟩
    · rw [hcur, ← hlen, hcursor] at hend
      omega
    · rw [hcount] at hmod
      rw [← hmod]
      exact Nat.mod_lt _ (by norm_num)
  · rintro ⟨⟨hend, hlead⟩, hlt⟩
    have hstrides := strides_cursor hlead
    rw [hstrides] at hcur hlen
    refine ⟨?_, ?_⟩
    · rw [hcur, cursor_iterate hlead, hend]
    · intro out q
      refine ⟨?_, ?_⟩
      · rw [hbulk, hlen, Nat.mod_eq_of_lt hlt]
      · intro k hk
        have hk' : k < utf8DecodeLength m pIn len := hlen ▸ hk
        rw [hunit k hk, cursor_iterate fun j hj => hlead j (by omega), utf8Decode,
          (utf8DecodeLoop_eq m pIn len 0 out q).2.2 k (by rwa [← utf8DecodeLength_eq])]
        rcases utf8DecodeChar_eq m (pIn + (next m pIn)^[k] 0) with ⟨-, hsome, -⟩ | ⟨hl, -⟩
        · rw [hsome]
          rfl
        · rw [hlead k hk'] at hl
          cases hl

/-- A sequence of four bytes is one `?` for the one decoder, and four cells the other passes. -/
theorem decodeChars_disagree : decodeChars (ofBytes 8 [0xf0, 0x9f, 0x98, 0x80]) 12 8 = ([0x3f], 12) ∧
    (∀ (out : ℕ → UInt16) (q : ℕ), (utf8Decode (ofBytes 8 [0xf0, 0x9f, 0x98, 0x80]) 8 4 out q) = (out, 4)) ∧
    ¬ ∀ (m : Mem) (pIn len : ℕ) (out : ℕ → UInt16) (q : ℕ),
      (utf8Decode m pIn len out q).2 = (decodeChars m (pIn + len) pIn).1.length := by
  have hchars : decodeChars (ofBytes 8 [0xf0, 0x9f, 0x98, 0x80]) 12 8 = ([0x3f], 12) := by
    have hone : utf8DecodeChar (ofBytes 8 [0xf0, 0x9f, 0x98, 0x80]) 8 = (0x3f, 12) := by decide
    have hend : decodeChars (ofBytes 8 [0xf0, 0x9f, 0x98, 0x80]) 12 12 = ([], 12) := by
      rw [decodeChars, if_neg (by decide)]
    rw [decodeChars, if_pos (by decide)]
    simp only [hone, hend]
  have hall : ∀ (out : ℕ → UInt16) (q : ℕ),
      utf8Decode (ofBytes 8 [0xf0, 0x9f, 0x98, 0x80]) 8 4 out q = (out, 4) := by
    intro out q
    have hnone : ∀ a : ℕ, a < 4 → decodeUnit (ofBytes 8 [0xf0, 0x9f, 0x98, 0x80]) (8 + a) = none ∧
        advance (ofBytes 8 [0xf0, 0x9f, 0x98, 0x80] (8 + a)) = 1 := by decide
    have hstep : ∀ (a p : ℕ), a < 4 → utf8DecodeLoop (ofBytes 8 [0xf0, 0x9f, 0x98, 0x80]) 8 4 a out p =
        utf8DecodeLoop (ofBytes 8 [0xf0, 0x9f, 0x98, 0x80]) 8 4 (a + 1) out (p + 1) := by
      intro a p ha
      rw [utf8DecodeLoop, if_pos ha, (hnone a ha).1, (hnone a ha).2]
      rfl
    rw [utf8Decode, hstep 0 _ (by decide), hstep 1 _ (by decide), hstep 2 _ (by decide), hstep 3 _ (by decide),
      utf8DecodeLoop, if_neg (by decide), show q + 1 + 1 + 1 + 1 - q = 4 by omega]
    rfl
  refine ⟨hchars, hall, ?_⟩
  intro h
  have h4 := h (ofBytes 8 [0xf0, 0x9f, 0x98, 0x80]) 8 4 (fun _ => 0) 0
  rw [hall, hchars] at h4
  revert h4
  decide

end Chars

end Cpcf.Os.Utf8
