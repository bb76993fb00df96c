import Mathlib.Data.FinEnum
import Cpcf.Os.Base32

/-!
`Base32Decode` of `os/kernal_encode.cpp` on any text: what it reads, what it writes, and whether encoding what it
accepts gives the text back.

The length formula maps the lengths no encoder produces to zero, and the loop over groups runs all the same. The
check of the last character lets one value too many pass where the last group has five or seven characters: `16`
for four bits and `4` for two.
-/

namespace Cpcf.Os.Base32

open Cpcf.Rt Cpcf.Lib Cpcf.Lib.Memory Cpcf.Lib.BitPack

/-! ### The characters that are read -/

/-- How many characters are read when up to so many are decoded: no more behind the first that is no symbol. -/
def scanReads (T : Table) (m : Mem) : ℕ → ℕ → ℕ
  | 0, _ => 0
  | k + 1, d => if (T.decode (m d)).isNone then 1 else scanReads T m k (d + 1) + 1

/-- The characters the loop over groups reads. -/
def loopReads (T : Table) (m : Mem) (e : ℕ) : ℕ → ℕ → ℕ
  | 0, _ => 0
  | n + 1, d =>
    if d + 8 ≤ e then
      match decodeGroup T m d with
      | none => scanReads T m 8 d
      | some _ => loopReads T m e n (d + 8) + 8
    else 0

/-- The characters read behind the loop. -/
def tailReads (T : Table) (m : Mem) (d e : ℕ) : ℕ :=
  if (T.decode (m d)).isNone then 1
  else if d + 2 = e then 2
  else if (T.decode (m (d + 1))).isNone then 2
  else if (T.decode (m (d + 2))).isNone then 3
  else if d + 4 = e then 4
  else if (T.decode (m (d + 3))).isNone then 4
  else if d + 5 = e then 5
  else if (T.decode (m (d + 4))).isNone then 5
  else if (T.decode (m (d + 5))).isNone then 6
  else if d + 7 = e then 7
  else 6

/-- `_Base32Decode<BASE32_TABLE>`: how many characters it reads, one after the other from `pBase32` on. -/
def readsWith (T : Table) (m : Mem) (data_len pBase32 str_len : ℕ) : ℕ :=
  if base32DecodeLength str_len ≠ data_len then 0
  else
    let e := pBase32 + str_len
    loopReads T m e str_len pBase32 +
      match (decodeLoop T m e str_len pBase32).2 with
      | none => 0
      | some d => if d = e then 0 else tailReads T m d e

/-- `Base32Decode`: how many characters it reads. -/
def base32DecodeReads : Mem → ℕ → ℕ → ℕ → ℕ := readsWith (tableExtendHex true)

/-! ### Symbols -/

/-- The value of a character of the alphabet, in either case. -/
def symbol (c : UInt8) : Option ℕ := (extendHexDecode c).map BitVec.toNat

/-- The letter in upper case. -/
def upper (c : UInt8) : UInt8 := if 0x61 ≤ c ∧ c ≤ 0x7a then c - 0x20 else c

/-- All the characters are symbols. -/
def Symbols (m : Mem) (p n : ℕ) : Prop := ∀ k < n, (symbol (m (p + k))).isSome

theorem symbol_facts : ∀ c : UInt8, extendHexDecode c = (symbol c).map (BitVec.ofNat 32) ∧
    ∀ q ∈ symbol c, q < 32 ∧ (tableExtendHex true).encode q = upper c := by
  set_option maxRecDepth 20000 in decide

section Tables

variable {m : Mem} {p n k : ℕ} {c : UInt8} {q b : ℕ}

theorem decode_eq (c : UInt8) : (tableExtendHex true).decode c = (symbol c).map (BitVec.ofNat 32) :=
  (symbol_facts c).1

theorem symbol_lt (h : symbol c = some q) : q < 32 := ((symbol_facts c).2 q h).1

theorem encode_symbol (h : symbol c = some q) : (tableExtendHex true).encode q = upper c := ((symbol_facts c).2 q h).2

theorem slt_ofNat : ∀ b q : Fin 32, (BitVec.ofNat 32 b).slt (BitVec.ofNat 32 q) = decide (b < q) := by
  decide

/-- The check of the last character. -/
theorem decodeLast_eq (c : UInt8) (hb : b < 32) :
    decodeLast (tableExtendHex true) c (BitVec.ofNat 32 b) =
      (symbol c).bind fun q => if q ≤ b then some (BitVec.ofNat 32 q) else none := by
  rw [decodeLast, decode_eq]
  cases h : symbol c with
  | none => rfl
  | some q =>
    have hslt := slt_ofNat ⟨b, hb⟩ ⟨q, symbol_lt h⟩
    simp only [Option.map_some, Option.bind_some, hslt, Fin.mk_lt_mk, decide_eq_true_eq]
    by_cases hle : q ≤ b
    · rw [if_neg (by omega), if_pos hle]
    · rw [if_pos (by omega), if_neg hle]

@[simp] theorem symbols_zero : Symbols m p 0 := fun _ hk => absurd hk (Nat.not_lt_zero _)

theorem symbols_succ : Symbols m p (n + 1) ↔ (symbol (m p)).isSome = true ∧ Symbols m (p + 1) n := by
  constructor
  · intro h
    refine ⟨h 0 (by omega), ?_⟩
    intro k hk
    rw [Nat.add_assoc, Nat.add_comm 1]
    exact h (k + 1) (by omega)
  · rintro ⟨h0, h1⟩ k hk
    cases k with
    | zero => exact h0
    | succ k =>
      have := h1 k (by omega)
      rwa [Nat.add_assoc, Nat.add_comm 1] at this

theorem Symbols.mono (h : Symbols m p n) (hk : k ≤ n) : Symbols m p k := fun j hj => h j (by omega)

theorem Symbols.add (h : Symbols m p (k + n)) : Symbols m (p + k) n := by
  intro j hj
  rw [Nat.add_assoc]
  exact h (k + j) (by omega)

theorem symbols_add (h1 : Symbols m p k) (h2 : Symbols m (p + k) n) : Symbols m p (k + n) := by
  intro j hj
  rcases Nat.lt_or_ge j k with hlt | hge
  · exact h1 j hlt
  · have := h2 (j - k) (by omega)
    rwa [show p + k + (j - k) = p + j by omega] at this

theorem Symbols.get (h : Symbols m p n) (hk : k < n) : ∃ q, symbol (m (p + k)) = some q :=
  Option.isSome_iff_exists.mp (h k hk)

end Tables

/-! ### Groups -/

section Groups

variable {m : Mem} {d e n g r : ℕ}

theorem isSome_symbol {c : UInt8} {b : BitVec 32} (h : (tableExtendHex true).decode c = some b) :
    (symbol c).isSome := by
  rw [decode_eq] at h
  rw [← Option.isSome_map (f := BitVec.ofNat 32), h]
  rfl

/-- A group is decoded when it has eight symbols, and gives five bytes. -/
theorem symbols_of_decodeGroup {w : List UInt8} (h : decodeGroup (tableExtendHex true) m d = some w) :
    Symbols m d 8 ∧ w.length = 5 := by
  simp only [decodeGroup, Option.bind_eq_bind, Option.bind_eq_some_iff, Option.some.injEq] at h
  obtain ⟨b0, h0, b1, h1, b2, h2, b3, h3, b4, h4, b5, h5, b6, h6, b7, h7, rfl⟩ := h
  refine ⟨?_, rfl⟩
  intro k hk
  interval_cases k
  · exact isSome_symbol h0
  · exact isSome_symbol h1
  · exact isSome_symbol h2
  · exact isSome_symbol h3
  · exact isSome_symbol h4
  · exact isSome_symbol h5
  · exact isSome_symbol h6
  · exact isSome_symbol h7

theorem decodeGroup_of_symbols (h : Symbols m d 8) : ∃ w, decodeGroup (tableExtendHex true) m d = some w := by
  obtain ⟨q0, h0⟩ := h.get (show 0 < 8 by omega)
  obtain ⟨q1, h1⟩ := h.get (show 1 < 8 by omega)
  obtain ⟨q2, h2⟩ := h.get (show 2 < 8 by omega)
  obtain ⟨q3, h3⟩ := h.get (show 3 < 8 by omega)
  obtain ⟨q4, h4⟩ := h.get (show 4 < 8 by omega)
  obtain ⟨q5, h5⟩ := h.get (show 5 < 8 by omega)
  obtain ⟨q6, h6⟩ := h.get (show 6 < 8 by omega)
  obtain ⟨q7, h7⟩ := h.get (show 7 < 8 by omega)
  rw [Nat.add_zero] at h0
  simp only [decodeGroup, decode_eq, h0, h1, h2, h3, h4, h5, h6, h7, Option.map_some, Option.bind_eq_bind,
    Option.bind_some]
  exact ⟨_, rfl⟩

theorem scanReads_le (T : Table) (m : Mem) (k d : ℕ) : scanReads T m k d ≤ k := by
  induction k generalizing d with
  | zero => exact le_rfl
  | succ k ih =>
    have := ih (d + 1)
    rw [scanReads]
    split <;> omega

/-- The loop over all groups: it decodes them all when all their characters are symbols, and otherwise it returns in
the middle. -/
theorem decodeLoop_cases (hr : r < 8) (he : e = d + (8 * g + r)) (hn : g ≤ n) :
    ∃ w, w.length ≤ 5 * g ∧ (Symbols m d 8 → g ≠ 0 → 5 ≤ w.length) ∧ (¬ Symbols m d 8 → g ≠ 0 → w = []) ∧
      loopReads (tableExtendHex true) m e n d ≤ 8 * g ∧
      ((Symbols m d (8 * g) ∧ w.length = 5 * g ∧
          decodeLoop (tableExtendHex true) m e n d = (w, some (d + 8 * g))) ∨
        (¬ Symbols m d (8 * g) ∧ decodeLoop (tableExtendHex true) m e n d = (w, none))) := by
  induction g generalizing d n with
  | zero =>
    refine ⟨[], Nat.zero_le _, fun _ h => absurd rfl h, fun _ _ => rfl, ?_, .inl ⟨?_, rfl, ?_⟩⟩
    · cases n with
      | zero => exact le_rfl
      | succ n => rw [loopReads, if_neg (by omega)]
    · intro k hk
      omega
    · cases n with
      | zero => rfl
      | succ n => rw [decodeLoop, if_neg (by omega)]; rfl
  | succ g ih =>
    obtain ⟨n, rfl⟩ : ∃ k, n = k + 1 := ⟨n - 1, by omega⟩
    rw [loopReads, if_pos (by omega), decodeLoop, if_pos (by omega)]
    by_cases hgroup : Symbols m d 8
    · obtain ⟨w0, hw0⟩ := decodeGroup_of_symbols hgroup
      obtain ⟨-, hlen0⟩ := symbols_of_decodeGroup hw0
      obtain ⟨w, hle, -, -, hreads, hcase⟩ := ih (d := d + 8) (n := n) (by omega) (by omega)
      simp only [hw0]
      have hall : Symbols m d (8 * (g + 1)) ↔ Symbols m (d + 8) (8 * g) := by
        rw [show 8 * (g + 1) = 8 + 8 * g by omega]
        exact ⟨Symbols.add, symbols_add hgroup⟩
      refine ⟨w0 ++ w, ?_, ?_, fun h => absurd hgroup h, by omega, ?_⟩
      · rw [List.length_append]
        omega
      · intro _ _
        rw [List.length_append]
        omega
      · rw [hall, List.length_append]
        rcases hcase with ⟨hs, hw, hloop⟩ | ⟨hs, hloop⟩
        · rw [hloop]
          refine .inl ⟨hs, by omega, ?_⟩
          rw [show d + 8 * (g + 1) = d + 8 + 8 * g by omega]
        · rw [hloop]
          exact .inr ⟨hs, rfl⟩
    · have hnone : decodeGroup (tableExtendHex true) m d = none := by
        rw [Option.eq_none_iff_forall_ne_some]
        intro w hw
        exact hgroup (symbols_of_decodeGroup hw).1
      have hscan := scanReads_le (tableExtendHex true) m 8 d
      simp only [hnone]
      refine ⟨[], Nat.zero_le _, fun h => absurd h hgroup, fun _ _ => rfl, by omega, .inr ⟨?_, rfl⟩⟩
      intro h
      exact hgroup (h.mono (by omega))

end Groups

/-! ### The last group -/

section Tail

variable {m : Mem} {d e r : ℕ}

/-- Behind the groups of a text whose length no encoder produces nothing is accepted. -/
theorem decodeTail_odd (h2 : d + 2 ≠ e) (h4 : d + 4 ≠ e) (h5 : d + 5 ≠ e) (h7 : d + 7 ≠ e) :
    (decodeTail (tableExtendHex true) m d e).1 = false ∧
      (Symbols m d 1 → 2 ≤ tailReads (tableExtendHex true) m d e) ∧
      (¬ Symbols m d 1 → tailReads (tableExtendHex true) m d e = 1) ∧
      (Symbols m d 2 → (decodeTail (tableExtendHex true) m d e).2 ≠ []) ∧
      (¬ Symbols m d 2 → (decodeTail (tableExtendHex true) m d e).2 = [] ∧
        tailReads (tableExtendHex true) m d e ≤ 2) := by
  simp only [symbols_succ, symbols_zero, and_true]
  simp only [decodeTail, tailReads, decode_eq, if_neg h2, if_neg h4, if_neg h5, if_neg h7]
  cases symbol (m d) with
  | none => simp
  | some q0 =>
    cases symbol (m (d + 1)) with
    | none => simp
    | some q1 =>
      cases symbol (m (d + 2)) with
      | none => simp
      | some q2 =>
        cases symbol (m (d + 3)) with
        | none => simp
        | some q3 =>
          cases symbol (m (d + 4)) with
          | none => simp
          | some q4 =>
            cases symbol (m (d + 5)) with
            | none => simp
            | some q5 => simp

/-- The number of bytes of a last group of so many characters, and the largest value its last character may have. -/
def lastGroup : ℕ → Option (ℕ × ℕ)
  | 2 => some (1, 7)
  | 4 => some (2, 1)
  | 5 => some (3, 16)
  | 7 => some (4, 4)
  | _ => none

theorem lastGroup_eq_some {len bound : ℕ} (h : lastGroup r = some (len, bound)) :
    (r = 2 ∧ len = 1 ∧ bound = 7) ∨ (r = 4 ∧ len = 2 ∧ bound = 1) ∨ (r = 5 ∧ len = 3 ∧ bound = 16) ∨
      (r = 7 ∧ len = 4 ∧ bound = 4) := by
  unfold lastGroup at h
  split at h
  · simp only [Option.some.injEq, Prod.mk.injEq] at h
    exact .inl ⟨rfl, h.1.symm, h.2.symm⟩
  · simp only [Option.some.injEq, Prod.mk.injEq] at h
    exact .inr (.inl ⟨rfl, h.1.symm, h.2.symm⟩)
  · simp only [Option.some.injEq, Prod.mk.injEq] at h
    exact .inr (.inr (.inl ⟨rfl, h.1.symm, h.2.symm⟩))
  · simp only [Option.some.injEq, Prod.mk.injEq] at h
    exact .inr (.inr (.inr ⟨rfl, h.1.symm, h.2.symm⟩))
  · cases h

/-- The last group stays in its room. What it accepts are symbols, the last of them in its range. -/
theorem decodeTail_bounds {len bound : ℕ} (hr : lastGroup r = some (len, bound)) :
    (decodeTail (tableExtendHex true) m d (d + r)).2.length ≤ len ∧
      tailReads (tableExtendHex true) m d (d + r) ≤ r ∧
      ((decodeTail (tableExtendHex true) m d (d + r)).1 = true → Symbols m d r ∧
        (∀ q ∈ symbol (m (d + (r - 1))), q ≤ bound) ∧
          (decodeTail (tableExtendHex true) m d (d + r)).2.length = len) := by
  have h7 := fun c => decodeLast_eq c (show 7 < 32 by omega)
  have h1 := fun c => decodeLast_eq c (show 1 < 32 by omega)
  have h16 := fun c => decodeLast_eq c (show 16 < 32 by omega)
  have h4 := fun c => decodeLast_eq c (show 4 < 32 by omega)
  rcases lastGroup_eq_some hr with ⟨rfl, rfl, rfl⟩ | ⟨rfl, rfl, rfl⟩ | ⟨rfl, rfl, rfl⟩ | ⟨rfl, rfl, rfl⟩
  · simp only [decodeTail, tailReads, decode_eq, if_true, h7, Nat.add_right_inj, Nat.reduceEqDiff, if_false, symbols_succ,
      symbols_zero, and_true, add_assoc, Nat.reduceAdd, Nat.reduceSub]
    cases symbol (m d) with
    | none => simp
    | some q0 =>
      cases symbol (m (d + 1)) with
      | none => simp
      | some q1 =>
        by_cases hq : q1 ≤ 7
        · simp [hq]
        · simp [hq]
  · simp only [decodeTail, tailReads, decode_eq, if_true, h1, Nat.add_right_inj, Nat.reduceEqDiff, if_false, symbols_succ,
      symbols_zero, and_true, add_assoc, Nat.reduceAdd, Nat.reduceSub]
    cases symbol (m d) with
    | none => simp
    | some q0 =>
      cases symbol (m (d + 1)) with
      | none => simp
      | some q1 =>
        cases symbol (m (d + 2)) with
        | none => simp
        | some q2 =>
          cases symbol (m (d + 3)) with
          | none => simp
          | some q3 =>
            by_cases hq : q3 ≤ 1
            · simp [hq]
            · simp [hq]
  · simp only [decodeTail, tailReads, decode_eq, if_true, h16, Nat.add_right_inj, Nat.reduceEqDiff, if_false, symbols_succ,
      symbols_zero, and_true, add_assoc, Nat.reduceAdd, Nat.reduceSub]
    cases symbol (m d) with
    | none => simp
    | some q0 =>
      cases symbol (m (d + 1)) with
      | none => simp
      | some q1 =>
        cases symbol (m (d + 2)) with
        | none => simp
        | some q2 =>
          cases symbol (m (d + 3)) with
          | none => simp
          | some q3 =>
            cases symbol (m (d + 4)) with
            | none => simp
            | some q4 =>
              by_cases hq : q4 ≤ 16
              · simp [hq]
              · simp [hq]
  · simp only [decodeTail, tailReads, decode_eq, if_true, h4, Nat.add_right_inj, Nat.reduceEqDiff, if_false, symbols_succ,
      symbols_zero, and_true, add_assoc, Nat.reduceAdd, Nat.reduceSub]
    cases symbol (m d) with
    | none => simp
    | some q0 =>
      cases symbol (m (d + 1)) with
      | none => simp
      | some q1 =>
        cases symbol (m (d + 2)) with
        | none => simp
        | some q2 =>
          cases symbol (m (d + 3)) with
          | none => simp
          | some q3 =>
            cases symbol (m (d + 4)) with
            | none => simp
            | some q4 =>
              cases symbol (m (d + 5)) with
              | none => simp
              | some q5 =>
                cases symbol (m (d + 6)) with
                | none => simp
                | some q6 =>
                  by_cases hq : q6 ≤ 4
                  · simp [hq]
                  · simp [hq]

/-- Symbols with a last one in its range are accepted. -/
theorem decodeTail_true {len bound : ℕ} (hr : lastGroup r = some (len, bound)) (hs : Symbols m d r)
    (hq : ∀ q ∈ symbol (m (d + (r - 1))), q ≤ bound) :
    (decodeTail (tableExtendHex true) m d (d + r)).1 = true := by
  have last7 := fun c => decodeLast_eq c (show 7 < 32 by omega)
  have last1 := fun c => decodeLast_eq c (show 1 < 32 by omega)
  have last16 := fun c => decodeLast_eq c (show 16 < 32 by omega)
  have last4 := fun c => decodeLast_eq c (show 4 < 32 by omega)
  rcases lastGroup_eq_some hr with ⟨rfl, rfl, rfl⟩ | ⟨rfl, rfl, rfl⟩ | ⟨rfl, rfl, rfl⟩ | ⟨rfl, rfl, rfl⟩
  all_goals simp only [symbols_succ, symbols_zero, and_true, add_assoc, Nat.reduceAdd] at hs
  · obtain ⟨h0, h1⟩ := hs
    obtain ⟨q0, e0⟩ := Option.isSome_iff_exists.mp h0
    obtain ⟨q1, e1⟩ := Option.isSome_iff_exists.mp h1
    have hle : q1 ≤ _ := hq q1 e1
    simp [decodeTail, decode_eq, last7, e0, e1, hle]
  · obtain ⟨h0, h1, h2, h3⟩ := hs
    obtain ⟨q0, e0⟩ := Option.isSome_iff_exists.mp h0
    obtain ⟨q1, e1⟩ := Option.isSome_iff_exists.mp h1
    obtain ⟨q2, e2⟩ := Option.isSome_iff_exists.mp h2
    obtain ⟨q3, e3⟩ := Option.isSome_iff_exists.mp h3
    have hle : q3 ≤ _ := hq q3 e3
    simp [decodeTail, decode_eq, last1, e0, e1, e2, e3, hle]
  · obtain ⟨h0, h1, h2, h3, h4⟩ := hs
    obtain ⟨q0, e0⟩ := Option.isSome_iff_exists.mp h0
    obtain ⟨q1, e1⟩ := Option.isSome_iff_exists.mp h1
    obtain ⟨q2, e2⟩ := Option.isSome_iff_exists.mp h2
    obtain ⟨q3, e3⟩ := Option.isSome_iff_exists.mp h3
    obtain ⟨q4, e4⟩ := Option.isSome_iff_exists.mp h4
    have hle : q4 ≤ _ := hq q4 e4
    simp [decodeTail, decode_eq, last16, e0, e1, e2, e3, e4, hle]
  · obtain ⟨h0, h1, h2, h3, h4, h5, h6⟩ := hs
    obtain ⟨q0, e0⟩ := Option.isSome_iff_exists.mp h0
    obtain ⟨q1, e1⟩ := Option.isSome_iff_exists.mp h1
    obtain ⟨q2, e2⟩ := Option.isSome_iff_exists.mp h2
    obtain ⟨q3, e3⟩ := Option.isSome_iff_exists.mp h3
    obtain ⟨q4, e4⟩ := Option.isSome_iff_exists.mp h4
    obtain ⟨q5, e5⟩ := Option.isSome_iff_exists.mp h5
    obtain ⟨q6, e6⟩ := Option.isSome_iff_exists.mp h6
    have hle : q6 ≤ _ := hq q6 e6
    simp [decodeTail, decode_eq, last4, e0, e1, e2, e3, e4, e5, e6, hle]

end Tail

/-! ### Texts that are encodings -/

section Canonical

variable {T : Table}

/-- What the last character behind whole groups may be. -/
def Tight (r q : ℕ) : Prop := (r = 2 ∧ q < 8) ∨ (r = 4 ∧ q < 2) ∨ (r = 5 ∧ q < 16) ∨ (r = 7 ∧ q < 4)

theorem exists_byte {n : ℕ} (h : n < 256) : ∃ b : UInt8, b.toNat = n := by
  refine ⟨UInt8.ofNat n, ?_⟩
  rw [UInt8.toNat_ofNat']
  exact Nat.mod_eq_of_lt h

section Short

variable (a b c d : UInt8)

/-- The last group of one to four bytes. -/
theorem encodeWith_one (T : Table) : encodeWith T [a] = [T.encode (a.toNat / 8), T.encode (a.toNat % 8)] := by
  simp only [encodeWith, quintet_high, and_mask (k := 3) a.toNat rfl, Nat.reducePow]

theorem encodeWith_two (T : Table) : encodeWith T [a, b] = [T.encode (a.toNat / 8),
    T.encode (a.toNat % 8 * 4 + b.toNat / 64), T.encode (b.toNat / 2 % 32), T.encode (b.toNat % 2)] := by
  simp only [encodeWith, quintet_high, quintet_cross1, quintet_mid1, and_mask (k := 1) b.toNat rfl, Nat.reducePow]

theorem encodeWith_three (T : Table) : encodeWith T [a, b, c] = [T.encode (a.toNat / 8),
    T.encode (a.toNat % 8 * 4 + b.toNat / 64), T.encode (b.toNat / 2 % 32),
    T.encode (b.toNat % 2 * 16 + c.toNat / 16), T.encode (c.toNat % 16)] := by
  simp only [encodeWith, quintet_high, quintet_cross1, quintet_mid1, quintet_cross3, and_mask (k := 4) c.toNat rfl,
    Nat.reducePow]

theorem encodeWith_four (T : Table) : encodeWith T [a, b, c, d] = [T.encode (a.toNat / 8),
    T.encode (a.toNat % 8 * 4 + b.toNat / 64), T.encode (b.toNat / 2 % 32),
    T.encode (b.toNat % 2 * 16 + c.toNat / 16), T.encode (c.toNat % 16 * 2 + d.toNat / 128),
    T.encode (d.toNat / 4 % 32), T.encode (d.toNat % 4)] := by
  simp only [encodeWith, quintet_high, quintet_cross1, quintet_mid1, quintet_cross3, quintet_cross4, quintet_mid2,
    and_mask (k := 2) d.toNat rfl, Nat.reducePow]

end Short

section Quintets

variable {p q r x : ℕ}

/-! The quintets of bytes that were put together from them, one lemma for each place in a group. -/

theorem place0 (hx : x < 8) : (q * 8 + x) / 8 = q := by omega

theorem place1 (hq : q < 32) (hr : r < 32) (hx : x < 2) :
    (p * 8 + q / 4) % 8 * 4 + (q % 4 * 64 + r * 2 + x) / 64 = q := by
  have hlow : (p * 8 + q / 4) % 8 = q / 4 := by omega
  have hhigh : (q % 4 * 64 + r * 2 + x) / 64 = q % 4 := by omega
  rw [hlow, hhigh, Nat.div_add_mod']

theorem place2 (hr : r < 32) (hx : x < 2) : (q % 4 * 64 + r * 2 + x) / 2 % 32 = r := by omega

theorem place3 (hq : q < 32) (hx : x < 16) : (p % 4 * 64 + r * 2 + q / 16) % 2 * 16 + (q % 16 * 16 + x) / 16 = q := by
  have hlow : (p % 4 * 64 + r * 2 + q / 16) % 2 = q / 16 := by omega
  have hhigh : (q % 16 * 16 + x) / 16 = q % 16 := by omega
  rw [hlow, hhigh, Nat.div_add_mod']

theorem place4 (hq : q < 32) (hr : r < 32) (hx : x < 4) :
    (p % 16 * 16 + q / 2) % 16 * 2 + (q % 2 * 128 + r * 4 + x) / 128 = q := by
  have hlow : (p % 16 * 16 + q / 2) % 16 = q / 2 := by omega
  have hhigh : (q % 2 * 128 + r * 4 + x) / 128 = q % 2 := by omega
  rw [hlow, hhigh, Nat.div_add_mod']

theorem place5 (hr : r < 32) (hx : x < 4) : (q % 2 * 128 + r * 4 + x) / 4 % 32 = r := by omega

theorem place6 (hq : q < 32) (hx : x < 32) : (p % 2 * 128 + r * 4 + q / 8) % 4 * 8 + (q % 8 * 32 + x) / 32 = q := by
  have hlow : (p % 2 * 128 + r * 4 + q / 8) % 4 = q / 8 := by omega
  have hhigh : (q % 8 * 32 + x) / 32 = q % 8 := by omega
  rw [hlow, hhigh, Nat.div_add_mod']

theorem low1 (hx : x < 2) : (q % 4 * 64 + r * 2 + x) % 2 = x := by omega

theorem low3 (hx : x < 4) : (q % 2 * 128 + r * 4 + x) % 4 = x := by omega

end Quintets

/-! A last group with its last quintet in range is that of some bytes. -/

theorem exists_encodeWith_one (T : Table) {q0 q1 : ℕ} (h0 : q0 < 32) (h1 : q1 < 8) :
    ∃ d, encodeWith T d = [q0, q1].map T.encode := by
  obtain ⟨a0, ha0⟩ := exists_byte (n := q0 * 8 + q1) (by omega)
  refine ⟨[a0], ?_⟩
  rw [encodeWith_one, ha0, show (q0 * 8 + q1) / 8 = q0 by omega, show (q0 * 8 + q1) % 8 = q1 by omega]
  rfl

theorem exists_encodeWith_two (T : Table) {q0 q1 q2 q3 : ℕ} (h0 : q0 < 32) (h1 : q1 < 32) (h2 : q2 < 32) (h3 : q3 < 2) :
    ∃ d, encodeWith T d = [q0, q1, q2, q3].map T.encode := by
  obtain ⟨a0, ha0⟩ := exists_byte (n := q0 * 8 + q1 / 4) (by omega)
  obtain ⟨a1, ha1⟩ := exists_byte (n := q1 % 4 * 64 + q2 * 2 + q3) (by omega)
  refine ⟨[a0, a1], ?_⟩
  rw [encodeWith_two, ha0, ha1, place0 (Nat.div_lt_of_lt_mul h1), place1 h1 h2 h3, place2 h2 h3, low1 h3]
  rfl

theorem exists_encodeWith_three (T : Table) {q0 q1 q2 q3 q4 : ℕ} (h0 : q0 < 32) (h1 : q1 < 32) (h2 : q2 < 32)
    (h3 : q3 < 32) (h4 : q4 < 16) : ∃ d, encodeWith T d = [q0, q1, q2, q3, q4].map T.encode := by
  obtain ⟨a0, ha0⟩ := exists_byte (n := q0 * 8 + q1 / 4) (by omega)
  obtain ⟨a1, ha1⟩ := exists_byte (n := q1 % 4 * 64 + q2 * 2 + q3 / 16) (by omega)
  obtain ⟨a2, ha2⟩ := exists_byte (n := q3 % 16 * 16 + q4) (by omega)
  refine ⟨[a0, a1, a2], ?_⟩
  have h3' : q3 / 16 < 2 := Nat.div_lt_of_lt_mul h3
  rw [encodeWith_three, ha0, ha1, ha2, place0 (Nat.div_lt_of_lt_mul h1), place1 h1 h2 h3', place2 h2 h3', place3 h3 h4,
    Nat.mul_add_mod_of_lt h4]
  rfl

theorem exists_encodeWith_four (T : Table) {q0 q1 q2 q3 q4 q5 q6 : ℕ} (h0 : q0 < 32) (h1 : q1 < 32) (h2 : q2 < 32)
    (h3 : q3 < 32) (h4 : q4 < 32) (h5 : q5 < 32) (h6 : q6 < 4) :
    ∃ d, encodeWith T d = [q0, q1, q2, q3, q4, q5, q6].map T.encode := by
  obtain ⟨a0, ha0⟩ := exists_byte (n := q0 * 8 + q1 / 4) (by omega)
  obtain ⟨a1, ha1⟩ := exists_byte (n := q1 % 4 * 64 + q2 * 2 + q3 / 16) (by omega)
  obtain ⟨a2, ha2⟩ := exists_byte (n := q3 % 16 * 16 + q4 / 2) (by omega)
  obtain ⟨a3, ha3⟩ := exists_byte (n := q4 % 2 * 128 + q5 * 4 + q6) (by omega)
  refine ⟨[a0, a1, a2, a3], ?_⟩
  have h3' : q3 / 16 < 2 := Nat.div_lt_of_lt_mul h3
  rw [encodeWith_four, ha0, ha1, ha2, ha3, place0 (Nat.div_lt_of_lt_mul h1), place1 h1 h2 h3', place2 h2 h3',
    place3 h3 (Nat.div_lt_of_lt_mul h4), place4 h4 h5 h6, place5 h5 h6, low3 h6]
  rfl

theorem exists_encodeWith_tail (T : Table) {ts : List ℕ} (hlt : ∀ q ∈ ts, q < 32)
    (htight : ∀ q ∈ ts.getLast?, Tight ts.length q) : ∃ d, encodeWith T d = ts.map T.encode := by
  cases hlast : ts.getLast? with
  | none =>
    rw [List.getLast?_eq_none_iff.mp hlast]
    exact ⟨[], rfl⟩
  | some q =>
    rcases htight q hlast with ⟨hr, hq⟩ | ⟨hr, hq⟩ | ⟨hr, hq⟩ | ⟨hr, hq⟩
    · obtain ⟨q0, q1, rfl⟩ := List.length_eq_two.mp hr
      obtain rfl : q1 = q := by simpa using hlast
      exact exists_encodeWith_one T (hlt q0 (by simp)) hq
    · obtain ⟨q0, q1, q2, q3, rfl⟩ : ∃ q0 q1 q2 q3, ts = [q0, q1, q2, q3] := by
        rcases ts with _ | ⟨q0, _ | ⟨q1, _ | ⟨q2, _ | ⟨q3, _ | ⟨q4, ts⟩⟩⟩⟩⟩
        all_goals simp only [List.length_cons, List.length_nil] at hr
        all_goals try omega
        exact ⟨q0, q1, q2, q3, rfl⟩
      obtain rfl : q3 = q := by simpa using hlast
      simp only [List.forall_mem_cons] at hlt
      obtain ⟨h0, h1, h2, -⟩ := hlt
      exact exists_encodeWith_two T h0 h1 h2 hq
    · obtain ⟨q0, q1, q2, q3, q4, rfl⟩ : ∃ q0 q1 q2 q3 q4, ts = [q0, q1, q2, q3, q4] := by
        rcases ts with _ | ⟨q0, _ | ⟨q1, _ | ⟨q2, _ | ⟨q3, _ | ⟨q4, _ | ⟨q5, ts⟩⟩⟩⟩⟩⟩
        all_goals simp only [List.length_cons, List.length_nil] at hr
        all_goals try omega
        exact ⟨q0, q1, q2, q3, q4, rfl⟩
      obtain rfl : q4 = q := by simpa using hlast
      simp only [List.forall_mem_cons] at hlt
      obtain ⟨h0, h1, h2, h3, -⟩ := hlt
      exact exists_encodeWith_three T h0 h1 h2 h3 hq
    · obtain ⟨q0, q1, q2, q3, q4, q5, q6, rfl⟩ : ∃ q0 q1 q2 q3 q4 q5 q6, ts = [q0, q1, q2, q3, q4, q5, q6] := by
        rcases ts with _ | ⟨q0, _ | ⟨q1, _ | ⟨q2, _ | ⟨q3, _ | ⟨q4, _ | ⟨q5, _ | ⟨q6, _ | ⟨q7, ts⟩⟩⟩⟩⟩⟩⟩⟩
        all_goals simp only [List.length_cons, List.length_nil] at hr
        all_goals try omega
        exact ⟨q0, q1, q2, q3, q4, q5, q6, rfl⟩
      obtain rfl : q6 = q := by simpa using hlast
      simp only [List.forall_mem_cons] at hlt
      obtain ⟨h0, h1, h2, h3, h4, h5, -⟩ := hlt
      exact exists_encodeWith_four T h0 h1 h2 h3 h4 h5 hq

/-- Quintets with a last one in its range are those of some data. -/
theorem exists_encodeWith (T : Table) {g : ℕ} {qs ts : List ℕ} (hlen : qs.length = 8 * g) (hq : ∀ q ∈ qs, q < 32)
    (hlt : ∀ q ∈ ts, q < 32) (htight : ∀ q ∈ ts.getLast?, Tight ts.length q) :
    ∃ d, encodeWith T d = (qs ++ ts).map T.encode := by
  induction g generalizing qs with
  | zero =>
    obtain rfl := List.eq_nil_of_length_eq_zero hlen
    exact exists_encodeWith_tail T hlt htight
  | succ g ih =>
    rcases qs with _ | ⟨q0, _ | ⟨q1, _ | ⟨q2, _ | ⟨q3, _ | ⟨q4, _ | ⟨q5, _ | ⟨q6, _ | ⟨q7, qs⟩⟩⟩⟩⟩⟩⟩⟩
    all_goals simp only [List.length_cons, List.length_nil] at hlen
    all_goals try omega
    simp only [List.forall_mem_cons] at hq
    obtain ⟨h0, h1, h2, h3, h4, h5, h6, h7, hqs⟩ := hq
    obtain ⟨d, hd⟩ := ih (by omega) hqs
    obtain ⟨a0, ha0⟩ := exists_byte (n := q0 * 8 + q1 / 4) (by omega)
    obtain ⟨a1, ha1⟩ := exists_byte (n := q1 % 4 * 64 + q2 * 2 + q3 / 16) (by omega)
    obtain ⟨a2, ha2⟩ := exists_byte (n := q3 % 16 * 16 + q4 / 2) (by omega)
    obtain ⟨a3, ha3⟩ := exists_byte (n := q4 % 2 * 128 + q5 * 4 + q6 / 8) (by omega)
    obtain ⟨a4, ha4⟩ := exists_byte (n := q6 % 8 * 32 + q7) (by omega)
    refine ⟨a0 :: a1 :: a2 :: a3 :: a4 :: d, ?_⟩
    rw [encodeWith_group, hd, ha0, ha1, ha2, ha3, ha4]
    simp only [List.cons_append, List.map_cons]
    have h3' : q3 / 16 < 2 := Nat.div_lt_of_lt_mul h3
    have h6' : q6 / 8 < 4 := Nat.div_lt_of_lt_mul h6
    rw [place0 (Nat.div_lt_of_lt_mul h1), place1 h1 h2 h3', place2 h2 h3', place3 h3 (Nat.div_lt_of_lt_mul h4),
      place4 h4 h5 h6', place5 h5 h6', place6 h6 h7, Nat.mul_add_mod_of_lt h7]

/-- The last character of an encoding. -/
theorem getLast_encodeWith (T : Table) (d : List UInt8) : (encodeWith T d).length % 8 ≠ 0 →
    ∃ q, (encodeWith T d).getLast? = some (T.encode q) ∧ q < 32 ∧ Tight ((encodeWith T d).length % 8) q := by
  induction d using encodeWith.induct with
  | case1 d0 d1 d2 d3 d4 d ih =>
    rw [encodeWith_group]
    intro h
    simp only [List.length_cons, Nat.add_assoc, Nat.reduceAdd, Nat.add_mod_right] at h ⊢
    obtain ⟨q, hq, hrest⟩ := ih h
    refine ⟨q, ?_, hrest⟩
    have hne : encodeWith T d ≠ [] := by
      intro h0
      rw [h0] at hq
      cases hq
    rw [← hq]
    simp [List.getLast?_cons, List.getLast?_eq_some_getLast hne]
  | case2 => exact fun h => absurd rfl h
  | case3 d0 =>
    rw [encodeWith_one]
    exact fun _ => ⟨_, rfl, by omega, .inl ⟨rfl, by omega⟩⟩
  | case4 d0 d1 =>
    rw [encodeWith_two]
    exact fun _ => ⟨_, rfl, by omega, .inr (.inl ⟨rfl, by omega⟩)⟩
  | case5 d0 d1 d2 =>
    rw [encodeWith_three]
    exact fun _ => ⟨_, rfl, by omega, .inr (.inr (.inl ⟨rfl, by omega⟩))⟩
  | case6 d0 d1 d2 d3 =>
    rw [encodeWith_four]
    exact fun _ => ⟨_, rfl, by omega, .inr (.inr (.inr ⟨rfl, by omega⟩))⟩

end Canonical

/-! ### Decoding and encoding again -/

section Decode

variable {m m' : Mem} {p n g r len data_len : ℕ}

theorem decode_upper : ∀ c : UInt8, (tableExtendHex true).decode (upper c) = (tableExtendHex true).decode c := by
  set_option maxRecDepth 20000 in decide

/-- Only the values of the characters matter. -/
theorem decodeWith_congr {T : Table} (h : ∀ a, T.decode (m' a) = T.decode (m a)) (data_len p len : ℕ) :
    decodeWith T m' data_len p len = decodeWith T m data_len p len := by
  have hgroup : ∀ d, decodeGroup T m' d = decodeGroup T m d := by
    intro d
    simp only [decodeGroup, h]
  have hloop : ∀ e k d, decodeLoop T m' e k d = decodeLoop T m e k d := by
    intro e k
    induction k with
    | zero => exact fun d => rfl
    | succ k ih =>
      intro d
      simp only [decodeLoop, hgroup, ih]
  simp only [decodeWith, hloop, decodeTail, decodeLast, h]

theorem holds_map {f : UInt8 → UInt8} {xs : List UInt8} (h : Holds m p xs) :
    Holds (fun a => f (m a)) p (xs.map f) := by
  induction xs generalizing p with
  | nil => trivial
  | cons b xs ih => exact ⟨congrArg f h.1, ih h.2⟩

/-- The values of the characters. -/
theorem exists_quintets (h : Symbols m p n) : ∃ qs : List ℕ, qs.length = n ∧ (∀ q ∈ qs, q < 32) ∧
    (Memory.read m p n).map upper = qs.map (tableExtendHex true).encode ∧
    ∀ k < n, symbol (m (p + k)) = qs[k]? := by
  induction n generalizing p with
  | zero => exact ⟨[], rfl, by simp, rfl, fun k hk => absurd hk (Nat.not_lt_zero k)⟩
  | succ n ih =>
    obtain ⟨h0, h1⟩ := symbols_succ.mp h
    obtain ⟨q, hq⟩ := Option.isSome_iff_exists.mp h0
    obtain ⟨qs, hlen, hlt, hmap, hget⟩ := ih h1
    refine ⟨q :: qs, congrArg (· + 1) hlen, ?_, ?_, ?_⟩
    · simp only [List.forall_mem_cons]
      exact ⟨symbol_lt hq, hlt⟩
    · rw [Memory.read, List.map_cons, List.map_cons, hmap, encode_symbol hq]
    · intro k hk
      cases k with
      | zero => exact hq
      | succ k =>
        rw [List.getElem?_cons_succ, ← hget k (by omega), Nat.add_assoc p 1 k, Nat.add_comm 1 k]

/-- A text of symbols with a last one in its range is the encoding of what it decodes to. -/
theorem base32Decode_of_tight (hs : Symbols m p len) (hlen : len = 8 * g + r)
    (htight : r ≠ 0 → ∀ q ∈ symbol (m (p + (len - 1))), Tight r q) :
    ∃ d, base32Decode m (base32DecodeLength len) p len = (true, d) ∧
      base32Encode d = (Memory.read m p len).map upper ∧ d.length = base32DecodeLength len := by
  obtain ⟨qs, hqlen, hlt, hmap, hget⟩ := exists_quintets hs
  have hlast : ∀ q ∈ (qs.drop (8 * g)).getLast?, Tight (qs.drop (8 * g)).length q := by
    intro q hq
    have hr : r ≠ 0 := by
      rintro rfl
      rw [List.drop_of_length_le (by omega)] at hq
      cases hq
    rw [List.getLast?_drop, if_neg (by omega), List.getLast?_eq_getElem?, ← hget _ (by omega), hqlen] at hq
    rw [List.length_drop, show qs.length - 8 * g = r by omega]
    exact htight hr q hq
  have htake : (qs.take (8 * g)).length = 8 * g := by
    rw [List.length_take]
    omega
  obtain ⟨d, hd⟩ := exists_encodeWith (tableExtendHex true) htake (fun q hq => hlt q (List.mem_of_mem_take hq))
    (fun q hq => hlt q (List.mem_of_mem_drop hq)) hlast
  rw [List.take_append_drop, ← hmap] at hd
  have hcount := length_encodeWith (tableExtendHex true) d
  rw [hd, List.length_map, length_read] at hcount
  have hdl : base32DecodeLength len = d.length := by rw [hcount, base32DecodeLength_base32EncodeLength]
  refine ⟨d, ?_, hd, hdl.symm⟩
  have hholds : Holds (fun a => upper (m a)) p (encodeWith (tableExtendHex true) d) := by
    rw [hd]
    exact holds_map (holds_read m p len)
  have hdec := decodeWith_encodeWith (inverse_extendHex true true) d hholds
  rw [hd, List.length_map, length_read, ← hdl] at hdec
  rw [base32Decode, ← hdec]
  exact (decodeWith_congr (fun a => decode_upper (m a)) _ _ _).symm

/-- A text whose last symbol is out of its range is no encoding. -/
theorem tight_of_encode {d : List UInt8} (hd : base32Encode d = (Memory.read m p len).map upper) (hr : len % 8 ≠ 0)
    {q : ℕ} (hq : symbol (m (p + (len - 1))) = some q) : Tight (len % 8) q := by
  have hcount : (encodeWith (tableExtendHex true) d).length = len := by
    rw [show encodeWith (tableExtendHex true) d = base32Encode d from rfl, hd, List.length_map, length_read]
  obtain ⟨q', hlast, hlt', htight⟩ := getLast_encodeWith (tableExtendHex true) d (by rwa [hcount])
  have hget : (Memory.read m p len)[len - 1]? = some (m (p + (len - 1))) := by
    have hlen : len - 1 < (Memory.read m p len).length := by
      rw [length_read]
      omega
    rw [List.getElem?_eq_getElem hlen, ← (holds_read m p len).get hlen]
  rw [show encodeWith (tableExtendHex true) d = base32Encode d from rfl, hd, List.getLast?_eq_getElem?,
    List.length_map, length_read, List.getElem?_map, hget, Option.map_some, ← encode_symbol hq] at hlast
  have hdec := (inverse_extendHex true true).decode (symbol_lt hq)
  rw [Option.some_injective _ hlast, (inverse_extendHex true true).decode hlt'] at hdec
  have hnat := congrArg BitVec.toNat (Option.some_injective _ hdec)
  rw [toNat_int hlt', toNat_int (symbol_lt hq)] at hnat
  rwa [hcount, hnat] at htight

/-- The length formula, by groups. -/
theorem base32DecodeLength_eq (g : ℕ) : base32DecodeLength (8 * g) = 5 * g ∧
    (∀ l b, lastGroup r = some (l, b) → base32DecodeLength (8 * g + r) = 5 * g + l) ∧
    (r = 1 ∨ r = 3 ∨ r = 6 → base32DecodeLength (8 * g + r) = 0) := by
  have hmod : ∀ k, (8 * g + k) &&& 7 = k % 8 := by
    intro k
    rw [and_mask (k := 3) _ rfl]
    omega
  refine ⟨?_, ?_, ?_⟩
  · have := hmod 0
    rw [Nat.add_zero] at this
    simp [base32DecodeLength, this]
    omega
  · intro l b h
    rcases lastGroup_eq_some h with ⟨rfl, rfl, -⟩ | ⟨rfl, rfl, -⟩ | ⟨rfl, rfl, -⟩ | ⟨rfl, rfl, -⟩
    all_goals
      simp [base32DecodeLength, hmod]
      omega
  · rintro (rfl | rfl | rfl)
    all_goals simp [base32DecodeLength, hmod]

/-- Whole groups. -/
theorem base32Decode_whole (hlen : len = 8 * g) (hdl : base32DecodeLength len = data_len) :
    base32DecodeReads m data_len p len ≤ len ∧ (base32Decode m data_len p len).2.length ≤ data_len ∧
      ((base32Decode m data_len p len).1 = true → Symbols m p len) := by
  obtain ⟨w, hw, -, -, hreads, hcase⟩ := decodeLoop_cases (m := m) (d := p) (e := p + len) (n := len) (g := g) (r := 0)
    (by omega) (by omega) (by omega)
  have hroom := (base32DecodeLength_eq (r := 0) g).1
  rw [← hlen] at hroom
  simp only [base32DecodeReads, readsWith, base32Decode, decodeWith, hdl, ne_eq, not_true_eq_false, if_false]
  rcases hcase with ⟨hs, hlw, hloop⟩ | ⟨-, hloop⟩
  · simp only [hloop, ← hlen, if_true]
    exact ⟨by omega, by omega, fun _ => hlen ▸ hs⟩
  · simp only [hloop]
    exact ⟨by omega, by omega, nofun⟩

/-- A last group of a length the encoder produces. -/
theorem base32Decode_last {l b : ℕ} (hr : lastGroup r = some (l, b)) (hlen : len = 8 * g + r)
    (hdl : base32DecodeLength len = data_len) :
    base32DecodeReads m data_len p len ≤ len ∧ (base32Decode m data_len p len).2.length ≤ data_len ∧
      ((base32Decode m data_len p len).1 = true ↔
        Symbols m p len ∧ ∀ q ∈ symbol (m (p + (len - 1))), q ≤ b) := by
  have hr8 : 0 < r ∧ r < 8 := by
    rcases lastGroup_eq_some hr with ⟨rfl, -⟩ | ⟨rfl, -⟩ | ⟨rfl, -⟩ | ⟨rfl, -⟩ <;> omega
  obtain ⟨w, hw, -, -, hreads, hcase⟩ := decodeLoop_cases (m := m) (d := p) (e := p + len) (n := len) (g := g) (r := r)
    hr8.2 (by omega) (by omega)
  have hroom := (base32DecodeLength_eq (r := r) g).2.1 l b hr
  rw [← hlen] at hroom
  have hplace : p + 8 * g + (r - 1) = p + (len - 1) := by omega
  simp only [base32DecodeReads, readsWith, base32Decode, decodeWith, hdl, ne_eq, not_true_eq_false, if_false]
  rcases hcase with ⟨hs, hlw, hloop⟩ | ⟨hs, hloop⟩
  · obtain ⟨htail, htreads, htrue⟩ := decodeTail_bounds (m := m) (d := p + 8 * g) hr
    have hsplit : Symbols m p len ↔ Symbols m (p + 8 * g) r := by
      rw [hlen]
      exact ⟨Symbols.add, symbols_add hs⟩
    have hend : p + len = p + 8 * g + r := by omega
    rw [hend] at hreads hloop
    simp only [hend, hloop, if_neg (show ¬ p + 8 * g = p + 8 * g + r by omega), List.length_append]
    refine ⟨by omega, by omega, ?_⟩
    rw [hsplit, ← hplace]
    constructor
    · intro h
      obtain ⟨h1, h2, -⟩ := htrue h
      exact ⟨h1, h2⟩
    · rintro ⟨h1, h2⟩
      exact decodeTail_true hr h1 h2
  · simp only [hloop]
    refine ⟨by omega, by omega, ?_⟩
    constructor
    · exact nofun
    · rintro ⟨h, -⟩
      exact absurd (h.mono (by omega)) hs

/-- A length no encoder produces, of less than a group. -/
theorem base32Decode_odd_short (hr : len = 1 ∨ len = 3 ∨ len = 6) (hdl : base32DecodeLength len = data_len) :
    (base32Decode m data_len p len).1 = false ∧
      (base32DecodeReads m data_len p len ≤ len ∧ (base32Decode m data_len p len).2.length ≤ data_len ↔
        ¬ Symbols m p (min len 2)) := by
  obtain ⟨w, hw, -, -, hreads, hcase⟩ := decodeLoop_cases (m := m) (d := p) (e := p + len) (n := len) (g := 0)
    (r := len) (by omega) (by omega) (by omega)
  have hroom := (base32DecodeLength_eq (r := len) 0).2.2 hr
  rw [Nat.mul_zero, Nat.zero_add, hdl] at hroom
  subst hroom
  obtain ⟨hfalse, hone, hnone, htwo, hntwo⟩ := decodeTail_odd (m := m) (d := p) (e := p + len) (by omega)
    (by omega) (by omega) (by omega)
  simp only [base32DecodeReads, readsWith, base32Decode, decodeWith, hdl, ne_eq, not_true_eq_false, if_false]
  rcases hcase with ⟨-, hlw, hloop⟩ | ⟨hs, -⟩
  swap
  · exact absurd symbols_zero hs
  obtain rfl := List.eq_nil_of_length_eq_zero hlw
  simp only [hloop, Nat.mul_zero, Nat.add_zero, if_neg (show ¬ p = p + len by omega), List.nil_append]
  refine ⟨hfalse, ?_⟩
  have hzero : loopReads (tableExtendHex true) m (p + len) len p = 0 := by omega
  rw [hzero, Nat.zero_add, Nat.le_zero, List.length_eq_zero_iff]
  rcases hr with rfl | hr'
  · constructor
    · rintro ⟨h, -⟩ hs
      have := hone hs
      omega
    · intro hs
      have h2 : ¬ Symbols m p 2 := fun h => hs (h.mono (by omega))
      exact ⟨(hnone hs).le, (hntwo h2).1⟩
  · rw [show min len 2 = 2 by omega]
    constructor
    · rintro ⟨-, h⟩ hs
      exact htwo hs h
    · intro hs
      obtain ⟨h1, h2⟩ := hntwo hs
      exact ⟨by omega, h1⟩

/-- A length no encoder produces, of a group and more: five bytes are written where there is room for none. -/
theorem base32Decode_odd_long (hr : r = 1 ∨ r = 3 ∨ r = 6) (hg : 0 < g) (hlen : len = 8 * g + r)
    (hdl : base32DecodeLength len = data_len) :
    (base32Decode m data_len p len).1 = false ∧
      (base32DecodeReads m data_len p len ≤ len ∧ (base32Decode m data_len p len).2.length ≤ data_len ↔
        ¬ Symbols m p 8) := by
  obtain ⟨w, hw, hfive, hnil, hreads, hcase⟩ := decodeLoop_cases (m := m) (d := p) (e := p + len) (n := len) (g := g)
    (r := r) (by omega) (by omega) (by omega)
  have hroom := (base32DecodeLength_eq (r := r) g).2.2 hr
  rw [← hlen, hdl] at hroom
  subst hroom
  obtain ⟨hfalse, -⟩ := decodeTail_odd (m := m) (d := p + 8 * g) (e := p + len) (by omega)
    (by omega) (by omega) (by omega)
  simp only [base32DecodeReads, readsWith, base32Decode, decodeWith, hdl, ne_eq, not_true_eq_false, if_false]
  by_cases hs : Symbols m p 8
  · have h5 := hfive hs (by omega)
    rcases hcase with ⟨-, -, hloop⟩ | ⟨-, hloop⟩
    · simp only [hloop, if_neg (show ¬ p + 8 * g = p + len by omega), List.length_append]
      refine ⟨hfalse, ?_⟩
      constructor
      · rintro ⟨-, h⟩
        omega
      · exact fun h => absurd hs h
    · simp only [hloop]
      refine ⟨trivial, ?_⟩
      constructor
      · rintro ⟨-, h⟩
        omega
      · exact fun h => absurd hs h
  · have h0 := hnil hs (by omega)
    rcases hcase with ⟨hall, -, -⟩ | ⟨-, hloop⟩
    · exact absurd (hall.mono (by omega)) hs
    · simp only [hloop, h0]
      refine ⟨trivial, ?_⟩
      constructor
      · exact fun _ => hs
      · intro _
        exact ⟨by omega, le_rfl⟩

/-- A length no encoder produces. -/
theorem base32Decode_odd (hr : r = 1 ∨ r = 3 ∨ r = 6) (hlen : len = 8 * g + r) (hdl : base32DecodeLength len = data_len) :
    (base32Decode m data_len p len).1 = false ∧
      (base32DecodeReads m data_len p len ≤ len ∧ (base32Decode m data_len p len).2.length ≤ data_len ↔
        ¬ Symbols m p (if 8 ≤ len then 8 else min len 2)) := by
  rcases Nat.eq_zero_or_pos g with rfl | hg
  · rw [if_neg (by omega)]
    exact base32Decode_odd_short (by omega) hdl
  · rw [if_pos (by omega)]
    exact base32Decode_odd_long hr hg hlen hdl

/-! ### When the decoder is canonical -/

/-- The texts the decoder fails on. Of a length no encoder produces: the characters it comes to first are symbols.
With a last group of five or seven: all are symbols, and the last is one beyond its range. -/
def Misread (m : Mem) (data_len p len : ℕ) : Prop :=
  data_len = base32DecodeLength len ∧
    (((len % 8 = 1 ∨ len % 8 = 3 ∨ len % 8 = 6) ∧ Symbols m p (if 8 ≤ len then 8 else min len 2)) ∨
      (len % 8 = 5 ∧ Symbols m p len ∧ symbol (m (p + (len - 1))) = some 16) ∨
      (len % 8 = 7 ∧ Symbols m p len ∧ symbol (m (p + (len - 1))) = some 4))

/-- With a last group, what is misread has one value of the last character too many. -/
theorem misread_iff_last {l b : ℕ} (hlast : lastGroup r = some (l, b)) (hlen : len = 8 * g + r)
    (hdl : base32DecodeLength len = data_len) : Misread m data_len p len ↔
      Symbols m p len ∧ ∃ q ∈ symbol (m (p + (len - 1))), q ≤ b ∧ ¬ Tight r q := by
  unfold Misread
  constructor
  · rintro ⟨-, ⟨h, -⟩ | ⟨h, hs, hq⟩ | ⟨h, hs, hq⟩⟩
    · rcases lastGroup_eq_some hlast with ⟨h', -⟩ | ⟨h', -⟩ | ⟨h', -⟩ | ⟨h', -⟩ <;> omega
    · rcases lastGroup_eq_some hlast with ⟨h', -⟩ | ⟨h', -⟩ | ⟨rfl, -, rfl⟩ | ⟨h', -⟩
      · omega
      · omega
      · exact ⟨hs, 16, hq, le_rfl, by unfold Tight; omega⟩
      · omega
    · rcases lastGroup_eq_some hlast with ⟨h', -⟩ | ⟨h', -⟩ | ⟨h', -⟩ | ⟨rfl, -, rfl⟩
      · omega
      · omega
      · omega
      · exact ⟨hs, 4, hq, le_rfl, by unfold Tight; omega⟩
  · rintro ⟨hs, q, hq, hle, hnot⟩
    refine ⟨hdl.symm, .inr ?_⟩
    unfold Tight at hnot
    rcases lastGroup_eq_some hlast with ⟨rfl, -, rfl⟩ | ⟨rfl, -, rfl⟩ | ⟨rfl, -, rfl⟩ | ⟨rfl, -, rfl⟩
    · omega
    · omega
    · obtain rfl : q = 16 := by omega
      exact .inl ⟨by omega, hs, hq⟩
    · obtain rfl : q = 4 := by omega
      exact .inr ⟨by omega, hs, hq⟩

/-- **When the decoder is canonical.** It reads only the text and writes only the room it is given, and encoding what
it accepts gives the text in upper case: this holds for all texts but those of `Misread`. -/
theorem base32Decode_canonical_iff (m : Mem) (data_len p len : ℕ) :
    (base32DecodeReads m data_len p len ≤ len ∧ (base32Decode m data_len p len).2.length ≤ data_len ∧
      ((base32Decode m data_len p len).1 = true → (base32Decode m data_len p len).2.length = data_len ∧
        base32Encode (base32Decode m data_len p len).2 = (Memory.read m p len).map upper)) ↔
    ¬ Misread m data_len p len := by
  by_cases hdl : base32DecodeLength len = data_len
  swap
  · have hret : base32Decode m data_len p len = (false, []) := by
      rw [base32Decode, decodeWith, if_pos hdl]
    have hreads : base32DecodeReads m data_len p len = 0 := by
      rw [base32DecodeReads, readsWith, if_pos hdl]
    rw [hret, hreads]
    refine iff_of_true ⟨Nat.zero_le _, Nat.zero_le _, nofun⟩ ?_
    rintro ⟨h, -⟩
    exact hdl h.symm
  obtain ⟨g, r, hr8, hlen⟩ : ∃ g r, r < 8 ∧ len = 8 * g + r := ⟨len / 8, len % 8, by omega, by omega⟩
  have hmod : len % 8 = r := by omega
  have hcases : r = 0 ∨ (r = 1 ∨ r = 3 ∨ r = 6) ∨ ∃ l b, lastGroup r = some (l, b) := by
    interval_cases r
    · exact .inl rfl
    · exact .inr (.inl (by omega))
    · exact .inr (.inr ⟨_, _, rfl⟩)
    · exact .inr (.inl (by omega))
    · exact .inr (.inr ⟨_, _, rfl⟩)
    · exact .inr (.inr ⟨_, _, rfl⟩)
    · exact .inr (.inl (by omega))
    · exact .inr (.inr ⟨_, _, rfl⟩)
  -- a text that is accepted and whose last character is in range
  have hcanon : Symbols m p len → (r ≠ 0 → ∀ q ∈ symbol (m (p + (len - 1))), Tight r q) →
      (base32Decode m data_len p len).2.length = data_len ∧
        base32Encode (base32Decode m data_len p len).2 = (Memory.read m p len).map upper := by
    intro hs htight
    obtain ⟨d, hd, hencode, hlength⟩ := base32Decode_of_tight hs hlen htight
    rw [hdl] at hd hlength
    rw [hd]
    exact ⟨hlength, hencode⟩
  rcases hcases with rfl | hodd | ⟨l, b, hlast⟩
  · obtain ⟨h1, h2, h3⟩ := base32Decode_whole (m := m) (p := p) hlen hdl
    refine iff_of_true ⟨h1, h2, fun h => hcanon (h3 h) (fun h0 => absurd rfl h0)⟩ ?_
    rintro ⟨-, ⟨h, -⟩ | ⟨h, -⟩ | ⟨h, -⟩⟩ <;> omega
  · obtain ⟨hfalse, hiff⟩ := base32Decode_odd (m := m) (p := p) hodd hlen hdl
    rw [← and_assoc, hiff, hfalse]
    constructor
    · rintro ⟨hs, -⟩ ⟨-, ⟨-, h⟩ | ⟨h, -⟩ | ⟨h, -⟩⟩
      · exact hs h
      · omega
      · omega
    · intro h
      exact ⟨fun hs => h ⟨hdl.symm, .inl ⟨hmod.symm ▸ hodd, hs⟩⟩, nofun⟩
  · obtain ⟨h1, h2, h3⟩ := base32Decode_last (m := m) (p := p) hlast hlen hdl
    rw [h3, misread_iff_last hlast hlen hdl]
    constructor
    · rintro ⟨-, -, h⟩ ⟨hs, q, hq, hle, hnot⟩
      have hencode := (h ⟨hs, fun q' hq' => Option.mem_unique hq' hq ▸ hle⟩).2
      have hr0 : r ≠ 0 := by
        rintro rfl
        cases hlast
      exact hnot (hmod ▸ tight_of_encode hencode (by omega) hq)
    · intro hnot
      refine ⟨h1, h2, ?_⟩
      rintro ⟨hs, hq⟩
      refine hcanon hs ?_
      intro _ q hq'
      by_contra htight
      exact hnot ⟨hs, q, hq', hq q hq', htight⟩

/-- `0000G` is accepted as three bytes whose encoding is `00010`, of `00000000` and one character more five bytes are
written into no room, and behind `0` a character is read that is not of the text. -/
theorem base32Decode_not_canonical :
    base32Decode (ofBytes 8 [0x30, 0x30, 0x30, 0x30, 0x47]) 3 8 5 = (true, [0, 0, 16]) ∧
      base32Encode [0, 0, 16] = [0x30, 0x30, 0x30, 0x31, 0x30] ∧
      base32Decode (ofBytes 8 [0x30, 0x30, 0x30, 0x30, 0x30, 0x30, 0x30, 0x30, 0x30]) 0 8 9 =
        (false, [0, 0, 0, 0, 0]) ∧
      base32DecodeReads (ofBytes 8 [0x30]) 0 8 1 = 2 ∧
      ¬ ∀ (m : Mem) (data_len p len : ℕ), (base32Decode m data_len p len).1 = true →
        base32Encode (base32Decode m data_len p len).2 = (Memory.read m p len).map upper := by
  refine ⟨by decide, by decide, by decide, by decide, ?_⟩
  intro h
  have hg := h (ofBytes 8 [0x30, 0x30, 0x30, 0x30, 0x47]) 3 8 5 (by decide)
  revert hg
  decide

end Decode

end Cpcf.Os.Base32
