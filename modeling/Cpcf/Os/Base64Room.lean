import Mathlib.Data.FinEnum
import Cpcf.Os.Base64

/-!
The room `Base64Decode(const String_Ref&, String&)` makes for what it decodes.

The buffer is set to `Base64DecodeLength`, which looks at the length and the last two characters only, while the
decoder goes on as far as it can. Both see the last group in the same way but for two kinds of texts: the predictor
gives up on a text of less than four characters, which the decoder takes, and it takes a single character behind the
last full group for a part of that group when the character is none of the alphabet.
-/

namespace Cpcf.Os.Base64

open Cpcf.Rt Cpcf.Lib.BitPack

/-! ### What the decoder writes -/

/-- A character has a value exactly when it is in the alphabet. -/
theorem isSome_revChecked : ∀ c : UInt8, (revChecked c).isSome = isb64 c := by set_option maxRecDepth 20000 in decide

/-- The number of bytes the tail writes for its four characters. -/
def tailLength (c0 c1 c2 c3 : UInt8) : ℕ :=
  if isb64 c0 && isb64 c1 then
    if isb64 c2 then if isb64 c3 then 3 else 2
    else if isb64 c3 then 0 else 1
  else 0

section Tail

variable (p s : List UInt8)

/-- The last group, padded. -/
def lastGroup : List UInt8 :=
  let miss := (4 - (s.length &&& 3)) &&& 3
  s.take (4 - miss) ++ List.replicate miss Ch.equals

/-- The tail writes what it reports. -/
theorem decodeTail_length (h : s ≠ []) :
    (decodeTail p s).dataOut.length = p.length + tailLength ((lastGroup s).getD 0 0) ((lastGroup s).getD 1 0)
      ((lastGroup s).getD 2 0) ((lastGroup s).getD 3 0) ∧
    (decodeTail p s).dataOutLen = (decodeTail p s).dataOut.length := by
  have hs : s.length ≠ 0 := fun h0 => h (List.eq_nil_of_length_eq_zero h0)
  unfold decodeTail lastGroup
  simp only [if_neg hs]
  generalize List.take (4 - ((4 - (s.length &&& 3)) &&& 3)) s ++
    List.replicate ((4 - (s.length &&& 3)) &&& 3) Ch.equals = g
  unfold tailLength
  rw [← isSome_revChecked (g.getD 0 0), ← isSome_revChecked (g.getD 1 0)]
  cases revChecked (g.getD 0 0) with
  | none => exact ⟨rfl, rfl⟩
  | some a0 =>
    cases revChecked (g.getD 1 0) with
    | none => exact ⟨rfl, rfl⟩
    | some a1 =>
      cases isb64 (g.getD 2 0) <;> cases isb64 (g.getD 3 0) <;> simp

end Tail

/-! ### What the loop leaves -/

/-- The loop decodes some groups of four, all of them characters of the alphabet, and leaves the rest of the text:
the last group, or more where it broke off. -/
theorem decodeGroups_split (s : List UInt8) : ∃ pre, s = pre ++ (decodeGroups s).2 ∧
    (decodeGroups s).1.length * 4 = pre.length * 3 ∧ 4 ∣ pre.length ∧ (∀ c ∈ pre, isb64 c = true) ∧
    (s ≠ [] → (decodeGroups s).2 ≠ []) ∧
    (4 < (decodeGroups s).2.length → ∃ c ∈ (decodeGroups s).2.take 4, isb64 c = false) := by
  induction s using decodeGroups.induct with
  | case1 c0 c1 c2 c3 c4 s a0 a1 a2 a3 h3 h2 h1 h0 ih =>
    obtain ⟨pre, hs, hlen, hfour, hall, hne, hbroke⟩ := ih
    have hb : ∀ {c : UInt8} {a : ℕ}, revChecked c = some a → isb64 c = true := by
      intro c a h
      rw [← isSome_revChecked, h]
      rfl
    rw [decodeGroups]
    simp only [h0, h1, h2, h3]
    refine ⟨c0 :: c1 :: c2 :: c3 :: pre, congrArg (c0 :: c1 :: c2 :: c3 :: ·) hs, ?_, ?_, ?_,
      fun _ => hne (List.cons_ne_nil _ _), hbroke⟩
    · simp only [List.length_cons]
      omega
    · simp only [List.length_cons]
      omega
    · simp only [List.forall_mem_cons]
      exact ⟨hb h0, hb h1, hb h2, hb h3, hall⟩
  | case2 c0 c1 c2 c3 c4 s hnone =>
    have hbad : ∃ c ∈ [c0, c1, c2, c3], isb64 c = false := by
      by_contra hall
      have hsome : ∀ c ∈ [c0, c1, c2, c3], ∃ a, revChecked c = some a := by
        intro c hc
        rw [← Option.isSome_iff_exists, isSome_revChecked]
        by_contra hf
        exact hall ⟨c, hc, by simpa using hf⟩
      obtain ⟨a0, h0⟩ := hsome c0 (by simp)
      obtain ⟨a1, h1⟩ := hsome c1 (by simp)
      obtain ⟨a2, h2⟩ := hsome c2 (by simp)
      obtain ⟨a3, h3⟩ := hsome c3 (by simp)
      exact hnone a0 a1 a2 a3 h0 h1 h2 h3
    have hstop : decodeGroups (c0 :: c1 :: c2 :: c3 :: c4 :: s) = ([], c0 :: c1 :: c2 :: c3 :: c4 :: s) := by
      rw [decodeGroups]
      split
      · rename_i a0 a1 a2 a3 h0 h1 h2 h3
        exact absurd h3 (fun h3 => hnone a0 a1 a2 a3 h0 h1 h2 h3)
      · rfl
    rw [hstop]
    exact ⟨[], rfl, rfl, dvd_zero 4, fun c hc => absurd hc (List.not_mem_nil), fun h => h, fun _ => hbad⟩
  | case3 s hshort =>
    have hstop : decodeGroups s = ([], s) := by
      rcases s with _ | ⟨a, _ | ⟨b, _ | ⟨c, _ | ⟨d, _ | ⟨e, s⟩⟩⟩⟩⟩
      · rfl
      · rfl
      · rfl
      · rfl
      · rfl
      · exact absurd rfl (hshort a b c d e s)
    rw [hstop]
    refine ⟨[], rfl, rfl, dvd_zero 4, fun c hc => absurd hc (List.not_mem_nil), fun h => h, ?_⟩
    rcases s with _ | ⟨a, _ | ⟨b, _ | ⟨c, _ | ⟨d, _ | ⟨e, s⟩⟩⟩⟩⟩
    · simp
    · simp
    · simp
    · simp
    · simp
    · exact absurd rfl (hshort a b c d e s)

/-! ### What the predictor takes off -/

/-- What `Base64DecodeLength` takes off three bytes for each group, from the last two characters. -/
def lack (miss : ℕ) (b2 b1 : Bool) : ℕ :=
  if b2 && b1 && decide (miss ≤ 2) then miss
  else if b2 && !b1 then miss + 1
  else if !b2 && !b1 && decide (miss = 0) then 2
  else 0

theorem lack_le (miss : ℕ) (b2 b1 : Bool) : lack miss b2 b1 ≤ miss + 2 := by
  unfold lack
  split_ifs <;> omega

/-- The characters missing from the last group. -/
theorem miss_eq (n : ℕ) : (4 - (n &&& 3)) &&& 3 = (4 - n % 4) % 4 := by
  rw [and_mask (k := 2) _ rfl, and_mask (k := 2) _ rfl]
  rfl

theorem base64DecodeLength_eq (t : List UInt8) (c2 c1 : UInt8) (h : 2 ≤ t.length) :
    base64DecodeLength (t ++ [c2, c1]) =
      (t.length + 5) / 4 * 3 - lack ((4 - (t.length + 2) % 4) % 4) (isb64 c2) (isb64 c1) := by
  have hlen : (t ++ [c2, c1]).length = t.length + 2 := by simp
  have h2 : (t ++ [c2, c1]).getD (t.length + 2 - 2) 0 = c2 := by simp
  have h1 : (t ++ [c2, c1]).getD (t.length + 2 - 1) 0 = c1 := by simp
  rw [base64DecodeLength]
  simp only [hlen, h2, h1, miss_eq]
  rw [if_neg (by omega), show t.length + 2 + 3 = t.length + 5 from rfl]
  unfold lack
  generalize (4 - (t.length + 2) % 4) % 4 = miss
  generalize (t.length + 5) / 4 * 3 = full
  cases isb64 c2 <;> cases isb64 c1 <;> simp only [Bool.and_true, Bool.and_false, Bool.not_true, Bool.not_false,
    Bool.true_and, Bool.false_and, decide_eq_true_eq, Bool.false_eq_true, if_true, if_false]
  · by_cases h0 : miss = 0
    · rw [if_pos (by omega), if_pos h0]
      omega
    · rw [if_neg (by omega), if_neg h0]
      rfl
  · rfl
  · omega
  · by_cases h0 : miss ≤ 2
    · rw [if_pos (by omega), if_pos h0]
      omega
    · rw [if_neg (by omega), if_neg h0]
      rfl

/-! ### The room -/

/-- The texts whose last group the predictor and the decoder see differently. -/
def Overruns (s : List UInt8) : Prop :=
  (s.length < 4 ∧ ∃ c0 c1 t, s = c0 :: c1 :: t ∧ isb64 c0 = true ∧ isb64 c1 = true) ∨
    ∃ t c, s = t ++ [c] ∧ t ≠ [] ∧ 4 ∣ t.length ∧ (∀ x ∈ t, isb64 x = true) ∧ isb64 c = false

theorem tailLength_lastGroup_le {s : List UInt8} (h : 4 ≤ s.length) :
    tailLength ((lastGroup s).getD 0 0) ((lastGroup s).getD 1 0) ((lastGroup s).getD 2 0) ((lastGroup s).getD 3 0) ≤
      3 - (4 - s.length % 4) % 4 := by
  obtain ⟨a, b, c, d, t, rfl⟩ : ∃ a b c d t, s = a :: b :: c :: d :: t := by
    rcases s with _ | ⟨a, _ | ⟨b, _ | ⟨c, _ | ⟨d, s⟩⟩⟩⟩
    · simp at h
    · simp at h
    · simp at h
    · simp at h
    · exact ⟨a, b, c, d, s, rfl⟩
  have hmiss : (4 - (a :: b :: c :: d :: t).length % 4) % 4 < 4 := Nat.mod_lt _ (by norm_num)
  unfold lastGroup
  rw [miss_eq]
  generalize (4 - (a :: b :: c :: d :: t).length % 4) % 4 = miss at *
  have heq : isb64 Ch.equals = false := isb64_equals
  interval_cases miss
  · unfold tailLength
    split_ifs <;> decide
  · change tailLength a b c Ch.equals ≤ 2
    unfold tailLength
    simp only [heq, Bool.false_eq_true, if_false]
    split_ifs <;> decide
  · change tailLength a b Ch.equals Ch.equals ≤ 1
    unfold tailLength
    simp only [heq, Bool.false_eq_true, if_false]
    split_ifs <;> decide
  · change tailLength a Ch.equals Ch.equals Ch.equals ≤ 0
    unfold tailLength
    rw [heq, Bool.and_false]
    exact le_rfl

theorem not_overruns {s : List UInt8} (h4 : 4 ≤ s.length) (h1 : s.length % 4 ≠ 1) : ¬ Overruns s := by
  rintro (⟨hlt, -⟩ | ⟨t, c, rfl, -, ht, -⟩)
  · omega
  · rw [List.length_append, List.length_singleton] at h1
    omega

/-- A text of two or three characters. -/
theorem overruns_short {a b : UInt8} {t : List UInt8} (ht : t.length ≤ 1) :
    Overruns (a :: b :: t) ↔ isb64 a = true ∧ isb64 b = true := by
  constructor
  · rintro (⟨-, c0, c1, u, heq, h0, h1⟩ | ⟨u, c, heq, hne, hu, -⟩)
    · obtain ⟨rfl, rfl, -⟩ : a = c0 ∧ b = c1 ∧ t = u := by simpa using heq
      exact ⟨h0, h1⟩
    · have hlen := congrArg List.length heq
      rw [List.length_cons, List.length_cons, List.length_append, List.length_singleton] at hlen
      have hpos := List.length_pos_of_ne_nil hne
      omega
  · rintro ⟨h0, h1⟩
    refine .inl ⟨?_, a, b, t, rfl, h0, h1⟩
    rw [List.length_cons, List.length_cons]
    omega

/-- A single character behind whole groups. -/
theorem overruns_single {pre : List UInt8} {a : UInt8} (h0 : pre ≠ []) (hfour : 4 ∣ pre.length)
    (hall : ∀ c ∈ pre, isb64 c = true) : Overruns (pre ++ [a]) ↔ isb64 a = false := by
  have hpos := List.length_pos_of_ne_nil h0
  constructor
  · rintro (⟨hlt, -⟩ | ⟨t, c, heq, -, -, -, hc⟩)
    · rw [List.length_append, List.length_singleton] at hlt
      omega
    · obtain ⟨-, hac⟩ := List.append_inj' heq rfl
      rw [List.singleton_inj.mp hac]
      exact hc
  · intro ha
    exact .inr ⟨pre, a, rfl, h0, hfour, hall, ha⟩

theorem base64DecodeLength_of_short {s : List UInt8} (h : s.length ≤ 3) : base64DecodeLength s = 0 := by
  rw [base64DecodeLength]
  exact if_pos h

section LastGroup

variable {pre : List UInt8} {a b c d : UInt8}

theorem fits_one (hfour : 4 ∣ pre.length) (hall : ∀ c ∈ pre, isb64 c = true) :
    pre.length / 4 * 3 + tailLength a Ch.equals Ch.equals Ch.equals ≤ base64DecodeLength (pre ++ [a]) ↔
      ¬ Overruns (pre ++ [a]) := by
  have htail : tailLength a Ch.equals Ch.equals Ch.equals = 0 := by simp [tailLength, isb64_equals, -Ch.equals]
  rw [htail]
  rcases List.eq_nil_or_concat' pre with rfl | ⟨u, x, rfl⟩
  · constructor
    · rintro - (⟨-, c0, c1, t, heq, -⟩ | ⟨t, c, heq, hne, -⟩)
      · simp at heq
      · have hlen := congrArg List.length heq
        have hpos := List.length_pos_of_ne_nil hne
        simp only [List.length_append, List.length_singleton, List.length_nil] at hlen
        omega
    · intro _
      exact Nat.zero_le _
  · have hx : isb64 x = true := hall x (by simp)
    rw [overruns_single (by simp) hfour hall]
    obtain ⟨k, hk⟩ := hfour
    rw [List.length_append, List.length_singleton] at hk ⊢
    rw [List.append_assoc, List.singleton_append, base64DecodeLength_eq u x a (by omega), hx,
      show (4 - (u.length + 2) % 4) % 4 = 3 by omega]
    cases isb64 a with
    | true => simp [lack]; omega
    | false => simp [lack]; omega

theorem fits_two (hfour : 4 ∣ pre.length) :
    pre.length / 4 * 3 + tailLength a b Ch.equals Ch.equals ≤ base64DecodeLength (pre ++ [a, b]) ↔
      ¬ Overruns (pre ++ [a, b]) := by
  obtain ⟨k, hk⟩ := hfour
  have htail : tailLength a b Ch.equals Ch.equals = if isb64 a && isb64 b then 1 else 0 := by
    simp [tailLength, isb64_equals, -Ch.equals]
  rw [htail]
  rcases Nat.eq_zero_or_pos k with rfl | hpos
  · obtain rfl := List.eq_nil_of_length_eq_zero hk
    rw [List.nil_append, base64DecodeLength_of_short (by simp), overruns_short (by simp)]
    cases isb64 a <;> cases isb64 b <;> simp
  · have hlen : (pre ++ [a, b]).length = pre.length + 2 := List.length_append
    refine iff_of_true ?_ (not_overruns (by omega) (by omega))
    rw [base64DecodeLength_eq pre a b (by omega), show (4 - (pre.length + 2) % 4) % 4 = 2 by omega]
    cases isb64 a <;> cases isb64 b <;> simp [lack] <;> omega

theorem fits_three (hfour : 4 ∣ pre.length) :
    pre.length / 4 * 3 + tailLength a b c Ch.equals ≤ base64DecodeLength (pre ++ [a, b, c]) ↔
      ¬ Overruns (pre ++ [a, b, c]) := by
  obtain ⟨k, hk⟩ := hfour
  have htail : tailLength a b c Ch.equals = if isb64 a && isb64 b then if isb64 c then 2 else 1 else 0 := by
    simp [tailLength, isb64_equals, -Ch.equals]
  rw [htail]
  rcases Nat.eq_zero_or_pos k with rfl | hpos
  · obtain rfl := List.eq_nil_of_length_eq_zero hk
    rw [List.nil_append, base64DecodeLength_of_short (by simp), overruns_short (by simp)]
    cases isb64 a <;> cases isb64 b <;> cases isb64 c <;> simp
  · have hlen : (pre ++ [a, b, c]).length = pre.length + 3 := List.length_append
    refine iff_of_true ?_ (not_overruns (by omega) (by omega))
    rw [show pre ++ [a, b, c] = (pre ++ [a]) ++ [b, c] by simp,
      base64DecodeLength_eq (pre ++ [a]) b c (by simp; omega), List.length_append, List.length_singleton,
      show (4 - (pre.length + 1 + 2) % 4) % 4 = 1 by omega]
    cases isb64 a <;> cases isb64 b <;> cases isb64 c <;> simp [lack] <;> omega

theorem fits_four (hfour : 4 ∣ pre.length) :
    pre.length / 4 * 3 + tailLength a b c d ≤ base64DecodeLength (pre ++ [a, b, c, d]) ↔
      ¬ Overruns (pre ++ [a, b, c, d]) := by
  obtain ⟨k, hk⟩ := hfour
  have hlen : (pre ++ [a, b, c, d]).length = pre.length + 4 := List.length_append
  refine iff_of_true ?_ (not_overruns (by omega) (by omega))
  rw [show pre ++ [a, b, c, d] = (pre ++ [a, b]) ++ [c, d] by simp,
    base64DecodeLength_eq (pre ++ [a, b]) c d (by simp), List.length_append, List.length_cons,
    List.length_singleton, show (4 - (pre.length + (1 + 1) + 2) % 4) % 4 = 0 by omega]
  unfold tailLength
  cases isb64 a <;> cases isb64 b <;> cases isb64 c <;> cases isb64 d <;> simp [lack] <;> omega

/-- A last group of one to four characters behind whole groups of the alphabet. -/
theorem fits_iff {rest : List UInt8} (h0 : rest ≠ []) (h4 : rest.length ≤ 4) (hfour : 4 ∣ pre.length)
    (hall : ∀ c ∈ pre, isb64 c = true) :
    pre.length / 4 * 3 + tailLength ((lastGroup rest).getD 0 0) ((lastGroup rest).getD 1 0)
      ((lastGroup rest).getD 2 0) ((lastGroup rest).getD 3 0) ≤ base64DecodeLength (pre ++ rest) ↔
    ¬ Overruns (pre ++ rest) := by
  rcases rest with _ | ⟨a, _ | ⟨b, _ | ⟨c, _ | ⟨d, _ | ⟨e, t⟩⟩⟩⟩⟩
  · exact absurd rfl h0
  · have hgroup : lastGroup [a] = [a, Ch.equals, Ch.equals, Ch.equals] := by
      rw [lastGroup, miss_eq]
      rfl
    rw [hgroup]
    exact fits_one hfour hall
  · have hgroup : lastGroup [a, b] = [a, b, Ch.equals, Ch.equals] := by
      rw [lastGroup, miss_eq]
      rfl
    rw [hgroup]
    exact fits_two hfour
  · have hgroup : lastGroup [a, b, c] = [a, b, c, Ch.equals] := by
      rw [lastGroup, miss_eq]
      rfl
    rw [hgroup]
    exact fits_three hfour
  · have hgroup : lastGroup [a, b, c, d] = [a, b, c, d] := by
      rw [lastGroup, miss_eq]
      simp
    rw [hgroup]
    exact fits_four hfour
  · simp only [List.length_cons] at h4
    omega

end LastGroup

/-- More than four characters behind whole groups are two groups for the predictor, which is room for the one written. -/
theorem room_of_long {g r u w k : ℕ} (hlong : 4 < r) (hu : 4 * g + r = u + 2) (hw : w ≤ 3 - (4 - r % 4) % 4)
    (hk : k ≤ (4 - (u + 2) % 4) % 4 + 2) : 4 * g / 4 * 3 + w ≤ (u + 5) / 4 * 3 - k := by
  have hmod : (u + 2) % 4 = r % 4 := by rw [← hu, Nat.mul_add_mod]
  have hdiv : (u + 5) / 4 = g + (r + 3) / 4 := by
    rw [show u + 5 = 4 * g + (r + 3) by omega, Nat.mul_add_div (by decide)]
  have htwo : 2 ≤ (r + 3) / 4 := by
    clear * - hlong
    omega
  have hmiss : (4 - r % 4) % 4 < 4 := Nat.mod_lt _ (by decide)
  rw [hmod] at hk
  rw [hdiv, Nat.mul_div_cancel_left _ (by decide)]
  generalize (4 - r % 4) % 4 = miss at hw hk hmiss
  generalize (r + 3) / 4 = q at htwo
  omega

/-- **The room for a text.** What the decoder writes and what it reports fit the length the predictor gives, unless
the text has two or three characters and begins with two of the alphabet, or a single character that is not of the
alphabet stands behind whole groups that are. -/
theorem base64Decode_fits_iff (s : List UInt8) :
    ((base64Decode s).dataOut.length ≤ base64DecodeLength s ∧ (base64Decode s).dataOutLen ≤ base64DecodeLength s) ↔
      ¬ Overruns s := by
  obtain ⟨pre, hs, hlen, hfour, hall, hne, hbroke⟩ := decodeGroups_split s
  generalize hrest : (decodeGroups s).2 = rest at hs hne hbroke
  have hdec : base64Decode s = decodeTail (decodeGroups s).1 rest := by rw [base64Decode, hrest]
  rcases List.eq_nil_or_concat' s with rfl | ⟨t, c, hsnoc⟩
  · refine iff_of_true ⟨le_rfl, le_rfl⟩ ?_
    rintro (⟨-, c0, c1, t, heq, -⟩ | ⟨t, c, heq, -⟩)
    · simp at heq
    · simp at heq
  · have h0 : rest ≠ [] := hne (by rw [hsnoc]; simp)
    obtain ⟨hout, hreport⟩ := decodeTail_length (decodeGroups s).1 rest h0
    rw [hdec, hreport, and_self, hout, show (decodeGroups s).1.length = pre.length / 4 * 3 by omega]
    rcases Nat.lt_or_ge 4 rest.length with hlong | hshort
    · -- the loop broke off before the last group, and the predictor counts one group more
      obtain ⟨u, c2, c1, hs2⟩ : ∃ u c2 c1, s = u ++ [c2, c1] := by
        rcases List.eq_nil_or_concat' t with rfl | ⟨u, c2, rfl⟩
        · have hcount := congrArg List.length (hs.symm.trans hsnoc)
          simp at hcount
          omega
        · exact ⟨u, c2, c, by rw [hsnoc]; simp⟩
      have hcount := congrArg List.length (hs.symm.trans hs2)
      simp only [List.length_append, List.length_cons, List.length_nil] at hcount
      have hwritten := tailLength_lastGroup_le hlong.le
      have hlack := lack_le ((4 - (u.length + 2) % 4) % 4) (isb64 c2) (isb64 c1)
      refine iff_of_true ?_ ?_
      · obtain ⟨g, hg⟩ := hfour
        rw [hg] at hcount ⊢
        rw [hs2, base64DecodeLength_eq u c2 c1 (by omega)]
        exact room_of_long hlong (by omega) hwritten hlack
      · rintro (⟨hlt, -⟩ | ⟨v, x, heq, -, -, hv, -⟩)
        · rw [hs, List.length_append] at hlt
          omega
        · obtain ⟨y, hy, hbad⟩ := hbroke hlong
          have hmem : y ∈ rest.dropLast := by
            have : rest.take 4 = rest.dropLast.take 4 := by
              rw [List.dropLast_eq_take, List.take_take, min_eq_left (by omega)]
            rw [this] at hy
            exact List.mem_of_mem_take hy
          have hvy : y ∈ v := by
            have hdrop : s.dropLast = v := by rw [heq, List.dropLast_concat]
            rw [← hdrop, hs, List.dropLast_append_of_ne_nil h0]
            exact List.mem_append_right _ hmem
          rw [hv y hvy] at hbad
          cases hbad
    · rw [hs]
      exact fits_iff h0 hshort hfour hall

/-- Two characters are one byte for the decoder and none for the predictor, and a full group with a `=` behind it is
three bytes for the one and two for the other. -/
theorem base64Decode_overruns :
    base64DecodeLength [0x51, 0x51] = 0 ∧ base64Decode [0x51, 0x51] = ⟨true, [0x41], 1⟩ ∧
      base64DecodeLength [0x51, 0x55, 0x4a, 0x44, 0x3d] = 2 ∧
      base64Decode [0x51, 0x55, 0x4a, 0x44, 0x3d] = ⟨false, [0x41, 0x42, 0x43], 3⟩ ∧
      ¬ ∀ s : List UInt8, (base64Decode s).dataOut.length ≤ base64DecodeLength s := by
  refine ⟨by decide, by decide, by decide, by decide, ?_⟩
  intro h
  have h2 := h [0x51, 0x51]
  revert h2
  decide

end Cpcf.Os.Base64
