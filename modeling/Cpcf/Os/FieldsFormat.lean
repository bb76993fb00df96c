import Mathlib.Data.FinEnum
import Cpcf.Os.FieldsText
import Cpcf.Rt.SplitFields

/-!
The texts of a date and a time: `tos::Timestamp` of `os/kernel.h` and `ToInternetTimeFormat` of `os/kernel.cpp`, and how
`FromString` and `FromInternetTimeFormat` read them.

The numbers are padded with zeros, so each of them is a piece of its own between the separators, or stands at its own
columns. The name of a month is told by the sum of its letters.
-/

namespace Cpcf.Os.Timestamp

open Cpcf.Lib.Memory Cpcf.Rt Cpcf.Rt.StringRef Cpcf.Rt.NumberText

/-! ### The code -/

/-- `%0wd` of `sprintf`. -/
def zeroPadded (w : ℕ) (z : ℤ) : List UInt8 :=
  if z < 0 then
    Ch.minus :: (List.replicate (w - 1 - (itoaUnsigned z.natAbs).length) 0x30 ++ itoaUnsigned z.natAbs)
  else List.replicate (w - (itoaUnsigned z.natAbs).length) 0x30 ++ itoaUnsigned z.natAbs

/-- The text of `tos::Timestamp<show_msec, show_date, sep_date, sep_time>`. -/
def timestampText (show_msec show_date : Bool) (sep_date sep_time : UInt8) (x : Fields) : List UInt8 :=
  (if show_date then
    zeroPadded 4 x.year ++ sep_date :: (zeroPadded 2 x.month ++ sep_date :: (zeroPadded 2 x.day ++ [0x20]))
  else []) ++ (zeroPadded 2 x.hour ++ sep_time :: (zeroPadded 2 x.minute ++ sep_time :: zeroPadded 2 x.second)) ++
    if show_msec then dot :: zeroPadded 3 x.millSecond else []

/-- Names of three letters, each with a zero behind it. -/
def nameTable (names : List String) : List UInt8 :=
  (names.map fun s => s.toList.map (fun c => UInt8.ofNat c.toNat) ++ [0]).flatten

/-- `month_name`. -/
def month_name : List UInt8 :=
  nameTable ["Jan", "Feb", "Mar", "Apr", "May", "Jun", "Jul", "Aug", "Sep", "Oct", "Nov", "Dec"]

/-- `day_name`. -/
def day_name : List UInt8 := nameTable ["Sun", "Mon", "Tue", "Wed", "Thu", "Fri", "Sat"]

/-- `GetMonthName(month)`, up to the zero. -/
def getMonthName (month : ℤ) : List UInt8 := (month_name.drop ((month - 1) * 4).toNat).takeWhile (· ≠ 0)

/-- `GetDayOfWeekName(weekday)`, up to the zero. -/
def getDayOfWeekName (weekday : ℤ) : List UInt8 := (day_name.drop (weekday * 4).toNat).takeWhile (· ≠ 0)

/-- `month_hash`. -/
def month_hash : List ℤ := [10, 5, 9, 0, 0, 7, 0, 6, 1, 0, 0, 0, 8, 11, 0, 3, 12, 2, 4, 0, 0]

/-- `ParseMonthName(b)`. The index is not negative for ASCII characters. -/
def parseMonthName (m : Mem) (b : ℕ) : ℤ :=
  month_hash.getD (((schar (m b) + schar (m (b + 1)) + schar (m (b + 2))).tmod 21).toNat) 0

/-- `ToInternetTimeFormat(buf)`: what is written. -/
def toInternetTimeFormat (x : Fields) : List UInt8 :=
  getDayOfWeekName x.dayOfWeek ++ [Ch.comma, 0x20] ++ zeroPadded 2 x.day ++ [0x20] ++ getMonthName x.month ++ [0x20] ++
    zeroPadded 4 x.year ++ [0x20] ++ zeroPadded 2 x.hour ++ [Ch.colon] ++ zeroPadded 2 x.minute ++ [Ch.colon] ++
    zeroPadded 2 x.second ++ [0x20, 0x47, 0x4d, 0x54]

/-- `b[i] - '0'`. -/
def digitAt (m : Mem) (b : ℕ) : ℤ := schar (m b) - 0x30

/-- `FromInternetTimeFormat(s)`. -/
def fromInternetTimeFormat (m : Mem) (s : Ref) (this : Fields) : Fields × Bool :=
  if s.getLength = 29 ∧ read m (s.p + 25) 4 = [0x20, 0x47, 0x4d, 0x54] then
    ({ this with
        month := parseMonthName m (s.p + 8)
        day := digitAt m (s.p + 5) * 10 + digitAt m (s.p + 6)
        year := digitAt m (s.p + 12) * 1000 + digitAt m (s.p + 13) * 100 + digitAt m (s.p + 14) * 10 +
          digitAt m (s.p + 15)
        hour := digitAt m (s.p + 17) * 10 + digitAt m (s.p + 18)
        minute := digitAt m (s.p + 20) * 10 + digitAt m (s.p + 21)
        second := digitAt m (s.p + 23) * 10 + digitAt m (s.p + 24)
        millSecond := 0
        dayOfWeek := 0 }, true)
  else (this, false)

/-! ### Padded numbers -/

section Padded

variable {w : ℕ} {z : ℤ}

theorem zeroPadded_of_nonneg (hz : 0 ≤ z) :
    zeroPadded w z = List.replicate (w - (itoaUnsigned z.natAbs).length) 0x30 ++ itoaUnsigned z.natAbs :=
  if_neg (not_lt.mpr hz)

theorem isDigit_of_mem_zeroPadded (hz : 0 ≤ z) {b : UInt8} (hb : b ∈ zeroPadded w z) : isDigit b = true := by
  rw [zeroPadded_of_nonneg hz] at hb
  rcases List.mem_append.mp hb with hb | hb
  · rw [(List.mem_replicate.mp hb).2]
    rfl
  · exact isDigit_of_mem_itoaUnsigned hb

theorem zeroPadded_ne_nil (hz : 0 ≤ z) : zeroPadded w z ≠ [] := by
  rw [zeroPadded_of_nonneg hz]
  exact List.append_ne_nil_of_right_ne_nil _ (itoaUnsigned_ne_nil _)

theorem length_zeroPadded (hz : 0 ≤ z) (hw : 0 < w) (hlt : z < 10 ^ w) : (zeroPadded w z).length = w := by
  have hdigits : (itoaUnsigned z.natAbs).length ≤ w := by
    rw [itoaUnsigned, itoaLoop_reverse (Nat.lt_succ_self _), List.length_map]
    refine (Nat.length_toDigits_le_iff (by omega) hw).mpr ?_
    zify
    rwa [abs_of_nonneg hz]
  rw [zeroPadded_of_nonneg hz, List.length_append, List.length_replicate]
  omega

theorem digitsValue_replicate (n : ℕ) (s : List UInt8) : digitsValue 0 (List.replicate n 0x30 ++ s) = digitsValue 0 s := by
  induction n with
  | zero => rfl
  | succ n ih =>
    rw [List.replicate_succ, List.cons_append, digitsValue_cons]
    exact ih

theorem digitsValue_zeroPadded (hz : 0 ≤ z) : digitsValue 0 (zeroPadded w z) = z.natAbs := by
  rw [zeroPadded_of_nonneg hz, digitsValue_replicate, digitsValue_itoaUnsigned]

/-- A padded number is read as what it is. -/
theorem toNumber_zeroPadded {m : Mem} {r : Ref} (h : At m r (zeroPadded w z)) (hz : 0 ≤ z) (hw : 0 < w) (hw9 : w ≤ 9)
    (hlt : z < 10 ^ w) : (toNumber .int m r).1.toInt = z ∧ (toNumber .int m r).2 = w := by
  obtain ⟨hold, hlen⟩ := h
  have hlength := length_zeroPadded hz hw hlt
  have hsmall : z < 10 ^ 9 := hlt.trans_le (pow_le_pow_right₀ (by norm_num) hw9)
  have hread := toNumber_text .int (show Holds m r.p ([] ++ zeroPadded w z) from hold) (.inl rfl)
    (fun b hb => isDigit_of_mem_zeroPadded hz hb) (zeroPadded_ne_nil hz) (by rw [List.nil_append, hlength]; omega)
  rw [List.nil_append, ← hlen, digitsValue_zeroPadded hz, hlength] at hread
  have hr : (⟨r.p, r.len⟩ : Ref) = r := rfl
  rw [hr] at hread
  rw [hread]
  refine ⟨?_, rfl⟩
  have hpos : (BitVec.ofNat 32 z.natAbs).toInt = z := by
    rw [BitVec.toInt_eq_toNat_bmod, BitVec.toNat_ofNat, Int.bmod_def]
    omega
  dsimp only
  rw [if_neg (by decide)]
  exact hpos

end Padded

/-! ### Pieces that are padded numbers -/

theorem seps_has : ∀ c : UInt8, seps.has c = decide (c ∈ sepChars) := by set_option maxRecDepth 20000 in decide

theorem digit_not_sep : ∀ c : UInt8, isDigit c = true → seps.has c = false ∧ c ≠ Ch.dquote ∧ c ≠ Ch.squote := by
  set_option maxRecDepth 20000 in decide

theorem sep_not_quote : ∀ c ∈ sepChars, c ≠ Ch.dquote ∧ c ≠ Ch.squote := by set_option maxRecDepth 20000 in decide

/-- A width from 1 to 9 and a number with so many digits at most. -/
def Fits (x : ℕ × ℤ) : Prop := 0 ≤ x.2 ∧ 0 < x.1 ∧ x.1 ≤ 9 ∧ x.2 < 10 ^ x.1

/-- The padded number. -/
def padded (x : ℕ × ℤ) : List UInt8 := zeroPadded x.1 x.2

theorem length_padded {x : ℕ × ℤ} (hx : Fits x) : (padded x).length = x.1 :=
  length_zeroPadded hx.1 hx.2.1 hx.2.2.2

theorem fits_two {z : ℤ} (h : 0 ≤ z ∧ z ≤ 99) : Fits (2, z) :=
  ⟨h.1, by norm_num, by norm_num, show z < 100 by omega⟩

theorem fits_four {z : ℤ} (h : 0 ≤ z ∧ z ≤ 9999) : Fits (4, z) :=
  ⟨h.1, by norm_num, by norm_num, show z < 10000 by omega⟩

theorem at_getD {m : Mem} {f : List Ref} {us : List (List UInt8)} (h : List.Forall₂ (At m) f us) {i : ℕ}
    (hi : i < us.length) : At m (f.getD i ⟨0, 0⟩) us[i] := by
  induction h generalizing i with
  | nil => simp at hi
  | cons hhead htail ih =>
    cases i with
    | zero => exact hhead
    | succ i => exact ih (by simpa using hi)

/-- A piece of a text: no separators and no quotation marks. -/
def Token (u : List UInt8) : Prop := u ≠ [] ∧ ∀ c ∈ u, seps.has c = false ∧ c ≠ Ch.dquote ∧ c ≠ Ch.squote

theorem token_of_digits {u : List UInt8} (hne : u ≠ []) (hu : ∀ c ∈ u, isDigit c = true) : Token u :=
  ⟨hne, fun c hc => digit_not_sep c (hu c hc)⟩

theorem token_padded {x : ℕ × ℤ} (hx : Fits x) : Token (padded x) :=
  token_of_digits (zeroPadded_ne_nil hx.1) fun _ hc => isDigit_of_mem_zeroPadded hx.1 hc

section Pieces

variable {m : Mem} {s : Ref} {p : ℕ} {u : List UInt8} {rest : List (List UInt8 × List UInt8)}

/-- The pieces of a text that is made of them. -/
theorem piecesOf_joined (hold : Holds m p (joined u rest)) (hp : p ≠ 0) (hlen : (joined u rest).length + 1 < 2 ^ 31)
    (hfew : rest.length < 7) (hu : Token u) (hrest : ∀ y ∈ rest, Token y.2 ∧ y.1 ≠ [] ∧ ∀ c ∈ y.1, c ∈ sepChars) :
    List.Forall₂ (At m) (piecesOf m ⟨p, (joined u rest).length + 1⟩).f (u :: rest.map Prod.snd) := by
  have hsep : ∀ c ∈ sepChars, seps.has c = true := fun c hc => by rw [seps_has, decide_eq_true hc]
  refine split_joined hold hp hu.1 hlen hfew ?_ (fun c hc => (hu.2 c hc).1) ?_ ?_
  · intro c hc
    rcases List.mem_append.mp hc with hc | hc
    · exact (hu.2 c hc).2
    · obtain ⟨l, hl, hc⟩ := List.mem_flatten.mp hc
      obtain ⟨y, hy, rfl⟩ := List.mem_map.mp hl
      obtain ⟨htoken, -, hgap⟩ := hrest y hy
      rcases List.mem_append.mp hc with hc | hc
      · exact sep_not_quote c (hgap c hc)
      · exact (htoken.2 c hc).2
  · exact fun y hy => ⟨(hrest y hy).2.1, fun c hc => hsep c ((hrest y hy).2.2 c hc)⟩
  · exact fun y hy => ⟨(hrest y hy).1.1, fun c hc => ((hrest y hy).1.2 c hc).1⟩

/-- Nothing is refused where each of the pieces is read, be it as no number. -/
theorem not_any_zero {f : List Ref} {us : List (List UInt8)} (h : List.Forall₂ (At m) f us)
    (hus : ∀ u ∈ us, ∀ r, At m r u → (toNumber .int m r).2 ≠ 0) :
    ¬ (f.any fun r => (toNumber .int m r).2 = 0) = true := by
  induction h with
  | nil => simp
  | cons hhead htail ih =>
    rw [List.any_cons, Bool.or_eq_true, not_or, decide_eq_true_eq]
    exact ⟨hus _ List.mem_cons_self _ hhead, ih fun u hu => hus u (List.mem_cons_of_mem _ hu)⟩

/-- The numbers of pieces that are padded numbers. -/
theorem num_padded {ys : List (ℕ × ℤ)} (h : List.Forall₂ (At m) (piecesOf m s).f (ys.map padded))
    (hys : ∀ y ∈ ys, Fits y) :
    (piecesOf m s).f.length = ys.length ∧ ¬ ((piecesOf m s).f.any fun r => (toNumber .int m r).2 = 0) = true ∧
      ∀ i (hi : i < ys.length), (piecesOf m s).num i = (ys[i]).2 := by
  have hlen := h.length_eq
  rw [List.length_map] at hlen
  refine ⟨hlen, not_any_zero h fun u hu r hr => ?_, fun i hi => ?_⟩
  · obtain ⟨y, hy, rfl⟩ := List.mem_map.mp hu
    obtain ⟨hz, hw, hw9, hlt⟩ := hys y hy
    have hread := (toNumber_zeroPadded hr hz hw hw9 hlt).2
    omega
  · have hat := at_getD h (i := i) (by simpa using hi)
    rw [List.getElem_map] at hat
    obtain ⟨hz, hw, hw9, hlt⟩ := hys _ (List.getElem_mem hi)
    exact (toNumber_zeroPadded hat hz hw hw9 hlt).1

end Pieces

/-! ### Reading them back -/

/-- A date and a time with a year of four digits above 1000. -/
structure Fields.Printable (f : Fields) : Prop where
  year : 1001 ≤ f.year ∧ f.year ≤ 9999
  month : 1 ≤ f.month ∧ f.month ≤ 12
  day : 1 ≤ f.day ∧ f.day ≤ 31
  hour : 0 ≤ f.hour ∧ f.hour ≤ 23
  minute : 0 ≤ f.minute ∧ f.minute ≤ 59
  second : 0 ≤ f.second ∧ f.second ≤ 59
  millSecond : 0 ≤ f.millSecond ∧ f.millSecond ≤ 999

/-- The separators of a date. -/
def dateSeps : List UInt8 := [Ch.slash, Ch.minus, dot, 0x20]

/-- The separators of a time of day. -/
def timeSeps : List UInt8 := [Ch.colon, Ch.minus, dot]

/-- The numbers of a text with milliseconds. -/
def Fields.numbers (f : Fields) : List (ℕ × ℤ) :=
  [(4, f.year), (2, f.month), (2, f.day), (2, f.hour), (2, f.minute), (2, f.second), (3, f.millSecond)]

theorem Fields.Printable.fits {f : Fields} (h : f.Printable) : ∀ y ∈ f.numbers, Fits y := by
  obtain ⟨hy, hmo, hd, hh, hmi, hs, hms⟩ := h
  simp only [Fields.numbers, Fits, List.forall_mem_cons, List.not_mem_nil, false_implies, implies_true, and_true]
  norm_num
  omega

theorem Fields.Printable.isDate {f : Fields} (h : f.Printable) {num : ℕ → ℤ} (hy : num 0 = f.year)
    (hm : num 1 = f.month) (hd : num 2 = f.day) : IsDate num ∧ dateOf num = (f.year, f.month, f.day) := by
  have := h.year
  have := h.month
  have := h.day
  refine ⟨.inl ⟨by omega, by omega, by omega, by omega, by omega⟩, ?_⟩
  rw [dateOf, if_pos (by omega), hy, hm, hd]

/-- The numbers behind the year, each with the separator before it. -/
def Fields.rest (show_msec : Bool) (sep_date sep_time : UInt8) (f : Fields) : List (List UInt8 × ℕ × ℤ) :=
  [([sep_date], 2, f.month), ([sep_date], 2, f.day), ([0x20], 2, f.hour), ([sep_time], 2, f.minute),
    ([sep_time], 2, f.second)] ++ if show_msec then [([dot], 3, f.millSecond)] else []

/-- How the text of `tos::Timestamp` is made of pieces. -/
theorem timestampText_eq (show_msec : Bool) (sep_date sep_time : UInt8) (f : Fields) :
    timestampText show_msec true sep_date sep_time f =
      joined (padded (4, f.year)) ((f.rest show_msec sep_date sep_time).map fun y => (y.1, padded y.2)) := by
  cases show_msec <;> simp [timestampText, joined, padded, Fields.rest]

/-- The numbers in the text of `tos::Timestamp`. -/
theorem num_timestampText {m : Mem} {p : ℕ} {f : Fields} (hf : f.Printable) (hp : p ≠ 0) {show_msec : Bool}
    {sep_date sep_time : UInt8} (hdate : sep_date ∈ sepChars) (htime : sep_time ∈ sepChars)
    (hold : Holds m p (timestampText show_msec true sep_date sep_time f)) :
    let s : Ref := ⟨p, (timestampText show_msec true sep_date sep_time f).length + 1⟩
    let x := piecesOf m s
    (x.f.length = if show_msec then 7 else 6) ∧ ¬ (x.f.any fun r => (toNumber .int m r).2 = 0) = true ∧
      (x.num 0 = f.year ∧ x.num 1 = f.month ∧ x.num 2 = f.day) ∧
      (x.num 3 = f.hour ∧ x.num 4 = f.minute ∧ x.num 5 = f.second) ∧ (show_msec = true → x.num 6 = f.millSecond) := by
  rw [timestampText_eq] at hold ⊢
  have hfits := hf.fits
  simp only [Fields.numbers, List.forall_mem_cons, List.not_mem_nil, false_implies, implies_true, and_true] at hfits
  obtain ⟨hy, hmo, hd, hh, hmi, hs, hms⟩ := hfits
  have hblank : 0x20 ∈ sepChars := by decide
  have hdot : dot ∈ sepChars := by decide
  have hrest : ∀ y ∈ f.rest show_msec sep_date sep_time, Fits y.2 ∧ y.1 ≠ [] ∧ ∀ c ∈ y.1, c ∈ sepChars := by
    cases show_msec <;> simp [Fields.rest, *]
  have htokens : ∀ y ∈ (f.rest show_msec sep_date sep_time).map fun y => (y.1, padded y.2),
      Token y.2 ∧ y.1 ≠ [] ∧ ∀ c ∈ y.1, c ∈ sepChars := by
    intro y hy
    obtain ⟨z, hz, rfl⟩ := List.mem_map.mp hy
    exact ⟨token_padded (hrest z hz).1, (hrest z hz).2⟩
  have hshort : (joined (padded (4, f.year)) ((f.rest show_msec sep_date sep_time).map
      fun y => (y.1, padded y.2))).length + 1 < 2 ^ 31 := by
    cases show_msec <;>
      simp [joined, Fields.rest, length_padded hy, length_padded hmo, length_padded hd, length_padded hh,
        length_padded hmi, length_padded hs, length_padded hms]
  have hpieces := piecesOf_joined hold hp hshort (by cases show_msec <;> simp [Fields.rest]) (token_padded hy) htokens
  cases show_msec with
  | true =>
    obtain ⟨hlen, hzero, hnum⟩ := num_padded (show List.Forall₂ _ _ (f.numbers.map padded) from hpieces) hf.fits
    have hnum := fun i (hi : i < 7) => hnum i hi
    exact ⟨hlen, hzero, ⟨hnum 0 (by decide), hnum 1 (by decide), hnum 2 (by decide)⟩,
      ⟨hnum 3 (by decide), hnum 4 (by decide), hnum 5 (by decide)⟩, fun _ => hnum 6 (by decide)⟩
  | false =>
    obtain ⟨hlen, hzero, hnum⟩ := num_padded (show List.Forall₂ _ _ (f.numbers.dropLast.map padded) from hpieces)
      fun y hy => hf.fits y (List.mem_of_mem_dropLast hy)
    have hnum := fun i (hi : i < 6) => hnum i hi
    exact ⟨hlen, hzero, ⟨hnum 0 (by decide), hnum 1 (by decide), hnum 2 (by decide)⟩,
      ⟨hnum 3 (by decide), hnum 4 (by decide), hnum 5 (by decide)⟩, fun h => absurd h Bool.false_ne_true⟩

/-- `FromString` reads the text of `tos::Timestamp`. -/
theorem fromString_timestampText {m : Mem} {p : ℕ} {f : Fields} (hf : f.Printable) (hp : p ≠ 0) {show_msec : Bool}
    {sep_date sep_time : UInt8} (hdate : sep_date ∈ sepChars) (htime : sep_time ∈ sepChars)
    (hold : Holds m p (timestampText show_msec true sep_date sep_time f)) (low_bound : Bool) (this : Fields) :
    fromString m ⟨p, (timestampText show_msec true sep_date sep_time f).length + 1⟩ low_bound this =
      ({ f with
          dayOfWeek := 0
          millSecond := if show_msec then f.millSecond else if low_bound then 0 else 999 },
        if show_msec then 7 else 6) := by
  obtain ⟨hlen, hzero, ⟨h0, h1, h2⟩, ⟨h3, h4, h5⟩, h6⟩ := num_timestampText hf hp hdate htime hold
  obtain ⟨hd, hdateOf⟩ := hf.isDate h0 h1 h2
  cases show_msec with
  | true =>
    have hlen7 : _ = 7 := hlen
    rw [fromString, if_neg hzero, if_pos hlen7, Pieces.case7, tryDate_of_date hd, hdateOf, h3, h4, h5, h6 rfl]
    rfl
  | false =>
    have hlen6 : _ = 6 := hlen
    rw [fromString, if_neg hzero, if_neg (by omega), if_pos hlen6, Pieces.case6, tryDate_of_date hd, hdateOf, h3, h4, h5]
    rfl

/-! ### Fixed columns -/

theorem digitAt_of_isDigit {m : Mem} {p : ℕ} {b : UInt8} (hb : m p = b) (h : isDigit b = true) :
    digitAt m p = b.toNat - 48 := by
  obtain ⟨hv, -⟩ := toNum_of_isDigit h
  obtain ⟨hlow, hhigh⟩ := isDigit_iff.mp h
  have hlt : b < 128 := UInt8.lt_iff_toNat_lt.mpr (hhigh.trans_lt (by decide))
  rw [digitAt, hb, schar_of_lt hlt]

/-- Two columns of a padded number. -/
theorem digitAt_two {m : Mem} {p : ℕ} {z : ℤ} (hfits : Fits (2, z)) (h : Holds m p (zeroPadded 2 z)) :
    digitAt m p * 10 + digitAt m (p + 1) = z := by
  have hlen := length_padded hfits
  have hdigit : ∀ b ∈ zeroPadded 2 z, isDigit b = true := fun b hb => isDigit_of_mem_zeroPadded hfits.1 hb
  have hvalue : digitsValue 0 (zeroPadded 2 z) = z.natAbs := digitsValue_zeroPadded hfits.1
  have hz := hfits.1
  rw [padded] at hlen
  generalize zeroPadded 2 z = u at *
  obtain ⟨a, b, rfl⟩ := List.length_eq_two.mp hlen
  simp only [List.forall_mem_cons, List.not_mem_nil, false_implies, implies_true, and_true] at hdigit
  have ha := isDigit_iff.mp hdigit.1
  have hb := isDigit_iff.mp hdigit.2
  rw [digitAt_of_isDigit h.1 hdigit.1, digitAt_of_isDigit h.2.1 hdigit.2]
  simp only [digitsValue, List.foldl_cons, List.foldl_nil] at hvalue
  simp only at hz
  omega

/-- Four columns. -/
theorem digitAt_four {m : Mem} {p : ℕ} {z : ℤ} (hfits : Fits (4, z)) (h : Holds m p (zeroPadded 4 z)) :
    digitAt m p * 1000 + digitAt m (p + 1) * 100 + digitAt m (p + 2) * 10 + digitAt m (p + 3) = z := by
  have hlen := length_padded hfits
  have hdigit : ∀ b ∈ zeroPadded 4 z, isDigit b = true := fun b hb => isDigit_of_mem_zeroPadded hfits.1 hb
  have hvalue : digitsValue 0 (zeroPadded 4 z) = z.natAbs := digitsValue_zeroPadded hfits.1
  have hz := hfits.1
  rw [padded] at hlen
  generalize zeroPadded 4 z = u at *
  obtain ⟨a, u, rfl⟩ := List.exists_cons_of_length_eq_add_one hlen
  obtain ⟨b, c, d, rfl⟩ := List.length_eq_three.mp (Nat.succ.inj hlen)
  simp only [List.forall_mem_cons, List.not_mem_nil, false_implies, implies_true, and_true] at hdigit
  obtain ⟨hda, hdb, hdc, hdd⟩ := hdigit
  have ha := isDigit_iff.mp hda
  have hb := isDigit_iff.mp hdb
  have hc := isDigit_iff.mp hdc
  have hd := isDigit_iff.mp hdd
  rw [digitAt_of_isDigit h.1 hda, digitAt_of_isDigit h.2.1 hdb, digitAt_of_isDigit h.2.2.1 hdc,
    digitAt_of_isDigit h.2.2.2.1 hdd]
  simp only [digitsValue, List.foldl_cons, List.foldl_nil] at hvalue
  simp only at hz
  omega

/-- A point in time that is written in columns. -/
structure Fields.Columned (f : Fields) : Prop where
  year : 0 ≤ f.year ∧ f.year ≤ 9999
  month : 1 ≤ f.month ∧ f.month ≤ 12
  day : 1 ≤ f.day ∧ f.day ≤ 31
  dayOfWeek : 0 ≤ f.dayOfWeek ∧ f.dayOfWeek ≤ 6
  hour : 0 ≤ f.hour ∧ f.hour ≤ 23
  minute : 0 ≤ f.minute ∧ f.minute ≤ 59
  second : 0 ≤ f.second ∧ f.second ≤ 59

theorem length_getMonthName {month : ℤ} (h : 1 ≤ month ∧ month ≤ 12) : (getMonthName month).length = 3 := by
  have hall : ∀ i : Fin 12, (getMonthName (i.val + 1 : ℕ)).length = 3 := by decide
  obtain ⟨n, rfl⟩ := Int.eq_ofNat_of_zero_le (show 0 ≤ month by omega)
  have hlen := hall ⟨n - 1, by omega⟩
  simp only [show n - 1 + 1 = n by omega] at hlen
  exact hlen

/-- The name of a month is told by the sum of its letters. -/
theorem parseMonthName_getMonthName {m : Mem} {p : ℕ} {month : ℤ} (h : 1 ≤ month ∧ month ≤ 12)
    (hold : Holds m p (getMonthName month)) : parseMonthName m p = month := by
  have hall : ∀ i : Fin 12,
      month_hash.getD (((getMonthName (i.val + 1 : ℕ)).map schar).sum.tmod 21).toNat 0 = (i.val + 1 : ℕ) := by
    decide
  have hlen := length_getMonthName h
  obtain ⟨n, rfl⟩ := Int.eq_ofNat_of_zero_le (show 0 ≤ month by omega)
  have hhash := hall ⟨n - 1, by omega⟩
  simp only [show n - 1 + 1 = n by omega] at hhash
  generalize getMonthName (n : ℤ) = u at *
  obtain ⟨a, b, c, rfl⟩ := List.length_eq_three.mp hlen
  rw [parseMonthName, hold.1, hold.2.1, hold.2.2.1]
  simpa [← add_assoc] using hhash

theorem length_getDayOfWeekName {weekday : ℤ} (h : 0 ≤ weekday ∧ weekday ≤ 6) :
    (getDayOfWeekName weekday).length = 3 := by
  have hall : ∀ i : Fin 7, (getDayOfWeekName i.val).length = 3 := by decide
  obtain ⟨n, rfl⟩ := Int.eq_ofNat_of_zero_le h.1
  exact hall ⟨n, by omega⟩

/-- `FromInternetTimeFormat` reads the text of `ToInternetTimeFormat`. -/
theorem fromInternetTimeFormat_toInternetTimeFormat {m : Mem} {p : ℕ} {f : Fields} (hf : f.Columned)
    (hold : Holds m p (toInternetTimeFormat f)) (this : Fields) :
    fromInternetTimeFormat m ⟨p, (toInternetTimeFormat f).length + 1⟩ this =
      ({ f with dayOfWeek := 0, millSecond := 0 }, true) := by
  obtain ⟨hyear, hmonth, hday, hweek, hhour, hminute, hsecond⟩ := hf
  have hy := fits_four hyear
  have hd : Fits (2, f.day) := fits_two (by omega)
  have hh : Fits (2, f.hour) := fits_two (by omega)
  have hmi : Fits (2, f.minute) := fits_two (by omega)
  have hs : Fits (2, f.second) := fits_two (by omega)
  have hlen2 : ∀ {z : ℤ}, Fits (2, z) → (zeroPadded 2 z).length = 2 := fun hz => length_padded hz
  have hlen4 : (zeroPadded 4 f.year).length = 4 := length_padded hy
  have hlenw := length_getDayOfWeekName hweek
  have hlenm := length_getMonthName hmonth
  have hlength : (toInternetTimeFormat f).length = 29 := by
    simp only [toInternetTimeFormat, List.length_append, hlenw, hlen2 hd, hlen2 hh, hlen2 hmi, hlen2 hs, hlen4, hlenm,
      List.length_cons, List.length_nil, Nat.reduceAdd]
  simp only [toInternetTimeFormat, holds_append, List.length_append, hlenw, hlen2 hd, hlen2 hh, hlen2 hmi, hlen2 hs,
    hlen4, hlenm, List.length_cons, List.length_nil, Nat.reduceAdd] at hold
  obtain ⟨⟨⟨⟨⟨⟨⟨⟨⟨⟨⟨⟨⟨-, -⟩, hday⟩, -⟩, hname⟩, -⟩, hyear⟩, -⟩, hhour⟩, -⟩, hminute⟩, -⟩, hsecond⟩, hzone⟩ := hold
  have hgmt : read m (p + 25) 4 = [0x20, 0x47, 0x4d, 0x54] := hzone.read_eq
  rw [fromInternetTimeFormat, if_pos ⟨by rw [hlength]; rfl, hgmt⟩]
  simp only [parseMonthName_getMonthName hmonth hname, digitAt_two hd hday, digitAt_four hy hyear, digitAt_two hh hhour,
    digitAt_two hmi hminute, digitAt_two hs hsecond]

/-- **The round trip.** `FromString` reads the text of `tos::Timestamp` with any of the separators, and
`FromInternetTimeFormat` reads the text of `ToInternetTimeFormat`. -/
theorem text_round_trip (f this : Fields) (m : Mem) (p : ℕ) (hp : p ≠ 0) :
    (f.Printable → ∀ sep_date ∈ dateSeps, ∀ sep_time ∈ timeSeps, ∀ show_msec low_bound,
      Holds m p (timestampText show_msec true sep_date sep_time f) →
        fromString m ⟨p, (timestampText show_msec true sep_date sep_time f).length + 1⟩ low_bound this =
          ({ f with
              dayOfWeek := 0
              millSecond := if show_msec then f.millSecond else if low_bound then 0 else 999 },
            if show_msec then 7 else 6)) ∧
    (f.Columned → Holds m p (toInternetTimeFormat f) →
      fromInternetTimeFormat m ⟨p, (toInternetTimeFormat f).length + 1⟩ this =
        ({ f with dayOfWeek := 0, millSecond := 0 }, true)) := by
  have hdates : ∀ c ∈ dateSeps, c ∈ sepChars := by decide +kernel
  have htimes : ∀ c ∈ timeSeps, c ∈ sepChars := by decide +kernel
  constructor
  · intro hf sep_date hdate sep_time htime show_msec low_bound hold
    exact fromString_timestampText hf hp (hdates _ hdate) (htimes _ htime) hold low_bound this
  · intro hf hold
    refine fromInternetTimeFormat_toInternetTimeFormat hf ?_ this
    assumption

/-- `2015-03-20 12.45.26.007`, and `Fri, 20 Mar 2015 12:45:26 GMT`. -/
theorem text_round_trip_friday :
    let f : Fields := ⟨2015, 3, 20, 5, 12, 45, 26, 7⟩
    let this : Fields := ⟨0, 0, 0, 0, 0, 0, 0, 0⟩
    fromString (ofBytes 1 (timestampText true true Ch.minus dot f)) ⟨1, 24⟩ true this = ({ f with dayOfWeek := 0 }, 7) ∧
      fromInternetTimeFormat (ofBytes 1 (toInternetTimeFormat f)) ⟨1, 30⟩ this =
        ({ f with dayOfWeek := 0, millSecond := 0 }, true) := by
  intro f this
  have hprint : f.Printable := by constructor <;> norm_num [f]
  have hcolumn : f.Columned := by constructor <;> norm_num [f]
  have hlen : (timestampText true true Ch.minus dot f).length = 23 := by decide
  have hnet : (toInternetTimeFormat f).length = 29 := by decide
  have hread := (text_round_trip f this (ofBytes 1 (timestampText true true Ch.minus dot f)) 1 one_ne_zero).1 hprint
    Ch.minus (by decide) dot (by decide) true true
  have hback := (text_round_trip f this (ofBytes 1 (toInternetTimeFormat f)) 1 one_ne_zero).2 hcolumn
  rw [hlen] at hread
  rw [hnet] at hback
  -- the texts are held as they are, not spelled out
  generalize timestampText true true Ch.minus dot f = t at hread ⊢
  generalize toInternetTimeFormat f = u at hback ⊢
  exact ⟨hread (holds_ofBytes 1 t), hback (holds_ofBytes 1 u)⟩

end Cpcf.Os.Timestamp
