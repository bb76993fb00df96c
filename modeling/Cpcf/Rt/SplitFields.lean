import Cpcf.Rt.StringRef

/-!
`Split` over a text without quotation marks.

Where the fields start and end is told by the text alone. A field is a `String_Ref` made of the two ends, so its
length goes through an `int`; that is the only way the fields of `Split<false>` can differ from the texts between the
separators. `Split<true>` takes separators that stand together for one.
-/

namespace Cpcf.Rt.StringRef

open Cpcf.Lib.Memory Cpcf.Lib.Word

/-! ### The ends of the fields -/

/-- The ends of the fields of a text at `p`, in a field from `start` on. With `skip` a separator belongs to the one
before it. -/
def pieces (sep : UInt8 → Bool) (merge : Bool) : ℕ → ℕ → Bool → List UInt8 → List (ℕ × ℕ)
  | start, p, _, [] => [(start, p)]
  | start, p, skip, c :: t =>
    if sep c then
      if skip then pieces sep merge (p + 1) (p + 1) true t
      else (start, p) :: pieces sep merge (p + 1) (p + 1) merge t
    else pieces sep merge start (p + 1) false t

section

variable {m : Mem} {sep : UInt8 → Bool} {merge : Bool}

theorem pieces_bounds {start p : ℕ} (skip : Bool) (t : List UInt8) (hstart : start ≤ p) {x : ℕ × ℕ}
    (hx : x ∈ pieces sep merge start p skip t) : start ≤ x.1 ∧ x.1 ≤ x.2 ∧ x.2 ≤ p + t.length := by
  induction t generalizing start p skip with
  | nil =>
    rw [pieces, List.mem_singleton] at hx
    rw [hx]
    exact ⟨le_rfl, hstart, le_rfl⟩
  | cons c t ih =>
    rw [pieces] at hx
    rw [List.length_cons]
    split at hx
    · split at hx
      · have := ih true le_rfl hx
        omega
      · rcases List.mem_cons.mp hx with rfl | hx
        · simp only
          omega
        · have := ih merge le_rfl hx
          omega
    · have := ih false (by omega) hx
      omega

/-- What the loop over adjacent separators leaves. -/
theorem pieces_skip (sep : UInt8 → Bool) (merge : Bool) {p : ℕ} {t : List UInt8} (h : Holds m p t) :
    ∃ u, u.length ≤ t.length ∧ (∀ c ∈ u, c ∈ t) ∧ Holds m (scanWhile m sep p t.length) u ∧
      scanWhile m sep p t.length + u.length = p + t.length ∧
      pieces sep merge p p true t =
        pieces sep merge (scanWhile m sep p t.length) (scanWhile m sep p t.length) false u := by
  induction t generalizing p with
  | nil => exact ⟨[], le_rfl, fun c hc => hc, trivial, rfl, rfl⟩
  | cons c t ih =>
    obtain ⟨hc, ht⟩ := h
    rw [List.length_cons, scanWhile, hc]
    by_cases hsep : sep c = true
    · obtain ⟨u, hle, hmem, hu, hlen, heq⟩ := ih ht
      rw [if_pos hsep]
      refine ⟨u, by omega, fun b hb => List.mem_cons_of_mem _ (hmem b hb), hu, by omega, ?_⟩
      rw [pieces, if_pos hsep, if_pos rfl]
      exact heq
    · rw [if_neg hsep]
      refine ⟨c :: t, le_rfl, fun b hb => hb, ⟨hc, ht⟩, rfl, ?_⟩
      rw [pieces, pieces, if_neg hsep, if_neg hsep]

/-- Without quotation marks the loop finds the fields of the text. -/
theorem splitLoop_eq {quote1 quote2 : UInt8} {seps : CharacterSet} {n count start p : ℕ} {t : List UInt8}
    (h : Holds m p t) (hq : ∀ c ∈ t, c ≠ quote1 ∧ c ≠ quote2) (hn : t.length < n) (hcount : 0 < count) :
    splitLoop m (p + t.length) merge quote1 quote2 seps n count start p 0 =
      ((pieces seps.has merge start p false t).take count).map fun x => field m quote1 quote2 x.1 x.2 := by
  induction n generalizing count start p t with
  | zero => omega
  | succ n ih =>
    obtain ⟨k, rfl⟩ : ∃ k, count = k + 1 := ⟨count - 1, by omega⟩
    rw [splitLoop, if_neg fun hc => hc.2 rfl]
    cases t with
    | nil =>
      rw [List.length_nil, Nat.add_zero, if_neg fun hc => absurd hc.1 (lt_irrefl p),
        if_neg fun hc => absurd hc.1 (lt_irrefl p), pieces]
      simp
    | cons c t =>
      obtain ⟨hc, ht⟩ := h
      have hqc := hq c List.mem_cons_self
      have hqt : ∀ b ∈ t, b ≠ quote1 ∧ b ≠ quote2 := fun b hb => hq b (List.mem_cons_of_mem _ hb)
      have hlt : p < p + (c :: t).length := by rw [List.length_cons]; omega
      have htail : p + (c :: t).length = p + 1 + t.length := by rw [List.length_cons]; omega
      rw [List.length_cons] at hn
      rw [hc, if_neg fun hor => hor.2.elim hqc.1 fun heq => hqc.2 heq.symm, pieces]
      by_cases hsep : seps.has c = true
      · have hnot : ¬ (p < p + (c :: t).length ∧ seps.has c = false) := fun hand => by simp [hsep] at hand
        rw [if_neg hnot, if_pos hsep, if_neg Bool.false_ne_true, List.take_succ_cons, List.map_cons]
        simp only
        by_cases hk : k = 0
        · rw [if_pos (Or.inl (by omega)), hk, List.take_zero, List.map_nil]
        · rw [if_neg (by omega), Nat.add_sub_cancel, htail, Nat.add_sub_cancel_left]
          congr 1
          cases merge with
          | false =>
            rw [if_neg Bool.false_ne_true]
            exact ih ht hqt (by omega) (by omega)
          | true =>
            obtain ⟨u, hle, hmem, hu, hlen, heq⟩ := pieces_skip seps.has true ht
            rw [if_pos rfl, heq, ← hlen]
            exact ih hu (fun b hb => hqt b (hmem b hb)) (by omega) (by omega)
      · rw [if_pos ⟨hlt, by simpa using hsep⟩, if_neg hsep, htail]
        exact ih ht hqt (by omega) (by omega)

/-- A field that does not start with a quotation mark. -/
theorem field_eq {quote1 quote2 : UInt8} {start p : ℕ} (h : start < p → m start ≠ quote1 ∧ m start ≠ quote2)
    (hle : start ≤ p) : field m quote1 quote2 start p = Ref.ofEnds start p := by
  rw [field]
  refine if_neg ?_
  rintro ⟨hlen, -, hquote⟩
  rcases Nat.lt_or_eq_of_le hle with hlt | rfl
  · exact hquote.elim (h hlt).1 (h hlt).2
  · have hzero : (Ref.ofEnds start start).getLength = 0 := ofEnds_getLength (n := 0) start (Or.inl (by decide))
    omega

/-- `Split` without quotation marks. -/
theorem split_eq {r : Ref} {quote1 quote2 : UInt8} {count : ℕ} {seps : CharacterSet} (hne : ¬ r.isEmpty = true)
    (hq : ∀ c ∈ r.text m, c ≠ quote1 ∧ c ≠ quote2) (hcount : 0 < count) :
    split m r merge quote1 quote2 count seps =
      ((pieces seps.has merge r.p r.p false (r.text m)).take count).map fun x => Ref.ofEnds x.1 x.2 := by
  have hlen : (r.text m).length = r.getLength := length_read _ _ _
  have hold : Holds m r.p (r.text m) := holds_read _ _ _
  rw [split, if_neg hne, Ref.stop, ← hlen, splitLoop_eq hold hq (Nat.lt_succ_self _) hcount]
  apply List.map_congr_left
  intro x hx
  obtain ⟨h1, h2, h3⟩ := pieces_bounds false _ le_rfl (List.mem_of_mem_take hx)
  refine field_eq (fun hlt => ?_) h2
  have hbyte := hold.get (i := x.1 - r.p) (by omega)
  rw [Nat.add_sub_cancel' h1] at hbyte
  rw [hbyte]
  exact hq _ (List.getElem_mem _)

end

/-! ### `Split<true>` -/

/-- A text of pieces: the first one, and then each of the others with the separators before it. -/
def joined (u : List UInt8) (rest : List (List UInt8 × List UInt8)) : List UInt8 :=
  u ++ (rest.map fun x => x.1 ++ x.2).flatten

/-- `r` refers to the text `u`. -/
def At (m : Mem) (r : Ref) (u : List UInt8) : Prop := Holds m r.p u ∧ r.len = u.length + 1

theorem at_ofEnds {m : Mem} {p : ℕ} {u : List UInt8} (h : Holds m p u) (hlen : u.length + 1 < 2 ^ 31) :
    At m (Ref.ofEnds p (p + u.length)) u := by
  have hcast : ((p + u.length : ℕ) : ℤ) - p + 1 = u.length + 1 := by omega
  refine ⟨h, ?_⟩
  rw [Ref.ofEnds, hcast, intOf_eq (by omega) (by omega)]
  simp only
  omega

/-- Up to the end of a piece nothing is split off. -/
theorem pieces_piece {sep : UInt8 → Bool} {u : List UInt8} (hu : ∀ c ∈ u, sep c = false) (start p : ℕ)
    (t : List UInt8) : pieces sep true start p false (u ++ t) = pieces sep true start (p + u.length) false t := by
  induction u generalizing p with
  | nil => rfl
  | cons c u ih =>
    rw [List.cons_append, pieces, hu c List.mem_cons_self, if_neg Bool.false_ne_true,
      ih (fun b hb => hu b (List.mem_cons_of_mem _ hb)), List.length_cons, Nat.add_assoc, Nat.add_comm 1]

/-- Separators behind a separator are left out. -/
theorem pieces_gap {sep : UInt8 → Bool} {g : List UInt8} (hg : ∀ c ∈ g, sep c = true) (p : ℕ) {b : UInt8}
    (hb : sep b = false) (t : List UInt8) :
    pieces sep true p p true (g ++ b :: t) = pieces sep true (p + g.length) (p + g.length) false (b :: t) := by
  induction g generalizing p with
  | nil =>
    rw [List.nil_append, pieces, pieces, hb, if_neg Bool.false_ne_true, if_neg Bool.false_ne_true]
    rfl
  | cons c g ih =>
    rw [List.cons_append, pieces, hg c List.mem_cons_self, if_pos rfl, if_pos rfl,
      ih (fun b hb => hg b (List.mem_cons_of_mem _ hb)), List.length_cons, Nat.add_assoc, Nat.add_comm 1]

/-- The pieces of a text that is made of them. -/
theorem pieces_joined {m : Mem} {sep : UInt8 → Bool} {p : ℕ} {u : List UInt8} {rest : List (List UInt8 × List UInt8)}
    (hold : Holds m p (joined u rest)) (hlen : (joined u rest).length + 1 < 2 ^ 31) (hu : ∀ c ∈ u, sep c = false)
    (hgaps : ∀ x ∈ rest, x.1 ≠ [] ∧ ∀ c ∈ x.1, sep c = true)
    (hrest : ∀ x ∈ rest, x.2 ≠ [] ∧ ∀ c ∈ x.2, sep c = false) :
    List.Forall₂ (At m) ((pieces sep true p p false (joined u rest)).map fun x => Ref.ofEnds x.1 x.2)
      (u :: rest.map Prod.snd) := by
  induction rest generalizing u p with
  | nil =>
    have hsame : joined u [] = u := by simp [joined]
    rw [hsame] at hold hlen ⊢
    rw [← List.append_nil u, pieces_piece hu, pieces, List.append_nil]
    exact .cons (at_ofEnds hold hlen) .nil
  | cons x rest ih =>
    obtain ⟨g, v⟩ := x
    obtain ⟨hgne, hg⟩ := hgaps _ List.mem_cons_self
    obtain ⟨hvne, hv⟩ := hrest _ List.mem_cons_self
    obtain ⟨c, g, rfl⟩ := List.exists_cons_of_ne_nil hgne
    obtain ⟨b, v, rfl⟩ := List.exists_cons_of_ne_nil hvne
    have hsplit : joined u ((c :: g, b :: v) :: rest) = u ++ c :: (g ++ b :: (joined v rest)) := by simp [joined]
    rw [hsplit] at hold hlen ⊢
    obtain ⟨hhead, -, htail⟩ := holds_append.mp hold
    have hnext := (holds_append.mp htail).2
    rw [List.length_append, List.length_cons, List.length_append] at hlen
    rw [pieces_piece hu, pieces, hg c List.mem_cons_self, if_pos rfl, if_neg Bool.false_ne_true,
      pieces_gap (fun b hb => hg b (List.mem_cons_of_mem _ hb)) _ (hv b List.mem_cons_self), List.map_cons]
    have hsame : b :: joined v rest = joined (b :: v) rest := rfl
    rw [hsame] at hlen hnext ⊢
    exact .cons (at_ofEnds hhead (by omega)) (ih hnext (by omega) hv
      (fun x hx => hgaps x (List.mem_cons_of_mem _ hx)) fun x hx => hrest x (List.mem_cons_of_mem _ hx))

/-- `Split<true>` of a text of at most `count` pieces gives the pieces. -/
theorem split_joined {m : Mem} {p count : ℕ} {u : List UInt8} {rest : List (List UInt8 × List UInt8)}
    {seps : CharacterSet} (hold : Holds m p (joined u rest)) (hp : p ≠ 0) (hne : u ≠ [])
    (hlen : (joined u rest).length + 1 < 2 ^ 31) (hcount : rest.length < count)
    (hq : ∀ c ∈ joined u rest, c ≠ Ch.dquote ∧ c ≠ Ch.squote) (hu : ∀ c ∈ u, seps.has c = false)
    (hgaps : ∀ x ∈ rest, x.1 ≠ [] ∧ ∀ c ∈ x.1, seps.has c = true)
    (hrest : ∀ x ∈ rest, x.2 ≠ [] ∧ ∀ c ∈ x.2, seps.has c = false) :
    List.Forall₂ (At m) (split m ⟨p, (joined u rest).length + 1⟩ true Ch.dquote Ch.squote count seps)
      (u :: rest.map Prod.snd) := by
  have htext : Ref.text ⟨p, (joined u rest).length + 1⟩ m = joined u rest := hold.read_eq
  have hpos : 0 < (joined u rest).length := by
    rw [joined, List.length_append]
    exact Nat.add_pos_left (List.length_pos_iff.mpr hne) _
  have hpieces := pieces_joined hold hlen hu hgaps hrest
  have hfew := hpieces.length_eq
  rw [List.length_map, List.length_cons, List.length_map] at hfew
  rw [split_eq ((Ref.not_isEmpty_iff _).mpr ⟨hp, by simp only; omega⟩) (by rw [htext]; exact hq) (by omega), htext,
    List.take_of_length_le (by simp only; omega)]
  exact hpieces

/-! ### `Split<false>` -/

/-- The fields stand one behind the other from `p` on, with a byte between them, and these are their texts. -/
def Laid (m : Mem) : ℕ → List Ref → List (List UInt8) → Prop
  | _, [], [] => True
  | p, v :: vs, t :: ts => v.p = p ∧ v.text m = t ∧ Laid m (p + t.length + 1) vs ts
  | _, _, _ => False

theorem Laid.texts {m : Mem} {p : ℕ} {vs : List Ref} {ts : List (List UInt8)} (h : Laid m p vs ts) :
    vs.map (fun v => v.text m) = ts := by
  induction vs generalizing p ts with
  | nil =>
    cases ts with
    | nil => rfl
    | cons t ts => exact h.elim
  | cons v vs ih =>
    cases ts with
    | nil => exact h.elim
    | cons t ts =>
      obtain ⟨-, hv, hvs⟩ := h
      rw [List.map_cons, hv, ih hvs]

theorem ofEnds_text_iff {m : Mem} {p : ℕ} {t : List UInt8} (h : Holds m p t) :
    (Ref.ofEnds p (p + t.length)).text m = t ↔ IntLength t.length := by
  constructor
  · intro ht
    have hlen := congrArg List.length ht
    rw [Ref.text, length_read] at hlen
    exact (ofEnds_getLength_iff p _).mp hlen
  · intro ht
    rw [Ref.text, ofEnds_getLength p ht, ofEnds_p]
    exact h.read_eq

/-- The fields are the texts between the separators when their lengths go through an `int`. -/
theorem laid_pieces_iff {m : Mem} {sep : UInt8 → Bool} {start p : ℕ} (pre : List UInt8) {t : List UInt8} (count : ℕ)
    (h : Holds m start (pre ++ t)) (hp : p = start + pre.length) (hpre : ∀ c ∈ pre, sep c = false) :
    Laid m start (((pieces sep false start p false t).take count).map fun x => Ref.ofEnds x.1 x.2)
        (((pre ++ t).splitOnP sep).take count) ↔
      ∀ u ∈ ((pre ++ t).splitOnP sep).take count, IntLength u.length := by
  induction t generalizing start p pre count with
  | nil =>
    rw [List.append_nil] at h ⊢
    rw [List.splitOnP_eq_singleton hpre, pieces, hp]
    cases count with
    | zero => simp [Laid]
    | succ k => simp [Laid, ofEnds_text_iff h, ofEnds_p]
  | cons c t ih =>
    rw [pieces]
    by_cases hsep : sep c = true
    · obtain ⟨hfield, -, hrest⟩ := holds_append.mp h
      rw [if_pos hsep, if_neg Bool.false_ne_true, List.splitOnP_append_cons_of_forall_mem hpre c hsep]
      cases count with
      | zero => simp [Laid]
      | succ k =>
        rw [← hp] at hrest
        have hnext := ih (p := p + 1) [] k hrest rfl (by simp)
        rw [List.nil_append] at hnext
        rw [List.take_succ_cons, List.take_succ_cons, List.map_cons, Laid, List.forall_mem_cons, ofEnds_p, hp,
          ofEnds_text_iff hfield, ← hp, hnext]
        simp
    · rw [if_neg hsep]
      have hmove : pre ++ c :: t = pre ++ [c] ++ t := by simp
      rw [hmove] at h ⊢
      refine ih (pre ++ [c]) count h (by rw [List.length_append, List.length_singleton]; omega) ?_
      intro b hb
      rcases List.mem_append.mp hb with hb | hb
      · exact hpre b hb
      · rw [List.mem_singleton.mp hb]
        simpa using hsep

theorem length_splitOnP (sep : UInt8 → Bool) (t : List UInt8) : (t.splitOnP sep).length = t.countP sep + 1 := by
  induction t with
  | nil => rfl
  | cons c t ih =>
    rw [List.splitOnP_cons_eq_if_modifyHead, List.countP_cons]
    split
    · rw [List.length_cons, ih]
    · rw [List.length_modifyHead, ih]

theorem length_pieces (sep : UInt8 → Bool) (start p : ℕ) (t : List UInt8) :
    (pieces sep false start p false t).length = t.countP sep + 1 := by
  induction t generalizing start p with
  | nil => rfl
  | cons c t ih =>
    rw [pieces, List.countP_cons]
    split
    · rw [if_neg Bool.false_ne_true, List.length_cons, ih]
    · exact ih start (p + 1)

theorem mem_read_const {b c : UInt8} {p n : ℕ} (hc : c ∈ read (fun _ => b) p n) : c = b := by
  induction n generalizing p with
  | zero => simp [Cpcf.Lib.Memory.read] at hc
  | succ n ih =>
    rcases List.mem_cons.mp hc with rfl | hc
    · rfl
    · exact ih hc

/-- What `Split<false>` returns: as many fields as there are texts between the separators or room for, each of them
such a text at its place; when none is left out, the fields and the separators make up the text. -/
structure Separated (m : Mem) (r : Ref) (count : ℕ) (seps : CharacterSet) (fields : List Ref) : Prop where
  length : fields.length = min count ((r.text m).countP seps.has + 1)
  laid : Laid m r.p fields (((r.text m).splitOnP seps.has).take count)
  rebuild : (r.text m).countP seps.has + 1 ≤ count →
    (List.zipWith (· ++ ·) (fields.map fun v => v.text m)
      (((r.text m).filter seps.has).map (fun c => [c]) ++ [[]])).flatten = r.text m

/-- `Split<false>` gives the texts between the separators exactly when the length of each of them goes through an
`int`. -/
theorem split_separated_iff {m : Mem} {r : Ref} {count : ℕ} {seps : CharacterSet} (hne : ¬ r.isEmpty = true)
    (hq : ∀ c ∈ r.text m, c ≠ Ch.dquote ∧ c ≠ Ch.squote) (hcount : 1 ≤ count) :
    Separated m r count seps (split m r false Ch.dquote Ch.squote count seps) ↔
      ∀ u ∈ ((r.text m).splitOnP seps.has).take count, IntLength u.length := by
  have hlaid : Laid m r.p (((pieces seps.has false r.p r.p false (r.text m)).take count).map
      fun x => Ref.ofEnds x.1 x.2) (((r.text m).splitOnP seps.has).take count) ↔ _ :=
    laid_pieces_iff [] count (holds_read m r.p r.getLength) rfl (by simp)
  rw [split_eq hne hq hcount]
  constructor
  · rintro ⟨-, h, -⟩
    exact hlaid.mp h
  · intro h
    have hall := hlaid.mpr h
    refine ⟨?_, hall, fun hfits => ?_⟩
    · rw [List.length_map, List.length_take, length_pieces]
    · rw [hall.texts, List.take_of_length_le]
      · exact List.splitOnP_spec _
      · rw [length_splitOnP]
        exact hfits

/-- `a,,b` is split at its commas. -/
theorem split_separated_iff_commas :
    let m := ofBytes 1 [0x61, 0x2c, 0x2c, 0x62]
    Separated m ⟨1, 5⟩ 3 (CharacterSet.single 0x2c)
        (split m ⟨1, 5⟩ false Ch.dquote Ch.squote 3 (CharacterSet.single 0x2c)) ∧
      ((Ref.text ⟨1, 5⟩ m).splitOnP (CharacterSet.single 0x2c).has).take 3 = [[0x61], [], [0x62]] := by
  have htext : Ref.text ⟨1, 5⟩ (ofBytes 1 [0x61, 0x2c, 0x2c, 0x62]) = [0x61, 0x2c, 0x2c, 0x62] := by decide
  have hquotes : ∀ c ∈ Ref.text ⟨1, 5⟩ (ofBytes 1 [0x61, 0x2c, 0x2c, 0x62]), c ≠ Ch.dquote ∧ c ≠ Ch.squote := by
    rw [htext]
    simp [Ch.dquote, Ch.squote]
  exact ⟨(split_separated_iff (by decide) hquotes (by decide)).mpr (by decide), by decide⟩

/-- A text of one field whose length does not go through an `int`. -/
theorem not_separated_of_long {n : ℕ} (hpos : 0 < n) (hn : ¬ IntLength n) :
    ¬ Separated (fun _ => 0x61) ⟨1, n + 1⟩ 1 (CharacterSet.single 0x2c)
      (split (fun _ => 0x61) ⟨1, n + 1⟩ false Ch.dquote Ch.squote 1 (CharacterSet.single 0x2c)) := by
  have hbytes : ∀ c ∈ read (fun _ => 0x61) 1 n, c = 0x61 := fun c hc => mem_read_const hc
  have hsep : ∀ c ∈ read (fun _ => 0x61) 1 n, (CharacterSet.single 0x2c).has c = false := by
    intro c hc
    rw [hbytes c hc]
    decide
  have hquote : ∀ c ∈ read (fun _ => 0x61) 1 n, c ≠ Ch.dquote ∧ c ≠ Ch.squote := by
    intro c hc
    rw [hbytes c hc]
    decide
  have hne : ¬ (Ref.isEmpty ⟨1, n + 1⟩) = true := (Ref.not_isEmpty_iff _).mpr ⟨Nat.one_ne_zero, by simp only; omega⟩
  rintro ⟨-, h, -⟩
  rw [split_eq hne hquote Nat.one_pos] at h
  have hlong := (laid_pieces_iff [] 1 (holds_read _ 1 n) rfl (by simp)).mp h
  rw [List.nil_append, List.splitOnP_eq_singleton hsep] at hlong
  have hlen := hlong (read (fun _ => 0x61) 1 n) (by simp)
  rw [length_read] at hlen
  exact hn hlen

/-- The length of a field of `2 ^ 31 - 1` bytes becomes a negative `int`. -/
theorem split_separated_fails :
    ¬ Separated (fun _ => 0x61) ⟨1, 2147483648⟩ 1 (CharacterSet.single 0x2c)
      (split (fun _ => 0x61) ⟨1, 2147483648⟩ false Ch.dquote Ch.squote 1 (CharacterSet.single 0x2c)) :=
  not_separated_of_long (n := 2147483647) (by decide) (by decide)

end Cpcf.Rt.StringRef
