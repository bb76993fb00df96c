import Mathlib.Data.List.SplitBy
import Mathlib.Data.List.TakeWhile
import Cpcf.Rt.SplitFields

/-!
`GetNextToken` called again and again: a text is taken apart into tokens, whose characters are in a set, and what is
between them.

The loops look at a byte before they compare the pointer with the end of the text. When the text ends in a token, the
two bytes behind it decide what the last call gives: the first of them becomes a piece of the text if it is not in the
set and the second one is.
-/

namespace Cpcf.Rt.StringRef

open Cpcf.Lib.Memory Cpcf.Lib.Word

/-! ### The calls -/

/-- The place to go on from. -/
def tokenPlace (r token non_token : Ref) : ℕ :=
  if r.p ≤ non_token.stop ∧ non_token.stop ≤ r.stop then non_token.stop
  else if r.p ≤ token.stop ∧ token.stop ≤ r.stop then token.stop
  else r.p

/-- `GetNextToken(token_charset, token, non_token)`: what `token` and `non_token` become, or `none` at the end. -/
def getNextToken (m : Mem) (r : Ref) (set : CharacterSet) (token non_token : Ref) : Option (Ref × Ref) :=
  let start := tokenPlace r token non_token
  let tail := r.stop
  if tail ≤ start then none
  else
    let nontoken_start := scanWhile m set.has start (tail - start)
    if nontoken_start = tail ∧ set.has (m tail) then some (Ref.ofEnds start tail, ⟨0, 0⟩)
    else
      let next := nontoken_start + 1
      let nontoken_end := scanWhile m (fun c => !set.has c) next (tail - next)
      some (Ref.ofEnds start nontoken_start,
        Ref.ofEnds nontoken_start (if tail ≤ nontoken_end ∧ set.has (m nontoken_end) = false then tail
          else nontoken_end))

/-- `while(GetNextToken(token_charset, token, non_token))`: the pairs one after the other, `none` when `n` calls are not
enough. -/
def nextTokens (m : Mem) (r : Ref) (set : CharacterSet) : ℕ → Ref → Ref → Option (List (Ref × Ref))
  | 0, _, _ => none
  | n + 1, token, non_token =>
    match getNextToken m r set token non_token with
    | none => some []
    | some y => (nextTokens m r set n y.1 y.2).map (y :: ·)

attribute [local simp] nextTokens

section

variable {m : Mem} {r : Ref} {set : CharacterSet}

theorem nextTokens_cons {n : ℕ} {x₁ x₂ : Ref} {y : Ref × Ref} {out : List (Ref × Ref)}
    (hy : getNextToken m r set x₁ x₂ = some y) (h : nextTokens m r set (n + 1) x₁ x₂ = some out) :
    ∃ out', nextTokens m r set n y.1 y.2 = some out' ∧ out = y :: out' := by
  rw [nextTokens, hy] at h
  obtain ⟨out', h1, h2⟩ := Option.map_eq_some_iff.mp h
  exact ⟨out', h1, h2.symm⟩

/-- A pair that is given again and again. -/
theorem nextTokens_stuck {y : Ref × Ref} (hy : getNextToken m r set y.1 y.2 = some y) (n : ℕ) :
    nextTokens m r set n y.1 y.2 = none := by
  induction n with
  | zero => rfl
  | succ n ih => simp only [nextTokens, hy, ih, Option.map_none]

theorem nextTokens_stuck_next {x₁ x₂ : Ref} {y : Ref × Ref} (h : getNextToken m r set x₁ x₂ = some y)
    (hy : getNextToken m r set y.1 y.2 = some y) (n : ℕ) : nextTokens m r set n x₁ x₂ = none := by
  cases n with
  | zero => rfl
  | succ n =>
    rw [nextTokens, h]
    simp only
    rw [nextTokens_stuck hy n, Option.map_none]

/-- What is left behind the last pair. -/
structure TokensLeft (m : Mem) (r x₁ x₂ : Ref) (q : ℕ) (rest : List UInt8) : Prop where
  place : tokenPlace r x₁ x₂ = q
  holds : Holds m q rest
  stop : q + rest.length = r.stop
  ge : r.p ≤ q

variable {x₁ x₂ : Ref} {q : ℕ} {a b c : List UInt8}

theorem TokensLeft.next_nil (h : TokensLeft m r x₁ x₂ q []) : getNextToken m r set x₁ x₂ = none := by
  have hstop := h.stop
  rw [List.length_nil] at hstop
  rw [getNextToken, h.place, if_pos (by omega)]

/-- A token that something other than a token follows. -/
theorem TokensLeft.next (h : TokensLeft m r x₁ x₂ q (a ++ (b ++ c))) (ha : ∀ x ∈ a, set.has x = true)
    (hb : ∀ x ∈ b, set.has x = false) (hne : b ≠ []) (hc : ∀ x ∈ c.head?, set.has x = true) :
    getNextToken m r set x₁ x₂ =
      some (Ref.ofEnds q (q + a.length), Ref.ofEnds (q + a.length) (q + a.length + b.length)) := by
  obtain ⟨y, b, rfl⟩ := List.exists_cons_of_ne_nil hne
  have hstop := h.stop
  obtain ⟨hold₁, hold₂⟩ := holds_append.mp h.holds
  obtain ⟨⟨hy, hold₃⟩, hold₄⟩ := holds_append.mp hold₂
  rw [List.length_append, List.length_append, List.length_cons] at hstop
  rw [List.length_cons] at hold₄
  have hout : set.has (m (q + a.length)) = false := by
    rw [hy]
    exact hb y List.mem_cons_self
  have hscan : scanWhile m set.has q (r.stop - q) = q + a.length :=
    scanWhile_eq hold₁ ha (by omega) fun _ => hout
  have hscan' : scanWhile m (fun x => !set.has x) (q + a.length + 1) (r.stop - (q + a.length + 1)) =
      q + a.length + 1 + b.length := by
    refine scanWhile_eq hold₃ (fun x hx => by simp [hb x (List.mem_cons_of_mem _ hx)]) (by omega) ?_
    intro hlt
    cases c with
    | nil =>
      rw [List.length_nil] at hstop
      omega
    | cons z c =>
      have hz := hold₄.1
      have haddr : q + a.length + 1 + b.length = q + a.length + (b.length + 1) := by omega
      rw [haddr, hz, hc z rfl]
      rfl
  have hend : (if r.stop ≤ q + a.length + 1 + b.length ∧ set.has (m (q + a.length + 1 + b.length)) = false then r.stop
      else q + a.length + 1 + b.length) = q + a.length + (b.length + 1) := by
    split
    · omega
    · omega
  rw [getNextToken, h.place, if_neg (by omega), hscan, if_neg (by omega)]
  dsimp only
  rw [hscan', hend, List.length_cons]

/-- A token at the end of the text. -/
theorem TokensLeft.next_last (h : TokensLeft m r x₁ x₂ q a) (ha : ∀ x ∈ a, set.has x = true) (hne : a ≠ []) :
    getNextToken m r set x₁ x₂ = some (Ref.ofEnds q (q + a.length),
      if set.has (m r.stop) then ⟨0, 0⟩
      else Ref.ofEnds r.stop (if set.has (m (r.stop + 1)) then r.stop + 1 else r.stop)) := by
  have hpos := List.length_pos_of_ne_nil hne
  have hstop := h.stop
  have hscan : scanWhile m set.has q (r.stop - q) = r.stop := by
    rw [← hstop, Nat.add_sub_cancel_left]
    exact scanWhile_eq h.holds ha le_rfl fun hlt => absurd hlt (lt_irrefl _)
  rw [getNextToken, h.place, if_neg (by omega), hscan, hstop]
  by_cases htail : set.has (m r.stop) = true
  · rw [if_pos ⟨rfl, htail⟩, if_pos htail]
  · have hzero : r.stop - (r.stop + 1) = 0 := by omega
    rw [if_neg fun hand => htail hand.2, if_neg htail]
    dsimp only
    rw [hzero, scanWhile]
    by_cases hnext : set.has (m (r.stop + 1)) = true
    · rw [if_pos hnext, if_neg fun hand => by simp [hnext] at hand]
    · rw [if_neg hnext, if_pos ⟨by omega, by simpa using hnext⟩]

/-! ### Where the next call goes on -/

theorem tokenPlace_eq (hge : r.p ≤ x₂.stop) (hle : x₂.stop ≤ r.stop) : tokenPlace r x₁ x₂ = x₂.stop := by
  rw [tokenPlace, if_pos ⟨hge, hle⟩]

theorem tokenPlace_null (hp : 0 < r.p) (hge : r.p ≤ x₁.stop) (hle : x₁.stop ≤ r.stop) :
    tokenPlace r x₁ ⟨0, 0⟩ = x₁.stop := by
  have hnull : ¬ (r.p ≤ (Ref.mk 0 0).stop ∧ (Ref.mk 0 0).stop ≤ r.stop) := by
    have h0 : (Ref.mk 0 0).stop = 0 := rfl
    omega
  rw [tokenPlace, if_neg hnull, if_pos ⟨hge, hle⟩]

/-- What was cut off a length that does not go through an `int` leaves an empty reference. -/
theorem ofEnds_getLength_rest {p n : ℕ} (p' : ℕ) (hlt : (Ref.ofEnds p (p + n)).getLength < n) :
    (Ref.ofEnds p' (p' + (n - (Ref.ofEnds p (p + n)).getLength))).getLength = 0 := by
  have hcast : ∀ x y : ℕ, ((x + y : ℕ) : ℤ) - x + 1 = y + 1 := fun x y => by omega
  simp only [Ref.getLength, Ref.ofEnds, hcast, intOf, Int.bmod_def] at hlt ⊢
  split at hlt
  · split
    · omega
    · omega
  · split
    · omega
    · omega

/-! ### The pairs of a text -/

/-- The runs of a text: the longest pieces whose characters are all in the set or all outside it. -/
def runs (set : CharacterSet) (t : List UInt8) : List (List UInt8) := t.splitBy fun x y => set.has x == set.has y

theorem runs_append {s u : List UInt8} (h : ∀ x ∈ s.getLast?, ∀ y ∈ u.head?, set.has x ≠ set.has y) :
    runs set (s ++ u) = runs set s ++ runs set u := by
  refine List.splitBy_append fun x hx y hy => ?_
  simpa using h x hx y hy

theorem runs_run {s : List UInt8} {v : Bool} (hne : s ≠ []) (hs : ∀ x ∈ s, set.has x = v) : runs set s = [s] := by
  refine List.splitBy_of_isChain hne (List.Pairwise.isChain (List.pairwise_of_forall_mem_list ?_))
  intro x hx y hy
  rw [hs x hx, hs y hy]
  exact beq_self_eq_true v

/-- The pairs of a text that does not end in a token. -/
inductive Tokens (set : CharacterSet) : List UInt8 → List (List UInt8 × List UInt8) → Prop
  | nil : Tokens set [] []
  | cons {a b c : List UInt8} {ps : List (List UInt8 × List UInt8)} (ha : ∀ x ∈ a, set.has x = true)
      (hb : ∀ x ∈ b, set.has x = false) (hne : b ≠ []) (hc : ∀ x ∈ c.head?, set.has x = true) (h : Tokens set c ps) :
      Tokens set (a ++ (b ++ c)) ((a, b) :: ps)

theorem exists_span (p : UInt8 → Bool) (t : List UInt8) :
    ∃ a u, t = a ++ u ∧ (∀ x ∈ a, p x = true) ∧ ∀ x ∈ u.head?, p x = false := by
  refine ⟨t.takeWhile p, t.dropWhile p, List.takeWhile_append_dropWhile.symm, ?_, ?_⟩
  · intro x hx
    exact List.mem_takeWhile_imp hx
  · intro x hx
    have := List.head?_dropWhile_not p t
    rw [Option.mem_def.mp hx] at this
    simpa using this

/-- A text is a token at the end of it, or one with something behind it. -/
theorem exists_pair (set : CharacterSet) (t : List UInt8) :
    (∀ x ∈ t, set.has x = true) ∨
      ∃ a b c, t = a ++ (b ++ c) ∧ (∀ x ∈ a, set.has x = true) ∧ (∀ x ∈ b, set.has x = false) ∧ b ≠ [] ∧
        ∀ x ∈ c.head?, set.has x = true := by
  obtain ⟨a, u, rfl, ha, hu⟩ := exists_span set.has t
  obtain ⟨b, c, rfl, hb, hc⟩ := exists_span (fun x => !set.has x) u
  have hb' : ∀ x ∈ b, set.has x = false := fun x hx => by simpa using hb x hx
  have hc' : ∀ x ∈ c.head?, set.has x = true := fun x hx => by simpa using hc x hx
  by_cases hne : b = []
  · left
    rw [hne, List.nil_append] at hu ⊢
    cases c with
    | nil => simpa using ha
    | cons z c =>
      have h1 := hu z rfl
      rw [hc' z rfl] at h1
      cases h1
  · exact Or.inr ⟨a, b, c, rfl, ha, hb', hne, hc'⟩

theorem getLast?_pair {a b c : List UInt8} (hne : b ≠ []) :
    (a ++ (b ++ c)).getLast? = if c = [] then b.getLast? else c.getLast? := by
  split
  · rename_i hc
    rw [hc, List.append_nil, List.getLast?_append_of_ne_nil a hne]
  · rename_i hc
    rw [List.getLast?_append_of_ne_nil a (by simp [hne]), List.getLast?_append_of_ne_nil b hc]

theorem runs_pair (ha : ∀ x ∈ a, set.has x = true) (hb : ∀ x ∈ b, set.has x = false) (hne : b ≠ [])
    (hc : ∀ x ∈ c.head?, set.has x = true) :
    (∀ s ∈ runs set (a ++ (b ++ c)), IntLength s.length) ↔
      IntLength a.length ∧ IntLength b.length ∧ ∀ s ∈ runs set c, IntLength s.length := by
  have htail : runs set (b ++ c) = b :: runs set c := by
    rw [runs_append, runs_run hne hb]
    · rfl
    · intro x hx y hy
      rw [hb x (List.mem_of_getLast? hx), hc y hy]
      exact Bool.false_ne_true
  by_cases ha0 : a = []
  · rw [ha0, List.nil_append, htail, List.forall_mem_cons]
    exact ⟨fun h => ⟨Or.inl (by decide), h⟩, fun h => h.2⟩
  · rw [runs_append, runs_run ha0 ha, htail]
    · simp
    · intro x hx y hy
      obtain ⟨z, b, rfl⟩ := List.exists_cons_of_ne_nil hne
      obtain rfl := Option.some.inj hy
      rw [ha x (List.mem_of_getLast? hx), hb z List.mem_cons_self]
      exact Bool.noConfusion

theorem exists_tokens {t : List UInt8} (h : ∀ x ∈ t.getLast?, set.has x = false) : ∃ ps, Tokens set t ps := by
  induction hn : t.length using Nat.strong_induction_on generalizing t with
  | _ n ih =>
    rcases exists_pair set t with hall | ⟨a, b, c, rfl, ha, hb, hne, hc⟩
    · cases hlast : t.getLast? with
      | none =>
        rw [List.getLast?_eq_none_iff.mp hlast]
        exact ⟨[], .nil⟩
      | some x =>
        have hx := h x hlast
        rw [hall x (List.mem_of_getLast? hlast)] at hx
        cases hx
    · have hpos := List.length_pos_of_ne_nil hne
      rw [List.length_append, List.length_append] at hn
      have hlast : ∀ x ∈ c.getLast?, set.has x = false := by
        intro x hx
        refine h x ?_
        rw [getLast?_pair hne, if_neg fun hc0 => by rw [hc0] at hx; cases hx]
        exact hx
      obtain ⟨ps, hps⟩ := ih c.length (by omega) hlast rfl
      exact ⟨_, .cons ha hb hne hc hps⟩

theorem Tokens.flatMap {t : List UInt8} {ps : List (List UInt8 × List UInt8)} (h : Tokens set t ps) :
    (ps.flatMap fun x => x.1 ++ x.2) = t := by
  induction h with
  | nil => rfl
  | cons ha hb hne hc h ih => rw [List.flatMap_cons, ih, List.append_assoc]

theorem Tokens.mem {t : List UInt8} {ps : List (List UInt8 × List UInt8)} (h : Tokens set t ps) :
    ∀ x ∈ ps, (∀ c ∈ x.1, set.has c = true) ∧ ∀ c ∈ x.2, set.has c = false := by
  induction h with
  | nil => simp
  | cons ha hb hne hc h ih => exact List.forall_mem_cons.mpr ⟨⟨ha, hb⟩, ih⟩

/-! ### All calls -/

/-- The calls yield these pairs one after the other, and then there is none. -/
def YieldsTokens (m : Mem) (r : Ref) (set : CharacterSet) (x₁ x₂ : Ref) (ps : List (List UInt8 × List UInt8)) : Prop :=
  ∃ n out, nextTokens m r set n x₁ x₂ = some out ∧ out.map (fun y => (y.1.text m, y.2.text m)) = ps

/-- Behind a pair whose lengths go through an `int`. -/
theorem TokensLeft.after (h : TokensLeft m r x₁ x₂ q (a ++ (b ++ c))) (hb : IntLength b.length) (y : Ref) :
    TokensLeft m r y (Ref.ofEnds (q + a.length) (q + a.length + b.length)) (q + a.length + b.length) c := by
  have hstop := h.stop
  have hge := h.ge
  rw [List.length_append, List.length_append] at hstop
  have hend : (Ref.ofEnds (q + a.length) (q + a.length + b.length)).stop = q + a.length + b.length := by
    rw [Ref.stop, ofEnds_getLength _ hb, ofEnds_p]
  refine ⟨?_, ?_, by omega, by omega⟩
  · rw [tokenPlace_eq (by omega) (by omega), hend]
  · exact (holds_append.mp (holds_append.mp h.holds).2).2

/-- A text that does not end in a token and whose runs go through an `int` is taken apart, whatever stands behind
it. -/
theorem Tokens.yields {t : List UInt8} {ps : List (List UInt8 × List UInt8)} (h : Tokens set t ps)
    (hruns : ∀ s ∈ runs set t, IntLength s.length) (hleft : TokensLeft m r x₁ x₂ q t) :
    YieldsTokens m r set x₁ x₂ ps := by
  induction h generalizing x₁ x₂ q with
  | nil =>
    refine ⟨1, [], ?_, rfl⟩
    rw [nextTokens, hleft.next_nil]
  | @cons a b c ps ha hb hne hc h ih =>
    obtain ⟨hlen₁, hlen₂, hlen₃⟩ := (runs_pair ha hb hne hc).mp hruns
    have hnext := hleft.next ha hb hne hc
    obtain ⟨hold₁, hold₂⟩ := holds_append.mp hleft.holds
    obtain ⟨n, out, hout, htexts⟩ := ih hlen₃ (hleft.after hlen₂ (Ref.ofEnds q (q + a.length)))
    refine ⟨n + 1, (Ref.ofEnds q (q + a.length), Ref.ofEnds (q + a.length) (q + a.length + b.length)) :: out, ?_, ?_⟩
    · rw [nextTokens, hnext]
      simp only
      rw [hout, Option.map_some]
    · rw [List.map_cons, htexts, (ofEnds_text_iff hold₁).mpr hlen₁,
        (ofEnds_text_iff (holds_append.mp hold₂).1).mpr hlen₂]

/-! ### What follows when all calls make up the text -/

/-- A piece that all passes a test is within the part of a text that ends where the test first fails. -/
theorem split_prefix {f : UInt8 → Bool} {s w a v : List UInt8} (h : s ++ w = a ++ v) (hs : ∀ x ∈ s, f x = true)
    (hv : ∀ x ∈ v.head?, f x = false) : ∃ a', a = s ++ a' ∧ w = a' ++ v := by
  rcases List.append_eq_append_iff.mp h with ⟨a', h1, h2⟩ | ⟨c', h1, h2⟩
  · exact ⟨a', h1, h2⟩
  · cases c' with
    | nil =>
      rw [List.append_nil] at h1
      rw [List.nil_append] at h2
      exact ⟨[], by rw [h1, List.append_nil], by rw [h2, List.nil_append]⟩
    | cons y c' =>
      have h3 := hv y (by rw [h2]; rfl)
      rw [hs y (by rw [h1]; simp)] at h3
      cases h3

/-- What is between the tokens has been cut to an empty text, and the calls do not go on. -/
theorem TokensLeft.stall (h : TokensLeft m r x₁ x₂ q (b ++ c)) (hb : ∀ x ∈ b, set.has x = false) (hne : b ≠ [])
    (hc : ∀ x ∈ c.head?, set.has x = true) (hzero : (Ref.ofEnds q (q + b.length)).getLength = 0) (n : ℕ) :
    nextTokens m r set n x₁ x₂ = none := by
  have hge := h.ge
  have hstop := h.stop
  rw [List.length_append] at hstop
  have hend : (Ref.ofEnds q (q + b.length)).stop = q := by
    rw [Ref.stop, hzero, ofEnds_p, Nat.add_zero]
  have hnext : ∀ {y₁ y₂ : Ref}, TokensLeft m r y₁ y₂ q (b ++ c) →
      getNextToken m r set y₁ y₂ = some (Ref.ofEnds q q, Ref.ofEnds q (q + b.length)) := fun hy =>
    TokensLeft.next (a := []) hy (by simp) hb hne hc
  have hagain : TokensLeft m r (Ref.ofEnds q q) (Ref.ofEnds q (q + b.length)) q (b ++ c) := by
    refine ⟨?_, h.holds, h.stop, h.ge⟩
    rw [tokenPlace_eq (by omega) (by omega), hend]
  exact nextTokens_stuck_next (y := (Ref.ofEnds q q, Ref.ofEnds q (q + b.length))) (hnext h) (hnext hagain) n

/-- The same for a token at the end of the text that goes on behind it. -/
theorem TokensLeft.stall_last (hp : 0 < r.p) (h : TokensLeft m r x₁ x₂ q a) (ha : ∀ x ∈ a, set.has x = true)
    (hne : a ≠ []) (htail : set.has (m r.stop) = true) (hzero : (Ref.ofEnds q (q + a.length)).getLength = 0) (n : ℕ) :
    nextTokens m r set n x₁ x₂ = none := by
  have hge := h.ge
  have hstop := h.stop
  have hend : (Ref.ofEnds q (q + a.length)).stop = q := by
    rw [Ref.stop, hzero, ofEnds_p, Nat.add_zero]
  have hnext : ∀ {y₁ y₂ : Ref}, TokensLeft m r y₁ y₂ q a →
      getNextToken m r set y₁ y₂ = some (Ref.ofEnds q (q + a.length), ⟨0, 0⟩) := by
    intro y₁ y₂ hy
    rw [hy.next_last ha hne, if_pos htail]
  have hagain : TokensLeft m r (Ref.ofEnds q (q + a.length)) ⟨0, 0⟩ q a := by
    refine ⟨?_, h.holds, h.stop, h.ge⟩
    rw [tokenPlace_null hp (by omega) (by omega), hend]
  exact nextTokens_stuck_next (y := (Ref.ofEnds q (q + a.length), ⟨0, 0⟩)) (hnext h) (hnext hagain) n

/-- What the pieces of a run of calls are to be: they make up the text, and are in the set and outside it by turns. -/
structure Pieces (m : Mem) (set : CharacterSet) (out : List (Ref × Ref)) (t : List UInt8) : Prop where
  flatMap : (out.flatMap fun y => y.1.text m ++ y.2.text m) = t
  mem : ∀ y ∈ out, (∀ c ∈ y.1.text m, set.has c = true) ∧ ∀ c ∈ y.2.text m, set.has c = false

/-- The piece from the set is the whole token: were it cut, nothing would stand between it and the rest of the
token. -/
theorem TokensLeft.token_whole {n : ℕ} {t₁ t₂ w : List UInt8} {out : List (Ref × Ref)}
    (h : TokensLeft m r x₁ x₂ q (a ++ (b ++ c))) (ha : ∀ x ∈ a, set.has x = true) (hb : ∀ x ∈ b, set.has x = false)
    (hne : b ≠ []) (hc : ∀ x ∈ c.head?, set.has x = true)
    (hout : nextTokens m r set n (Ref.ofEnds q (q + a.length)) (Ref.ofEnds (q + a.length) (q + a.length + b.length)) =
      some out)
    (ht₂ : (Ref.ofEnds (q + a.length) (q + a.length + b.length)).text m = t₂)
    (hflat : t₁ ++ (t₂ ++ w) = a ++ (b ++ c)) (htok : ∀ x ∈ t₁, set.has x = true) (hnon : ∀ x ∈ t₂, set.has x = false) :
    t₁ = a ∧ t₂ ++ w = b ++ c := by
  have hge := h.ge
  have hstop := h.stop
  rw [List.length_append, List.length_append] at hstop
  have hbc : ∀ x ∈ (b ++ c).head?, set.has x = false := by
    intro x hx
    obtain ⟨z, b, rfl⟩ := List.exists_cons_of_ne_nil hne
    obtain rfl := Option.some.inj hx
    exact hb z List.mem_cons_self
  obtain ⟨a', ha', hmore⟩ := split_prefix hflat htok hbc
  have ha0 : a' = [] := by
    by_contra hcut
    obtain ⟨y, as, hy⟩ := List.exists_cons_of_ne_nil hcut
    have hnil : t₂ = [] := by
      cases ht : t₂ with
      | nil => rfl
      | cons x u =>
        rw [ht, hy, List.cons_append, List.cons_append] at hmore
        have hx := hnon x (by rw [ht]; exact List.mem_cons_self)
        rw [(List.cons.inj hmore).1, ha y (by rw [ha', hy]; simp)] at hx
        cases hx
    have hzero : (Ref.ofEnds (q + a.length) (q + a.length + b.length)).getLength = 0 := by
      have := congrArg List.length (ht₂.trans hnil)
      rwa [Ref.text, length_read] at this
    have hend : (Ref.ofEnds (q + a.length) (q + a.length + b.length)).stop = q + a.length := by
      rw [Ref.stop, hzero, ofEnds_p, Nat.add_zero]
    have hleft : TokensLeft m r (Ref.ofEnds q (q + a.length)) (Ref.ofEnds (q + a.length) (q + a.length + b.length))
        (q + a.length) (b ++ c) := by
      refine ⟨?_, (holds_append.mp h.holds).2, by rw [List.length_append]; omega, by omega⟩
      rw [tokenPlace_eq (by omega) (by omega), hend]
    rw [hleft.stall hb hne hc hzero] at hout
    cases hout
  rw [ha0, List.append_nil] at ha'
  rw [ha0, List.nil_append] at hmore
  exact ⟨ha'.symm, hmore⟩

/-- The other piece is all that stands before the next token: were it cut, the next call would not go on. -/
theorem TokensLeft.rest_whole {n : ℕ} {t₂ w : List UInt8} {out : List (Ref × Ref)} {y : Ref}
    (h : TokensLeft m r x₁ x₂ q (a ++ (b ++ c))) (hb : ∀ x ∈ b, set.has x = false)
    (hc : ∀ x ∈ c.head?, set.has x = true)
    (hout : nextTokens m r set n y (Ref.ofEnds (q + a.length) (q + a.length + b.length)) = some out)
    (ht₂ : (Ref.ofEnds (q + a.length) (q + a.length + b.length)).text m = t₂)
    (hflat : t₂ ++ w = b ++ c) (hnon : ∀ x ∈ t₂, set.has x = false) : t₂ = b ∧ w = c := by
  have hge := h.ge
  have hstop := h.stop
  rw [List.length_append, List.length_append] at hstop
  obtain ⟨b', hb', hw⟩ := split_prefix (f := fun x => !set.has x) hflat (fun x hx => by simp [hnon x hx])
    (fun x hx => by simp [hc x hx])
  have hb0 : b' = [] := by
    by_contra hcut
    have hlen := congrArg List.length hb'
    have hpos := List.length_pos_of_ne_nil hcut
    have hcutlen : t₂.length = (Ref.ofEnds (q + a.length) (q + a.length + b.length)).getLength := by
      rw [← ht₂, Ref.text, length_read]
    rw [List.length_append] at hlen
    have hzero := ofEnds_getLength_rest (p := q + a.length) (n := b.length) (q + a.length + t₂.length) (by omega)
    have hrest : b.length - (Ref.ofEnds (q + a.length) (q + a.length + b.length)).getLength = b'.length := by omega
    rw [hrest] at hzero
    have hend : (Ref.ofEnds (q + a.length) (q + a.length + b.length)).stop = q + a.length + t₂.length := by
      rw [Ref.stop, ← hcutlen, ofEnds_p]
    have hleft : TokensLeft m r y (Ref.ofEnds (q + a.length) (q + a.length + b.length)) (q + a.length + t₂.length)
        (b' ++ c) := by
      refine ⟨?_, ?_, by rw [List.length_append]; omega, by omega⟩
      · rw [tokenPlace_eq (by omega) (by omega), hend]
      · have hold := (holds_append.mp h.holds).2
        rw [hb', List.append_assoc, holds_append] at hold
        exact hold.2
    have hb'mem : ∀ x ∈ b', set.has x = false := fun x hx => hb x (by rw [hb']; exact List.mem_append_right _ hx)
    rw [hleft.stall hb'mem hcut hc hzero] at hout
    cases hout
  rw [hb0, List.append_nil] at hb'
  rw [hb0, List.nil_append] at hw
  exact ⟨hb'.symm, hw⟩

/-- A pair of pieces is the token and all that stands before the next one. -/
theorem TokensLeft.pair {n : ℕ} {out : List (Ref × Ref)} (h : TokensLeft m r x₁ x₂ q (a ++ (b ++ c)))
    (ha : ∀ x ∈ a, set.has x = true) (hb : ∀ x ∈ b, set.has x = false) (hne : b ≠ [])
    (hc : ∀ x ∈ c.head?, set.has x = true)
    (hout : nextTokens m r set n (Ref.ofEnds q (q + a.length)) (Ref.ofEnds (q + a.length) (q + a.length + b.length)) =
      some out)
    (hpieces : Pieces m set ((Ref.ofEnds q (q + a.length),
      Ref.ofEnds (q + a.length) (q + a.length + b.length)) :: out) (a ++ (b ++ c))) :
    IntLength a.length ∧ IntLength b.length ∧ Pieces m set out c := by
  obtain ⟨hflat, hmem⟩ := hpieces
  obtain ⟨⟨htok, hnon⟩, hrest⟩ := List.forall_mem_cons.mp hmem
  obtain ⟨hold₁, hold₂⟩ := holds_append.mp h.holds
  rw [List.flatMap_cons, List.append_assoc] at hflat
  obtain ⟨h1, hmore⟩ := h.token_whole ha hb hne hc hout rfl hflat htok hnon
  obtain ⟨h2, hout'⟩ := h.rest_whole hb hc hout rfl hmore hnon
  exact ⟨(ofEnds_text_iff hold₁).mp h1, (ofEnds_text_iff (holds_append.mp hold₂).1).mp h2, hout', hrest⟩

theorem text_ofEnds_self (m : Mem) (p : ℕ) : (Ref.ofEnds p p).text m = [] :=
  (ofEnds_text_iff (t := []) (holds_nil (m := m) (p := p))).mpr (Or.inl (by decide))

/-- A token that goes on behind the end of the text is one piece: were it cut, an empty one would be found again and
again behind the cut. -/
theorem TokensLeft.last_whole {n : ℕ} {u : List UInt8} {out : List (Ref × Ref)} (hp : 0 < r.p)
    (h : TokensLeft m r x₁ x₂ q a) (ha : ∀ x ∈ a, set.has x = true) (htail : set.has (m r.stop) = true)
    (hout : nextTokens m r set n (Ref.ofEnds q (q + a.length)) ⟨0, 0⟩ = some out)
    (hflat : (Ref.ofEnds q (q + a.length)).text m ++ u = a) : IntLength a.length := by
  have hge := h.ge
  have hstop := h.stop
  have hlen : ((Ref.ofEnds q (q + a.length)).text m).length = (Ref.ofEnds q (q + a.length)).getLength :=
    length_read _ _ _
  have hsum := congrArg List.length hflat
  rw [List.length_append, hlen] at hsum
  rw [← ofEnds_getLength_iff q]
  by_contra hcut
  have hlt : (Ref.ofEnds q (q + a.length)).getLength < a.length := by omega
  have hzero := ofEnds_getLength_rest (q + (Ref.ofEnds q (q + a.length)).getLength) hlt
  have hend : (Ref.ofEnds q (q + a.length)).stop = q + (Ref.ofEnds q (q + a.length)).getLength := rfl
  have hold := h.holds
  rw [← hflat, holds_append, hlen] at hold
  have hu : a.length - (Ref.ofEnds q (q + a.length)).getLength = u.length := by omega
  have hleft : TokensLeft m r (Ref.ofEnds q (q + a.length)) ⟨0, 0⟩
      (q + (Ref.ofEnds q (q + a.length)).getLength) u := by
    refine ⟨?_, hold.2, by omega, by omega⟩
    rw [tokenPlace_null hp (by omega) (by omega), hend]
  have hune : u ≠ [] := fun hnil => by rw [hnil, List.length_nil] at hu; omega
  rw [hu] at hzero
  rw [hleft.stall_last hp (fun x hx => ha x (by rw [← hflat]; exact List.mem_append_right _ hx)) hune htail hzero]
    at hout
  cases hout

/-- A token that ends with the text is one piece, as there is no call behind it. -/
theorem TokensLeft.last_stops {n : ℕ} {out : List (Ref × Ref)} (h : TokensLeft m r x₁ x₂ q a)
    (hout : nextTokens m r set n (Ref.ofEnds q (q + a.length)) (Ref.ofEnds r.stop r.stop) = some out)
    (hflat : (Ref.ofEnds q (q + a.length)).text m ++ (out.flatMap fun x => x.1.text m ++ x.2.text m) = a) :
    IntLength a.length := by
  have hge := h.ge
  have hstop := h.stop
  have hend : (Ref.ofEnds r.stop r.stop).stop = r.stop := by
    have hzero := congrArg List.length (text_ofEnds_self m r.stop)
    rw [Ref.text, length_read, List.length_nil] at hzero
    rw [Ref.stop, hzero, ofEnds_p, Nat.add_zero]
  have hleft : TokensLeft m r (Ref.ofEnds q (q + a.length)) (Ref.ofEnds r.stop r.stop) r.stop [] := by
    refine ⟨?_, holds_nil, rfl, by omega⟩
    rw [tokenPlace_eq (by omega) (by omega), hend]
  cases n with
  | zero => cases hout
  | succ n =>
    rw [nextTokens, hleft.next_nil] at hout
    obtain rfl := Option.some.inj hout
    rw [List.flatMap_nil, List.append_nil] at hflat
    exact (ofEnds_text_iff h.holds).mp hflat

/-- A token at the end of the text is one piece, and the bytes behind it do not matter. -/
theorem TokensLeft.last {n : ℕ} {out : List (Ref × Ref)} (hp : 0 < r.p) (h : TokensLeft m r x₁ x₂ q a)
    (ha : ∀ x ∈ a, set.has x = true) (hne : a ≠ []) (hout : nextTokens m r set n x₁ x₂ = some out)
    (hpieces : Pieces m set out a) :
    IntLength a.length ∧ (set.has (m r.stop) = false → set.has (m (r.stop + 1)) = false) := by
  have hnext := h.next_last ha hne
  cases n with
  | zero => cases hout
  | succ n =>
    obtain ⟨out', hout', rfl⟩ := nextTokens_cons hnext hout
    obtain ⟨hflat, -⟩ := hpieces
    rw [List.flatMap_cons, List.append_assoc] at hflat
    by_cases htail : set.has (m r.stop) = true
    · rw [if_pos htail] at hout' hflat
      exact ⟨h.last_whole hp ha htail hout' hflat, fun hf => by rw [htail] at hf; cases hf⟩
    · have htail' : set.has (m r.stop) = false := by simpa using htail
      rw [if_neg htail] at hout' hflat
      by_cases hnext' : set.has (m (r.stop + 1)) = true
      · -- the byte behind the text would be a piece of it
        rw [if_pos hnext'] at hflat
        have hbyte : (Ref.ofEnds r.stop (r.stop + 1)).text m = [m r.stop] :=
          (ofEnds_text_iff (t := [m r.stop]) ⟨rfl, trivial⟩).mpr (Or.inl (by simp))
        rw [hbyte] at hflat
        rw [ha (m r.stop) (by rw [← hflat]; simp)] at htail'
        cases htail'
      · rw [if_neg hnext'] at hout' hflat
        rw [text_ofEnds_self, List.nil_append] at hflat
        exact ⟨h.last_stops hout' hflat, fun _ => by simpa using hnext'⟩

/-- Calls that make up the text: the runs of the text go through an `int`, and the bytes behind a token at its end do
not matter. -/
theorem TokensLeft.of_pieces {n : ℕ} {t : List UInt8} {out : List (Ref × Ref)} (hp : 0 < r.p)
    (h : TokensLeft m r x₁ x₂ q t) (hout : nextTokens m r set n x₁ x₂ = some out) (hpieces : Pieces m set out t) :
    (∀ s ∈ runs set t, IntLength s.length) ∧
      ∀ x ∈ t.getLast?, set.has x = true → set.has (m r.stop) = false → set.has (m (r.stop + 1)) = false := by
  induction n generalizing x₁ x₂ q t out with
  | zero => cases hout
  | succ n ih =>
    rcases exists_pair set t with hall | ⟨a, b, c, rfl, ha, hb, hne, hc⟩
    · by_cases hnil : t = []
      · rw [hnil]
        exact ⟨by simp [runs], by simp⟩
      · obtain ⟨h1, h2⟩ := h.last hp hall hnil hout hpieces
        rw [runs_run hnil hall]
        exact ⟨by simpa using h1, fun x _ _ => h2⟩
    · obtain ⟨out', hout', rfl⟩ := nextTokens_cons (h.next ha hb hne hc) hout
      obtain ⟨h1, h2, hrest⟩ := h.pair ha hb hne hc hout' hpieces
      obtain ⟨h3, h4⟩ := ih (h.after h2 _) hout' hrest
      refine ⟨(runs_pair ha hb hne hc).mpr ⟨h1, h2, h3⟩, fun x hx => ?_⟩
      rw [getLast?_pair hne] at hx
      split at hx
      · intro hset
        rw [hb x (List.mem_of_getLast? hx)] at hset
        cases hset
      · exact h4 x hx

end

/-! ### The tokens of a text -/

/-- Whatever stands behind the text, the calls give the same pairs; these make up the text, and their parts are in the
set and outside it. -/
def Tokenised (set : CharacterSet) (p : ℕ) (t : List UInt8) : Prop :=
  ∃ ps : List (List UInt8 × List UInt8), (ps.flatMap fun x => x.1 ++ x.2) = t ∧
    (∀ x ∈ ps, (∀ c ∈ x.1, set.has c = true) ∧ ∀ c ∈ x.2, set.has c = false) ∧
    ∀ m, Holds m p t → YieldsTokens m ⟨p, t.length + 1⟩ set ⟨0, 0⟩ ⟨0, 0⟩ ps

section

variable {set : CharacterSet} {p : ℕ} {t : List UInt8}

theorem tokensLeft_first {m : Mem} (hp : 0 < p) (h : Holds m p t) :
    TokensLeft m ⟨p, t.length + 1⟩ ⟨0, 0⟩ ⟨0, 0⟩ p t := by
  refine ⟨?_, h, rfl, le_rfl⟩
  have hnull : ¬ (p ≤ (Ref.mk 0 0).stop ∧ (Ref.mk 0 0).stop ≤ (Ref.mk p (t.length + 1)).stop) := by
    have h0 : (Ref.mk 0 0).stop = 0 := rfl
    omega
  rw [tokenPlace, if_neg hnull, if_neg hnull]

theorem Tokenised.pieces {m : Mem} (hp : 0 < p) (h : Tokenised set p t) (hold : Holds m p t) :
    (∀ s ∈ runs set t, IntLength s.length) ∧
      ∀ x ∈ t.getLast?, set.has x = true → set.has (m (p + t.length)) = false →
        set.has (m (p + t.length + 1)) = false := by
  obtain ⟨ps, hflat, hmem, hall⟩ := h
  obtain ⟨n, out, hout, rfl⟩ := hall m hold
  rw [List.flatMap_map] at hflat
  rw [List.forall_mem_map] at hmem
  exact (tokensLeft_first hp hold).of_pieces hp hout ⟨hflat, hmem⟩

/-- A text that ends in a token and is followed by two bytes of which only the second is in the set. -/
theorem not_tokenised_of_last (hp : 0 < p) {x : UInt8} (hx : x ∈ t.getLast?) (hset : set.has x = true) :
    ¬ Tokenised set p t := by
  intro h
  have hold := holds_ofBytes p (t ++ [0, x])
  rw [holds_append] at hold
  obtain ⟨h1, h2, h3, -⟩ := hold
  have hzero : set.has 0 = false := rfl
  have := (h.pieces hp h1).2 x hx hset (by rw [h2]; exact hzero)
  rw [h3, hset] at this
  cases this

/-- A text is taken apart into its tokens and what is between them exactly when it does not end in a token and the
lengths of its runs go through an `int`. -/
theorem nextTokens_tokenised_iff (hp : 0 < p) :
    Tokenised set p t ↔ (∀ x ∈ t.getLast?, set.has x = false) ∧ ∀ s ∈ runs set t, IntLength s.length := by
  constructor
  · intro h
    refine ⟨fun x hx => ?_, (h.pieces hp (holds_ofBytes p t)).1⟩
    by_contra hset
    exact not_tokenised_of_last hp hx (by simpa using hset) h
  · rintro ⟨hlast, hruns⟩
    obtain ⟨ps, hps⟩ := exists_tokens hlast
    exact ⟨ps, hps.flatMap, hps.mem, fun m hold => hps.yields hruns (tokensLeft_first hp hold)⟩

/-- `ab+ c.` with the letters as tokens. -/
theorem nextTokens_tokenised_iff_letters :
    Tokenised (CharacterSet.init [0x61, 0x62, 0x63] [0x61, 0x62, 0x63]) 1 [0x61, 0x62, 0x2b, 0x20, 0x63, 0x2e] := by
  refine (nextTokens_tokenised_iff Nat.one_pos).mpr ⟨fun x hx => ?_, by decide⟩
  obtain rfl : 0x2e = x := Option.some.inj hx
  rfl

/-- The text `a`, followed by `.a`, is given as the token `a` and the dot behind it; followed by zero bytes, as the
token alone. -/
theorem nextTokens_tokenised_fails :
    YieldsTokens (ofBytes 1 [0x61, 0x2e, 0x61]) ⟨1, 2⟩ (CharacterSet.single 0x61) ⟨0, 0⟩ ⟨0, 0⟩ [([0x61], [0x2e])] ∧
      YieldsTokens (ofBytes 1 [0x61]) ⟨1, 2⟩ (CharacterSet.single 0x61) ⟨0, 0⟩ ⟨0, 0⟩ [([0x61], [])] ∧
      ¬ Tokenised (CharacterSet.single 0x61) 1 [0x61] := by
  refine ⟨⟨3, [(⟨1, 2⟩, ⟨2, 2⟩)], by rfl, by rfl⟩, ⟨2, [(⟨1, 2⟩, ⟨2, 1⟩)], by rfl, by rfl⟩, ?_⟩
  exact not_tokenised_of_last Nat.one_pos (x := 0x61) rfl (by decide)

end

end Cpcf.Rt.StringRef
