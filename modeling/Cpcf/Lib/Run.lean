import Mathlib.Tactic

/-!
Runs of a machine that takes labelled steps.

A machine is a step function `σ → α → Option σ`: the label says who moves and what the environment
answers, and `none` says that the step cannot be taken. A state is reached under a condition on the
steps when some run leads to it all of whose steps meet the condition. What one step preserves, a
run preserves.
-/

namespace Cpcf.Lib.Run

variable {σ α : Type*}

/-- The state after a list of steps. -/
def run (step : σ → α → Option σ) : σ → List α → Option σ
  | s, [] => some s
  | s, a :: as => (step s a).bind fun t => run step t as

attribute [local simp] run

/-- The states reached from `init` by steps that meet the condition `ok`. -/
inductive Reachable (step : σ → α → Option σ) (ok : σ → α → Prop) (init : σ) : σ → Prop
  | start : Reachable step ok init init
  | next {s t : σ} {a : α} : Reachable step ok init s → ok s a → step s a = some t → Reachable step ok init t

/-- No condition on the steps. -/
def anyStep : σ → α → Prop := fun _ _ => True

/-- All steps of a run meet the condition `ok`. -/
def Along (step : σ → α → Option σ) (ok : σ → α → Prop) : σ → List α → Prop
  | _, [] => True
  | s, a :: as => ok s a ∧ ∀ t ∈ step s a, Along step ok t as

instance decidableAlong (step : σ → α → Option σ) (ok : σ → α → Prop) [∀ s a, Decidable (ok s a)] :
    ∀ s as, Decidable (Along step ok s as)
  | _, [] => isTrue trivial
  | s, a :: as =>
    have : ∀ t, Decidable (Along step ok t as) := fun t => decidableAlong step ok t as
    inferInstanceAs (Decidable (ok s a ∧ ∀ t ∈ step s a, Along step ok t as))

section

variable {step : σ → α → Option σ} {ok : σ → α → Prop} {init : σ}

/-- **The rule of invariants.** -/
theorem Reachable.invariant {I : σ → Prop} {s : σ} (h : Reachable step ok init s) (h0 : I init)
    (hstep : ∀ s a t, I s → ok s a → step s a = some t → I t) : I s := by
  induction h with
  | start => exact h0
  | next _ hok hst ih => exact hstep _ _ _ ih hok hst

/-- A run whose steps meet the condition is a way to reach its last state. -/
theorem Reachable.of_run {s t : σ} (h : Reachable step ok init s) (as : List α) (hok : Along step ok s as)
    (hr : run step s as = some t) : Reachable step ok init t := by
  induction as generalizing s with
  | nil =>
    simp only [run, Option.some.injEq] at hr
    exact hr ▸ h
  | cons a as ih =>
    obtain ⟨u, hu, hr⟩ := Option.bind_eq_some_iff.mp hr
    exact ih (h.next hok.1 hu) (hok.2 u hu) hr

theorem along_anyStep (s : σ) (as : List α) : Along step anyStep s as := by
  induction as generalizing s with
  | nil => trivial
  | cons a as ih => exact ⟨trivial, fun t _ => ih t⟩

/-- Any run is a way to reach its last state. -/
theorem reachable_of_run {t : σ} (as : List α) (hr : run step init as = some t) : Reachable step anyStep init t :=
  Reachable.start.of_run as (along_anyStep init as) hr

/-- A step meets the condition if and only if it keeps the invariant: a run whose steps all meet it is one all of
whose states have the invariant. `J` is what is always kept. -/
theorem along_iff_prefixes {I J : σ → Prop} (hnone : ∀ s a, step s a = none → ok s a)
    (hstep : ∀ s a t, J s → I s → step s a = some t → J t ∧ (I t ↔ ok s a)) {s : σ} (hJ : J s) (hI : I s) (as : List α) :
    Along step ok s as ↔ ∀ bs t, bs <+: as → run step s bs = some t → I t := by
  induction as generalizing s with
  | nil =>
    refine iff_of_true trivial ?_
    intro bs t hbs hr
    obtain rfl := List.prefix_nil.mp hbs
    exact Option.some.inj hr ▸ hI
  | cons a as ih =>
    constructor
    · intro h bs t hbs hr
      obtain rfl | ⟨cs, rfl, hcs⟩ := List.prefix_cons_iff.mp hbs
      · exact Option.some.inj hr ▸ hI
      · obtain ⟨u, hu, hr⟩ := Option.bind_eq_some_iff.mp hr
        obtain ⟨hJu, hiff⟩ := hstep s a u hJ hI hu
        exact (ih hJu (hiff.mpr h.1)).mp (h.2 u hu) cs t hcs hr
    · intro h
      have hfirst : ∀ u, step s a = some u → I u := by
        intro u hu
        exact h [a] u (List.prefix_append [a] as) (by rw [run, hu]; rfl)
      refine ⟨?_, ?_⟩
      · cases hs : step s a with
        | none => exact hnone s a hs
        | some u => exact (hstep s a u hJ hI hs).2.mp (hfirst u hs)
      · intro u hu
        have hu : step s a = some u := hu
        refine (ih (hstep s a u hJ hI hu).1 (hfirst u hu)).mpr ?_
        intro bs t hbs hr
        exact h (a :: bs) t (List.cons_prefix_cons.mpr ⟨rfl, hbs⟩) (by rw [run, hu]; exact hr)

/-- **The rule of simulations.** What is related stays related along a run whose steps meet the condition, and each step
of it can be taken. -/
theorem Along.simulates {τ : Type*} {R : σ → τ → Prop} (next : τ → α → τ)
    (hstep : ∀ s q a, R s q → ok s a → ∃ t, step s a = some t ∧ R t (next q a)) (as : List α) : ∀ {s : σ} {q : τ},
    R s q → Along step ok s as → ∃ t, run step s as = some t ∧ R t (as.foldl next q) := by
  induction as with
  | nil => exact fun {s} {q} h _ => ⟨s, rfl, h⟩
  | cons a as ih =>
    intro s q h hok
    obtain ⟨u, hu, hR⟩ := hstep s q a h hok.1
    obtain ⟨t, ht, hRt⟩ := ih hR (hok.2 u hu)
    exact ⟨t, by rw [run, hu, Option.bind_some, ht], hRt⟩

end

end Cpcf.Lib.Run
