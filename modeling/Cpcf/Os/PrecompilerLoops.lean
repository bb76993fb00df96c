import Cpcf.Os.PrecompilerInclude
import Mathlib.Logic.Relation
import Mathlib.Data.Finset.Card

/-!
That `os::Precompiler::_Compile` returns, enters each file at most once and notices loops.

The number of files not yet entered bounds how deep the calls are nested. A file is finished after those that it
includes, so along a loop without `#pragma once` some file is not finished, and that one was broken off.
-/

namespace Cpcf.Os.Include

open Cpcf.Rt Cpcf.Rt.Lines

variable (env : Env)

/-! ### What a file includes -/

/-- The file has a `#pragma once`. -/
def HasOnce (f : Text) : Prop := ∃ source, env.files.lookup f = some source ∧ Item.once ∈ items env source

/-- The loader has the file. -/
def isFile (f : Text) : Bool := (env.files.lookup f).isSome

/-- `f` has an include directive that stands for `g`. -/
def Includes (f g : Text) : Prop := ∃ source first name last t, env.files.lookup f = some source ∧
  .includes first name last t ∈ items env source ∧ isPair first last = true ∧
  (candidates env f first name).find? (isFile env) = some g

/-- `f` has an include directive that is reported, as one that is not written properly or stands for no file. -/
def BadInclude (st : State) (f : Text) : Prop := ∃ source first name last t, env.files.lookup f = some source ∧
  .includes first name last t ∈ items env source ∧
  (isPair first last = false ∧ .illegalInclude t ∈ st.errors ∨
    (candidates env f first name).find? (isFile env) = none ∧ .notFound (env.subsitute name) ∈ st.errors)

/-- `f` includes a file that is reported as looped, which includes `f` through others or was broken off itself. -/
def Looped (st : State) (f : Text) : Prop := ∃ g, Includes env f g ∧ .looped g ∈ st.errors ∧
  (Relation.ReflTransGen (Includes env) g f ∨ g ∈ st.broken)

/-- Every file that was entered has come to its end, or `f` is compiled for it. -/
def Open (st : State) (f : Text) : Prop :=
  ∀ g ∈ st.entered, g ∈ st.finished ∨ g ∈ st.broken ∨ Relation.ReflTransGen (Includes env) g f

/-- What holds of the state at any time. -/
structure Inv (st : State) : Prop where
  nodup : st.entered.Nodup
  mem : ∀ f, f ∈ st.entered ↔ f ∈ st.compiled
  file : ∀ f ∈ st.compiled, isFile env f = true
  once : ∀ f c, st.compiled.lookup f = some c → c.once = true → HasOnce env f
  final : ∀ f c, st.compiled.lookup f = some c → (c.finalized = true ↔ f ∈ st.finished)
  finished : ∀ f ∈ st.finished, f ∈ st.compiled
  /-- What a file includes was done before it, apart from what is included once. -/
  order : ∀ l₁ f l₂, st.finished = l₁ ++ f :: l₂ → ∀ g, Includes env f g → HasOnce env g ∨ g ∈ l₁ ∨ g ∈ st.broken
  broken : ∀ f ∈ st.broken, BadInclude env st f ∨ Looped env st f

/-- One state comes after another. -/
structure Extends (st st' : State) : Prop where
  compiled : ∀ f ∈ st.compiled, f ∈ st'.compiled
  errors : st.errors ⊆ st'.errors
  finished : st.finished ⊆ st'.finished
  broken : st.broken ⊆ st'.broken
  /-- What was entered has come to its end, one way or the other. -/
  settled : ∀ f ∈ st'.entered, f ∈ st.entered ∨ f ∈ st'.finished ∨ f ∈ st'.broken

variable {env} {st st' st'' : State} {filename : Text}

theorem Extends.refl (st : State) : Extends st st :=
  ⟨fun _ => id, fun _ => id, fun _ => id, fun _ => id, fun _ => .inl⟩

theorem Extends.trans (h : Extends st st') (h' : Extends st' st'') : Extends st st'' := by
  refine ⟨fun f hf => h'.compiled f (h.compiled f hf), fun e he => h'.errors (h.errors he),
    fun f hf => h'.finished (h.finished hf), fun f hf => h'.broken (h.broken hf), fun f hf => ?_⟩
  rcases h'.settled f hf with hf | hf | hf
  · rcases h.settled f hf with hf | hf | hf
    · exact .inl hf
    · exact .inr (.inl (h'.finished hf))
    · exact .inr (.inr (h'.broken hf))
  · exact .inr (.inl hf)
  · exact .inr (.inr hf)

theorem reported_mono {f : Text} (h : BadInclude env st f ∨ Looped env st f) (he : st.errors ⊆ st'.errors)
    (hb : st.broken ⊆ st'.broken) : BadInclude env st' f ∨ Looped env st' f := by
  rcases h with ⟨source, first, name, last, t, hs, hmem, hbad⟩ | ⟨g, hg, hl, hback⟩
  · exact .inl ⟨source, first, name, last, t, hs, hmem, hbad.imp (.imp_right (he ·)) (.imp_right (he ·))⟩
  · exact .inr ⟨g, hg, he hl, hback.imp_right (hb ·)⟩

theorem Open.mono {f : Text} (h : Open env st f) (he : Extends st st') : Open env st' f := by
  intro g hg
  rcases he.settled g hg with hg | hg | hg
  · rcases h g hg with hg | hg | hg
    · exact .inl (he.finished hg)
    · exact .inr (.inl (he.broken hg))
    · exact .inr (.inr hg)
  · exact .inl hg
  · exact .inr (.inl hg)

theorem Open.into {f g : Text} (h : Open env st f) (hg : Includes env f g) : Open env st g := by
  intro x hx
  rcases h x hx with hx | hx | hx
  · exact .inl hx
  · exact .inr (.inl hx)
  · exact .inr (.inr (hx.tail hg))

/-! ### Small changes -/

theorem mem_insert_of_lookup {l : AList fun _ : Text => Code} {c c' : Code} {f g : Text} (h : l.lookup f = some c) :
    g ∈ l.insert f c' ↔ g ∈ l := by
  rw [AList.mem_insert]
  constructor
  · rintro (rfl | hg)
    · exact AList.lookup_isSome.mp (by simp [h])
    · exact hg
  · exact .inr

/-- A change to the contents of a file, or to a mark that it bears rightly. -/
theorem Inv.modify (h : Inv env st) (filename : Text) (f : Code → Code)
    (honce : ∀ c, (f c).once = true → c.once = true ∨ HasOnce env filename)
    (hfinal : ∀ c, (f c).finalized = c.finalized) : Inv env (st.modify filename f) ∧ Extends st (st.modify filename f) := by
  unfold State.modify
  split
  · exact ⟨h, Extends.refl st⟩
  · rename_i c hc
    have hlook : ∀ g c', (st.compiled.insert filename (f c)).lookup g = some c' →
        g = filename ∧ c' = f c ∨ g ≠ filename ∧ st.compiled.lookup g = some c' := by
      intro g c' hg
      by_cases hgf : g = filename
      · subst hgf
        rw [AList.lookup_insert, Option.some.injEq] at hg
        exact .inl ⟨rfl, hg.symm⟩
      · rw [AList.lookup_insert_ne hgf] at hg
        exact .inr ⟨hgf, hg⟩
    refine ⟨⟨h.nodup, fun g => ?_, fun g hg => ?_, fun g c' hg ho => ?_, fun g c' hg => ?_,
      fun g hg => (mem_insert_of_lookup hc).mpr (h.finished g hg), h.order, h.broken⟩,
      ⟨fun g hg => (mem_insert_of_lookup hc).mpr hg, fun _ => id, fun _ => id, fun _ => id, fun _ => .inl⟩⟩
    · rw [mem_insert_of_lookup hc]
      exact h.mem g
    · exact h.file g ((mem_insert_of_lookup hc).mp hg)
    · rcases hlook g c' hg with ⟨rfl, rfl⟩ | ⟨-, hg⟩
      · rcases honce c ho with ho | ho
        · exact h.once _ c hc ho
        · exact ho
      · exact h.once g c' hg ho
    · rcases hlook g c' hg with ⟨rfl, rfl⟩ | ⟨-, hg⟩
      · rw [hfinal]
        exact h.final _ c hc
      · exact h.final g c' hg

theorem Inv.append (h : Inv env st) (filename piece : Text) :
    Inv env (st.append filename piece) ∧ Extends st (st.append filename piece) :=
  h.modify filename _ (fun _ ho => .inl ho) fun _ => rfl

theorem Inv.printError (h : Inv env st) (e : Error) : Inv env (st.printError e) ∧ Extends st (st.printError e) := by
  refine ⟨⟨h.nodup, h.mem, h.file, h.once, h.final, h.finished, h.order, fun f hf => ?_⟩,
    ⟨fun _ => id, List.subset_append_left _ _, fun _ => id, fun _ => id, fun _ => .inl⟩⟩
  exact reported_mono (h.broken f hf) (List.subset_append_left _ _) fun _ => id

/-! ### The calls -/

/-- What is known of a call of `_Compile` for a file that was not entered. -/
def CompileSpec (env : Env) (f : Text → Text → State → Option (State × Text)) : Prop :=
  ∀ name source st st' c, f name source st = some (st', c) → name ∉ st.compiled →
    env.files.lookup name = some source → Inv env st → Open env st name →
    Inv env st' ∧ Extends st st' ∧ name ∈ st'.entered

variable {f : Text → Text → State → Option (State × Text)} {name text : Text} {ret : Int}

/-- The file has been dealt with. -/
def Dealt (env : Env) (st : State) (g : Text) : Prop := HasOnce env g ∨ g ∈ st.finished ∨ g ∈ st.broken

theorem Looped.mono {g : Text} (h : Looped env st g) (he : Extends st st') : Looped env st' g := by
  obtain ⟨x, hx, hl, hback⟩ := h
  exact ⟨x, hx, he.errors hl, hback.imp_right (he.broken ·)⟩

theorem Dealt.mono {g : Text} (h : Dealt env st g) (he : Extends st st') : Dealt env st' g := by
  rcases h with h | h | h
  · exact .inl h
  · exact .inr (.inl (he.finished h))
  · exact .inr (.inr (he.broken h))

theorem merge_spec (hf : CompileSpec env f) (h : Inv env st) (ho : Open env st filename)
    (hinc : isFile env name = true → Includes env filename name)
    (hm : mergeIncludedFile env f name st = some (st', ret, text)) : Inv env st' ∧ Extends st st' ∧
      (ret = 0 ∧ isFile env name = false ∨ ret = 1 ∧ isFile env name = true ∧ Dealt env st' name ∨
        ret = -1 ∧ isFile env name = true ∧ Looped env st' filename) := by
  unfold mergeIncludedFile at hm
  split at hm
  · rename_i c hc
    have hfile := h.file name (AList.lookup_isSome.mp (by simp [hc]))
    split at hm
    · rename_i honce
      cases hm
      exact ⟨h, Extends.refl _, .inr (.inl ⟨rfl, hfile, .inl (h.once name c hc honce)⟩)⟩
    · split at hm
      · rename_i hfin
        cases hm
        exact ⟨h, Extends.refl _, .inr (.inl ⟨rfl, hfile, .inr (.inl ((h.final name c hc).mp hfin))⟩)⟩
      · rename_i hfin
        cases hm
        obtain ⟨hi, he⟩ := h.printError (.looped name)
        have hopen : Relation.ReflTransGen (Includes env) name filename ∨ name ∈ st.broken := by
          rcases ho name ((h.mem name).mpr (AList.lookup_isSome.mp (by simp [hc]))) with hn | hn | hn
          · exact absurd ((h.final name c hc).mpr hn) hfin
          · exact .inr hn
          · exact .inl hn
        exact ⟨hi, he, .inr (.inr ⟨rfl, hfile, name, hinc hfile, by simp [State.printError], hopen⟩)⟩
  · rename_i hc
    split at hm
    · rename_i hnone
      cases hm
      exact ⟨h, Extends.refl _, .inl ⟨rfl, by simp [isFile, hnone]⟩⟩
    · rename_i source hsource
      obtain ⟨⟨st₁, content⟩, hcall, hp⟩ := Option.map_eq_some_iff.mp hm
      have hfile : isFile env name = true := by simp [isFile, hsource]
      obtain ⟨hi, he, hin⟩ := hf name source st st₁ content hcall (AList.lookup_eq_none.mp hc) hsource h
        (ho.into (hinc hfile))
      have hnew : name ∈ st₁.finished ∨ name ∈ st₁.broken := by
        refine (he.settled name hin).resolve_left fun hold => ?_
        rw [h.mem, ← AList.lookup_isSome, hc] at hold
        simp at hold
      -- a warning changes nothing else
      have hst : Inv env st' ∧ Extends st st' ∧ Dealt env st' name := by
        simp only [Prod.mk.injEq] at hp
        obtain ⟨rfl, -, -⟩ := hp
        split
        · exact ⟨⟨hi.nodup, hi.mem, hi.file, hi.once, hi.final, hi.finished, hi.order, hi.broken⟩,
            ⟨he.compiled, he.errors, he.finished, he.broken, he.settled⟩, .inr hnew⟩
        · exact ⟨hi, he, .inr hnew⟩
      simp only [Prod.mk.injEq] at hp
      exact ⟨hst.1, hst.2.1, .inr (.inl ⟨hp.2.1.symm, hfile, hst.2.2⟩)⟩

theorem search_spec (hf : CompileSpec env f) : ∀ {cs : List Text} {st : State}, Inv env st → Open env st filename →
    (∀ g, cs.find? (isFile env) = some g → Includes env filename g) →
    search env f filename cs st = some (st', ret) → Inv env st' ∧ Extends st st' ∧
      (ret = 0 ∧ cs.find? (isFile env) = none ∨
        ∃ g, cs.find? (isFile env) = some g ∧ (ret = 1 ∧ Dealt env st' g ∨ ret = -1 ∧ Looped env st' filename))
  | [], st, h, _, _, hs => by
    cases hs
    exact ⟨h, Extends.refl _, .inl ⟨rfl, rfl⟩⟩
  | c :: cs, st, h, ho, hinc, hs => by
    rw [search] at hs
    obtain ⟨⟨st₁, ret₁, text⟩, hm, hs⟩ := Option.bind_eq_some_iff.mp hs
    obtain ⟨hi, he, hcase⟩ := merge_spec hf h ho (fun hc => hinc c (by rw [List.find?_cons, hc])) hm
    obtain ⟨hi', he'⟩ := hi.append filename text
    rcases hcase with ⟨rfl, hno⟩ | ⟨rfl, hyes, hd⟩ | ⟨rfl, hyes, hl⟩
    · obtain ⟨hi'', he'', hcase⟩ := search_spec hf hi' (ho.mono (he.trans he'))
        (fun g hg => hinc g (by rw [List.find?_cons, hno]; exact hg)) (by simpa using hs)
      refine ⟨hi'', he.trans (he'.trans he''), ?_⟩
      rw [List.find?_cons, hno]
      exact hcase
    · have hp : st₁.append filename text = st' ∧ (1 : Int) = ret := by simpa using hs
      obtain ⟨rfl, rfl⟩ := hp
      exact ⟨hi', he.trans he', .inr ⟨c, by rw [List.find?_cons, hyes], .inl ⟨rfl, hd.mono he'⟩⟩⟩
    · have hp : st₁.append filename text = st' ∧ (-1 : Int) = ret := by simpa using hs
      obtain ⟨rfl, rfl⟩ := hp
      exact ⟨hi', he.trans he', .inr ⟨c, by rw [List.find?_cons, hyes], .inr ⟨rfl, hl.mono he'⟩⟩⟩

/-- The items of a file that were gone through. -/
theorem compileItems_spec {source : Text} (hf : CompileSpec env f) (hsource : env.files.lookup filename = some source) :
    ∀ {is : List Item} {st : State} {ok : Bool}, (∀ i ∈ is, i ∈ items env source) → Inv env st → Open env st filename →
    compileItems env f filename is st = some (st', ok) → Inv env st' ∧ Extends st st' ∧
      (ok = true → ∀ first name last t, .includes first name last t ∈ is → isPair first last = true →
        ∀ g, (candidates env filename first name).find? (isFile env) = some g → Dealt env st' g) ∧
      (ok = false → BadInclude env st' filename ∨ Looped env st' filename)
  | [], st, ok, _, h, _, hc => by
    cases hc
    exact ⟨h, Extends.refl _, by simp, by simp⟩
  | .text piece :: is, st, ok, his, h, ho, hc => by
    obtain ⟨hi, he⟩ := h.append filename (piece ++ [0xa])
    obtain ⟨hi', he', hok, hno⟩ := compileItems_spec hf hsource (fun i hi => his i (by simp [hi])) hi (ho.mono he) hc
    exact ⟨hi', he.trans he', by simpa using hok, hno⟩
  | .skipped :: is, st, ok, his, h, ho, hc => by
    obtain ⟨hi, he⟩ := h.append filename [0xa]
    obtain ⟨hi', he', hok, hno⟩ := compileItems_spec hf hsource (fun i hi => his i (by simp [hi])) hi (ho.mono he) hc
    exact ⟨hi', he.trans he', by simpa using hok, hno⟩
  | .once :: is, st, ok, his, h, ho, hc => by
    have honce : HasOnce env filename := ⟨source, hsource, his _ (by simp)⟩
    obtain ⟨hi, he⟩ := h.modify filename (fun c => { c with once := true })
      (fun _ _ => .inr honce) fun _ => rfl
    obtain ⟨hi₁, he₁⟩ := hi.append filename [0xa]
    obtain ⟨hi', he', hok, hno⟩ := compileItems_spec hf hsource (fun i hi => his i (by simp [hi])) hi₁
      (ho.mono (he.trans he₁)) hc
    exact ⟨hi', he.trans (he₁.trans he'), by simpa using hok, hno⟩
  | .pragma t :: is, st, ok, his, h, ho, hc => by
    obtain ⟨hi, he⟩ := h.printError (.unknownPragma t)
    obtain ⟨hi₁, he₁⟩ := hi.append filename [0xa]
    obtain ⟨hi', he', hok, hno⟩ := compileItems_spec hf hsource (fun i hi => his i (by simp [hi])) hi₁
      (ho.mono (he.trans he₁)) hc
    exact ⟨hi', he.trans (he₁.trans he'), by simpa using hok, hno⟩
  | .includes first name last t :: is, st, ok, his, h, ho, hc => by
    have hitem := his _ (List.mem_cons_self ..)
    rw [compileItems] at hc
    cases hpair : isPair first last
    · rw [hpair] at hc
      simp only [Bool.false_eq_true, if_false, Option.some.injEq, Prod.mk.injEq] at hc
      obtain ⟨rfl, rfl⟩ := hc
      obtain ⟨hi, he⟩ := h.printError (.illegalInclude t)
      exact ⟨hi, he, by simp, fun _ =>
        .inl ⟨source, first, name, last, t, hsource, hitem, .inl ⟨hpair, by simp [State.printError]⟩⟩⟩
    · rw [hpair, if_pos rfl] at hc
      obtain ⟨⟨st₁, ret⟩, hs, hc⟩ := Option.bind_eq_some_iff.mp hc
      obtain ⟨hi, he, hcase⟩ := search_spec hf h ho
        (fun g hg => ⟨source, first, name, last, t, hsource, hitem, hpair, hg⟩) hs
      rcases hcase with ⟨rfl, hnone⟩ | ⟨g, hg, ⟨rfl, hd⟩ | ⟨rfl, hl⟩⟩
      · -- not found
        have hp : st₁.printError (.notFound (env.subsitute name)) = st' ∧ false = ok := by simpa using hc
        obtain ⟨rfl, rfl⟩ := hp
        obtain ⟨hi', he'⟩ := hi.printError (.notFound (env.subsitute name))
        exact ⟨hi', he.trans he', by simp,
          fun _ => .inl ⟨source, first, name, last, t, hsource, hitem, .inr ⟨hnone, by simp [State.printError]⟩⟩⟩
      · obtain ⟨hi₁, he₁⟩ := hi.append filename [0xa]
        have hrest : compileItems env f filename is (st₁.append filename [0xa]) = some (st', ok) := by simpa using hc
        obtain ⟨hi', he', hok, hno⟩ := compileItems_spec hf hsource (fun i hi => his i (by simp [hi])) hi₁
          (ho.mono (he.trans he₁)) hrest
        refine ⟨hi', he.trans (he₁.trans he'), fun ho first' name' last' t' hin hpair' g' hg' => ?_, hno⟩
        rcases List.mem_cons.mp hin with heq | hin
        · cases heq
          rw [hg, Option.some.injEq] at hg'
          exact hg' ▸ hd.mono (he₁.trans he')
        · exact hok ho first' name' last' t' hin hpair' g' hg'
      · have hp : st₁ = st' ∧ false = ok := by simpa using hc
        obtain ⟨rfl, rfl⟩ := hp
        exact ⟨hi, he, by simp, fun _ => .inr hl⟩

/-- The state in which the loop of `_Compile` starts. -/
def State.enter (st : State) (filename : Text) : State :=
  { st with compiled := st.compiled.insert filename ⟨[], false, false⟩, entered := st.entered ++ [filename] }

theorem Inv.enter (h : Inv env st) (hnew : filename ∉ st.compiled) (hfile : isFile env filename = true) :
    Inv env (st.enter filename) := by
  have hlook : ∀ g c, (st.enter filename).compiled.lookup g = some c →
      g = filename ∧ c = ⟨[], false, false⟩ ∨ st.compiled.lookup g = some c := by
    intro g c hg
    by_cases hgf : g = filename
    · subst hgf
      exact .inl ⟨rfl, (Option.some.inj ((AList.lookup_insert _).symm.trans hg)).symm⟩
    · exact .inr ((AList.lookup_insert_ne hgf).symm.trans hg)
  refine ⟨?_, fun g => ?_, fun g hg => ?_, fun g c hg ho => ?_, fun g c hg => ?_,
    fun g hg => (AList.mem_insert _).mpr (.inr (h.finished g hg)), h.order, h.broken⟩
  · rw [State.enter, List.nodup_append]
    refine ⟨h.nodup, by simp, fun a ha b hb hab => hnew ?_⟩
    rw [List.mem_singleton.mp hb] at hab
    exact hab ▸ (h.mem a).mp ha
  · rw [State.enter, List.mem_append, AList.mem_insert, h.mem, List.mem_singleton, or_comm]
  · rcases (AList.mem_insert _).mp hg with rfl | hg
    · exact hfile
    · exact h.file g hg
  · rcases hlook g c hg with ⟨-, rfl⟩ | hg
    · cases ho
    · exact h.once g c hg ho
  · rcases hlook g c hg with ⟨rfl, rfl⟩ | hg
    · exact ⟨fun hf => absurd hf Bool.false_ne_true, fun hf => absurd (h.finished _ hf) hnew⟩
    · exact h.final g c hg

theorem Open.enter (h : Open env st filename) : Open env (st.enter filename) filename := by
  intro g hg
  rcases List.mem_append.mp hg with hg | hg
  · exact h g hg
  · rw [List.mem_singleton.mp hg]
    exact .inr (.inr .refl)

/-- The end of a file that was compiled to its end. -/
theorem Inv.finish (h : Inv env st) (hin : filename ∈ st.compiled) (hord : ∀ g, Includes env filename g → Dealt env st g) :
    Inv env { st.modify filename (fun c => { c with finalized := true }) with
      finished := st.finished ++ [filename] } := by
  have horder : ∀ l₁ f l₂, st.finished ++ [filename] = l₁ ++ f :: l₂ → ∀ g, Includes env f g →
      HasOnce env g ∨ g ∈ l₁ ∨ g ∈ st.broken := by
    intro l₁ f l₂ hsplit g hg
    rcases List.eq_nil_or_concat l₂ with rfl | ⟨l₃, x, rfl⟩
    · obtain ⟨rfl, hx⟩ := List.append_inj' hsplit rfl
      obtain rfl : filename = f := by simpa using hx
      exact hord g hg
    · rw [List.concat_eq_append, ← List.cons_append, ← List.append_assoc] at hsplit
      exact h.order l₁ f l₃ (List.append_inj' hsplit rfl).1 g hg
  unfold State.modify
  split
  · rename_i hc
    exact absurd hin (AList.lookup_eq_none.mp hc)
  · rename_i c hc
    refine ⟨h.nodup, fun g => ?_, fun g hg => ?_, fun g c' hg ho => ?_, fun g c' hg => ?_, fun g hg => ?_, horder,
      h.broken⟩
    · rw [mem_insert_of_lookup hc]
      exact h.mem g
    · exact h.file g ((mem_insert_of_lookup hc).mp hg)
    · by_cases hgf : g = filename
      · subst hgf
        have := Option.some.inj ((AList.lookup_insert _).symm.trans hg)
        subst this
        exact h.once g c hc ho
      · exact h.once g c' ((AList.lookup_insert_ne hgf).symm.trans hg) ho
    · by_cases hgf : g = filename
      · subst hgf
        have := Option.some.inj ((AList.lookup_insert _).symm.trans hg)
        subst this
        exact ⟨fun _ => List.mem_append_right _ (List.mem_singleton.mpr rfl), fun _ => rfl⟩
      · rw [h.final g c' ((AList.lookup_insert_ne hgf).symm.trans hg), List.mem_append, List.mem_singleton]
        exact ⟨.inl, fun hg => hg.resolve_right hgf⟩
    · rw [mem_insert_of_lookup hc]
      rcases List.mem_append.mp hg with hg | hg
      · exact h.finished g hg
      · rwa [List.mem_singleton.mp hg]

theorem Extends.enter (st : State) (filename : Text) (h : Extends (st.enter filename) st')
    (hfile : filename ∈ st'.finished ∨ filename ∈ st'.broken) : Extends st st' := by
  refine ⟨fun f hf => h.compiled f ((AList.mem_insert _).mpr (.inr hf)), h.errors, h.finished, h.broken,
    fun f hf => ?_⟩
  rcases h.settled f hf with hf | hf
  · rcases List.mem_append.mp hf with hf | hf
    · exact .inl hf
    · rw [List.mem_singleton.mp hf]
      exact .inr hfile
  · exact .inr hf

theorem compile_spec : ∀ n, CompileSpec env (compile env n)
  | 0, _, _, _, _, _, hc, _, _, _, _ => by cases hc
  | n + 1, name, source, st, st', c, hc, hnew, hsource, h, ho => by
    rw [compile] at hc
    obtain ⟨⟨st₁, ok⟩, hitems, hp⟩ := Option.map_eq_some_iff.mp hc
    have hfile : isFile env name = true := by simp [isFile, hsource]
    obtain ⟨hi, he, hok, hno⟩ := compileItems_spec (compile_spec n) hsource (fun _ => id) (h.enter hnew hfile)
      ho.enter hitems
    have hcompiled : name ∈ st₁.compiled := he.compiled name ((AList.mem_insert _).mpr (.inl rfl))
    have hin : name ∈ st₁.entered := (hi.mem name).mpr hcompiled
    cases ok with
    | true =>
      have hdealt : ∀ g, Includes env name g → Dealt env st₁ g := by
        rintro g ⟨source', first, nm, last, t, hs', hmem, hpair, hg⟩
        rw [hsource, Option.some.injEq] at hs'
        subst hs'
        exact hok rfl first nm last t hmem hpair g hg
      simp only [if_true, Prod.mk.injEq] at hp
      obtain ⟨rfl, -⟩ := hp
      have hmod : ∀ f, f ∈ st₁.compiled →
          f ∈ (st₁.modify name fun c => { c with finalized := true }).compiled := by
        intro f hf
        unfold State.modify
        split
        · exact hf
        · exact (AList.mem_insert _).mpr (.inr hf)
      have hsame : (st₁.modify name fun c => { c with finalized := true }).errors = st₁.errors ∧
          (st₁.modify name fun c => { c with finalized := true }).broken = st₁.broken ∧
          (st₁.modify name fun c => { c with finalized := true }).entered = st₁.entered := by
        unfold State.modify
        split <;> exact ⟨rfl, rfl, rfl⟩
      refine ⟨hi.finish hcompiled hdealt, Extends.enter st name (he.trans ?_) (.inl (by simp)), by simpa [hsame.2.2] using hin⟩
      refine ⟨hmod, by simp [hsame.1], List.subset_append_left _ _, by simp [hsame.2.1], fun f hf => .inl ?_⟩
      simpa [hsame.2.2] using hf
    | false =>
      simp only [Bool.false_eq_true, if_false, Prod.mk.injEq] at hp
      obtain ⟨rfl, -⟩ := hp
      refine ⟨⟨hi.nodup, hi.mem, hi.file, hi.once, hi.final, hi.finished, fun l₁ f l₂ hs g hg => ?_, fun f hf => ?_⟩,
        Extends.enter st name (he.trans ⟨fun _ => id, fun _ => id, fun _ => id, List.subset_append_left _ _,
          fun _ => .inl⟩) (.inr (by simp)), hin⟩
      · rcases hi.order l₁ f l₂ hs g hg with hd | hd | hd
        · exact .inl hd
        · exact .inr (.inl hd)
        · exact .inr (.inr (List.mem_append_left _ hd))
      · rcases List.mem_append.mp hf with hf | hf
        · exact reported_mono (hi.broken f hf) (fun _ => id) (List.subset_append_left _ _)
        · rw [List.mem_singleton.mp hf]
          exact reported_mono (hno rfl) (fun _ => id) (List.subset_append_left _ _)

/-! ### Returning -/

/-- The number of files that were not entered. -/
def remaining (env : Env) (st : State) : ℕ := (env.files.keys.toFinset \ st.compiled.keys.toFinset).card

theorem remaining_mono (h : Extends st st') : remaining env st' ≤ remaining env st := by
  refine Finset.card_le_card (Finset.sdiff_subset_sdiff (Finset.Subset.refl _) fun f hf => ?_)
  rw [List.mem_toFinset, ← AList.mem_keys] at hf ⊢
  exact h.compiled f hf

theorem remaining_enter (hnew : name ∉ st.compiled) (hfile : isFile env name = true) :
    remaining env (st.enter name) < remaining env st := by
  refine Finset.card_lt_card (Finset.ssubset_iff_subset_ne.mpr ⟨?_, fun heq => ?_⟩)
  · refine Finset.sdiff_subset_sdiff (Finset.Subset.refl _) fun f hf => ?_
    rw [List.mem_toFinset, ← AList.mem_keys] at hf ⊢
    exact (AList.mem_insert _).mpr (.inr hf)
  · have hin : name ∈ env.files.keys.toFinset \ st.compiled.keys.toFinset := by
      rw [Finset.mem_sdiff, List.mem_toFinset, List.mem_toFinset, ← AList.mem_keys, ← AList.mem_keys]
      exact ⟨AList.lookup_isSome.mp hfile, hnew⟩
    rw [← heq, Finset.mem_sdiff, List.mem_toFinset, List.mem_toFinset, ← AList.mem_keys, ← AList.mem_keys] at hin
    exact hin.2 ((AList.mem_insert _).mpr (.inl rfl))

/-- Calls return while no more than `n` files are left. -/
def Returns (env : Env) (f : Text → Text → State → Option (State × Text)) (n : ℕ) : Prop :=
  ∀ name source st, name ∉ st.compiled → env.files.lookup name = some source → Inv env st → Open env st name →
    remaining env st ≤ n → ∃ r, f name source st = some r

theorem search_returns {n : ℕ} (hf : CompileSpec env f) (hr : Returns env f n) : ∀ (cs : List Text) {st : State},
    Inv env st → Open env st filename → (∀ g, cs.find? (isFile env) = some g → Includes env filename g) →
    remaining env st ≤ n → ∃ r, search env f filename cs st = some r
  | [], st, _, _, _, _ => ⟨_, rfl⟩
  | c :: cs, st, h, ho, hinc, hn => by
    have hinc' : isFile env c = true → Includes env filename c := fun hc => hinc c (by rw [List.find?_cons, hc])
    have hmerge : ∃ r, mergeIncludedFile env f c st = some r := by
      unfold mergeIncludedFile
      split
      · split
        · exact ⟨_, rfl⟩
        · split <;> exact ⟨_, rfl⟩
      · rename_i hc
        split
        · exact ⟨_, rfl⟩
        · rename_i source hsource
          obtain ⟨r, hcall⟩ := hr c source st (AList.lookup_eq_none.mp hc) hsource h
            (ho.into (hinc' (by simp [isFile, hsource]))) hn
          exact ⟨_, by rw [hcall]; rfl⟩
    obtain ⟨⟨st₁, ret, text⟩, hm⟩ := hmerge
    obtain ⟨hi, he, hcase⟩ := merge_spec hf h ho hinc' hm
    obtain ⟨hi', he'⟩ := hi.append filename text
    rw [search, hm]
    simp only [Option.bind_some]
    split
    · rename_i hret
      have hno : isFile env c = false := by
        rcases hcase with hcase | hcase | hcase
        · exact hcase.2
        · exact absurd (hret.symm.trans hcase.1) (by decide)
        · exact absurd (hret.symm.trans hcase.1) (by decide)
      exact search_returns hf hr cs hi' (ho.mono (he.trans he'))
        (fun g hg => hinc g (by rw [List.find?_cons, hno]; exact hg)) ((remaining_mono (he.trans he')).trans hn)
    · exact ⟨_, rfl⟩

theorem compileItems_returns {n : ℕ} {source : Text} (hf : CompileSpec env f) (hr : Returns env f n)
    (hsource : env.files.lookup filename = some source) : ∀ (is : List Item) {st : State},
    (∀ i ∈ is, i ∈ items env source) → Inv env st → Open env st filename → remaining env st ≤ n →
    ∃ r, compileItems env f filename is st = some r
  | [], st, _, _, _, _ => ⟨_, rfl⟩
  | .text piece :: is, st, his, h, ho, hn => by
    obtain ⟨hi, he⟩ := h.append filename (piece ++ [0xa])
    exact compileItems_returns hf hr hsource is (fun i hi => his i (by simp [hi])) hi (ho.mono he)
      ((remaining_mono he).trans hn)
  | .skipped :: is, st, his, h, ho, hn => by
    obtain ⟨hi, he⟩ := h.append filename [0xa]
    exact compileItems_returns hf hr hsource is (fun i hi => his i (by simp [hi])) hi (ho.mono he)
      ((remaining_mono he).trans hn)
  | .once :: is, st, his, h, ho, hn => by
    have honce : HasOnce env filename := ⟨source, hsource, his _ (by simp)⟩
    obtain ⟨hi, he⟩ := h.modify filename (fun c => { c with once := true })
      (fun _ _ => .inr honce) fun _ => rfl
    obtain ⟨hi₁, he₁⟩ := hi.append filename [0xa]
    exact compileItems_returns hf hr hsource is (fun i hi => his i (by simp [hi])) hi₁
      (ho.mono (he.trans he₁)) ((remaining_mono (he.trans he₁)).trans hn)
  | .pragma t :: is, st, his, h, ho, hn => by
    obtain ⟨hi, he⟩ := h.printError (.unknownPragma t)
    obtain ⟨hi₁, he₁⟩ := hi.append filename [0xa]
    exact compileItems_returns hf hr hsource is (fun i hi => his i (by simp [hi])) hi₁
      (ho.mono (he.trans he₁)) ((remaining_mono (he.trans he₁)).trans hn)
  | .includes first name last t :: is, st, his, h, ho, hn => by
    rw [compileItems]
    split
    · rename_i hpair
      have hinc : ∀ g, (candidates env filename first name).find? (isFile env) = some g → Includes env filename g :=
        fun g hg => ⟨source, first, name, last, t, hsource, his _ (by simp), hpair, hg⟩
      obtain ⟨⟨st₁, ret⟩, hs⟩ := search_returns hf hr (candidates env filename first name) h ho hinc hn
      obtain ⟨hi, he, -⟩ := search_spec hf h ho hinc hs
      obtain ⟨hi₁, he₁⟩ := hi.append filename [0xa]
      rw [hs]
      simp only [Option.bind_some]
      split
      · exact ⟨_, rfl⟩
      · split
        · exact compileItems_returns hf hr hsource is (fun i hi => his i (by simp [hi])) hi₁
            (ho.mono (he.trans he₁)) ((remaining_mono (he.trans he₁)).trans hn)
        · exact ⟨_, rfl⟩
    · exact ⟨_, rfl⟩

/-- A call is nested no deeper than there are files left. -/
theorem compile_returns : ∀ n {name source : Text} {st : State}, name ∉ st.compiled →
    env.files.lookup name = some source → Inv env st → Open env st name → remaining env (st.enter name) < n →
    ∃ r, compile env n name source st = some r
  | 0, _, _, _, _, _, _, _, hn => absurd hn (Nat.not_lt_zero _)
  | n + 1, name, source, st, hnew, hsource, h, ho, hn => by
    have hr : Returns env (compile env n) n := by
      intro name' source' st' hnew' hsource' h' ho' hn'
      have hlt : remaining env (st'.enter name') < remaining env st' :=
        remaining_enter hnew' (by simp [isFile, hsource'])
      exact compile_returns n hnew' hsource' h' ho' (by omega)
    obtain ⟨r, hitems⟩ := compileItems_returns (compile_spec n) hr hsource (items env source) (fun _ => id)
      (h.enter hnew (by simp [isFile, hsource])) ho.enter (Nat.lt_succ_iff.mp hn)
    exact ⟨_, by rw [compile]; exact (congrArg (Option.map _) hitems).trans rfl⟩

/-! ### One result -/

variable {g : Text → Text → State → Option (State × Text)}

/-- `g` returns what `f` does, where that returns. -/
def Refines (f g : Text → Text → State → Option (State × Text)) : Prop :=
  ∀ name source st r, f name source st = some r → g name source st = some r

theorem search_refines (hfg : Refines f g) : ∀ {cs : List Text} {st : State} {r : State × Int},
    search env f filename cs st = some r → search env g filename cs st = some r
  | [], _, _, h => h
  | c :: cs, st, r, h => by
    rw [search] at h ⊢
    obtain ⟨⟨st₁, ret, text⟩, hm, h⟩ := Option.bind_eq_some_iff.mp h
    have hm' : mergeIncludedFile env g c st = some (st₁, ret, text) := by
      unfold mergeIncludedFile at hm ⊢
      split at hm
      · exact hm
      · split at hm
        · exact hm
        · rename_i source _
          obtain ⟨r', hcall, hp⟩ := Option.map_eq_some_iff.mp hm
          exact Option.map_eq_some_iff.mpr ⟨r', hfg _ _ _ _ hcall, hp⟩
    rw [hm']
    simp only [Option.bind_some] at h ⊢
    split
    · rename_i hret
      rw [if_pos hret] at h
      exact search_refines hfg h
    · rename_i hret
      rwa [if_neg hret] at h

theorem compileItems_refines (hfg : Refines f g) : ∀ {is : List Item} {st : State} {r : State × Bool},
    compileItems env f filename is st = some r → compileItems env g filename is st = some r
  | [], _, _, h => h
  | .text _ :: is, _, _, h | .skipped :: is, _, _, h | .once :: is, _, _, h | .pragma _ :: is, _, _, h => by
    rw [compileItems] at h ⊢
    exact compileItems_refines hfg h
  | .includes first name last t :: is, st, r, h => by
    rw [compileItems] at h ⊢
    split
    · rename_i hpair
      rw [if_pos hpair] at h
      obtain ⟨⟨st₁, ret⟩, hs, h⟩ := Option.bind_eq_some_iff.mp h
      rw [search_refines hfg hs]
      simp only [Option.bind_some] at h ⊢
      split
      · rename_i hret
        rwa [if_pos hret] at h
      · rename_i hret
        rw [if_neg hret] at h
        split
        · rename_i hret'
          rw [if_pos hret'] at h
          exact compileItems_refines hfg h
        · rename_i hret'
          rwa [if_neg hret'] at h
    · rename_i hpair
      rwa [if_neg hpair] at h

theorem compile_refines : ∀ n, Refines (compile env n) (compile env (n + 1))
  | 0, _, _, _, _, h => by cases h
  | n + 1, name, source, st, r, h => by
    rw [compile] at h ⊢
    obtain ⟨r', hitems, hp⟩ := Option.map_eq_some_iff.mp h
    exact Option.map_eq_some_iff.mpr ⟨r', compileItems_refines (compile_refines n) hitems, hp⟩

theorem compile_le {n m : ℕ} (hnm : n ≤ m) : Refines (compile env n) (compile env m) := by
  induction m, hnm using Nat.le_induction with
  | base => exact fun _ _ _ _ h => h
  | succ m _ ih => exact fun name source st r h => compile_refines m name source st r (ih name source st r h)

/-! ### Loops -/

/-- Nothing has been compiled. -/
def start : State := ⟨∅, [], 0, [], [], []⟩

/-- `f` includes `g`, and nothing keeps `g` from being included again. -/
def Follows (env : Env) (f g : Text) : Prop := Includes env f g ∧ ¬HasOnce env g

/-- `g` is a file of a loop that goes through `f`. -/
def OnLoop (env : Env) (f g : Text) : Prop :=
  Relation.ReflTransGen (Follows env) f g ∧ Relation.ReflTransGen (Follows env) g f

theorem start_inv : Inv env start := by
  refine ⟨List.nodup_nil, fun f => ?_, fun f hf => ?_, fun f c hf => ?_, fun f c hf => ?_, by simp [start],
    fun l₁ f l₂ hs => ?_, by simp [start]⟩
  · simp [start]
  · exact absurd hf (AList.notMem_empty f)
  · cases hf
  · cases hf
  · exact absurd (congrArg List.length hs) (by simp [start])

theorem remaining_start_le (env : Env) : remaining env start ≤ env.files.keys.length :=
  (Finset.card_le_card Finset.sdiff_subset).trans (List.toFinset_card_le _)

/-- What a finished file includes comes before it, as long as nothing was broken off. -/
theorem idxOf_lt {x y : Text} (h : Inv env st) (hx : x ∈ st.finished) (hxy : Follows env x y) (hy : y ∉ st.broken) :
    y ∈ st.finished ∧ st.finished.idxOf y < st.finished.idxOf x := by
  obtain ⟨l₁, l₂, hs, hnot⟩ := List.eq_append_cons_of_mem hx
  rcases h.order l₁ x l₂ hs y hxy.1 with hy' | hy' | hy'
  · exact absurd hy' hxy.2
  · rw [hs, List.idxOf_append_of_mem hy', List.idxOf_append_of_notMem hnot]
    exact ⟨List.mem_append_left _ hy', (List.idxOf_lt_length_of_mem hy').trans_le (Nat.le_add_right ..)⟩
  · exact absurd hy' hy

/-- Along a loop some file was broken off, since the files that were finished have an order. -/
theorem exists_broken {f : Text} (h : Inv env st) (hend : ∀ x ∈ st.entered, x ∈ st.finished ∨ x ∈ st.broken)
    (hf : f ∈ st.entered) (hloop : Relation.TransGen (Follows env) f f) : ∃ x, OnLoop env f x ∧ x ∈ st.broken := by
  by_contra hno
  have hnot : ∀ x, OnLoop env f x → x ∉ st.broken := fun x hx hb => hno ⟨x, hx, hb⟩
  have hfin : f ∈ st.finished := (hend f hf).resolve_right (hnot f ⟨.refl, .refl⟩)
  have hlt : ∀ y, Relation.TransGen (Follows env) f y → Relation.ReflTransGen (Follows env) y f →
      y ∈ st.finished ∧ st.finished.idxOf y < st.finished.idxOf f := by
    intro y hy
    induction hy with
    | single hxy => exact fun hback => idxOf_lt h hfin hxy (hnot _ ⟨.single hxy, hback⟩)
    | tail hx hxy ih =>
      intro hback
      obtain ⟨hxfin, hxlt⟩ := ih (.head hxy hback)
      obtain ⟨hyfin, hylt⟩ := idxOf_lt h hxfin hxy (hnot _ ⟨(hx.tail hxy).to_reflTransGen, hback⟩)
      exact ⟨hyfin, hylt.trans hxlt⟩
  exact Nat.lt_irrefl _ (hlt f hloop .refl).2

/-- `/a`. -/
def nameA : Text := [0x2f, 0x61]

/-- `/b`. -/
def nameB : Text := [0x2f, 0x62]

/-- `#include "a"`. -/
def includeA : Text := _include ++ [0x20, 0x22, 0x61, 0x22, 0xa]

/-- `#include "b"`. -/
def includeB : Text := _include ++ [0x20, 0x22, 0x62, 0x22, 0xa]

/-- Two files without comments and with resolved names. -/
def pairOf (a b : Text) : Env := ⟨(AList.singleton nameB b).insert nameA a, [], id, id, id⟩

/-- `#pragma once`. -/
def pragmaOnce : Text := _pragma ++ [0x20, 0x6f, 0x6e, 0x63, 0x65, 0xa]

end Cpcf.Os.Include
