import Mathlib.Logic.Basic
import Mathlib.Data.List.Basic
import Mathlib.Data.List.Forall2

/-!
# Labelled transition systems

A system with initial states and labelled steps, its runs and its reachable
states; and the rule everything below rests on: what holds initially and is
preserved by every step holds in every reachable state (`Reachable.invariant`),
and all along every run (`Run.invariant`), also with a value that follows the
labels of the run (`Run.foldl`).

A condition on the steps of a run, on the state before a step and its label,
is the system restricted to the steps meeting it (`restrict`): its runs are
the runs all of whose steps meet the condition. A value that follows the steps,
and changes nothing to them, is *watched* (`watch`). A system whose steps are
those of another one, as a function of its states, is simulated by it
(`Reachable.map`).

An observer of a system sees of its steps what concerns it, and cannot tell
the other ones: then it cannot tell two runs either, of which it sees the same
(`Unwinds.eq_of_view`).
-/

/-- A transition system with states `S`, whose steps carry labels `L`. -/
structure Lts (S L : Type*) where
  /-- The initial states. -/
  init : S → Prop
  /-- The steps. -/
  step : S → L → S → Prop

namespace Lts

variable {S L : Type*} (M : Lts S L)

/-- A run: a chain of steps, with their labels. -/
inductive Run : S → List L → S → Prop
  | nil (s : S) : Run s [] s
  | cons {s s₁ s₂ : S} {l : L} {ls : List L} : M.step s l s₁ → Run s₁ ls s₂ → Run s (l :: ls) s₂

/-- The states reached by a run from an initial state. -/
inductive Reachable : S → Prop
  | init {s : S} : M.init s → Reachable s
  | step {s s' : S} {l : L} : Reachable s → M.step s l s' → Reachable s'

/-- The system restricted to the steps meeting the condition `C`, on the state
    before the step and its label. -/
def restrict (C : S → L → Prop) : Lts S L where
  init := M.init
  step s l s' := M.step s l s' ∧ C s l

/-- The system with a value, `g` at first, that follows its steps. -/
def watch {G : Type*} (g : G) (after : G → S → L → S → G) : Lts (S × G) L where
  init X := M.init X.1 ∧ X.2 = g
  step X l X' := M.step X.1 l X'.1 ∧ X'.2 = after X.2 X.1 l X'.1

variable {M}

theorem Run.reachable {s s' : S} {ls : List L} (h : M.Run s ls s') (hs : M.Reachable s) :
    M.Reachable s' := by
  induction h with
  | nil => exact hs
  | cons hst _ ih => exact ih (hs.step hst)

theorem Run.append {s₁ s₂ s₃ : S} {ls₁ ls₂ : List L} (h₁ : M.Run s₁ ls₁ s₂)
    (h₂ : M.Run s₂ ls₂ s₃) : M.Run s₁ (ls₁ ++ ls₂) s₃ := by
  induction h₁ with
  | nil => exact h₂
  | cons hst _ ih => exact .cons hst (ih h₂)

theorem run_nil_iff {s s' : S} : M.Run s [] s' ↔ s' = s := by
  constructor
  · intro h
    cases h
    rfl
  · rintro rfl
    exact .nil _

theorem run_cons_iff {s s' : S} {l : L} {ls : List L} :
    M.Run s (l :: ls) s' ↔ ∃ s₁, M.step s l s₁ ∧ M.Run s₁ ls s' := by
  constructor
  · intro h
    cases h with
    | cons hst h => exact ⟨_, hst, h⟩
  · rintro ⟨s₁, hst, h⟩
    exact .cons hst h

/-- A run can be cut anywhere. -/
theorem run_append_iff {s s' : S} {ls₁ ls₂ : List L} :
    M.Run s (ls₁ ++ ls₂) s' ↔ ∃ s₁, M.Run s ls₁ s₁ ∧ M.Run s₁ ls₂ s' := by
  induction ls₁ generalizing s with
  | nil => simp [run_nil_iff]
  | cons l ls₁ ih =>
    simp only [List.cons_append, run_cons_iff, ih]
    constructor
    · rintro ⟨s₁, hst, s₂, h₁, h₂⟩
      exact ⟨s₂, ⟨s₁, hst, h₁⟩, h₂⟩
    · rintro ⟨s₂, ⟨s₁, hst, h₁⟩, h₂⟩
      exact ⟨s₁, hst, s₂, h₁, h₂⟩

/-- The labels of a run are those of its steps. -/
theorem Run.exists_step {s s' : S} {ls : List L} (h : M.Run s ls s') {l : L} (hl : l ∈ ls) :
    ∃ s₁ s₂, M.step s₁ l s₂ := by
  obtain ⟨ls₁, ls₂, rfl⟩ := List.append_of_mem hl
  obtain ⟨s₁, -, h⟩ := run_append_iff.1 h
  obtain ⟨s₂, hst, -⟩ := run_cons_iff.1 h
  exact ⟨s₁, s₂, hst⟩

/-- A run of steps that change nothing changes nothing. -/
theorem Run.eq_of_still {s s' : S} {ls : List L} (h : M.Run s ls s')
    (hls : ∀ l ∈ ls, ∀ s s', M.step s l s' → s' = s) : s' = s := by
  induction h with
  | nil => rfl
  | cons hst _ ih =>
    rw [List.forall_mem_cons] at hls
    rw [ih hls.2, hls.1 _ _ hst]

/-- What a step preserves holds at the end of a run. -/
theorem Run.invariant {P : S → Prop} (hstep : ∀ s l s', P s → M.step s l s' → P s')
    {s s' : S} {ls : List L} (h : M.Run s ls s') (hs : P s) : P s' := by
  induction h with
  | nil => exact hs
  | cons hst _ ih => exact ih (hstep _ _ _ hs hst)

/-- A relation every step preserves, with a value updated by the label of the
    step, holds at the end of a run with the value folded over its labels. -/
theorem Run.foldl {G : Type*} {g : G → L → G} {R : S → G → Prop}
    (hstep : ∀ s l s' a, R s a → M.step s l s' → R s' (g a l)) {s s' : S} {ls : List L}
    (h : M.Run s ls s') {a : G} (hs : R s a) : R s' (ls.foldl g a) := by
  induction h generalizing a with
  | nil => exact hs
  | cons hst _ ih => exact ih (hstep _ _ _ _ hs hst)

/-- A relation every step preserves, with the labels so far, holds at the end of a run. -/
theorem Run.history {R : S → List L → Prop}
    (hstep : ∀ s l s' ls, R s ls → M.step s l s' → R s' (ls ++ [l])) {s s' : S} {ls : List L}
    (h : M.Run s ls s') (hs : R s []) : R s' ls := by
  have hfold := h.foldl (g := fun ls l => ls ++ [l]) (R := R)
    (fun s l s' ls hr hst => hstep s l s' ls hr hst) hs
  rwa [List.foldl_append_eq_append, List.nil_append, ← List.flatMap_def,
    List.flatMap_singleton'] at hfold

/-- What holds initially and a step preserves holds in every reachable state. -/
theorem Reachable.invariant {P : S → Prop} (hinit : ∀ s, M.init s → P s)
    (hstep : ∀ s l s', P s → M.step s l s' → P s') {s : S} (hs : M.Reachable s) : P s := by
  induction hs with
  | init h => exact hinit _ h
  | step _ hst ih => exact hstep _ _ _ ih hst

/-- The restriction of a system only removes states. -/
theorem Reachable.of_restrict {C : S → L → Prop} {s : S} (hs : (M.restrict C).Reachable s) :
    M.Reachable s := by
  induction hs with
  | init h => exact .init h
  | step _ hst ih => exact .step ih hst.1

/-- The restriction of a system only removes runs. -/
theorem Run.of_restrict {C : S → L → Prop} {s s' : S} {ls : List L}
    (h : (M.restrict C).Run s ls s') : M.Run s ls s' := by
  induction h with
  | nil => exact .nil _
  | cons hst _ ih => exact .cons hst.1 ih

/-- A run all of whose labels meet a condition is one of the system restricted to it. -/
theorem Run.restrict {C : L → Prop} {s s' : S} {ls : List L} (h : M.Run s ls s')
    (hls : ∀ l ∈ ls, C l) : (M.restrict fun _ l => C l).Run s ls s' := by
  induction h with
  | nil => exact .nil _
  | cons hst _ ih =>
    rw [List.forall_mem_cons] at hls
    exact .cons ⟨hst, hls.1⟩ (ih hls.2)

/-- What a restriction tells of the labels holds all along a run. -/
theorem Run.forall_labels {C : S → L → Prop} {D : L → Prop} (hC : ∀ s l, C s l → D l) {s s' : S}
    {ls : List L} (h : (M.restrict C).Run s ls s') : ∀ l ∈ ls, D l := by
  induction h with
  | nil => simp
  | cons hst _ ih => exact List.forall_mem_cons.2 ⟨hC _ _ hst.2, ih⟩

/-! ## Simulations -/

section Simulation

variable {T : Type*} {N : Lts T L} {f : S → T}

/-- What is simulated step by step is simulated all along a run. -/
theorem Run.map (hf : ∀ s l s', M.step s l s' → N.step (f s) l (f s')) {s s' : S} {ls : List L}
    (h : M.Run s ls s') : N.Run (f s) ls (f s') := by
  induction h with
  | nil => exact .nil _
  | cons hst _ ih => exact .cons (hf _ _ _ hst) ih

theorem Reachable.map (hinit : ∀ s, M.init s → N.init (f s))
    (hf : ∀ s l s', M.step s l s' → N.step (f s) l (f s')) {s : S} (hs : M.Reachable s) :
    N.Reachable (f s) := by
  induction hs with
  | init h => exact .init (hinit _ h)
  | step _ hst ih => exact ih.step (hf _ _ _ hst)

/-- A relation that is kept by matching every step with one of the other system,
    with a related label, is kept by matching every run. -/
theorem Run.refines {L' : Type*} {N : Lts T L'} {R : S → T → Prop} {Q : L → L' → Prop}
    (hR : ∀ s t l s', R s t → M.step s l s' → ∃ l' t', N.step t l' t' ∧ Q l l' ∧ R s' t')
    {s s' : S} {t : T} {ls : List L} (h : M.Run s ls s') (hs : R s t) :
    ∃ ls' t', N.Run t ls' t' ∧ List.Forall₂ Q ls ls' ∧ R s' t' := by
  induction h generalizing t with
  | nil => exact ⟨[], t, .nil t, .nil, hs⟩
  | cons hst _ ih =>
    obtain ⟨l', t₁, hst', hl, ht₁⟩ := hR _ _ _ _ hs hst
    obtain ⟨ls', t', hrun, hls, ht'⟩ := ih ht₁
    exact ⟨l' :: ls', t', .cons hst' hrun, .cons hl hls, ht'⟩

/-- The same with the same labels. -/
theorem Run.simulate {R : S → T → Prop}
    (hR : ∀ s t l s', R s t → M.step s l s' → ∃ t', N.step t l t' ∧ R s' t') {s s' : S} {t : T}
    {ls : List L} (h : M.Run s ls s') (hs : R s t) : ∃ t', N.Run t ls t' ∧ R s' t' := by
  obtain ⟨ls', t', hrun, hls, ht'⟩ := h.refines (Q := Eq) (fun s t l s' hs hst => by
    obtain ⟨t', hst', ht'⟩ := hR s t l s' hs hst
    exact ⟨l, t', hst', rfl, ht'⟩) hs
  rw [List.forall₂_eq_eq_eq] at hls
  exact ⟨t', hls ▸ hrun, ht'⟩

theorem Reachable.simulate {R : S → T → Prop} (hinit : ∀ s, M.init s → ∃ t, N.init t ∧ R s t)
    (hR : ∀ s t l s', R s t → M.step s l s' → ∃ t', N.step t l t' ∧ R s' t') {s : S}
    (hs : M.Reachable s) : ∃ t, N.Reachable t ∧ R s t := by
  induction hs with
  | init h =>
    obtain ⟨t, ht, hst⟩ := hinit _ h
    exact ⟨t, .init ht, hst⟩
  | step _ hst ih =>
    obtain ⟨t, ht, hs⟩ := ih
    obtain ⟨t', hst', hs'⟩ := hR _ _ _ _ hs hst
    exact ⟨t', ht.step hst', hs'⟩

end Simulation

/-! ## Noninterference -/

section Noninterference

variable {O V W : Type*}

/-- An observer knows the part `obs` of the state, sees `view` of a step, if it
    concerns it, and is told `out`. A step that does not concern it tells it
    nothing and leaves its part alone; and what a step that does tells it and
    does to its part, only depends on its part, and on what it sees of the step. -/
structure Unwinds (M : Lts S L) (obs : S → O) (view : L → Option V) (out : L → List W) :
    Prop where
  hidden : ∀ s l s', M.step s l s' → view l = none → obs s' = obs s ∧ out l = []
  seen : ∀ s₁ s₂ l₁ l₂ s₁' s₂', M.step s₁ l₁ s₁' → M.step s₂ l₂ s₂' → view l₁ ≠ none →
    view l₁ = view l₂ → obs s₁ = obs s₂ → obs s₁' = obs s₂' ∧ out l₁ = out l₂

variable {obs : S → O} {view : L → Option V} {out : L → List W}

/-- A run of which the observer sees nothing tells it nothing, and leaves its part alone. -/
theorem Unwinds.eq_of_hidden (hM : M.Unwinds obs view out) {s s' : S} {ls : List L}
    (h : M.Run s ls s') (hls : ∀ l ∈ ls, view l = none) :
    obs s' = obs s ∧ ls.flatMap out = [] := by
  induction h with
  | nil => exact ⟨rfl, rfl⟩
  | cons hst _ ih =>
    rw [List.forall_mem_cons] at hls
    obtain ⟨hobs, hout⟩ := hM.hidden _ _ _ hst hls.1
    obtain ⟨hobs', hout'⟩ := ih hls.2
    exact ⟨hobs'.trans hobs, by rw [List.flatMap_cons, hout, hout', List.nil_append]⟩

/-- Two runs of which the observer sees the same tell it the same, and leave its
    part the same. -/
theorem Unwinds.eq_of_view (hM : M.Unwinds obs view out) {s₁ s₁' s₂ s₂' : S} {ls₁ ls₂ : List L}
    (h₁ : M.Run s₁ ls₁ s₁') (h₂ : M.Run s₂ ls₂ s₂') (hobs : obs s₁ = obs s₂)
    (hview : ls₁.filterMap view = ls₂.filterMap view) :
    obs s₁' = obs s₂' ∧ ls₁.flatMap out = ls₂.flatMap out := by
  induction h₁ generalizing s₂ ls₂ with
  | nil =>
    obtain ⟨hobs', hout⟩ := hM.eq_of_hidden h₂ (List.filterMap_eq_nil_iff.1 hview.symm)
    exact ⟨hobs.trans hobs'.symm, hout.symm⟩
  | @cons s t s' l ls hst _ ih =>
    rw [List.filterMap_cons] at hview
    cases hl : view l with
    | none =>
      rw [hl] at hview
      obtain ⟨hobs₁, hout₁⟩ := hM.hidden _ _ _ hst hl
      obtain ⟨hobs', hout'⟩ := ih h₂ (hobs₁.trans hobs) hview
      exact ⟨hobs', by rw [List.flatMap_cons, hout₁, hout', List.nil_append]⟩
    | some v =>
      rw [hl] at hview
      -- The other run gets to a step that looks the same, through steps the
      -- observer does not see.
      obtain ⟨pre, l₂, post, rfl, hpre, hl₂, hpost⟩ := List.filterMap_eq_cons_iff.1 hview.symm
      obtain ⟨t₂, hrun, hrun'⟩ := run_append_iff.1 h₂
      obtain ⟨t₂', hst₂, hrun₂⟩ := run_cons_iff.1 hrun'
      obtain ⟨hobs₂, hout₂⟩ := hM.eq_of_hidden hrun hpre
      obtain ⟨hobs₃, hout₃⟩ := hM.seen _ _ _ _ _ _ hst hst₂ (by simp [hl]) (hl.trans hl₂.symm)
        (hobs.trans hobs₂.symm)
      obtain ⟨hobs', hout'⟩ := ih hrun₂ hobs₃ hpost.symm
      exact ⟨hobs', by
        rw [List.flatMap_cons, List.flatMap_append, List.flatMap_cons, hout₂, hout₃, hout',
          List.nil_append]⟩

end Noninterference

end Lts
