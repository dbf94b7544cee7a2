import Mathlib.Data.List.Basic

/- Finite runs of a partial step function.

   A component is a state type with `step : σ → ι → Option σ`: one call or event
   `i` takes state `s` to `s'` when `step s i = some s'`, and `none` is a call the
   code does not survive (a failed assertion, a null pointer). This file

   1. folds a step over a list of inputs (`run`), and splits a run after its first step
      (`run_cons_iff`);
   2. states once the induction every invariant proof uses (`run_induct`), the
      form of it where the invariant needs a condition on each step
      (`Meets`, `meets_induct`), and the form where the invariant also says that
      no step fails (`run_total`);
   3. says when a run does under a map what another one does (`run_refines`);
   4. relates a property of all states of a run to the condition that keeps it
      at every step (`throughout_iff_meets`), and with it that no step fails
      (`survives_iff_admits`, `run_iff_admits`). -/
namespace PartialRun

variable {σ ι : Type} {step : σ → ι → Option σ}

/-- Take the inputs in order. -/
def run (step : σ → ι → Option σ) : σ → List ι → Option σ
  | s, [] => some s
  | s, i :: is => (step s i).bind fun s' => run step s' is

@[simp] theorem run_nil (s : σ) : run step s [] = some s := rfl

@[simp] theorem run_cons (s : σ) (i : ι) (is : List ι) :
    run step s (i :: is) = (step s i).bind fun s' => run step s' is := rfl

theorem run_cons_iff {s t : σ} {i : ι} {is : List ι} :
    run step s (i :: is) = some t ↔ ∃ s', step s i = some s' ∧ run step s' is = some t := by
  rw [run_cons, Option.bind_eq_some_iff]

theorem run_append (is js : List ι) : ∀ s : σ,
    run step s (is ++ js) = (run step s is).bind fun t => run step t js := by
  induction is with
  | nil => intro s; rfl
  | cons i is ih =>
    intro s
    rw [List.cons_append, run_cons, run_cons, Option.bind_assoc]
    congr 1
    funext s'
    exact ih s'

theorem run_map {κ : Type} (f : κ → ι) (ks : List κ) : ∀ s : σ,
    run step s (ks.map f) = run (fun s k => step s (f k)) s ks := by
  induction ks with
  | nil => intro s; rfl
  | cons k ks ih =>
    intro s
    rw [List.map_cons, run_cons, run_cons]
    congr 1
    funext s'
    exact ih s'

/-! ## Invariants -/

/-- What every step preserves holds at the end of every run. -/
theorem run_induct {P : σ → Prop} (hstep : ∀ s i s', P s → step s i = some s' → P s') :
    ∀ (is : List ι) {s t : σ}, P s → run step s is = some t → P t := by
  intro is
  induction is with
  | nil =>
    intro s t hs h
    simp only [run_nil, Option.some.injEq] at h
    exact h ▸ hs
  | cons i is ih =>
    intro s t hs h
    obtain ⟨s', h1, h2⟩ := run_cons_iff.1 h
    exact ih (hstep s i s' hs h1) h2

/-- A run none of whose steps can fail in a state of the invariant is defined. -/
theorem run_total {P : σ → Prop} (hstep : ∀ s i, P s → ∃ s', step s i = some s' ∧ P s') :
    ∀ (is : List ι) {s : σ}, P s → ∃ t, run step s is = some t ∧ P t := by
  intro is
  induction is with
  | nil =>
    intro s hs
    exact ⟨s, run_nil s, hs⟩
  | cons i is ih =>
    intro s hs
    obtain ⟨s', h1, hs'⟩ := hstep s i hs
    obtain ⟨t, h2, ht⟩ := ih hs'
    exact ⟨t, run_cons_iff.2 ⟨s', h1, h2⟩, ht⟩

/-- Every step of the run is taken on an input that `ok` admits in the state it is taken in. -/
def Meets (step : σ → ι → Option σ) (ok : σ → ι → Prop) : σ → List ι → Prop
  | _, [] => True
  | s, i :: is => ∀ s', step s i = some s' → ok s i ∧ Meets step ok s' is

instance instDecidableMeets {ok : σ → ι → Prop} [∀ s i, Decidable (ok s i)] :
    ∀ (s : σ) (is : List ι), Decidable (Meets step ok s is)
  | _, [] => isTrue trivial
  | s, i :: is =>
    match h : step s i with
    | none => isTrue fun s' h' => by simp [h] at h'
    | some t =>
      have : Decidable (Meets step ok t is) := instDecidableMeets t is
      decidable_of_iff (ok s i ∧ Meets step ok t is)
        ⟨fun hm s' h' => Option.some.inj (h.symm.trans h') ▸ hm, fun hm => hm t h⟩

/-- Two conditions of which the second keeps `I`, and that agree on each step from a state of
`I`, admit the same runs. -/
theorem meets_iff {I : σ → Prop} {ok ok' : σ → ι → Prop}
    (hstep : ∀ s i s', I s → step s i = some s' → (ok s i ↔ ok' s i) ∧ (ok' s i → I s')) :
    ∀ (is : List ι) {s : σ}, I s → (Meets step ok s is ↔ Meets step ok' s is) := by
  intro is
  induction is with
  | nil =>
    intro s _
    exact Iff.rfl
  | cons i is ih =>
    intro s hs
    refine ⟨?_, ?_⟩
    · intro hm s' h1
      obtain ⟨hiff, hkeep⟩ := hstep s i s' hs h1
      obtain ⟨hok, hm'⟩ := hm s' h1
      have hok' := hiff.1 hok
      exact ⟨hok', (ih (hkeep hok')).1 hm'⟩
    · intro hm s' h1
      obtain ⟨hiff, hkeep⟩ := hstep s i s' hs h1
      obtain ⟨hok', hm'⟩ := hm s' h1
      exact ⟨hiff.2 hok', (ih (hkeep hok')).2 hm'⟩

/-- A condition that in every state of `I` gives another one, and keeps `I`, admits fewer runs. -/
theorem meets_mono {I : σ → Prop} {ok ok' : σ → ι → Prop}
    (hstep : ∀ s i s', I s → ok s i → step s i = some s' → ok' s i ∧ I s') :
    ∀ (is : List ι) {s : σ}, I s → Meets step ok s is → Meets step ok' s is := by
  intro is
  induction is with
  | nil =>
    intro s _ _
    trivial
  | cons i is ih =>
    intro s hs hm s' h1
    obtain ⟨hok, hm'⟩ := hm s' h1
    obtain ⟨hok', hs'⟩ := hstep s i s' hs hok h1
    exact ⟨hok', ih hs' hm'⟩

theorem meets_induct {P : σ → Prop} {ok : σ → ι → Prop}
    (hstep : ∀ s i s', P s → ok s i → step s i = some s' → P s') :
    ∀ (is : List ι) {s t : σ}, P s → Meets step ok s is → run step s is = some t → P t := by
  intro is
  induction is with
  | nil =>
    intro s t hs _ h
    simp only [run_nil, Option.some.injEq] at h
    exact h ▸ hs
  | cons i is ih =>
    intro s t hs hm h
    obtain ⟨s', h1, h2⟩ := run_cons_iff.1 h
    obtain ⟨hok, hm'⟩ := hm s' h1
    exact ih (hstep s i s' hs hok h1) hm' h2

/-- A run is defined when in a state of `P` every step is, and an admitted one keeps `P`. -/
theorem meets_total {P : σ → Prop} {ok : σ → ι → Prop}
    (hstep : ∀ s i, P s → ∃ s', step s i = some s' ∧ (ok s i → P s')) :
    ∀ (is : List ι) {s : σ}, P s → Meets step ok s is → ∃ t, run step s is = some t ∧ P t := by
  intro is
  induction is with
  | nil =>
    intro s hs _
    exact ⟨s, run_nil s, hs⟩
  | cons i is ih =>
    intro s hs hm
    obtain ⟨s', h1, hkeep⟩ := hstep s i hs
    obtain ⟨hok, hm'⟩ := hm s' h1
    obtain ⟨t, h2, ht⟩ := ih (hkeep hok) hm'
    exact ⟨t, run_cons_iff.2 ⟨s', h1, h2⟩, ht⟩

/-- Every step of the run is attempted on an input that `ok` admits; unlike in `Meets`, this is so
for a step that fails as well. -/
def Admits (step : σ → ι → Option σ) (ok : σ → ι → Prop) : σ → List ι → Prop
  | _, [] => True
  | s, i :: is => ok s i ∧ ∀ s', step s i = some s' → Admits step ok s' is

/-- What admitted steps keep holds wherever a prefix of the run leads, and the next step is
admitted there. -/
theorem admits_induct {P : σ → Prop} {ok : σ → ι → Prop}
    (hstep : ∀ s i s', P s → ok s i → step s i = some s' → P s') :
    ∀ (pre : List ι) {rest : List ι} {s t : σ}, P s → Admits step ok s (pre ++ rest) →
      run step s pre = some t → P t ∧ Admits step ok t rest := by
  intro pre
  induction pre with
  | nil =>
    intro rest s t hs ha h
    simp only [run_nil, Option.some.injEq] at h
    exact h ▸ ⟨hs, ha⟩
  | cons i pre ih =>
    intro rest s t hs ha h
    obtain ⟨s', h1, h2⟩ := run_cons_iff.1 h
    obtain ⟨hok, hrest⟩ := ha
    exact ih (hstep s i s' hs hok h1) (hrest s' h1) h2

/-- A condition that in every state of `P` gives another one, and keeps `P`, admits fewer runs. -/
theorem admits_mono {P : σ → Prop} {ok ok' : σ → ι → Prop}
    (hstep : ∀ s i, P s → ok s i → ok' s i ∧ ∀ s', step s i = some s' → P s') :
    ∀ (is : List ι) {s : σ}, P s → Admits step ok s is → Admits step ok' s is := by
  intro is
  induction is with
  | nil =>
    intro s _ _
    trivial
  | cons i is ih =>
    intro s hs ha
    obtain ⟨hok, hrest⟩ := ha
    obtain ⟨hok', hkeep⟩ := hstep s i hs hok
    refine ⟨hok', ?_⟩
    intro s' h1
    exact ih (hkeep s' h1) (hrest s' h1)

/-- A step that does under `f` what another step does, runs like it. -/
theorem run_refines {τ : Type} {step' : τ → ι → Option τ} {f : σ → τ} {I : σ → Prop}
    {ok : σ → ι → Prop}
    (hstep : ∀ s i, I s → ok s i →
      (step s i).map f = step' (f s) i ∧ ∀ s', step s i = some s' → I s') :
    ∀ (is : List ι) {s : σ}, I s → Admits step ok s is →
      (run step s is).map f = run step' (f s) is := by
  intro is
  induction is with
  | nil =>
    intro s _ _
    rfl
  | cons i is ih =>
    intro s hs ha
    obtain ⟨hok, hrest⟩ := ha
    obtain ⟨heq, hkeep⟩ := hstep s i hs hok
    rw [run_cons, run_cons, ← heq]
    cases hs' : step s i with
    | none => rfl
    | some s' => exact ih (hkeep s' hs') (hrest s' hs')

/-- `P` holds in every state the run passes through. -/
def Throughout (step : σ → ι → Option σ) (P : σ → Prop) (s : σ) (is : List ι) : Prop :=
  ∀ pre, pre <+: is → ∀ s', run step s pre = some s' → P s'

theorem throughout_cons {P : σ → Prop} {s : σ} {i : ι} {is : List ι} :
    Throughout step P s (i :: is) ↔ P s ∧ ∀ s', step s i = some s' → Throughout step P s' is := by
  refine ⟨?_, ?_⟩
  · intro h
    refine ⟨h [] (List.nil_prefix) s rfl, ?_⟩
    intro s' h1 pre hpre t ht
    exact h (i :: pre) (List.cons_prefix_cons.2 ⟨rfl, hpre⟩) t (run_cons_iff.2 ⟨s', h1, ht⟩)
  · intro h' pre hpre t ht
    obtain ⟨hs, h⟩ := h'
    cases pre with
    | nil =>
      simp only [run_nil, Option.some.injEq] at ht
      exact ht ▸ hs
    | cons j pre =>
      obtain ⟨rfl, hpre'⟩ := List.cons_prefix_cons.1 hpre
      obtain ⟨s', h1, h2⟩ := run_cons_iff.1 ht
      exact h s' h1 pre hpre' t h2

/-- **A condition that decides every step decides the whole run.** If from a state with `P`
a step reaches a state with `P` exactly when `ok` admits it, then `P` holds throughout a run
exactly when `ok` admits each of its steps. `I` is what holds in every state anyway. -/
theorem throughout_iff_meets {I P : σ → Prop} {ok : σ → ι → Prop}
    (hI : ∀ s i s', I s → step s i = some s' → I s')
    (hstep : ∀ s i s', I s → P s → step s i = some s' → (P s' ↔ ok s i)) :
    ∀ (is : List ι) {s : σ}, I s → P s → (Throughout step P s is ↔ Meets step ok s is) := by
  intro is
  induction is with
  | nil =>
    intro s _ hP
    refine ⟨?_, ?_⟩
    · intro _
      trivial
    · intro _ pre hpre t ht
      rw [List.prefix_nil.1 hpre, run_nil, Option.some.injEq] at ht
      exact ht ▸ hP
  | cons i is ih =>
    intro s hs hP
    rw [throughout_cons]
    refine ⟨?_, ?_⟩
    · intro h' s' h1
      obtain ⟨_, h⟩ := h'
      -- The empty prefix of the rest is the state after this step.
      have hP' : P s' := h s' h1 [] List.nil_prefix s' rfl
      have hok : ok s i := (hstep s i s' hs hP h1).1 hP'
      exact ⟨hok, (ih (hI s i s' hs h1) hP').1 (h s' h1)⟩
    · intro h
      refine ⟨hP, ?_⟩
      intro s' h1
      obtain ⟨hok, hm⟩ := h s' h1
      have hP' : P s' := (hstep s i s' hs hP h1).2 hok
      exact (ih (hI s i s' hs h1) hP').2 hm

/-- No step of the run fails, and `P` holds in every state it passes through. -/
def Survives (step : σ → ι → Option σ) (P : σ → Prop) (s : σ) (is : List ι) : Prop :=
  ∀ pre, pre <+: is → ∃ t, run step s pre = some t ∧ P t

theorem survives_cons {P : σ → Prop} {s : σ} {i : ι} {is : List ι} :
    Survives step P s (i :: is) ↔ P s ∧ ∃ s', step s i = some s' ∧ Survives step P s' is := by
  constructor
  · intro h
    obtain ⟨_, hrun, hs⟩ := h [] List.nil_prefix
    obtain ⟨s', hrun', -⟩ := h [i] (List.cons_prefix_cons.2 ⟨rfl, List.nil_prefix⟩)
    obtain ⟨_, h1, h2⟩ := run_cons_iff.1 hrun'
    cases hrun
    cases h2
    refine ⟨hs, s', h1, ?_⟩
    intro pre hpre
    obtain ⟨t, ht, hP⟩ := h (i :: pre) (List.cons_prefix_cons.2 ⟨rfl, hpre⟩)
    obtain ⟨_, h3, h4⟩ := run_cons_iff.1 ht
    rw [h1] at h3
    cases h3
    exact ⟨t, h4, hP⟩
  · rintro ⟨hs, s', h1, h⟩ pre hpre
    cases pre with
    | nil => exact ⟨s, rfl, hs⟩
    | cons j pre =>
      obtain ⟨rfl, hpre'⟩ := List.cons_prefix_cons.1 hpre
      obtain ⟨t, ht, hP⟩ := h pre hpre'
      exact ⟨t, run_cons_iff.2 ⟨s', h1, ht⟩, hP⟩

/-- If from a state with `P` a step succeeds and keeps `P` exactly when `ok` admits it, then a run
survives exactly when `ok` admits each of its steps. `I` is what holds in every state anyway. -/
theorem survives_iff_admits {I P : σ → Prop} {ok : σ → ι → Prop}
    (hI : ∀ s i s', I s → step s i = some s' → I s')
    (hstep : ∀ s i, I s → P s → ((∃ s', step s i = some s' ∧ P s') ↔ ok s i)) :
    ∀ (is : List ι) {s : σ}, I s → P s → (Survives step P s is ↔ Admits step ok s is) := by
  intro is
  induction is with
  | nil =>
    intro s _ hP
    refine iff_of_true ?_ trivial
    intro pre hpre
    rw [List.prefix_nil.1 hpre]
    exact ⟨s, rfl, hP⟩
  | cons i is ih =>
    intro s hs hP
    rw [survives_cons, Admits]
    constructor
    · rintro ⟨-, s', h1, h⟩
      obtain ⟨_, hrun, hP'⟩ := h [] List.nil_prefix
      cases hrun
      refine ⟨(hstep s i hs hP).1 ⟨s', h1, hP'⟩, ?_⟩
      intro t ht
      obtain rfl := Option.some.inj (h1.symm.trans ht)
      exact (ih (hI s i s' hs h1) hP').1 h
    · rintro ⟨hok, hrest⟩
      obtain ⟨s', h1, hP'⟩ := (hstep s i hs hP).2 hok
      exact ⟨hP, s', h1, (ih (hI s i s' hs h1) hP').2 (hrest s' h1)⟩

/-- If from a state with `P` exactly the steps that `ok` admits succeed, and these keep `P`, then
exactly the runs succeed each of whose steps `ok` admits. -/
theorem run_iff_admits {P Q : σ → Prop} {ok : σ → ι → Prop} (hQ : ∀ s, P s → Q s)
    (hadmitted : ∀ s i, P s → ok s i → ∃ s', step s i = some s' ∧ P s')
    (hother : ∀ s i, P s → ¬ ok s i → step s i = none) : ∀ (is : List ι) {s : σ}, P s →
      ((∃ t, run step s is = some t ∧ Q t) ↔ Admits step ok s is) := by
  intro is
  induction is with
  | nil =>
    intro s hs
    exact iff_of_true ⟨s, rfl, hQ s hs⟩ trivial
  | cons i is ih =>
    intro s hs
    constructor
    · rintro ⟨t, hrun, ht⟩
      obtain ⟨s', h1, h2⟩ := run_cons_iff.1 hrun
      have hok : ok s i := by
        by_contra hnot
        rw [hother s i hs hnot] at h1
        cases h1
      obtain ⟨s'', h3, hs'⟩ := hadmitted s i hs hok
      obtain rfl := Option.some.inj (h1.symm.trans h3)
      refine ⟨hok, ?_⟩
      intro s'' h4
      obtain rfl := Option.some.inj (h1.symm.trans h4)
      exact (ih hs').1 ⟨t, h2, ht⟩
    · rintro ⟨hok, hrest⟩
      obtain ⟨s', h1, hs'⟩ := hadmitted s i hs hok
      obtain ⟨t, h2, ht⟩ := (ih hs').2 (hrest s' h1)
      exact ⟨t, run_cons_iff.2 ⟨s', h1, h2⟩, ht⟩

end PartialRun
