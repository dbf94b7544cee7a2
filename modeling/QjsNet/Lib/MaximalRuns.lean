/- Maximal runs of a partial step function.

   Some inputs are enabled in a state, and a run goes on as long as one is. `AllEnd`
   says of a state that, whatever enabled input is taken each time, the run

   1. never meets a step that fails;
   2. is in a `safe` state all the way;
   3. comes to rest after finitely many steps, in a `final` state.

   `not_allEnd` refutes it with an invariant: from each of its states somebody can take
   the run into the invariant again, unless it has gone wrong there already. -/
namespace MaximalRuns

variable {σ ι : Type} {step : σ → ι → Option σ} {enabled : σ → ι → Prop} {safe final : σ → Prop}

/-- Every maximal run ends well. -/
inductive AllEnd (step : σ → ι → Option σ) (enabled : σ → ι → Prop) (safe final : σ → Prop) :
    σ → Prop
  | rest {s : σ} : safe s → (∀ i, ¬ enabled s i) → final s → AllEnd step enabled safe final s
  | next {s : σ} {i : ι} : safe s → enabled s i → (∀ j, enabled s j → step s j ≠ none) →
      (∀ j s', enabled s j → step s j = some s' → AllEnd step enabled safe final s') →
      AllEnd step enabled safe final s

/-- All enabled inputs lead to states all of whose runs end well. -/
theorem allEnd_next {s : σ} (i : ι) (hsafe : safe s) (hi : enabled s i)
    (h : ∀ j, enabled s j → ∃ s', step s j = some s' ∧ AllEnd step enabled safe final s') :
    AllEnd step enabled safe final s := by
  refine .next hsafe hi ?_ ?_
  · intro j hj hnone
    obtain ⟨s', hs', -⟩ := h j hj
    rw [hnone] at hs'
    cases hs'
  · intro j s' hj hs'
    obtain ⟨t, ht, hend⟩ := h j hj
    rw [hs'] at ht
    exact Option.some.inj ht ▸ hend

theorem allEnd_step {s s' : σ} (i : ι) (h : AllEnd step enabled safe final s) (hi : enabled s i)
    (hstep : step s i = some s') : AllEnd step enabled safe final s' := by
  cases h with
  | rest _ hrest _ => exact absurd hi (hrest i)
  | next _ _ _ hnext => exact hnext i s' hi hstep

theorem allEnd_rest {s : σ} (h : AllEnd step enabled safe final s) (hrest : ∀ i, ¬ enabled s i) :
    final s := by
  cases h with
  | rest _ _ hfinal => exact hfinal
  | @next _ i _ hi _ _ => exact absurd hi (hrest i)

theorem allEnd_mono {final' : σ → Prop} (hfinal : ∀ s, final s → final' s) {s : σ}
    (h : AllEnd step enabled safe final s) : AllEnd step enabled safe final' s := by
  induction h with
  | rest hsafe hrest hend => exact .rest hsafe hrest (hfinal _ hend)
  | next hsafe hi hdef _ ih => exact .next hsafe hi hdef ih

/-- A state is lost if it is unsafe, or at rest and not final, or if one enabled input fails or
leads to a state of `I`. -/
def Lost (step : σ → ι → Option σ) (enabled : σ → ι → Prop) (safe final I : σ → Prop) (s : σ) :
    Prop :=
  ¬ safe s ∨ ((∀ i, ¬ enabled s i) ∧ ¬ final s) ∨
    ∃ i, enabled s i ∧ ∀ s', step s i = some s' → I s'

/-- No state of an invariant whose states are lost ends well on all runs. -/
theorem not_allEnd {I : σ → Prop} (hI : ∀ s, I s → Lost step enabled safe final I s) {s : σ}
    (hs : I s) : ¬ AllEnd step enabled safe final s := by
  intro h
  induction h with
  | @rest s hsafe hrest hfinal =>
    rcases hI s hs with hunsafe | ⟨-, hnot⟩ | ⟨i, hi, -⟩
    · exact hunsafe hsafe
    · exact hnot hfinal
    · exact hrest i hi
  | @next s i hsafe hi hdef _ ih =>
    rcases hI s hs with hunsafe | ⟨hrest, -⟩ | ⟨j, hj, hnext⟩
    · exact hunsafe hsafe
    · exact hrest i hi
    · cases hstep : step s j with
      | none => exact hdef j hj hstep
      | some s' => exact ih j s' hj hstep (hnext s' hstep)

end MaximalRuns
