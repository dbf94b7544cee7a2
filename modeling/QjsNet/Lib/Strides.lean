import Mathlib.Data.List.Basic

/- A scan that takes a sequence in strides.

   `next` says how many elements the scan takes of what is left. When it takes at least one,
   and not more than there are (`Progress`), the scan comes to an end: `rests` are what is
   left before each stride, and `place` is where the scan stands after a number of strides. A
   loop with fuel for every element makes all strides (`Progress.fuel_induct`), and stands
   exactly behind the last element then (`place_end`). -/
namespace Strides

variable {α : Type} {next : List α → Nat} {x : List α}

structure Progress (next : List α → Nat) : Prop where
  pos : ∀ x : List α, x ≠ [] → 0 < next x
  le : ∀ x : List α, next x ≤ x.length

def restsIn (next : List α → Nat) : Nat → List α → List (List α)
  | 0, _ => []
  | fuel + 1, x => if x.isEmpty then [] else x :: restsIn next fuel (x.drop (next x))

/-- What is left before each stride. -/
def rests (next : List α → Nat) (x : List α) : List (List α) := restsIn next x.length x

/-- How much is taken by a number of strides. -/
def place (next : List α → Nat) (x : List α) : Nat → Nat
  | 0 => 0
  | k + 1 => place next x k + next (x.drop (place next x k))

/-- The induction of a loop that makes one stride for each unit of its fuel. -/
theorem Progress.fuel_induct (h : Progress next) {motive : Nat → List α → Prop}
    (nil : ∀ fuel, motive fuel [])
    (cons : ∀ fuel x, x ≠ [] → (x.drop (next x)).length ≤ fuel →
      motive fuel (x.drop (next x)) → motive (fuel + 1) x) :
    ∀ fuel x, x.length ≤ fuel → motive fuel x := by
  intro fuel
  induction fuel with
  | zero =>
    intro x hx
    rw [List.eq_nil_of_length_eq_zero (Nat.le_zero.1 hx)]
    exact nil 0
  | succ fuel ih =>
    intro x hx
    by_cases hne : x = []
    · rw [hne]
      exact nil (fuel + 1)
    · have hpos := h.pos x hne
      have hrest : (x.drop (next x)).length ≤ fuel := by
        rw [List.length_drop]
        omega
      exact cons fuel x hne hrest (ih _ hrest)

theorem Progress.induct (h : Progress next) {motive : List α → Prop} (nil : motive [])
    (cons : ∀ x, x ≠ [] → motive (x.drop (next x)) → motive x) (x : List α) : motive x := by
  apply h.fuel_induct (motive := fun _ x => motive x) (fun _ => nil) ?_ x.length x (Nat.le_refl _)
  intro _ x hne _ ih
  exact cons x hne ih

theorem restsIn_nil (fuel : Nat) : restsIn next fuel [] = [] := by
  cases fuel with
  | zero => rfl
  | succ fuel => rfl

theorem restsIn_succ (hne : x ≠ []) (fuel : Nat) :
    restsIn next (fuel + 1) x = x :: restsIn next fuel (x.drop (next x)) := by
  rw [restsIn, if_neg (by simpa using hne)]

/-- More fuel than elements changes nothing. -/
theorem Progress.restsIn_eq (h : Progress next) :
    ∀ fuel x, x.length ≤ fuel → ∀ more, x.length ≤ more →
      restsIn next more x = restsIn next fuel x := by
  apply h.fuel_induct (motive := fun fuel x =>
    ∀ more, x.length ≤ more → restsIn next more x = restsIn next fuel x)
  · intro fuel more _
    rw [restsIn_nil, restsIn_nil]
  · intro fuel x hne hrest ih more hmore
    have hlen := List.length_pos_of_ne_nil hne
    have hpos := h.pos x hne
    obtain ⟨more, rfl⟩ : ∃ k, more = k + 1 := ⟨more - 1, by omega⟩
    rw [restsIn_succ hne, restsIn_succ hne, ih more (by rw [List.length_drop]; omega)]

theorem rests_nil : rests next ([] : List α) = [] := rfl

theorem Progress.rests_cons (h : Progress next) (hne : x ≠ []) :
    rests next x = x :: rests next (x.drop (next x)) := by
  have hlen := List.length_pos_of_ne_nil hne
  have hpos := h.pos x hne
  obtain ⟨fuel, hfuel⟩ : ∃ k, x.length = k + 1 := ⟨x.length - 1, by omega⟩
  have hrest : (x.drop (next x)).length ≤ fuel := by
    rw [List.length_drop]
    omega
  rw [rests, hfuel, restsIn_succ hne, rests, h.restsIn_eq _ _ (Nat.le_refl _) fuel hrest]

/-! ## Where the strides begin -/

theorem place_succ (x : List α) (k : Nat) :
    place next x (k + 1) = next x + place next (x.drop (next x)) k := by
  induction k with
  | zero => rw [place, place, place, List.drop_zero, Nat.zero_add, Nat.add_zero]
  | succ k ih =>
    rw [place, ih, place, List.drop_drop]
    omega

theorem Progress.getElem?_rests (h : Progress next) (k : Nat) : ∀ x : List α,
    (rests next x)[k]?
      = if place next x k < x.length then some (x.drop (place next x k)) else none := by
  induction k with
  | zero =>
    intro x
    by_cases hne : x = []
    · rw [hne]
      rfl
    · rw [h.rests_cons hne, place, if_pos (List.length_pos_of_ne_nil hne), List.drop_zero]
      rfl
  | succ k ih =>
    intro x
    by_cases hne : x = []
    · rw [hne, rests_nil, List.length_nil, if_neg (Nat.not_lt_zero _)]
      rfl
    · have hle := h.le x
      rw [h.rests_cons hne, List.getElem?_cons_succ, ih, place_succ, List.length_drop,
        List.drop_drop]
      apply ite_congr
      · rw [eq_iff_iff]
        omega
      · exact fun _ => rfl
      · exact fun _ => rfl

theorem Progress.place_end (h : Progress next) (x : List α) :
    place next x (rests next x).length = x.length := by
  apply h.induct (motive := fun x => place next x (rests next x).length = x.length)
  · rfl
  · intro x hne ih
    have hle := h.le x
    rw [h.rests_cons hne, List.length_cons, place_succ, ih, List.length_drop]
    omega

theorem Progress.place_lt (h : Progress next) {k : Nat} (hk : k < (rests next x).length) :
    place next x k < x.length := by
  by_contra hle
  have hget := h.getElem?_rests k x
  rw [if_neg hle, List.getElem?_eq_none_iff] at hget
  omega

theorem Progress.getElem_rests (h : Progress next) {k : Nat} (hk : k < (rests next x).length) :
    (rests next x)[k] = x.drop (place next x k) := by
  have hget := h.getElem?_rests k x
  rw [if_pos (h.place_lt hk), List.getElem?_eq_getElem hk] at hget
  exact Option.some.inj hget

end Strides
