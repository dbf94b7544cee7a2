import Mathlib.Data.List.Basic

/- Values that come due at a mark.

   A list of values with marks, whose marks do not decrease, is a schedule: at count
   `n` the values with marks up to `n` are due (`upTo`). When the count goes up, the
   values with marks in between follow (`upTo_add`), mark by mark (`within_succ`). -/
namespace Marks

variable {α : Type} {xs ys : List (α × Nat)} {a k n : Nat} {x : α}

def Ordered (xs : List (α × Nat)) : Prop := xs.Pairwise fun e e' => e.2 ≤ e'.2

/-- What is due at count `n`. -/
def upTo (xs : List (α × Nat)) (n : Nat) : List α := (xs.filter (·.2 ≤ n)).map (·.1)

/-- What comes due at `n`. -/
def atMark (xs : List (α × Nat)) (n : Nat) : List α := (xs.filter (·.2 = n)).map (·.1)

/-- What comes due in the `k` counts after `a`. -/
def within (xs : List (α × Nat)) (a k : Nat) : List α :=
  (xs.filter fun e => a < e.2 ∧ e.2 ≤ a + k).map (·.1)

theorem ordered_nil : Ordered ([] : List (α × Nat)) := List.Pairwise.nil

theorem Ordered.snoc (h : Ordered xs) (hn : ∀ e ∈ xs, e.2 ≤ n) : Ordered (xs ++ [(x, n)]) := by
  refine List.pairwise_append.2 ⟨h, List.pairwise_singleton _ _, ?_⟩
  intro e he e' he'
  rw [List.mem_singleton.1 he']
  exact hn e he

/-- In a schedule a filter for the marks up to `m` goes before one for the later marks. -/
theorem Ordered.filter_split (h : Ordered xs) {m : Nat} (hle : a ≤ m) :
    xs.filter (·.2 ≤ m) = xs.filter (·.2 ≤ a) ++ xs.filter fun e => a < e.2 ∧ e.2 ≤ m := by
  induction xs with
  | nil => rfl
  | cons e xs ih =>
    obtain ⟨hfirst, hrest⟩ := List.pairwise_cons.1 h
    by_cases he : e.2 ≤ a
    · rw [List.filter_cons_of_pos (by simpa using Nat.le_trans he hle),
        List.filter_cons_of_pos (by simpa using he),
        List.filter_cons_of_neg (by simpa using fun hlt => absurd he (Nat.not_le_of_lt hlt)),
        ih hrest, List.cons_append]
    · -- The marks that follow are later as well.
      have hnone : xs.filter (·.2 ≤ a) = [] := by
        rw [List.filter_eq_nil_iff]
        intro e' he' hmark
        have hle' := hfirst e' he'
        simp only [decide_eq_true_eq] at hmark
        omega
      have hfirst' : (e :: xs).filter (·.2 ≤ a) = [] := by
        rw [List.filter_cons, hnone, if_neg (by simpa using he)]
      rw [hfirst', List.nil_append]
      refine List.filter_congr ?_
      intro e' he'
      have hlt : a < e'.2 := by
        rcases List.mem_cons.1 he' with rfl | he'
        · omega
        · have hle' := hfirst e' he'
          omega
      rw [decide_eq_decide]
      exact ⟨fun hm => ⟨hlt, hm⟩, fun hm => hm.2⟩

theorem upTo_add (h : Ordered xs) : upTo xs (a + k) = upTo xs a ++ within xs a k := by
  unfold upTo within
  rw [h.filter_split (Nat.le_add_right a k), List.map_append]

theorem within_zero : within xs a 0 = [] := by
  unfold within
  rw [List.map_eq_nil_iff, List.filter_eq_nil_iff]
  intro e _ he
  simp only [decide_eq_true_eq] at he
  omega

theorem within_succ (h : Ordered xs) :
    within xs a (k + 1) = within xs a k ++ atMark xs (a + k + 1) := by
  -- Both sides complete what is due at `a`.
  have hlast : within xs (a + k) 1 = atMark xs (a + k + 1) := by
    unfold within atMark
    refine congrArg _ (List.filter_congr ?_)
    intro e _
    rw [decide_eq_decide]
    omega
  have hall : upTo xs a ++ within xs a (k + 1) = upTo xs a ++ (within xs a k ++ atMark xs (a + k + 1)) :=
    calc upTo xs a ++ within xs a (k + 1)
        = upTo xs (a + k + 1) := (upTo_add h).symm
      _ = upTo xs (a + k) ++ within xs (a + k) 1 := upTo_add h
      _ = upTo xs a ++ (within xs a k ++ atMark xs (a + k + 1)) := by
          rw [upTo_add h, hlast, List.append_assoc]
  exact List.append_cancel_left hall

theorem atMark_eq_nil (hn : ∀ e ∈ xs, e.2 < n) : atMark xs n = [] := by
  unfold atMark
  rw [List.map_eq_nil_iff, List.filter_eq_nil_iff]
  intro e he hmark
  have hlt := hn e he
  simp only [decide_eq_true_eq] at hmark
  omega

theorem upTo_append : upTo (xs ++ ys) n = upTo xs n ++ upTo ys n := by
  unfold upTo
  rw [List.filter_append, List.map_append]

theorem upTo_eq_nil (hn : ∀ e ∈ xs, n < e.2) : upTo xs n = [] := by
  unfold upTo
  rw [List.map_eq_nil_iff, List.filter_eq_nil_iff]
  intro e he hmark
  have hlt := hn e he
  simp only [decide_eq_true_eq] at hmark
  omega

theorem atMark_append : atMark (xs ++ ys) n = atMark xs n ++ atMark ys n := by
  unfold atMark
  rw [List.filter_append, List.map_append]

theorem atMark_singleton : atMark [(x, n)] n = [x] := by
  simp [atMark]

theorem atMark_other {m : Nat} (h : n ≠ m) : atMark [(x, n)] m = [] := by
  simp [atMark, h]

theorem mem_atMark (h : x ∈ atMark xs n) : ∃ e ∈ xs, e.1 = x := by
  obtain ⟨e, he, rfl⟩ := List.mem_map.1 h
  exact ⟨e, List.mem_of_mem_filter he, rfl⟩

end Marks
