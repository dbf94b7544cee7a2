import Mathlib.Data.List.Basic

/- A sequence cut into lines.

   `p` tells the elements that end a line. `lines` are the complete lines, each with
   its end, and `rest` is what is behind them, which has no end in it; `pieces` has
   the rest as a last piece unless it is empty.

   What follows a sequence only meets its rest (`lines_append`, `rest_append`), so the
   lines can be found piece by piece. -/
namespace Lines

variable {α : Type} {p : α → Bool} {x : α} {line : List α} {xs ys : List α} {ls : List (List α)}

def cut (p : α → Bool) : List α → List (List α) × List α
  | [] => ([], [])
  | x :: xs =>
    if p x then ([x] :: (cut p xs).1, (cut p xs).2)
    else
      match (cut p xs).1 with
      | [] => ([], x :: (cut p xs).2)
      | line :: ls => ((x :: line) :: ls, (cut p xs).2)

def lines (p : α → Bool) (xs : List α) : List (List α) := (cut p xs).1

def rest (p : α → Bool) (xs : List α) : List α := (cut p xs).2

def pieces (p : α → Bool) (xs : List α) : List (List α) :=
  lines p xs ++ if (rest p xs).isEmpty then [] else [rest p xs]

/-! ## One element more -/

theorem lines_end (hx : p x = true) : lines p (x :: xs) = [x] :: lines p xs := by
  simp [lines, cut, hx]

theorem rest_end (hx : p x = true) : rest p (x :: xs) = rest p xs := by
  simp [rest, cut, hx]

theorem lines_join (hx : p x = false) (h : lines p xs = line :: ls) :
    lines p (x :: xs) = (x :: line) :: ls ∧ rest p (x :: xs) = rest p xs := by
  unfold lines rest at *
  simp [cut, hx, h]

theorem lines_open (hx : p x = false) (h : lines p xs = []) :
    lines p (x :: xs) = [] ∧ rest p (x :: xs) = x :: rest p xs := by
  unfold lines rest at *
  simp [cut, hx, h]

/-- The lines and the rest are the whole sequence. -/
theorem flatten_rest (xs : List α) : (lines p xs).flatten ++ rest p xs = xs := by
  induction xs with
  | nil => rfl
  | cons x xs ih =>
    cases hx : p x with
    | true =>
      rw [lines_end hx, rest_end hx, List.flatten_cons, List.append_assoc, ih]
      rfl
    | false =>
      cases hxs : lines p xs with
      | nil =>
        obtain ⟨hlines, hrest⟩ := lines_open hx hxs
        rw [hxs] at ih
        rw [hlines, hrest]
        exact congrArg (List.cons x) ih
      | cons line ls =>
        obtain ⟨hlines, hrest⟩ := lines_join hx hxs
        rw [hxs] at ih
        rw [hlines, hrest]
        exact congrArg (List.cons x) ih

theorem rest_of_no_lines (h : lines p xs = []) : rest p xs = xs := by
  have hall := @flatten_rest α p xs
  rwa [h] at hall

theorem pieces_flatten (xs : List α) : (pieces p xs).flatten = xs := by
  unfold pieces
  split
  · next h =>
    have hall := @flatten_rest α p xs
    rw [List.isEmpty_iff.1 h, List.append_nil] at hall
    rw [List.append_nil, hall]
  · rw [List.flatten_append, List.flatten_singleton, flatten_rest]

/-! ## More to come -/

/-- What follows only meets the rest. -/
theorem lines_append (xs ys : List α) :
    lines p (xs ++ ys) = lines p xs ++ lines p (rest p xs ++ ys) ∧
      rest p (xs ++ ys) = rest p (rest p xs ++ ys) := by
  induction xs with
  | nil => exact ⟨rfl, rfl⟩
  | cons x xs ih =>
    obtain ⟨ihlines, ihrest⟩ := ih
    cases hx : p x with
    | true =>
      rw [List.cons_append, lines_end hx, lines_end hx, rest_end hx, rest_end hx, ihlines]
      exact ⟨rfl, ihrest⟩
    | false =>
      cases hxs : lines p xs with
      | nil =>
        -- nothing is cut off yet
        obtain ⟨hlines, -⟩ := lines_open hx hxs
        rw [hlines, rest_of_no_lines hlines]
        exact ⟨rfl, rfl⟩
      | cons line ls =>
        obtain ⟨hlines, hrest⟩ := lines_join hx hxs
        rw [hxs, List.cons_append] at ihlines
        obtain ⟨hlines', hrest'⟩ := lines_join hx ihlines
        rw [List.cons_append, hlines', hlines, hrest', hrest]
        exact ⟨rfl, ihrest⟩

theorem pieces_append (xs ys : List α) :
    pieces p (xs ++ ys) = lines p xs ++ pieces p (rest p xs ++ ys) := by
  unfold pieces
  rw [(lines_append xs ys).1, (lines_append xs ys).2, List.append_assoc]

theorem pieces_eq_lines_iff : pieces p xs = lines p xs ↔ rest p xs = [] := by
  rw [pieces, List.append_right_eq_self]
  cases rest p xs with
  | nil => exact iff_of_true rfl rfl
  | cons x rest => exact iff_of_false (List.cons_ne_nil _ _) (List.cons_ne_nil _ _)

theorem pieces_of_rest {init : List (List α)} {last : List α} (hrest : rest p xs ≠ [])
    (h : pieces p xs = init ++ [last]) : lines p xs = init ∧ rest p xs = last := by
  rw [pieces, if_neg (by simpa using hrest)] at h
  obtain ⟨hinit, hlast⟩ := List.append_inj' h rfl
  exact ⟨hinit, List.singleton_inj.1 hlast⟩

/-- Without an end everything is rest. -/
theorem lines_eq_nil_iff : lines p xs = [] ↔ ∀ x ∈ xs, p x = false := by
  induction xs with
  | nil => exact ⟨fun _ x hx => absurd hx List.not_mem_nil, fun _ => rfl⟩
  | cons x xs ih =>
    cases hx : p x with
    | true => simp [lines_end hx, hx]
    | false =>
      cases hxs : lines p xs with
      | nil =>
        rw [(lines_open hx hxs).1, List.forall_mem_cons]
        exact iff_of_true rfl ⟨hx, ih.1 hxs⟩
      | cons line ls =>
        have hsome : ¬ ∀ x ∈ xs, p x = false := fun h => by
          rw [ih.2 h] at hxs
          cases hxs
        rw [(lines_join hx hxs).1, List.forall_mem_cons]
        exact iff_of_false (List.cons_ne_nil _ _) fun h => hsome h.2

/-- A line has its end, and no end before it. -/
theorem shape_of_mem : ∀ {line : List α}, line ∈ lines p xs →
    ∃ init x, line = init ++ [x] ∧ p x = true ∧ ∀ y ∈ init, p y = false := by
  induction xs with
  | nil => exact fun h => absurd h List.not_mem_nil
  | cons x xs ih =>
    intro line hline
    cases hx : p x with
    | true =>
      rw [lines_end hx] at hline
      rcases List.mem_cons.1 hline with rfl | hline
      · exact ⟨[], x, rfl, hx, fun y hy => absurd hy List.not_mem_nil⟩
      · exact ih hline
    | false =>
      cases hxs : lines p xs with
      | nil =>
        rw [(lines_open hx hxs).1] at hline
        exact absurd hline List.not_mem_nil
      | cons first ls =>
        rw [(lines_join hx hxs).1] at hline
        rcases List.mem_cons.1 hline with rfl | hline
        · obtain ⟨init, y, rfl, hy, hfree⟩ := ih (hxs ▸ List.mem_cons_self)
          exact ⟨x :: init, y, rfl, hy, List.forall_mem_cons.2 ⟨hx, hfree⟩⟩
        · exact ih (hxs ▸ List.mem_cons_of_mem first hline)

theorem rest_free : ∀ x ∈ rest p xs, p x = false := by
  induction xs with
  | nil => exact fun x hx => absurd hx List.not_mem_nil
  | cons x xs ih =>
    cases hx : p x with
    | true => rwa [rest_end hx]
    | false =>
      cases hxs : lines p xs with
      | nil =>
        rw [(lines_open hx hxs).2]
        exact List.forall_mem_cons.2 ⟨hx, ih⟩
      | cons line ls => rwa [(lines_join hx hxs).2]

theorem pieces_free (h : ∀ x ∈ xs, p x = false) (hne : xs ≠ []) : pieces p xs = [xs] := by
  have hlines := lines_eq_nil_iff.2 h
  rw [pieces, hlines, rest_of_no_lines hlines, if_neg (by simpa using hne)]
  rfl

theorem first_line {init : List α} (h : ∀ x ∈ init, p x = false) (hx : p x = true) :
    lines p (init ++ [x]) = [init ++ [x]] ∧ rest p (init ++ [x]) = [] := by
  induction init with
  | nil => exact ⟨lines_end hx, rest_end hx⟩
  | cons y init ih =>
    obtain ⟨hlines, hrest⟩ := ih fun z hz => h z (List.mem_cons_of_mem y hz)
    obtain ⟨hlines', hrest'⟩ := lines_join (h y List.mem_cons_self) hlines
    exact ⟨hlines', hrest'.trans hrest⟩

theorem pieces_line {init : List α} (h : ∀ x ∈ init, p x = false) (hx : p x = true) :
    pieces p (init ++ x :: xs) = (init ++ [x]) :: pieces p xs := by
  obtain ⟨hlines, hrest⟩ := first_line h hx
  rw [List.append_cons, pieces_append, hlines, hrest]
  rfl

/-- Nothing is left over exactly when the sequence is empty or its last element is an end. -/
theorem rest_eq_nil_iff : rest p xs = [] ↔ ∀ x ∈ xs.getLast?, p x = true := by
  rcases List.eq_nil_or_concat' xs with rfl | ⟨init, x, rfl⟩
  · refine iff_of_true rfl ?_
    intro x hx
    cases hx
  · rw [(lines_append init [x]).2, List.getLast?_concat]
    cases hx : p x with
    | true =>
      refine iff_of_true (first_line rest_free hx).2 ?_
      intro y hy
      exact Option.some.inj hy ▸ hx
    | false =>
      have hall : ∀ y ∈ rest p init ++ [x], p y = false := by
        intro y hy
        rcases List.mem_append.1 hy with hy | hy
        · exact rest_free y hy
        · exact List.mem_singleton.1 hy ▸ hx
      rw [rest_of_no_lines (lines_eq_nil_iff.2 hall)]
      refine iff_of_false (by simp) ?_
      intro h
      rw [h x rfl] at hx
      cases hx

end Lines
