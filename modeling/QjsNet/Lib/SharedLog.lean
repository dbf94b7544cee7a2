import Mathlib.Data.List.Basic
import Mathlib.Logic.Function.Basic

/- A log with several readers.

   Each reader has a position of its own, and the log is trimmed behind them: a reader joins
   at the first element that is left, and one that reads this element moves the trimmed
   end up to the slowest reader. Nobody else moves it.

   1. `Valid`: every reader is between the trimmed end and the end of the log, and what it
      has read is an interval of the log that starts where it joined (`read_window`).
   2. `Anchored`: some reader is at the trimmed end, or all is trimmed. A reader that leaves the
      others ahead ends this, and what is appended without a reader (`anchored_iff`); then
      nothing is trimmed until somebody joins (`stuck_step`). -/
namespace SharedLog

variable {α ρ : Type}

structure Log (α ρ : Type) where
  log : List α
  trimmed : Nat
  readers : List ρ
  pos : ρ → Nat
  since : ρ → Nat

inductive Op (α ρ : Type) where
  | skip
  | join (r : ρ)
  | leave (r : ρ)
  | append (x : α)
  | read (r : ρ)

def Log.empty : Log α ρ := ⟨[], 0, [], fun _ => 0, fun _ => 0⟩

/-- The position of the slowest of the readers and one more at `n`. -/
def slowest (pos : ρ → Nat) (n : Nat) (readers : List ρ) : Nat :=
  readers.foldr (fun r m => min (pos r) m) n

def Log.advance [DecidableEq ρ] (a : Log α ρ) (r : ρ) : Log α ρ :=
  let pos := Function.update a.pos r (a.pos r + 1)
  { a with
    pos
    trimmed := if a.pos r = a.trimmed then slowest pos (pos r) a.readers else a.trimmed }

def Log.apply [DecidableEq ρ] (a : Log α ρ) : Op α ρ → Log α ρ
  | .skip => a
  | .join r =>
    { a with
      readers := r :: a.readers
      pos := Function.update a.pos r a.trimmed
      since := Function.update a.since r a.trimmed }
  | .leave r => { a with readers := a.readers.erase r }
  | .append x => { a with log := a.log ++ [x] }
  | .read r => a.advance r

/-- Nobody joins twice, and a reader reads what is there. -/
def Admissible (a : Log α ρ) : Op α ρ → Prop
  | .join r => r ∉ a.readers
  | .read r => r ∈ a.readers ∧ a.pos r < a.log.length
  | _ => True

/-- What the reader has read. -/
def Log.window (a : Log α ρ) (r : ρ) : List α :=
  (a.log.drop (a.since r)).take (a.pos r - a.since r)

structure Valid (a : Log α ρ) : Prop where
  nodup : a.readers.Nodup
  trimmed_le : a.trimmed ≤ a.log.length
  joined : ∀ r ∈ a.readers, a.since r ≤ a.pos r
  behind : ∀ r ∈ a.readers, a.trimmed ≤ a.pos r
  ahead : ∀ r ∈ a.readers, a.pos r ≤ a.log.length

/-- The trimmed end is where some reader is, or the end of the log. -/
def Anchored (a : Log α ρ) : Prop :=
  a.trimmed = a.log.length ∨ ∃ r ∈ a.readers, a.pos r = a.trimmed

/-- Every reader has read what is at the trimmed end. -/
def Stuck (a : Log α ρ) : Prop := ∀ r ∈ a.readers, a.trimmed < a.pos r

variable {a : Log α ρ} {op : Op α ρ} {r q : ρ} {pos : ρ → Nat} {k m n : Nat} {readers : List ρ}

/-! ## The slowest reader -/

theorem slowest_le (h : r ∈ readers) : slowest pos n readers ≤ pos r := by
  induction readers with
  | nil => cases h
  | cons q readers ih =>
    rcases List.mem_cons.1 h with rfl | h
    · exact Nat.min_le_left _ _
    · exact Nat.le_trans (Nat.min_le_right _ _) (ih h)

theorem slowest_le_start : slowest pos n readers ≤ n := by
  induction readers with
  | nil => exact Nat.le_refl n
  | cons q readers ih => exact Nat.le_trans (Nat.min_le_right _ _) ih

theorem le_slowest (hn : k ≤ n) (h : ∀ r ∈ readers, k ≤ pos r) : k ≤ slowest pos n readers := by
  induction readers with
  | nil => exact hn
  | cons q readers ih =>
    refine Nat.le_min.2 ⟨h q List.mem_cons_self, ih ?_⟩
    intro r hr
    exact h r (List.mem_cons_of_mem q hr)

theorem slowest_mem (h : r ∈ readers) : ∃ q ∈ readers, pos q = slowest pos (pos r) readers := by
  have hcase : ∀ xs : List ρ, slowest pos (pos r) xs = pos r ∨
      ∃ q ∈ xs, pos q = slowest pos (pos r) xs := by
    intro xs
    induction xs with
    | nil => exact Or.inl rfl
    | cons q xs ih =>
      have hmin : slowest pos (pos r) (q :: xs) = min (pos q) (slowest pos (pos r) xs) := rfl
      rw [hmin]
      rcases Nat.le_total (pos q) (slowest pos (pos r) xs) with hle | hle
      · rw [Nat.min_eq_left hle]
        exact Or.inr ⟨q, List.mem_cons_self, rfl⟩
      · rw [Nat.min_eq_right hle]
        rcases ih with heq | ⟨p, hp, heq⟩
        · exact Or.inl heq
        · exact Or.inr ⟨p, List.mem_cons_of_mem q hp, heq⟩
  rcases hcase readers with heq | hq
  · exact ⟨r, h, heq.symm⟩
  · exact hq

/-- The slowest has the most left to read. -/
theorem slowest_add_most {left : ρ → Nat} (hn : n + k = m)
    (h : ∀ r ∈ readers, left r + pos r = m) :
    slowest pos n readers + readers.foldr (fun r most => max (left r) most) k = m := by
  induction readers with
  | nil => exact hn
  | cons q readers ih =>
    have hq : left q + pos q = m := h q List.mem_cons_self
    have hrest := ih fun r hr => h r (List.mem_cons_of_mem q hr)
    rw [slowest, List.foldr_cons, List.foldr_cons, ← slowest]
    omega

/-! ## Positions -/

theorem empty_valid : Valid (Log.empty : Log α ρ) := by
  refine ⟨List.nodup_nil, Nat.le_refl 0, ?_, ?_, ?_⟩ <;> intro r hr <;> cases hr

/-- What a reader has read and what it has not, since it joined. -/
theorem Valid.window_rest (h : Valid a) (hr : r ∈ a.readers) :
    a.window r ++ a.log.drop (a.pos r) = a.log.drop (a.since r) := by
  have hj := h.joined r hr
  have hrest : a.log.drop (a.pos r) = (a.log.drop (a.since r)).drop (a.pos r - a.since r) := by
    rw [List.drop_drop, Nat.add_sub_cancel' hj]
  rw [hrest, Log.window, List.take_append_drop]

variable [DecidableEq ρ]

/-- A reader that is no slower than the start makes no difference. -/
theorem slowest_erase (hle : n ≤ pos r) :
    slowest pos n (readers.erase r) = slowest pos n readers := by
  induction readers with
  | nil => rfl
  | cons q readers ih =>
    have hcons : slowest pos n (q :: readers) = min (pos q) (slowest pos n readers) := rfl
    by_cases hq : q = r
    · subst hq
      rw [List.erase_cons_head, hcons, Nat.min_eq_right (Nat.le_trans slowest_le_start hle)]
    · rw [List.erase_cons_tail (by simpa using hq), hcons, ← ih]
      rfl

theorem advance_pos_self : (a.advance r).pos r = a.pos r + 1 := by simp [Log.advance]

theorem advance_pos_of_ne (h : q ≠ r) : (a.advance r).pos q = a.pos q := by
  simp [Log.advance, h]

theorem advance_pos_le (q : ρ) : a.pos q ≤ (a.advance r).pos q := by
  by_cases h : q = r
  · rw [h, advance_pos_self]
    exact Nat.le_succ _
  · exact Nat.le_of_eq (advance_pos_of_ne h).symm

theorem Valid.trimmed_advance (h : Valid a) (hr : r ∈ a.readers) :
    a.trimmed ≤ (a.advance r).trimmed ∧
      ∀ q ∈ a.readers, (a.advance r).trimmed ≤ (a.advance r).pos q := by
  by_cases hend : a.pos r = a.trimmed
  · have htrim : (a.advance r).trimmed =
        slowest (a.advance r).pos ((a.advance r).pos r) a.readers := by
      simp [Log.advance, hend]
    rw [htrim]
    refine ⟨?_, ?_⟩
    · have hlow : ∀ q ∈ a.readers, a.trimmed ≤ (a.advance r).pos q := by
        intro q hq
        exact Nat.le_trans (h.behind q hq) (advance_pos_le q)
      exact le_slowest (hlow r hr) hlow
    · intro q hq
      exact slowest_le hq
  · have htrim : (a.advance r).trimmed = a.trimmed := by simp [Log.advance, hend]
    rw [htrim]
    refine ⟨Nat.le_refl _, ?_⟩
    intro q hq
    exact Nat.le_trans (h.behind q hq) (advance_pos_le q)

theorem Valid.apply (h : Valid a) (hop : Admissible a op) : Valid (a.apply op) := by
  cases op with
  | skip => exact h
  | join r =>
    have hne : ∀ q ∈ a.readers, q ≠ r := by
      intro q hq heq
      exact hop (heq ▸ hq)
    refine ⟨List.nodup_cons.2 ⟨hop, h.nodup⟩, h.trimmed_le, ?_, ?_, ?_⟩
    all_goals
      intro q hq
      rcases List.mem_cons.1 hq with rfl | hq
    · simp [Log.apply]
    · simpa [Log.apply, hne q hq] using h.joined q hq
    · simp [Log.apply]
    · simpa [Log.apply, hne q hq] using h.behind q hq
    · simpa [Log.apply] using h.trimmed_le
    · simpa [Log.apply, hne q hq] using h.ahead q hq
  | leave r =>
    have hmem : ∀ q ∈ a.readers.erase r, q ∈ a.readers := fun q hq => List.mem_of_mem_erase hq
    exact ⟨h.nodup.erase r, h.trimmed_le, fun q hq => h.joined q (hmem q hq),
      fun q hq => h.behind q (hmem q hq), fun q hq => h.ahead q (hmem q hq)⟩
  | append x =>
    have hlen : a.log.length ≤ (a.log ++ [x]).length := by simp
    exact ⟨h.nodup, Nat.le_trans h.trimmed_le hlen, h.joined, h.behind,
      fun q hq => Nat.le_trans (h.ahead q hq) hlen⟩
  | read r =>
    obtain ⟨hr, hlt⟩ := hop
    obtain ⟨-, hbehind⟩ := h.trimmed_advance hr
    have hahead : ∀ q ∈ a.readers, (a.advance r).pos q ≤ a.log.length := by
      intro q hq
      by_cases hqr : q = r
      · rw [hqr, advance_pos_self]
        exact hlt
      · rw [advance_pos_of_ne hqr]
        exact h.ahead q hq
    refine ⟨h.nodup, Nat.le_trans (hbehind r hr) (hahead r hr), ?_, hbehind, hahead⟩
    intro q hq
    exact Nat.le_trans (h.joined q hq) (advance_pos_le q)

/-! ## What a reader has read -/

theorem window_join : (a.apply (.join r)).window r = [] := by
  simp [Log.apply, Log.window]

theorem window_join_of_ne (h : q ≠ r) : (a.apply (.join r)).window q = a.window q := by
  simp [Log.apply, Log.window, h]

theorem Valid.window_append (h : Valid a) (hr : r ∈ a.readers) (x : α) :
    (a.apply (.append x)).window r = a.window r := by
  have hj := h.joined r hr
  have ha := h.ahead r hr
  simp only [Log.apply, Log.window]
  rw [List.drop_append_of_le_length (by omega), List.take_append_of_le_length]
  rw [List.length_drop]
  omega

theorem Valid.read_window (h : Valid a) (hr : r ∈ a.readers) {x : α}
    (hx : a.log[a.pos r]? = some x) : (a.apply (.read r)).window r = a.window r ++ [x] := by
  have hj := h.joined r hr
  have hsub : a.pos r + 1 - a.since r = a.pos r - a.since r + 1 := by omega
  have hget : (a.log.drop (a.since r))[a.pos r - a.since r]? = some x := by
    rw [List.getElem?_drop, Nat.add_sub_cancel' hj]
    exact hx
  have hwin : (a.apply (.read r)).window r =
      (a.log.drop (a.since r)).take (a.pos r + 1 - a.since r) := by
    simp [Log.apply, Log.advance, Log.window]
  rw [hwin, hsub, List.take_add_one, hget]
  rfl

theorem window_read_of_ne (h : q ≠ r) : (a.apply (.read r)).window q = a.window q := by
  simp [Log.apply, Log.advance, Log.window, h]

/-- A reader that does not leave keeps the place where it joined. -/
theorem apply_since (hr : r ∈ a.readers) (hop : Admissible a op) (hleave : op ≠ .leave r) :
    r ∈ (a.apply op).readers ∧ (a.apply op).since r = a.since r := by
  cases op with
  | join q =>
    have hne : r ≠ q := by
      intro heq
      exact hop (heq ▸ hr)
    exact ⟨List.mem_cons_of_mem q hr, by simp [Log.apply, hne]⟩
  | leave q =>
    have hne : r ≠ q := by
      intro heq
      exact hleave (heq ▸ rfl)
    exact ⟨(List.mem_erase_of_ne hne).2 hr, rfl⟩
  | _ => exact ⟨hr, rfl⟩

/-! ## The trimmed end -/

/-- A departure leaves something that all others have read, or an element comes that nobody is
there to read. -/
def Strands (a : Log α ρ) : Op α ρ → Prop
  | .leave r => a.trimmed ≠ a.log.length ∧ ∀ q ∈ a.readers.erase r, a.pos q ≠ a.trimmed
  | .append _ => a.readers = []
  | _ => False

omit [DecidableEq ρ] in
/-- With nothing left to read every reader is at the end. -/
theorem Valid.anchored_mem (h : Valid a) (hall : a.trimmed = a.log.length) (hr : r ∈ a.readers) :
    a.pos r = a.trimmed :=
  Nat.le_antisymm (hall ▸ h.ahead r hr) (h.behind r hr)

/-- The trimmed end moves to a reader, or stays with one. -/
theorem Valid.anchored_read (hv : Valid a) (h : Anchored a) (hr : r ∈ a.readers) :
    Anchored (a.advance r) := by
  by_cases hend : a.pos r = a.trimmed
  · obtain ⟨q, hq, heq⟩ := @slowest_mem _ r (a.advance r).pos a.readers hr
    have htrim : (a.advance r).trimmed =
        slowest (a.advance r).pos ((a.advance r).pos r) a.readers := by
      simp [Log.advance, hend]
    exact Or.inr ⟨q, hq, heq.trans htrim.symm⟩
  · -- Somebody else is at the trimmed end, and neither moves.
    rcases h with hall | ⟨q, hq, heq⟩
    · exact absurd (hv.anchored_mem hall hr) hend
    · have hne : q ≠ r := by
        intro hqr
        exact hend (hqr ▸ heq)
      have htrim : (a.advance r).trimmed = a.trimmed := by simp [Log.advance, hend]
      refine Or.inr ⟨q, hq, ?_⟩
      calc (a.advance r).pos q = a.pos q := advance_pos_of_ne hne
        _ = a.trimmed := heq
        _ = (a.advance r).trimmed := htrim.symm

theorem Valid.anchored_iff (hv : Valid a) (h : Anchored a) (hop : Admissible a op) :
    Anchored (a.apply op) ↔ ¬Strands a op := by
  cases op with
  | skip => exact iff_of_true h id
  | join r =>
    refine iff_of_true (Or.inr ⟨r, List.mem_cons_self, ?_⟩) id
    simp [Log.apply]
  | leave r =>
    have hiff : Anchored (a.apply (.leave r)) ↔
        a.trimmed = a.log.length ∨ ∃ q ∈ a.readers.erase r, a.pos q = a.trimmed := Iff.rfl
    rw [hiff, Strands]
    push Not
    exact or_iff_not_imp_left
  | append x =>
    have hlt : a.trimmed ≠ (a.log ++ [x]).length := by
      have hle := hv.trimmed_le
      rw [List.length_append, List.length_singleton]
      omega
    constructor
    · rintro (hall | ⟨q, hq, -⟩) hnil
      · exact hlt hall
      · exact absurd hq (hnil ▸ List.not_mem_nil)
    · intro hsome
      obtain ⟨q, hq⟩ := List.exists_mem_of_ne_nil _ hsome
      rcases h with hall | hanchor
      · exact Or.inr ⟨q, hq, hv.anchored_mem hall hq⟩
      · exact Or.inr hanchor
  | read r => exact iff_of_true (hv.anchored_read h hop.1) id

/-- What is trimmed does not change with the log. -/
theorem Valid.take_apply (h : Valid a) (op : Op α ρ) :
    (a.apply op).log.take a.trimmed = a.log.take a.trimmed := by
  cases op with
  | append x => exact List.take_append_of_le_length h.trimmed_le
  | _ => rfl

/-- Once nobody is at the trimmed end it stays, whatever those do that are there. -/
theorem stuck_step (h : Stuck a) (hop : Admissible a op) (hjoin : ∀ r, op ≠ .join r) :
    Stuck (a.apply op) ∧ (a.apply op).trimmed = a.trimmed := by
  cases op with
  | skip => exact ⟨h, rfl⟩
  | join r => exact absurd rfl (hjoin r)
  | leave r =>
    refine ⟨?_, rfl⟩
    intro q hq
    exact h q (List.mem_of_mem_erase hq)
  | append x => exact ⟨h, rfl⟩
  | read r =>
    have hend : a.pos r ≠ a.trimmed := Nat.ne_of_gt (h r hop.1)
    have htrim : (a.advance r).trimmed = a.trimmed := by simp [Log.advance, hend]
    refine ⟨?_, htrim⟩
    intro q hq
    exact htrim.symm ▸ Nat.lt_of_lt_of_le (h q hq) (advance_pos_le q)

/-- A departure that strands the others leaves the log stuck. -/
theorem Valid.stuck_of_strands (h : Valid a) (hs : Strands a (.leave r)) :
    Stuck (a.apply (.leave r)) := by
  obtain ⟨-, hne⟩ := hs
  intro q hq
  exact Nat.lt_of_le_of_ne (h.behind q (List.mem_of_mem_erase hq)) (Ne.symm (hne q hq))

end SharedLog
