import Mathlib.Data.List.Basic

/- A first-in first-out channel, as a ledger of what it was given, what it has
   passed on and what it still holds.

   `Balanced` is the law of such a channel: what went out, followed by what is
   still inside, is what came in. Taking something in and passing something on
   keep it (`accept_balanced`, `pass_balanced_iff`); letting something through ahead
   of what is held keeps it exactly when the two commute
   (`bypass_balanced_iff`), and for a single element that is when everything
   held equals it (`cons_comm_iff`).

   `Sized` is the law without the order, which all three keep. Under it everything
   has gone out in order exactly when the ledger balances and nothing is held
   (`sent_eq_iff`). -/
namespace Fifo

variable {α : Type}

structure Ledger (α : Type) where
  accepted : List α
  sent : List α
  held : List α
  deriving Repr, DecidableEq

/-- What went out and what is held, in this order, is what came in. -/
def Balanced (l : Ledger α) : Prop := l.sent ++ l.held = l.accepted

def accept (l : Ledger α) (xs : List α) : Ledger α :=
  { l with accepted := l.accepted ++ xs, held := l.held ++ xs }

/-- Pass on the first `n` elements held. -/
def pass (l : Ledger α) (n : Nat) : Ledger α :=
  { l with sent := l.sent ++ l.held.take n, held := l.held.drop n }

/-- Let `xs` through past the elements held. -/
def bypass (l : Ledger α) (xs : List α) : Ledger α :=
  { l with accepted := l.accepted ++ xs, sent := l.sent ++ xs }

@[simp] theorem accept_nil (l : Ledger α) : accept l [] = l := by
  simp [accept]

@[simp] theorem pass_zero (l : Ledger α) : pass l 0 = l := by
  simp [pass]

theorem empty_balanced : Balanced (⟨[], [], []⟩ : Ledger α) := rfl

theorem accept_balanced {l : Ledger α} {xs : List α} (h : Balanced l) : Balanced (accept l xs) := by
  unfold Balanced accept at *
  rw [← List.append_assoc, h]

theorem pass_balanced_iff {l : Ledger α} {n : Nat} : Balanced (pass l n) ↔ Balanced l := by
  unfold Balanced pass
  rw [List.append_assoc, List.take_append_drop]

theorem pass_balanced {l : Ledger α} {n : Nat} (h : Balanced l) : Balanced (pass l n) :=
  pass_balanced_iff.2 h

/-- Overtaking keeps the order exactly when it makes no difference. -/
theorem bypass_balanced_iff {l : Ledger α} {xs : List α} (h : Balanced l) :
    Balanced (bypass l xs) ↔ xs ++ l.held = l.held ++ xs := by
  unfold Balanced bypass at *
  rw [← h, List.append_assoc, List.append_assoc, List.append_cancel_left_eq]

/-- One element may overtake exactly the lists made of copies of it. -/
theorem cons_comm_iff (x : α) (xs : List α) : [x] ++ xs = xs ++ [x] ↔ ∀ y ∈ xs, y = x := by
  induction xs with
  | nil => simp
  | cons y ys ih =>
    refine ⟨?_, ?_⟩
    · intro h
      obtain ⟨rfl, h'⟩ : x = y ∧ y :: ys = ys ++ [x] := by simpa using h
      intro z hz
      rcases List.mem_cons.1 hz with rfl | hz
      · rfl
      · exact ih.1 h' z hz
    · intro h
      obtain rfl : y = x := h y List.mem_cons_self
      have h' : [y] ++ ys = ys ++ [y] := ih.2 fun z hz => h z (List.mem_cons_of_mem _ hz)
      rw [List.cons_append, List.cons_append, List.nil_append, ← h', List.singleton_append]

/-! ## Sizes -/

/-- As much went out or is held as came in. -/
def Sized (l : Ledger α) : Prop := l.sent.length + l.held.length = l.accepted.length

theorem empty_sized : Sized (⟨[], [], []⟩ : Ledger α) := rfl

theorem accept_sized {l : Ledger α} {xs : List α} (h : Sized l) : Sized (accept l xs) := by
  unfold Sized accept at *
  simp only [List.length_append]
  omega

theorem pass_sized {l : Ledger α} {n : Nat} (h : Sized l) : Sized (pass l n) := by
  unfold Sized pass at *
  simp only [List.length_append, List.length_take, List.length_drop]
  omega

theorem bypass_sized {l : Ledger α} {xs : List α} (h : Sized l) : Sized (bypass l xs) := by
  unfold Sized bypass at *
  simp only [List.length_append]
  omega

theorem sent_eq_iff {l : Ledger α} (h : Sized l) :
    l.sent = l.accepted ↔ Balanced l ∧ l.held = [] := by
  unfold Sized at h
  unfold Balanced
  refine ⟨?_, ?_⟩
  · intro hsent
    rw [hsent] at h
    have hheld : l.held = [] := List.length_eq_zero_iff.1 (by omega)
    exact ⟨by rw [hheld, hsent, List.append_nil], hheld⟩
  · intro h'
    obtain ⟨hbalanced, hheld⟩ := h'
    rwa [hheld, List.append_nil] at hbalanced

end Fifo
