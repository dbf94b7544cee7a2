import Mathlib.Data.List.Basic

/- Messages that cross a wire in fragments.

   A sender puts messages on a wire. The wire hands over one fragment after the other, the
   first of a message marked `first` and the last one `final`; how long they are is for the
   wire to choose, and they may be empty. A receiver puts them together (`Assembly.take`).

   `Whole w a all` says that `all` was put on the wire, and where it is: complete at the
   receiver, in two pieces, or waiting. Putting (`Whole.put`) and handing over
   (`Whole.next`) keep it, so that what is complete is a prefix of what was put
   (`Whole.isPrefix`), and all of it when the wire is idle (`Whole.of_idle`). -/
namespace Framing

variable {τ α : Type}

/-- A message with the tag that each of its fragments carries. -/
structure Message (τ α : Type) where
  tag : τ
  data : List α
  deriving DecidableEq, Repr

structure Fragment (τ α : Type) where
  tag : τ
  first : Bool
  final : Bool
  data : List α
  deriving DecidableEq, Repr

/-- `rest` is what is left of the message under way. -/
structure Wire (τ α : Type) where
  rest : Option (Message τ α)
  waiting : List (Message τ α)
  deriving DecidableEq, Repr

def Wire.empty : Wire τ α := ⟨none, []⟩

def Wire.put (w : Wire τ α) (ms : List (Message τ α)) : Wire τ α :=
  { w with waiting := w.waiting ++ ms }

/-- Nothing is on the wire. -/
def Wire.Idle (w : Wire τ α) : Prop := w.rest = none ∧ w.waiting = []

/-- Hand over `n` elements of a message, or all that is left of it when that is less. Only such
a fragment can be the final one. -/
def Message.cut (m : Message τ α) (first : Bool) (n : Nat) (final : Bool)
    (waiting : List (Message τ α)) : Option (Fragment τ α × Wire τ α) :=
  if final then
    if m.data.length ≤ n then some (⟨m.tag, first, true, m.data⟩, ⟨none, waiting⟩) else none
  else some (⟨m.tag, first, false, m.data.take n⟩, ⟨some ⟨m.tag, m.data.drop n⟩, waiting⟩)

def Wire.next (w : Wire τ α) (n : Nat) (final : Bool) : Option (Fragment τ α × Wire τ α) :=
  match w.rest, w.waiting with
  | some r, waiting => r.cut false n final waiting
  | none, m :: waiting => m.cut true n final waiting
  | none, [] => none

/-- The messages that are complete, and the one that has begun. -/
structure Assembly (τ α : Type) where
  done : List (Message τ α)
  part : Option (Message τ α)
  deriving DecidableEq, Repr

def Assembly.empty : Assembly τ α := ⟨[], none⟩

def Assembly.take (a : Assembly τ α) (f : Fragment τ α) : Assembly τ α :=
  let data := if f.first then f.data else a.part.elim [] Message.data ++ f.data
  if f.final then ⟨a.done ++ [⟨f.tag, data⟩], none⟩ else ⟨a.done, some ⟨f.tag, data⟩⟩

/-- The fragments put together. -/
def assemble (fs : List (Fragment τ α)) : Assembly τ α := fs.foldl Assembly.take .empty

inductive Whole : Wire τ α → Assembly τ α → List (Message τ α) → Prop where
  | between (done waiting : List (Message τ α)) :
      Whole ⟨none, waiting⟩ ⟨done, none⟩ (done ++ waiting)
  | within (t : τ) (begun left : List α) (done waiting : List (Message τ α)) :
      Whole ⟨some ⟨t, left⟩, waiting⟩ ⟨done, some ⟨t, begun⟩⟩
        (done ++ ⟨t, begun ++ left⟩ :: waiting)

variable {w w' : Wire τ α} {a : Assembly τ α} {all : List (Message τ α)} {f : Fragment τ α}
  {n : Nat} {final : Bool}

theorem Whole.empty : Whole (.empty : Wire τ α) .empty [] := .between [] []

theorem Whole.put (h : Whole w a all) (ms : List (Message τ α)) :
    Whole (w.put ms) a (all ++ ms) := by
  cases h with
  | between done waiting =>
    rw [List.append_assoc]
    exact .between done (waiting ++ ms)
  | within t begun left done waiting =>
    rw [List.append_assoc, List.cons_append]
    exact .within t begun left done (waiting ++ ms)

/-- Cutting the message under way. `begun` is what came before it, nothing at the first cut. -/
theorem cut_whole {m : Message τ α} {first : Bool} {waiting : List (Message τ α)}
    (h : m.cut first n final waiting = some (f, w')) (done : List (Message τ α)) {begun : List α}
    {part : Option (Message τ α)} (hfirst : first = true → begun = [])
    (hpart : first = false → part.elim [] Message.data = begun) :
    f.first = first ∧ Whole w' (Assembly.take ⟨done, part⟩ f)
      (done ++ ⟨m.tag, begun ++ m.data⟩ :: waiting) := by
  have hdata : ∀ d : List α,
      (if first then d else part.elim [] Message.data ++ d) = begun ++ d := by
    intro d
    cases first with
    | true =>
      rw [hfirst rfl]
      rfl
    | false =>
      rw [hpart rfl]
      rfl
  cases final with
  | true =>
    obtain ⟨-, h'⟩ := Option.ite_none_right_eq_some.1 h
    obtain ⟨rfl, rfl⟩ := Prod.mk.inj (Option.some.inj h')
    refine ⟨rfl, ?_⟩
    simp only [Assembly.take, if_true, hdata]
    have hdone : done ++ ⟨m.tag, begun ++ m.data⟩ :: waiting
        = (done ++ [⟨m.tag, begun ++ m.data⟩]) ++ waiting := by simp
    rw [hdone]
    exact .between _ _
  | false =>
    obtain ⟨rfl, rfl⟩ := Prod.mk.inj (Option.some.inj h)
    refine ⟨rfl, ?_⟩
    simp only [Assembly.take, Bool.false_eq_true, if_false, hdata]
    have hsplit : begun ++ m.data = (begun ++ m.data.take n) ++ m.data.drop n := by
      rw [List.append_assoc, List.take_append_drop]
    rw [hsplit]
    exact .within _ _ _ _ _

theorem next_cases (h : Whole w a all) (hnext : w.next n final = some (f, w')) :
    f.first = a.part.isNone ∧ Whole w' (a.take f) all := by
  cases h with
  | between done waiting =>
    cases waiting with
    | nil => cases hnext
    | cons m waiting =>
      obtain ⟨hfirst, hwhole⟩ := @cut_whole _ _ _ _ _ _ m true waiting hnext done [] none
        (fun _ => rfl) (fun hf => nomatch hf)
      exact ⟨hfirst, hwhole⟩
  | within t begun left done waiting =>
    exact @cut_whole _ _ _ _ _ _ ⟨t, left⟩ false waiting hnext done begun (some ⟨t, begun⟩)
      (fun hf => nomatch hf) (fun _ => rfl)

theorem Whole.next (h : Whole w a all) (hnext : w.next n final = some (f, w')) :
    Whole w' (a.take f) all := (next_cases h hnext).2

/-- A fragment is a first one exactly when no message has begun. -/
theorem Whole.first (h : Whole w a all) (hnext : w.next n final = some (f, w')) :
    f.first = a.part.isNone := (next_cases h hnext).1

/-! ## What has arrived -/

theorem Whole.isPrefix (h : Whole w a all) : a.done <+: all := by
  cases h with
  | between done waiting => exact List.prefix_append _ _
  | within t begun left done waiting => exact List.prefix_append _ _

theorem Whole.of_idle (h : Whole w a all) (hidle : w.Idle) : a.done = all := by
  obtain ⟨hrest, hwaiting⟩ := hidle
  cases h with
  | between done waiting =>
    have hnil : waiting = [] := hwaiting
    rw [hnil, List.append_nil]
  | within t begun left done waiting => cases hrest

end Framing
