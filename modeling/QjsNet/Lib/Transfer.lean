import Mathlib.Data.List.Basic
import QjsNet.Lib.PartialRun

/- A body on its way from a sender to a receiver.

   The sender writes while the receiver takes what has arrived, in chunks whose lengths
   the connection chooses. The end is told to the receiver (`close`) when the sender is
   over and everything has arrived. Once, at any time, somebody uses the receiver.

   What is proved:
     1. `run_follows` — in every run the receiver is where it would be alone, given the
        chunks that have arrived one after the other, the use in its place among them;
     2. `run_arrived` — what has arrived is a prefix of what was written, and all of it
        when the receiver has been told the end, if the sender only appends and writes
        nothing when it is over (`Sender.Steady`). -/
namespace Transfer

open PartialRun

structure Sender (σ ε α : Type) where
  step : σ → ε → Option σ
  /-- What has been written. -/
  out : σ → List α
  finished : σ → Bool

structure Receiver (ρ υ κ α : Type) where
  take : ρ → List α → Option ρ
  use : ρ → υ → Option (ρ × κ)
  close : ρ → Option ρ

/-- When the receiver was used and with which result: after the first `n` chunks, or after the
end. -/
inductive Use (υ κ : Type) where
  | never
  | during (u : υ) (n : Nat) (k : κ)
  | after (u : υ) (k : κ)

structure Link (σ ρ υ κ α : Type) where
  sender : σ
  receiver : ρ
  arrived : List (List α)
  used : Use υ κ
  closed : Bool

inductive Event (ε υ : Type) where
  | send (e : ε)
  | arrive (n : Nat)
  | use (u : υ)
  | close
  deriving DecidableEq, Repr

variable {σ ε ρ υ κ α : Type} {S : Sender σ ε α} {R : Receiver ρ υ κ α}

def Link.start (s : σ) (r : ρ) : Link σ ρ υ κ α := ⟨s, r, [], .never, false⟩

/-- The next elements on the way, `n` of them if there are as many. -/
def Link.chunk (S : Sender σ ε α) (l : Link σ ρ υ κ α) (n : Nat) : List α :=
  ((S.out l.sender).drop l.arrived.flatten.length).take n

def step (S : Sender σ ε α) (R : Receiver ρ υ κ α) (l : Link σ ρ υ κ α) :
    Event ε υ → Option (Link σ ρ υ κ α)
  | .send e => do
    let sender ← S.step l.sender e
    some { l with sender }
  | .arrive n =>
    if l.closed then none
    else do
      let receiver ← R.take l.receiver (l.chunk S n)
      some { l with receiver, arrived := l.arrived ++ [l.chunk S n] }
  | .use u =>
    match l.used with
    | .never => do
      let (receiver, k) ← R.use l.receiver u
      some { l with receiver, used := if l.closed then .after u k else .during u l.arrived.length k }
    | _ => none
  | .close =>
    if l.closed = false ∧ S.finished l.sender = true ∧
        l.arrived.flatten.length = (S.out l.sender).length then do
      let receiver ← R.close l.receiver
      some { l with receiver, closed := true }
    else none

theorem step_send {l : Link σ ρ υ κ α} {e : ε} {s : σ} (h : S.step l.sender e = some s) :
    step S R l (.send e) = some { l with sender := s } := by
  simp only [step, h, Option.bind_eq_bind, Option.bind_some]

/-! ## The receiver alone -/

def Receiver.takes (R : Receiver ρ υ κ α) (r : ρ) (chunks : List (List α)) : Option ρ :=
  run R.take r chunks

/-- Told the end, or not yet. -/
def Receiver.closes (R : Receiver ρ υ κ α) (r : ρ) (closed : Bool) : Option ρ :=
  if closed then R.close r else some r

/-- Where chunks, a use among them and the end lead the receiver. -/
inductive Follows (R : Receiver ρ υ κ α) (r : ρ) (chunks : List (List α)) :
    Use υ κ → Bool → ρ → Prop where
  | never {r₁ r' : ρ} {closed : Bool} : R.takes r chunks = some r₁ → R.closes r₁ closed = some r' →
      Follows R r chunks .never closed r'
  | during {r₁ r₂ r₃ r' : ρ} {u : υ} {n : Nat} {k : κ} {closed : Bool} : n ≤ chunks.length →
      R.takes r (chunks.take n) = some r₁ → R.use r₁ u = some (r₂, k) →
      R.takes r₂ (chunks.drop n) = some r₃ → R.closes r₃ closed = some r' →
      Follows R r chunks (.during u n k) closed r'
  | after {r₁ r₂ r' : ρ} {u : υ} {k : κ} : R.takes r chunks = some r₁ → R.close r₁ = some r₂ →
      R.use r₂ u = some (r', k) → Follows R r chunks (.after u k) true r'

theorem takes_snoc {r r₁ r₂ : ρ} {chunks : List (List α)} {chunk : List α}
    (h : R.takes r chunks = some r₁) (htake : R.take r₁ chunk = some r₂) :
    R.takes r (chunks ++ [chunk]) = some r₂ := by
  rw [Receiver.takes, run_append]
  rw [Receiver.takes] at h
  rw [h, Option.bind_some, run_cons, htake]
  rfl

variable {r r' r'' : ρ} {chunks : List (List α)} {used : Use υ κ}

theorem Follows.take (h : Follows R r chunks used false r') {chunk : List α}
    (htake : R.take r' chunk = some r'') : Follows R r (chunks ++ [chunk]) used false r'' := by
  cases h with
  | never htakes hcloses =>
    obtain rfl := Option.some.inj hcloses
    exact .never (takes_snoc htakes htake) rfl
  | during hn htakes huse hrest hcloses =>
    obtain rfl := Option.some.inj hcloses
    refine .during (Nat.le_trans hn (by simp)) ?_ huse ?_ rfl
    · rwa [List.take_append_of_le_length hn]
    · rw [List.drop_append_of_le_length hn]
      exact takes_snoc hrest htake

theorem Follows.use (closed : Bool) (h : Follows R r chunks .never closed r') {u : υ} {k : κ}
    (huse : R.use r' u = some (r'', k)) :
    Follows R r chunks (if closed then .after u k else .during u chunks.length k) closed r'' := by
  cases h with
  | never htakes hcloses =>
    cases closed with
    | true => exact .after htakes hcloses huse
    | false =>
      obtain rfl := Option.some.inj hcloses
      refine .during (Nat.le_refl _) ?_ huse ?_ rfl
      · rwa [List.take_length]
      · rw [List.drop_length]
        rfl

theorem Follows.close (h : Follows R r chunks used false r') (hclose : R.close r' = some r'') :
    Follows R r chunks used true r'' := by
  cases h with
  | never htakes hcloses =>
    obtain rfl := Option.some.inj hcloses
    exact .never htakes hclose
  | during hn htakes huse hrest hcloses =>
    obtain rfl := Option.some.inj hcloses
    exact .during hn htakes huse hrest hclose

def Link.Follows (R : Receiver ρ υ κ α) (r : ρ) (l : Link σ ρ υ κ α) : Prop :=
  Transfer.Follows R r l.arrived l.used l.closed l.receiver

variable {l l' : Link σ ρ υ κ α} {e : Event ε υ}

theorem step_follows (l : Link σ ρ υ κ α) (e : Event ε υ) (l' : Link σ ρ υ κ α)
    (h : l.Follows R r) (hstep : step S R l e = some l') : l'.Follows R r := by
  obtain ⟨sender, receiver, arrived, used, closed⟩ := l
  cases e with
  | send e =>
    obtain ⟨s', -, hl'⟩ := Option.bind_eq_some_iff.1 hstep
    obtain rfl := Option.some.inj hl'
    exact h
  | arrive n =>
    simp only [step] at hstep
    split at hstep
    · cases hstep
    · next hopen =>
      obtain ⟨r', htake, hl'⟩ := Option.bind_eq_some_iff.1 hstep
      obtain rfl := Option.some.inj hl'
      obtain rfl := Bool.eq_false_iff.2 hopen
      exact Follows.take h htake
  | use u =>
    cases used with
    | never =>
      obtain ⟨⟨r', k⟩, huse, hl'⟩ := Option.bind_eq_some_iff.1 hstep
      obtain rfl := Option.some.inj hl'
      exact Follows.use closed h huse
    | during u n k => cases hstep
    | after u k => cases hstep
  | close =>
    obtain ⟨⟨hopen, -, -⟩, hbind⟩ := Option.ite_none_right_eq_some.1 hstep
    obtain ⟨r', hclose, hl'⟩ := Option.bind_eq_some_iff.1 hbind
    obtain rfl := Option.some.inj hl'
    obtain rfl := hopen
    exact Follows.close h hclose

/-- **The receiver in a run.** -/
theorem run_follows (events : List (Event ε υ)) {s : σ}
    (hrun : run (step S R) (.start s r) events = some l) : l.Follows R r := by
  have hstart : (Link.start s r : Link σ ρ υ κ α).Follows R r := .never rfl rfl
  exact run_induct step_follows events hstart hrun

/-! ## What has arrived -/

/-- With steps that are `ok` the sender only appends, and writes nothing when it is over. -/
structure Sender.Steady (S : Sender σ ε α) (P : σ → Prop) (ok : σ → ε → Prop) : Prop where
  keep : ∀ s e s', P s → ok s e → S.step s e = some s' → P s'
  grows : ∀ s e s', P s → ok s e → S.step s e = some s' → S.out s <+: S.out s'
  stops : ∀ s e s', P s → ok s e → S.step s e = some s' → S.finished s = true →
    S.finished s' = true ∧ S.out s' = S.out s

/-- The steps of the sender are `ok`. -/
def SendsOk (ok : σ → ε → Prop) (l : Link σ ρ υ κ α) : Event ε υ → Prop
  | .send e => ok l.sender e
  | _ => True

structure Arrived (S : Sender σ ε α) (l : Link σ ρ υ κ α) : Prop where
  isPrefix : l.arrived.flatten <+: S.out l.sender
  whole : l.closed = true → S.finished l.sender = true ∧ l.arrived.flatten = S.out l.sender

theorem chunk_prefix (h : l.arrived.flatten <+: S.out l.sender) (n : Nat) :
    (l.arrived ++ [l.chunk S n]).flatten <+: S.out l.sender := by
  obtain ⟨rest, hrest⟩ := h
  refine ⟨rest.drop n, ?_⟩
  have hchunk : l.chunk S n = rest.take n := by rw [Link.chunk, ← hrest, List.drop_left]
  calc (l.arrived ++ [l.chunk S n]).flatten ++ rest.drop n
      = l.arrived.flatten ++ (rest.take n ++ rest.drop n) := by
        rw [List.flatten_append, List.flatten_singleton, hchunk, List.append_assoc]
    _ = S.out l.sender := by rw [List.take_append_drop, hrest]

theorem step_arrived {P : σ → Prop} {ok : σ → ε → Prop} (hS : S.Steady P ok)
    (l : Link σ ρ υ κ α) (e : Event ε υ) (l' : Link σ ρ υ κ α) (h : P l.sender ∧ Arrived S l)
    (hok : SendsOk ok l e) (hstep : step S R l e = some l') : P l'.sender ∧ Arrived S l' := by
  obtain ⟨hP, harrived⟩ := h
  cases e with
  | send e =>
    obtain ⟨s', hs', hl'⟩ := Option.bind_eq_some_iff.1 hstep
    obtain rfl := Option.some.inj hl'
    refine ⟨hS.keep _ _ _ hP hok hs', harrived.isPrefix.trans (hS.grows _ _ _ hP hok hs'), ?_⟩
    intro hclosed
    obtain ⟨hover, hall⟩ := harrived.whole hclosed
    obtain ⟨hover', hout⟩ := hS.stops _ _ _ hP hok hs' hover
    exact ⟨hover', hall.trans hout.symm⟩
  | arrive n =>
    simp only [step] at hstep
    split at hstep
    · cases hstep
    · next hopen =>
      obtain ⟨r', -, hl'⟩ := Option.bind_eq_some_iff.1 hstep
      obtain rfl := Option.some.inj hl'
      exact ⟨hP, chunk_prefix harrived.isPrefix n, fun hclosed => absurd hclosed hopen⟩
  | use u =>
    simp only [step] at hstep
    split at hstep
    · obtain ⟨⟨r', k⟩, -, hl'⟩ := Option.bind_eq_some_iff.1 hstep
      obtain rfl := Option.some.inj hl'
      exact ⟨hP, harrived.isPrefix, harrived.whole⟩
    · cases hstep
  | close =>
    obtain ⟨⟨-, hover, hlength⟩, hbind⟩ := Option.ite_none_right_eq_some.1 hstep
    obtain ⟨r', -, hl'⟩ := Option.bind_eq_some_iff.1 hbind
    obtain rfl := Option.some.inj hl'
    exact ⟨hP, harrived.isPrefix, fun _ => ⟨hover, harrived.isPrefix.eq_of_length hlength⟩⟩

/-- **What has arrived in a run.** -/
theorem run_arrived {P : σ → Prop} {ok : σ → ε → Prop} (hS : S.Steady P ok)
    (events : List (Event ε υ)) {s : σ} (hP : P s)
    (hok : Meets (step S R) (SendsOk ok) (.start s r) events)
    (hrun : run (step S R) (.start s r) events = some l) : P l.sender ∧ Arrived S l := by
  have hstart : Arrived S (Link.start s r : Link σ ρ υ κ α) := ⟨List.nil_prefix, nofun⟩
  exact meets_induct (step_arrived hS) events ⟨hP, hstart⟩ hok hrun

end Transfer
