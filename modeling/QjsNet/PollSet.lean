import QjsNet.Lib.Entries
import QjsNet.Lib.PartialRun

/- The descriptors that a blocking `fetch` polls (`minnet-client.c`).

   The client has an array of descriptors with the events it waits for. `onFd` is called when
   a descriptor is added, when what is asked for it changes, and without anything asked for
   when it is deleted; `onClose` takes the descriptor out that was closed.
   `synchfetch_removefd` asserts that the descriptor is there. A socket that is closed tells
   its descriptor; one that has none is converted to a number, as any other argument is, and
   the descriptor of that number is taken out.

   `memcpy` of overlapping entries copies them as `memmove` does. A failed assertion is
   `none`. Memory does not run out.

   Correspondence (C ↔ Lean):
     `struct pollfd`, `SyncFetch`    ↔ `PollFd`, `SyncFetch`
     `synchfetch_indexpollfd`        ↔ `synchfetchIndexpollfd`
     `synchfetch_setevents`, `synchfetch_removefd`
       ↔ `synchfetchSetevents`, `synchfetchRemovefd`
     `minnet_client_pollfd`, `minnet_client_onclose`
       ↔ `minnetClientPollfd`, `minnetClientOnclose`
     the loop of `minnet_client_closure` ↔ `FdEvent.connected`, `FdEvent.polled` -/
namespace QjsNet

structure PollFd where
  fd : Int
  events : Nat
  revents : Nat
  deriving DecidableEq, Repr

/-- `exception` is the error that a close has reported. -/
structure SyncFetch where
  pfds : List PollFd
  touched : Bool
  exception : Option String
  deriving DecidableEq, Repr

def SyncFetch.new : SyncFetch := ⟨[], false, none⟩

def synchfetchIndexpollfd (c : SyncFetch) (fd : Int) : Option Nat :=
  c.pfds.findIdx? fun p => decide (p.fd = fd)

/-- The end of `synchfetch_setevents`, where `pfd` points to entry `i`. -/
def setEventsAt (c : SyncFetch) (i events : Nat) : SyncFetch :=
  match c.pfds[i]? with
  | some pfd =>
    if pfd.events ≠ events then
      { c with pfds := c.pfds.set i { pfd with events }, touched := true }
    else c
  | none => c

def synchfetchSetevents (c : SyncFetch) (fd : Int) (events : Nat) : SyncFetch :=
  match synchfetchIndexpollfd c fd with
  | some i => setEventsAt c i events
  | none => setEventsAt { c with pfds := c.pfds ++ [⟨fd, 0, 0⟩] } c.pfds.length events

def synchfetchRemovefd (c : SyncFetch) (fd : Int) : Option SyncFetch :=
  (synchfetchIndexpollfd c fd).map fun i =>
    { c with pfds := c.pfds.take i ++ c.pfds.drop (i + 1), touched := true }

/-- `POLLIN` and `POLLOUT`. -/
def pollEvents (rd wr : Bool) : Nat := (if rd then 1 else 0) ||| (if wr then 4 else 0)

def minnetClientPollfd (c : SyncFetch) (fd : Int) (rd wr : Bool) : Option SyncFetch :=
  if !rd && !wr then synchfetchRemovefd c fd
  else some (synchfetchSetevents c fd (pollEvents rd wr))

/-- The descriptor `minnet_client_onclose` takes out: that of the socket `ws`, if `argv[0]` is one
and it has a descriptor, otherwise the number that `argv[0]` is converted to. -/
def oncloseFd (ws : Option Int) (number : Int) : Int :=
  match ws with
  | some fd => if fd ≠ -1 then fd else number
  | none => number

/-- The error is kept, if there is one. -/
def SyncFetch.report (error : Option String) (c : SyncFetch) : SyncFetch :=
  { c with exception := error <|> c.exception }

def minnetClientOnclose (c : SyncFetch) (ws : Option Int) (number : Int) (error : Option String) :
    Option SyncFetch :=
  let fd := oncloseFd ws number
  (if fd ≠ -1 then synchfetchRemovefd c fd else some c).map (SyncFetch.report error)

/-- What a blocking client is told: that the connection has a descriptor, a call of `onFd` or of
`onClose`, and the answer of `poll()` for each descriptor. -/
inductive FdEvent where
  | connected (fd : Int)
  | onFd (fd : Int) (rd wr : Bool)
  | onClose (ws : Option Int) (number : Int) (error : Option String)
  | polled (revents : Int → Nat)

def fdStep (c : SyncFetch) : FdEvent → Option SyncFetch
  | .connected fd => some (synchfetchSetevents c fd (pollEvents true true))
  | .onFd fd rd wr => minnetClientPollfd c fd rd wr
  | .onClose ws number error => minnetClientOnclose c ws number error
  | .polled revents =>
    some { c with pfds := c.pfds.map fun p => { p with revents := revents p.fd }, touched := false }

/-! ## What is asked for -/

/-- The events that are asked for each registered descriptor. -/
abbrev Interest := Int → Option Nat

/-- The descriptor that was closed: that of the socket, or the number. -/
def closedFd (ws : Option Int) (number : Int) : Option Int :=
  let fd := ws.getD number
  if fd = -1 then none else some fd

/-- The descriptor that is taken out by an event. -/
def FdEvent.removed : FdEvent → Option Int
  | .onFd fd false false => some fd
  | .onClose ws number _ => closedFd ws number
  | _ => none

/-- The descriptor that something is asked for, and what. -/
def FdEvent.asked : FdEvent → Option (Int × Nat)
  | .connected fd => some (fd, pollEvents true true)
  | .onFd fd rd wr => if !rd && !wr then none else some (fd, pollEvents rd wr)
  | _ => none

def interestStep (m : Interest) (e : FdEvent) : Interest :=
  match e.removed, e.asked with
  | some fd, _ => Function.update m fd none
  | none, some (fd, events) => Function.update m fd (some events)
  | none, none => m

/-- The client beside the map it should have. -/
structure Fetching where
  fetch : SyncFetch
  interest : Interest

def Fetching.new : Fetching := ⟨.new, fun _ => none⟩

def fetchingStep (s : Fetching) (e : FdEvent) : Option Fetching :=
  (fdStep s.fetch e).map fun c => ⟨c, interestStep s.interest e⟩

/-- Each descriptor is in the array once, with the events that are asked for it. -/
def Fetching.Tracks (s : Fetching) : Prop :=
  Entries.Represents PollFd.fd PollFd.events s.fetch.pfds s.interest

/-- A descriptor that is taken out is registered, and a socket without one is not taken for
another number. -/
def FdEvent.Registered (m : Interest) (e : FdEvent) : Prop :=
  (∀ fd ∈ e.removed, (m fd).isSome)
    ∧ ∀ number error, e = .onClose (some (-1)) number error → number = -1

/-! ## The array -/

variable {c : SyncFetch} {m : Interest} {fd : Int}

theorem setEventsAt_pfds {front back : List PollFd} {p : PollFd} (events : Nat)
    (hpfds : c.pfds = front ++ p :: back) :
    (setEventsAt c front.length events).pfds = front ++ { p with events } :: back := by
  have hget : c.pfds[front.length]? = some p := by
    rw [hpfds, List.getElem?_append_right (Nat.le_refl _), Nat.sub_self]
    rfl
  rw [setEventsAt, hget]
  by_cases hne : p.events ≠ events
  · simp only [if_pos hne, hpfds]
    rw [List.set_append_right _ _ (Nat.le_refl _), Nat.sub_self]
    rfl
  · have heq : p.events = events := by simpa using hne
    simp only [if_neg hne]
    rw [hpfds, ← heq]

/-- A descriptor that is looked for is found just when it is registered. -/
theorem indexpollfd_none_iff (h : Entries.Represents PollFd.fd PollFd.events c.pfds m) :
    synchfetchIndexpollfd c fd = none ↔ m fd = none := by
  rw [h.eq_none_iff, synchfetchIndexpollfd, List.findIdx?_eq_none_iff]
  apply forall₂_congr
  intro p _
  rw [decide_eq_false_iff_not]

theorem setevents_represents (h : Entries.Represents PollFd.fd PollFd.events c.pfds m)
    (events : Nat) :
    Entries.Represents PollFd.fd PollFd.events (synchfetchSetevents c fd events).pfds
      (Function.update m fd (some events)) := by
  rw [synchfetchSetevents]
  cases hindex : synchfetchIndexpollfd c fd with
  | some i =>
    obtain ⟨front, p, back, hpfds, rfl, rfl⟩ := Entries.split_of_findIdx? hindex
    simp only [setEventsAt_pfds events hpfds]
    rw [hpfds] at h
    exact h.replace rfl
  | none =>
    have hnew := (indexpollfd_none_iff h).1 hindex
    have hpfds := @setEventsAt_pfds { c with pfds := c.pfds ++ [⟨fd, 0, 0⟩] } c.pfds []
      ⟨fd, 0, 0⟩ events rfl
    simp only [hpfds]
    rw [← List.append_nil c.pfds] at h
    exact h.insert (e := ⟨fd, events, 0⟩) hnew

theorem removefd_none (h : Entries.Represents PollFd.fd PollFd.events c.pfds m)
    (hfd : m fd = none) : synchfetchRemovefd c fd = none := by
  rw [synchfetchRemovefd, (indexpollfd_none_iff h).2 hfd, Option.map_none]

theorem removefd_some (h : Entries.Represents PollFd.fd PollFd.events c.pfds m)
    (hfd : (m fd).isSome) :
    ∃ c', synchfetchRemovefd c fd = some c'
      ∧ Entries.Represents PollFd.fd PollFd.events c'.pfds (Function.update m fd none) := by
  cases hindex : synchfetchIndexpollfd c fd with
  | none =>
    rw [(indexpollfd_none_iff h).1 hindex] at hfd
    cases hfd
  | some i =>
    obtain ⟨front, p, back, hpfds, rfl, rfl⟩ := Entries.split_of_findIdx? hindex
    refine ⟨_, by rw [synchfetchRemovefd, hindex, Option.map_some], ?_⟩
    have hrest : c.pfds.take front.length ++ c.pfds.drop (front.length + 1) = front ++ back := by
      simp [hpfds, List.drop_append]
    rw [hpfds] at h
    simp only [hrest]
    exact h.erase

/-! ## What is kept -/

variable {s : Fetching}

/-- A removal succeeds, and is the one that was meant, just when the descriptor is registered. -/
theorem removed_iff (h : Entries.Represents PollFd.fd PollFd.events c.pfds m) (fd : Int)
    {f : SyncFetch → SyncFetch} (hf : ∀ c, (f c).pfds = c.pfds) :
    (∃ c', (synchfetchRemovefd c fd).map f = some c'
        ∧ Entries.Represents PollFd.fd PollFd.events c'.pfds (Function.update m fd none))
      ↔ (m fd).isSome := by
  constructor
  · rintro ⟨c', hc', -⟩
    by_contra hnone
    rw [removefd_none h (Option.not_isSome_iff_eq_none.1 hnone)] at hc'
    cases hc'
  · intro hfd
    obtain ⟨c', hc', hrep⟩ := removefd_some h hfd
    exact ⟨f c', by rw [hc', Option.map_some], (hf c').symm ▸ hrep⟩

/-- A removal that the map does not take part in leads away from it. -/
theorem not_removed (h : Entries.Represents PollFd.fd PollFd.events c.pfds m) (fd : Int)
    {f : SyncFetch → SyncFetch} (hf : ∀ c, (f c).pfds = c.pfds) :
    ¬ ∃ c', (synchfetchRemovefd c fd).map f = some c'
      ∧ Entries.Represents PollFd.fd PollFd.events c'.pfds m := by
  rintro ⟨c', hc', hrep⟩
  cases hfd : m fd with
  | none =>
    rw [removefd_none h hfd] at hc'
    cases hc'
  | some events =>
    have hsome : (m fd).isSome := by
      rw [hfd]
      rfl
    obtain ⟨d, hd, hrep'⟩ := removefd_some h hsome
    rw [hd, Option.map_some] at hc'
    cases hc'
    rw [hf] at hrep
    have hsame := congrFun (hrep.unique hrep') fd
    rw [hfd, Function.update_self] at hsame
    cases hsame

theorem interestStep_removed {e : FdEvent} (h : e.removed = some fd) :
    interestStep m e = Function.update m fd none := by
  rw [interestStep, h]

theorem interestStep_close_none {ws : Option Int} {number : Int} {error : Option String}
    (h : closedFd ws number = none) : interestStep m (.onClose ws number error) = m := by
  have hremoved : (FdEvent.onClose ws number error).removed = none := h
  rw [interestStep, hremoved]
  rfl

/-- For a socket with a descriptor, and for a number, the descriptor that was meant is taken out. -/
theorem closedFd_eq {ws : Option Int} (hws : ws ≠ some (-1)) (number : Int) :
    closedFd ws number
      = if oncloseFd ws number = -1 then none else some (oncloseFd ws number) := by
  cases ws with
  | none => rfl
  | some fd =>
    have hne : fd ≠ -1 := fun h => hws (congrArg some h)
    rw [closedFd, oncloseFd, if_pos hne]
    rfl

theorem registered_close_iff {ws : Option Int} (hws : ws ≠ some (-1)) (number : Int)
    (error : Option String) : (FdEvent.onClose ws number error).Registered m
      ↔ ∀ fd ∈ closedFd ws number, (m fd).isSome := by
  apply and_iff_left
  intro n error' heq
  cases heq
  exact absurd rfl hws

/-- The number that a socket without a descriptor is converted to is taken for one. -/
theorem onclose_stray_iff (h : Entries.Represents PollFd.fd PollFd.events c.pfds m) (number : Int)
    (error : Option String) :
    (∃ c', minnetClientOnclose c (some (-1)) number error = some c'
        ∧ Entries.Represents PollFd.fd PollFd.events c'.pfds m)
      ↔ number = -1 := by
  have hfd : oncloseFd (some (-1)) number = number := rfl
  rw [minnetClientOnclose, hfd]
  by_cases hnumber : number = -1
  · simp only [ne_eq, hnumber, not_true_eq_false, if_false]
    exact iff_of_true ⟨_, rfl, h⟩ trivial
  · simp only [if_pos hnumber]
    exact iff_of_false (not_removed h number fun _ => rfl) hnumber

theorem onclose_iff (h : Entries.Represents PollFd.fd PollFd.events c.pfds m) (ws : Option Int)
    (number : Int) (error : Option String) :
    (∃ c', minnetClientOnclose c ws number error = some c'
        ∧ Entries.Represents PollFd.fd PollFd.events c'.pfds
          (interestStep m (.onClose ws number error)))
      ↔ (FdEvent.onClose ws number error).Registered m := by
  by_cases hws : ws = some (-1)
  · rw [hws, interestStep_close_none rfl, onclose_stray_iff h]
    constructor
    · intro hnumber
      refine ⟨nofun, ?_⟩
      intro n error' heq
      cases heq
      exact hnumber
    · exact fun hok => hok.2 number error rfl
  · have hclosed := closedFd_eq hws number
    rw [registered_close_iff hws, minnetClientOnclose]
    by_cases hfd : oncloseFd ws number = -1
    · rw [if_pos hfd] at hclosed
      rw [interestStep_close_none hclosed, hclosed]
      simp only [ne_eq, hfd, not_true_eq_false, if_false]
      exact iff_of_true ⟨_, rfl, h⟩ nofun
    · rw [if_neg hfd] at hclosed
      have hremoved : (FdEvent.onClose ws number error).removed = some (oncloseFd ws number) :=
        hclosed
      rw [interestStep_removed hremoved, hclosed]
      simp only [ne_eq, hfd, not_false_eq_true, if_true]
      rw [removed_iff h _ (f := SyncFetch.report error) fun _ => rfl]
      simp

theorem onFd_iff (h : Entries.Represents PollFd.fd PollFd.events c.pfds m) (fd : Int)
    (rd wr : Bool) :
    (∃ c', minnetClientPollfd c fd rd wr = some c'
        ∧ Entries.Represents PollFd.fd PollFd.events c'.pfds (interestStep m (.onFd fd rd wr)))
      ↔ (FdEvent.onFd fd rd wr).Registered m := by
  by_cases hrest : (rd || wr) = true
  · have hremoved : (FdEvent.onFd fd rd wr).removed = none := by
      cases rd <;> cases wr <;> trivial
    have hasks : (!rd && !wr) = false := by
      rw [← Bool.not_or, hrest]
      rfl
    have hinterest : interestStep m (.onFd fd rd wr)
        = Function.update m fd (some (pollEvents rd wr)) := by
      rw [interestStep, hremoved, FdEvent.asked, hasks]
      rfl
    have hstep : minnetClientPollfd c fd rd wr
        = some (synchfetchSetevents c fd (pollEvents rd wr)) := by
      rw [minnetClientPollfd, hasks]
      rfl
    rw [hinterest, hstep, FdEvent.Registered, hremoved]
    exact iff_of_true ⟨_, rfl, setevents_represents h _⟩ ⟨nofun, nofun⟩
  · obtain ⟨rfl, rfl⟩ : rd = false ∧ wr = false := by simpa using hrest
    have hremoves := removed_iff h fd (f := id) fun _ => rfl
    rw [Option.map_id] at hremoves
    refine hremoves.trans ?_
    constructor
    · intro hsome
      refine ⟨?_, nofun⟩
      rintro fd ⟨⟩
      exact hsome
    · exact fun hok => hok.1 fd rfl

/-- A step succeeds, and the array and the map stay the same, just when what is taken out is
registered. -/
theorem fetchingStep_iff (s : Fetching) (e : FdEvent) (h : s.Tracks) :
    (∃ s', fetchingStep s e = some s' ∧ s'.Tracks) ↔ e.Registered s.interest := by
  obtain ⟨c, m⟩ := s
  have hstep : (∃ s', fetchingStep ⟨c, m⟩ e = some s' ∧ s'.Tracks)
      ↔ ∃ c', fdStep c e = some c'
        ∧ Entries.Represents PollFd.fd PollFd.events c'.pfds (interestStep m e) := by
    simp [fetchingStep, Fetching.Tracks]
  rw [hstep]
  cases e with
  | connected fd => exact iff_of_true ⟨_, rfl, setevents_represents h _⟩ ⟨nofun, nofun⟩
  | onFd fd rd wr => exact onFd_iff h fd rd wr
  | onClose ws number error => exact onclose_iff h ws number error
  | polled revents =>
    refine iff_of_true ⟨_, rfl, h.congr ?_⟩ ⟨nofun, nofun⟩
    rw [List.map_map]
    rfl

/-- The array is the map in every state of a run, and no assertion fails, exactly for the runs that
take out registered descriptors only. -/
theorem poll_set_tracks_iff (events : List FdEvent) :
    PartialRun.Survives fetchingStep Fetching.Tracks .new events
      ↔ PartialRun.Admits fetchingStep (fun s e => e.Registered s.interest) .new events :=
  @PartialRun.survives_iff_admits _ _ fetchingStep (fun _ => True) Fetching.Tracks _
    (fun _ _ _ _ _ => trivial) (fun s e _ h => fetchingStep_iff s e h) events .new trivial
    Entries.represents_nil

/-- A descriptor is deleted, and then its connection is closed. -/
theorem removal_then_close_fails :
    PartialRun.run fetchingStep .new
        [.onFd 5 true false, .onFd 5 false false, .onClose none 5 none] = none
      ∧ ¬ PartialRun.Survives fetchingStep Fetching.Tracks .new
        [.onFd 5 true false, .onFd 5 false false, .onClose none 5 none] := by
  have hrun : PartialRun.run fetchingStep .new
      [.onFd 5 true false, .onFd 5 false false, .onClose none 5 none] = none := by
    rfl
  refine ⟨hrun, ?_⟩
  intro h
  obtain ⟨t, ht, -⟩ := h _ (List.prefix_refl _)
  rw [hrun] at ht
  cases ht

end QjsNet
