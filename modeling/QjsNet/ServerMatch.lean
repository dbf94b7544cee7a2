import QjsNet.Lib.PartialRun

/- The middleware chain of the server (`minnet-server.c`).

   `use`, `get` and `post` wrap a handler in a closure in front of the chain built
   so far. A request runs through the chain from the handler registered first; a
   closure stops it by returning 1. A match-all closure (no path, any method)
   returns 1 unless its `next` flag is set, and the `next()` function its handler
   gets sets that flag. The flag belongs to the closure, not to the request, and
   nothing clears it.

   A handler is what it does when it is invoked: whose `next()` it calls (its own
   or one it was given earlier) and the number its result converts to. The events
   of a dispatch are the invocations and those calls, in order.

   `gate_iff` says after which histories the gate works: exactly when no `next()`
   of a match-all closure that guards a later handler has been called before.

   Correspondence (C ↔ Lean):
     `struct ServerMatchClosure`, `server_match_all` ↔ `ServerMatchClosure`, `serverMatchAll`
     `request_match`                  ↔ `requestMatch`
     `minnet_server_next`             ↔ `minnetServerNext`
     `minnet_server_match`            ↔ `minnetServerMatch`
     `minnet_server_method`, `server_match` ↔ `minnetServerMethod`

   The chain is a list with the closure registered last in front; the position of a
   closure counts from the one registered first, whose `prev_cb` is nullish. -/
namespace QjsNet

/-- `enum http_method` -/
inductive HttpMethod where
  | get | post | options | patch | put | delete | head
  deriving DecidableEq, Repr

/-- What a closure keeps for its handler; `next` is in `Flags`. No method is `-1`. -/
structure ServerMatchClosure where
  path : Option String
  method : Option HttpMethod
  deriving DecidableEq, Repr

structure HttpRequest where
  path : String
  method : HttpMethod
  deriving DecidableEq, Repr

def serverMatchAll (c : ServerMatchClosure) : Bool := c.path.isNone && c.method.isNone

def requestMatch (req : HttpRequest) (path : Option String) (method : Option HttpMethod) : Bool :=
  (path.all fun p => req.path = p) && method.all fun m => m = req.method

/-- The `next` member of every closure, by position. -/
abbrev Flags := Nat → Bool

/-- Calling the `next()` function of the closure at position `j`. -/
def minnetServerNext (flags : Flags) (j : Nat) : Flags := Function.update flags j true

inductive MatchEvent where
  | invoke (i : Nat)
  | next (j : Nat)
  deriving DecidableEq, Repr

/-- What the handler at a position does when it is invoked: the `next()` functions it calls and
the `int32` of its result. -/
abbrev Handlers := Nat → List Nat × Int

/-- `minnet_server_match` of the first closure of the chain: the flags, the events, and the
`int32` of the value it returns. -/
def minnetServerMatch (req : HttpRequest) (handlers : Handlers) :
    List ServerMatchClosure → Flags → Flags × List MatchEvent × Int
  | [], flags => (flags, [], 0)
  | c :: prev, flags =>
    let (flags, events, n) := minnetServerMatch req handlers prev flags
    -- the closure before has stopped the request
    if n = 1 then (flags, events, n)
    else if requestMatch req c.path c.method then
      let i := prev.length
      let (nexts, ret) := handlers i
      let flags := nexts.foldl minnetServerNext flags
      let events := events ++ .invoke i :: nexts.map .next
      -- the flag is read after the handler, so its own `next()` counts, and so does any earlier one
      (flags, events, if serverMatchAll c && !flags i then 1 else ret)
    else (flags, events, n)

inductive ServerMethod where
  | get | post | use
  deriving DecidableEq, Repr

/-- `minnet_server_method`: register a handler, for a path when one is given. -/
def minnetServerMethod (chain : List ServerMatchClosure) (magic : ServerMethod)
    (path : Option String) : List ServerMatchClosure :=
  let method := match magic with
    | .get => some .get
    | .post => some .post
    | .use => none
  ⟨path, method⟩ :: chain

/-- The closure at a position. -/
def closureAt (chain : List ServerMatchClosure) (j : Nat) : Option ServerMatchClosure :=
  chain.reverse[j]?

/-- The closure at `j` is a match-all middleware. -/
def MatchAllAt (chain : List ServerMatchClosure) (j : Nat) : Prop :=
  ∃ c, closureAt chain j = some c ∧ serverMatchAll c = true

/-! ## The gate -/

/-- A handler is invoked only behind match-all middlewares that called `next()`, among those
invoked before it. -/
def Gated (chain : List ServerMatchClosure) (events : List MatchEvent) : Prop :=
  ∀ j k, MatchAllAt chain j → j < k → .invoke k ∈ events → .invoke j ∈ events → .next j ∈ events

/-- Before any request. -/
def freshFlags : Flags := fun _ => false

/-- From these flags every request is gated, and runs the handlers it would run had no request
come before. -/
def GateWorks (chain : List ServerMatchClosure) (flags : Flags) : Prop :=
  ∀ req handlers, Gated chain (minnetServerMatch req handlers chain flags).2.1 ∧
    (minnetServerMatch req handlers chain flags).2.1
      = (minnetServerMatch req handlers chain freshFlags).2.1

/-! ## Positions -/

theorem closureAt_cons_lt {c : ServerMatchClosure} {prev : List ServerMatchClosure} {j : Nat}
    (h : j < prev.length) : closureAt (c :: prev) j = closureAt prev j := by
  unfold closureAt
  rw [List.reverse_cons, List.getElem?_append_left (by simpa using h)]

theorem closureAt_cons_self (c : ServerMatchClosure) (prev : List ServerMatchClosure) :
    closureAt (c :: prev) prev.length = some c := by
  simp [closureAt]

theorem MatchAllAt.lt {chain : List ServerMatchClosure} {j : Nat} (h : MatchAllAt chain j) :
    j < chain.length := by
  obtain ⟨c, hc, _⟩ := h
  by_contra hlt
  unfold closureAt at hc
  rw [List.getElem?_eq_none (by simpa using hlt)] at hc
  cases hc

theorem matchAllAt_cons_lt {c : ServerMatchClosure} {prev : List ServerMatchClosure} {j : Nat}
    (h : j < prev.length) : MatchAllAt (c :: prev) j ↔ MatchAllAt prev j := by
  unfold MatchAllAt
  rw [closureAt_cons_lt h]

theorem matchAllAt_cons_self {c : ServerMatchClosure} {prev : List ServerMatchClosure} :
    MatchAllAt (c :: prev) prev.length ↔ serverMatchAll c = true := by
  unfold MatchAllAt
  rw [closureAt_cons_self]
  simp

theorem requestMatch_all {c : ServerMatchClosure} (h : serverMatchAll c = true)
    (req : HttpRequest) : requestMatch req c.path c.method = true := by
  obtain ⟨path, method⟩ := c
  cases path <;> cases method <;> simp_all [serverMatchAll, requestMatch]

/-! ## One dispatch -/

variable {req : HttpRequest} {handlers : Handlers}

theorem foldl_next : ∀ (nexts : List Nat) (flags : Flags) (j : Nat),
    nexts.foldl minnetServerNext flags j = true ↔ flags j = true ∨ j ∈ nexts := by
  intro nexts
  induction nexts with
  | nil =>
    intro flags j
    simp
  | cons i nexts ih =>
    intro flags j
    rw [List.foldl_cons, ih, List.mem_cons]
    by_cases hij : j = i
    · subst hij
      simp [minnetServerNext]
    · simp [minnetServerNext, hij]

theorem match_cons (c : ServerMatchClosure) (prev : List ServerMatchClosure) (flags : Flags) :
    let r := minnetServerMatch req handlers prev flags
    let nexts := (handlers prev.length).1
    (minnetServerMatch req handlers (c :: prev) flags = r ∧
      (r.2.2 = 1 ∨ requestMatch req c.path c.method = false)) ∨
    (r.2.2 ≠ 1 ∧ requestMatch req c.path c.method = true ∧
      minnetServerMatch req handlers (c :: prev) flags =
        (nexts.foldl minnetServerNext r.1, r.2.1 ++ .invoke prev.length :: nexts.map .next,
          if serverMatchAll c && !(nexts.foldl minnetServerNext r.1 prev.length) then 1
          else (handlers prev.length).2)) := by
  simp only [minnetServerMatch]
  by_cases hn : (minnetServerMatch req handlers prev flags).2.2 = 1
  · exact Or.inl ⟨by rw [if_pos hn], Or.inl hn⟩
  · by_cases hm : requestMatch req c.path c.method = true
    · exact Or.inr ⟨hn, hm, by simp [hn, hm]⟩
    · exact Or.inl ⟨by simp [hn, hm], Or.inr (by simpa using hm)⟩

/-- Only handlers of the chain are invoked. -/
theorem invoke_lt : ∀ (chain : List ServerMatchClosure) (flags : Flags) {i : Nat},
    .invoke i ∈ (minnetServerMatch req handlers chain flags).2.1 → i < chain.length := by
  intro chain
  induction chain with
  | nil =>
    intro _ i h
    simp [minnetServerMatch] at h
  | cons c prev ih =>
    intro flags i h
    rcases @match_cons req handlers c prev flags with ⟨heq, _⟩ | ⟨_, _, heq⟩
    · rw [heq] at h
      exact Nat.lt_succ_of_lt (ih flags h)
    · rw [heq] at h
      simp only [List.mem_append, List.mem_cons, MatchEvent.invoke.injEq, List.mem_map,
        reduceCtorEq, and_false, exists_false, or_false] at h
      rcases h with h | rfl
      · exact Nat.lt_succ_of_lt (ih flags h)
      · exact Nat.lt_succ_self _

/-- The flags afterwards are those set before and those set by the calls of this dispatch. -/
theorem flags_iff : ∀ (chain : List ServerMatchClosure) (flags : Flags) (j : Nat),
    (minnetServerMatch req handlers chain flags).1 j = true ↔
      flags j = true ∨ .next j ∈ (minnetServerMatch req handlers chain flags).2.1 := by
  intro chain
  induction chain with
  | nil =>
    intro flags j
    simp [minnetServerMatch]
  | cons c prev ih =>
    intro flags j
    rcases @match_cons req handlers c prev flags with ⟨heq, _⟩ | ⟨_, _, heq⟩
    · rw [heq]
      exact ih flags j
    · rw [heq, foldl_next, ih flags j]
      simp [or_assoc]

/-- A chain that did not stop has passed only match-all closures whose flag is set. -/
theorem flag_of_passed : ∀ (chain : List ServerMatchClosure) (flags : Flags) {j : Nat},
    (minnetServerMatch req handlers chain flags).2.2 ≠ 1 → MatchAllAt chain j →
    .invoke j ∈ (minnetServerMatch req handlers chain flags).2.1 →
    (minnetServerMatch req handlers chain flags).1 j = true := by
  intro chain
  induction chain with
  | nil =>
    intro _ j _ hj _
    exact absurd hj.lt (Nat.not_lt_zero j)
  | cons c prev ih =>
    intro flags j hret hj hinv
    rcases @match_cons req handlers c prev flags with ⟨heq, _⟩ | ⟨hn, _, heq⟩
    · rw [heq] at hret hinv ⊢
      have hlt := invoke_lt prev flags hinv
      exact ih flags hret ((matchAllAt_cons_lt hlt).1 hj) hinv
    · rw [heq] at hret hinv ⊢
      simp only [List.mem_append, List.mem_cons, MatchEvent.invoke.injEq, List.mem_map,
        reduceCtorEq, and_false, exists_false, or_false] at hinv
      rcases hinv with hinv | rfl
      · have hlt := invoke_lt prev flags hinv
        exact (foldl_next _ _ _).2 (Or.inl
          (ih flags hn ((matchAllAt_cons_lt hlt).1 hj) hinv))
      -- The closure itself: without its flag it would have stopped the chain.
      · by_contra hflag
        have hall := matchAllAt_cons_self.1 hj
        have hflag' : (handlers prev.length).1.foldl minnetServerNext
            (minnetServerMatch req handlers prev flags).1 prev.length = false :=
          Bool.eq_false_iff.2 hflag
        exact hret (by simp only [hall, hflag', Bool.not_false, Bool.and_self, if_true])

/-- Whoever is invoked behind a match-all closure that was invoked finds its flag set. -/
theorem flag_of_invoked : ∀ (chain : List ServerMatchClosure) (flags : Flags) {j k : Nat},
    MatchAllAt chain j → j < k →
    .invoke k ∈ (minnetServerMatch req handlers chain flags).2.1 →
    .invoke j ∈ (minnetServerMatch req handlers chain flags).2.1 →
    (minnetServerMatch req handlers chain flags).1 j = true := by
  intro chain
  induction chain with
  | nil =>
    intro _ j _ hj _ _ _
    exact absurd hj.lt (Nat.not_lt_zero j)
  | cons c prev ih =>
    intro flags j k hj hjk hk hinv
    have hklt := invoke_lt (c :: prev) flags hk
    have hlt : j < prev.length := by
      simp only [List.length_cons] at hklt
      omega
    have hj' := (matchAllAt_cons_lt hlt).1 hj
    rcases @match_cons req handlers c prev flags with ⟨heq, _⟩ | ⟨hn, _, heq⟩
    · rw [heq] at hk hinv ⊢
      exact ih flags hj' hjk hk hinv
    · rw [heq] at hinv ⊢
      simp only [List.mem_append, List.mem_cons, MatchEvent.invoke.injEq, List.mem_map,
        reduceCtorEq, and_false, exists_false, or_false] at hinv
      rcases hinv with hinv | rfl
      · exact (foldl_next _ _ _).2 (Or.inl (flag_of_passed prev flags hn hj' hinv))
      -- The last one invoked guards nobody in this chain.
      · exact absurd hlt (Nat.lt_irrefl _)

theorem match_congr : ∀ (chain : List ServerMatchClosure) (f g : Flags),
    (∀ j, MatchAllAt chain j → f j = g j) →
    (minnetServerMatch req handlers chain f).2 = (minnetServerMatch req handlers chain g).2 ∧
      ∀ j, f j = g j → (minnetServerMatch req handlers chain f).1 j
        = (minnetServerMatch req handlers chain g).1 j := by
  intro chain
  induction chain with
  | nil =>
    intro _ _ _
    exact ⟨rfl, fun _ h => h⟩
  | cons c prev ih =>
    intro f g h
    have hprev : ∀ j, MatchAllAt prev j → f j = g j :=
      fun j hj => h j ((matchAllAt_cons_lt hj.lt).2 hj)
    obtain ⟨heq, hflags⟩ := ih f g hprev
    have hfold : ∀ j, f j = g j →
        (handlers prev.length).1.foldl minnetServerNext
            (minnetServerMatch req handlers prev f).1 j
          = (handlers prev.length).1.foldl minnetServerNext
            (minnetServerMatch req handlers prev g).1 j := by
      intro j hj
      rw [Bool.eq_iff_iff, foldl_next, foldl_next, hflags j hj]
    simp only [minnetServerMatch, heq]
    split
    · exact ⟨rfl, hflags⟩
    · split
      · refine ⟨?_, hfold⟩
        -- The result depends on the flag of a match-all closure only.
        by_cases hall : serverMatchAll c = true
        · rw [hfold _ (h _ (matchAllAt_cons_self.2 hall))]
        · simp [hall]
      · exact ⟨rfl, hflags⟩

/-- Only the flags of closures that guard a later handler matter for who is invoked. -/
theorem events_congr (chain : List ServerMatchClosure) (f g : Flags)
    (h : ∀ j, MatchAllAt chain j → j + 1 < chain.length → f j = g j) :
    (minnetServerMatch req handlers chain f).2.1
      = (minnetServerMatch req handlers chain g).2.1 := by
  cases chain with
  | nil => rfl
  | cons c prev =>
    have hprev : ∀ j, MatchAllAt prev j → f j = g j := fun j hj =>
      h j ((matchAllAt_cons_lt hj.lt).2 hj) (by simpa using hj.lt)
    obtain ⟨heq, _⟩ := @match_congr req handlers prev f g hprev
    simp only [minnetServerMatch, heq]
    split
    · rfl
    · split <;> rfl

/-- Handlers that call their own `next()`, but for the one at `j`. -/
def allBut (j : Nat) : Handlers := fun i => (if i = j then [] else [i], 0)

theorem closureAt_older {c d : ServerMatchClosure} {prev : List ServerMatchClosure} {i : Nat}
    (hd : closureAt (c :: prev) i = some d) (hne : i ≠ prev.length) :
    closureAt prev i = some d := by
  have hlt : i < (c :: prev).length := by
    by_contra hge
    unfold closureAt at hd
    rw [List.getElem?_eq_none (by simpa using hge)] at hd
    cases hd
  rwa [closureAt_cons_lt (by simp only [List.length_cons] at hlt; omega)] at hd

theorem allBut_own {flags : Flags} {j : Nat} (hj : flags j = true) (i : Nat) :
    (allBut j i).1.foldl minnetServerNext flags i = true := by
  rw [foldl_next]
  by_cases hi : i = j
  · exact Or.inl (hi ▸ hj)
  · exact Or.inr (by simp [allBut, hi])

/-- With the flag of `j` set, such handlers let every request through. -/
theorem allBut_passes (j : Nat) : ∀ (chain : List ServerMatchClosure) (flags : Flags),
    flags j = true →
    (minnetServerMatch req (allBut j) chain flags).2.2 = 0 ∧
      .next j ∉ (minnetServerMatch req (allBut j) chain flags).2.1 ∧
      ∀ i c, closureAt chain i = some c → requestMatch req c.path c.method = true →
        .invoke i ∈ (minnetServerMatch req (allBut j) chain flags).2.1 := by
  intro chain
  induction chain with
  | nil =>
    intro _ _
    simp [minnetServerMatch, closureAt]
  | cons c prev ih =>
    intro flags hj
    obtain ⟨hret, hnext, hinv⟩ := ih flags hj
    have hinv' : ∀ i d, closureAt (c :: prev) i = some d → i ≠ prev.length →
        requestMatch req d.path d.method = true →
        .invoke i ∈ (minnetServerMatch req (allBut j) prev flags).2.1 :=
      fun i d hd hne hm => hinv i d (closureAt_older hd hne) hm
    rcases @match_cons req (allBut j) c prev flags with ⟨heq, hstop⟩ | ⟨_, _, heq⟩
    · rw [heq]
      have hmiss : requestMatch req c.path c.method = false := by
        rcases hstop with h1 | hmiss
        · rw [hret] at h1
          cases h1
        · exact hmiss
      refine ⟨hret, hnext, ?_⟩
      intro i d hd hm
      refine hinv' i d hd ?_ hm
      intro h
      obtain rfl := h
      rw [closureAt_cons_self, Option.some.injEq] at hd
      rw [← hd, hmiss] at hm
      cases hm
    · rw [heq]
      have hafter : (minnetServerMatch req (allBut j) prev flags).1 j = true :=
        (flags_iff prev flags j).2 (Or.inl hj)
      have hown := allBut_own hafter prev.length
      refine ⟨?_, ?_, ?_⟩
      · simp only [hown, Bool.not_true, Bool.and_false, Bool.false_eq_true, if_false]
        rfl
      · simp only [List.mem_append, List.mem_cons, reduceCtorEq, false_or, List.mem_map,
          MatchEvent.next.injEq, exists_eq_right, not_or]
        refine ⟨hnext, ?_⟩
        intro hmem
        simp only [allBut] at hmem
        split at hmem
        · cases hmem
        · next hp => exact hp (List.mem_singleton.1 hmem).symm
      · intro i d hd hm
        by_cases hp : i = prev.length
        · rw [hp]
          simp
        · exact List.mem_append_left _ (hinv' i d hd hp hm)

/-- **One dispatch.** The gate works from given flags if and only if none is set on a match-all
closure that guards a later handler. -/
theorem gateWorks_iff (chain : List ServerMatchClosure) (flags : Flags) :
    GateWorks chain flags ↔
      ∀ j, MatchAllAt chain j → j + 1 < chain.length → flags j = false := by
  refine ⟨?_, ?_⟩
  · intro hworks j hj hlt
    by_contra hflag
    obtain ⟨d, hd⟩ : ∃ d, closureAt chain (j + 1) = some d :=
      ⟨_, List.getElem?_eq_getElem (by simpa using hlt)⟩
    obtain ⟨c, hc, hall⟩ := hj
    -- A request for the next handler, whose guard does not call `next()` this time.
    let req : HttpRequest := ⟨d.path.getD "", d.method.getD .get⟩
    have hreq : requestMatch req d.path d.method = true := by
      obtain ⟨path, method⟩ := d
      cases path <;> cases method <;> simp [requestMatch, req]
    obtain ⟨_, hnext, hinv⟩ := @allBut_passes req j chain flags (by simpa using hflag)
    exact hnext ((hworks req (allBut j)).1 j (j + 1) ⟨c, hc, hall⟩ (Nat.lt_succ_self j)
      (hinv _ d hd hreq) (hinv _ c hc (requestMatch_all hall req)))
  · intro h req handlers
    refine ⟨?_, events_congr chain flags freshFlags h⟩
    intro j k hj hjk hk hinv
    have hlt : j + 1 < chain.length := Nat.lt_of_le_of_lt hjk (invoke_lt chain flags hk)
    rcases (flags_iff chain flags j).1 (flag_of_invoked chain flags hj hjk hk hinv) with hf | hf
    · rw [h j hj hlt] at hf
      cases hf
    · exact hf

/-! ## Histories -/

inductive ServerEvent where
  | request (req : HttpRequest) (handlers : Handlers)
  /-- A `next()` function called between requests. -/
  | lateNext (j : Nat)

/-- The flags, and the positions whose `next()` has been called so far. -/
structure ServerState where
  flags : Flags
  called : List Nat

def ServerState.fresh : ServerState := ⟨freshFlags, []⟩

def MatchEvent.next? : MatchEvent → Option Nat
  | .invoke _ => none
  | .next j => some j

def serverStep (chain : List ServerMatchClosure) (s : ServerState) : ServerEvent → Option ServerState
  | .request req handlers =>
    let (flags, events, _) := minnetServerMatch req handlers chain s.flags
    some ⟨flags, s.called ++ events.filterMap MatchEvent.next?⟩
  | .lateNext j => some ⟨minnetServerNext s.flags j, s.called ++ [j]⟩

/-- A flag is set once its `next()` has been called, and stays set. -/
def FlagsRecordCalls (s : ServerState) : Prop := ∀ j, s.flags j = true ↔ j ∈ s.called

theorem serverStep_records (chain : List ServerMatchClosure) (s : ServerState) (e : ServerEvent)
    (s' : ServerState) (h : FlagsRecordCalls s) (hstep : serverStep chain s e = some s') :
    FlagsRecordCalls s' := by
  intro j
  cases e with
  | request req handlers =>
    obtain rfl := Option.some.inj hstep
    have hmem : j ∈ (minnetServerMatch req handlers chain s.flags).2.1.filterMap MatchEvent.next?
        ↔ .next j ∈ (minnetServerMatch req handlers chain s.flags).2.1 := by
      rw [List.mem_filterMap]
      refine ⟨?_, ?_⟩
      · intro h'
        obtain ⟨e, he, hj⟩ := h'
        cases e with
        | invoke i => cases hj
        | next i => exact Option.some.inj hj ▸ he
      · intro he
        exact ⟨_, he, rfl⟩
    rw [List.mem_append, hmem, ← h j]
    exact flags_iff chain s.flags j
  | lateNext i =>
    obtain rfl := Option.some.inj hstep
    rw [List.mem_append, ← h j, List.mem_singleton]
    have hfold := foldl_next [i] s.flags j
    rwa [List.mem_singleton] at hfold

theorem serverStep_total (chain : List ServerMatchClosure) (s : ServerState) (e : ServerEvent)
    (h : FlagsRecordCalls s) : ∃ s', serverStep chain s e = some s' ∧ FlagsRecordCalls s' := by
  cases hstep : serverStep chain s e with
  | none => cases e <;> cases hstep
  | some s' => exact ⟨s', rfl, serverStep_records chain s e s' h hstep⟩

/-- **When the middleware gate works.** After any history of requests and `next()` calls, every
further request is gated and runs the handlers it would run as the first request, if and only
if no match-all middleware with a handler after it has had its `next()` called. -/
theorem gate_iff (chain : List ServerMatchClosure) (history : List ServerEvent) :
    ∃ s, PartialRun.run (serverStep chain) .fresh history = some s ∧
      (GateWorks chain s.flags ↔
        ∀ j ∈ s.called, MatchAllAt chain j → ¬ j + 1 < chain.length) := by
  have hfresh : FlagsRecordCalls .fresh := fun j => by simp [ServerState.fresh, freshFlags]
  obtain ⟨s, hrun, hrec⟩ := PartialRun.run_total (serverStep_total chain) history hfresh
  refine ⟨s, hrun, (gateWorks_iff chain s.flags).trans ?_⟩
  refine ⟨?_, ?_⟩
  · intro h j hj hall hlt
    have hf := (hrec j).2 hj
    rw [h j hall hlt] at hf
    cases hf
  · intro h j hall hlt
    by_contra hf
    exact h j ((hrec j).1 (by simpa using hf)) hall hlt

/-- An authentication middleware lets the first request through by calling `next()`; the second
request reaches the handler without that call. -/
theorem gate_leaks :
    let chain := minnetServerMethod (minnetServerMethod [] .use none) .get (some "/")
    let letsThrough : Handlers := fun i => (if i = 0 then [0] else [], 0)
    let refuses : Handlers := fun _ => ([], 0)
    ∃ s, PartialRun.run (serverStep chain) .fresh [.request ⟨"/", .get⟩ letsThrough] = some s ∧
      (minnetServerMatch ⟨"/", .get⟩ refuses chain s.flags).2.1 = [.invoke 0, .invoke 1] ∧
      (minnetServerMatch ⟨"/", .get⟩ refuses chain freshFlags).2.1 = [.invoke 0] ∧
      ¬ Gated chain (minnetServerMatch ⟨"/", .get⟩ refuses chain s.flags).2.1 := by
  refine ⟨_, rfl, by decide, by decide, ?_⟩
  intro h
  exact absurd (h 0 1 ⟨⟨none, none⟩, rfl, rfl⟩ (by decide) (by decide) (by decide)) (by decide)

end QjsNet
