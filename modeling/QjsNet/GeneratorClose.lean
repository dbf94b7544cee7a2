import QjsNet.GeneratorRun

/- Closing a generator (`generator_stop`, `generator_finish`) and reading on.

   `LosesNothing` is what a close owes its readers: all accepted bytes come before
   the first last result, that result carries the argument of the close, everything
   after it is an empty last result, and no read is left waiting. Both functions mark
   the iterator as ending first, and from then on a read is answered with an empty
   last result without a look at the queue (`endedRead_spec`), so what is still queued
   is lost, and the argument of a stop reaches a reader only when a read waits for
   it. `close_loses_nothing_iff` is the exact condition: the ledger balances, so the
   bytes given so far and those queued are in order, and the close is ready. -/
namespace QjsNet

inductive Close where
  | stop (arg : JSValue)
  | finish
  deriving DecidableEq, Repr

/-- The value the last result should carry. -/
def Close.lastValue : Close → JSValue
  | .stop arg => arg
  | .finish => .undefined

def closeGenerator (gen : Generator) : Close → Option Generator
  | .stop arg => (generatorStop gen arg).map Prod.fst
  | .finish => (generatorFinish gen).map Prod.fst

def readStep (gen : Generator) (arg : JSValue) : Option Generator :=
  (generatorNext gen arg).map Prod.fst

/-- The settlement of a read after the last result. -/
def emptyLast : Settlement := .resolved (.iteratorResult .undefined true)

/-- What the readers have been given is in order: the first last result comes after all
accepted bytes and carries `last`, empty last results follow, and no read waits. -/
def GivenAll (accepted : Bytes) (last : JSValue) (gen : Generator) : Prop :=
  gen.iterator.reads = [] ∧
  ∀ before after p v,
    gen.ctx.settlements = before ++ (p, .resolved (.iteratorResult v true)) :: after →
    (∀ e ∈ before, e.2.isDone = false) →
    settledBytes before = accepted ∧ v = last ∧ ∀ e ∈ after, e.2 = emptyLast

/-- However many reads follow the close, none fails and the readers are given all. -/
def LosesNothing (s : GenState) (c : Close) : Prop :=
  ∀ args, ∃ gen₁ gen₂, closeGenerator s.gen c = some gen₁ ∧
    PartialRun.run readStep gen₁ args = some gen₂ ∧ GivenAll s.accepted c.lastValue gen₂

/-- A stop finds no bytes queued and exactly one read to carry its argument, or none when the
argument is undefined anyway; a finish finds a queued item for every read that waits, and no
bytes beyond those. -/
def CloseReady (s : GenState) : Close → Prop
  | .stop arg => itemsBytes s.gen.queue.items = [] ∧
    (s.gen.iterator.reads.length = 1 ∨ s.gen.iterator.reads = [] ∧ arg = .undefined)
  | .finish => s.gen.iterator.reads.length ≤ s.gen.queue.items.length ∧
    itemsBytes (s.gen.queue.items.drop s.gen.iterator.reads.length) = []

/-! ## Reading from an ended generator -/

/-- The iterator ends, and no read waits. -/
structure Ended (gen : Generator) : Prop where
  reads : gen.iterator.reads = []
  ends : gen.iterator.closing = true ∨ gen.iterator.closed = true
  executor : gen.executor = .undefined
  callback : gen.callback.isFunction = false

theorem endedRead_spec {gen : Generator} (h : Ended gen) (arg : JSValue) :
    ∃ gen', readStep gen arg = some gen' ∧ Ended gen' ∧
      gen'.ctx.settlements = gen.ctx.settlements ++ [(gen.ctx.promises, emptyLast)] := by
  have hexec : gen.executor.isFunction = false := by
    rw [h.executor]
    rfl
  have hcb : gen.resolveReject.resolve.isFunction = false := h.callback
  let gen' : Generator := { gen with
    iterator := ⟨[], true, true⟩,
    ctx := jsCall { gen.ctx with promises := gen.ctx.promises + 1 } (.resolve gen.ctx.promises)
      [.iteratorResult .undefined true],
    started := true }
  refine ⟨gen', ?_, ⟨rfl, Or.inl rfl, h.executor, h.callback⟩, ?_⟩
  · have hbegin : generatorNextBegin gen arg = some (gen', .promise gen.ctx.promises) := by
      unfold generatorNextBegin
      rw [next_ended h.ends h.reads]
      -- There is no executor and no callback, so a first read only sets `started`.
      cases hs : gen.started <;>
        simp [startExecutor, hexec, generatorCallback, Generator.callback, hcb, gen']
    have hend : generatorNextEnd gen' = gen' := by
      cases hq : gen.q <;>
        simp [generatorNextEnd, hq, generatorUpdate, updateLoop, gen', asynciteratorStop,
          asynciteratorPending]
    simp [readStep, generatorNext, hbegin, hend]
  · simp [gen', emptyLast]

theorem endedReads_spec : ∀ (args : List JSValue) {gen : Generator}, Ended gen →
    ∃ gen' tail, PartialRun.run readStep gen args = some gen' ∧ Ended gen' ∧
      gen'.ctx.settlements = gen.ctx.settlements ++ tail ∧ tail.length = args.length ∧
      ∀ e ∈ tail, e.2 = emptyLast := by
  intro args
  induction args with
  | nil =>
    intro gen h
    exact ⟨gen, [], rfl, h, by simp, rfl, fun e he => absurd he List.not_mem_nil⟩
  | cons arg args ih =>
    intro gen h
    obtain ⟨gen₁, h1, hended, hs1⟩ := endedRead_spec h arg
    obtain ⟨gen₂, tail, h2, hended2, hs2, hlen, htail⟩ := ih hended
    refine ⟨gen₂, (gen.ctx.promises, emptyLast) :: tail, PartialRun.run_cons_iff.2 ⟨gen₁, h1, h2⟩,
      hended2, ?_, by simp [hlen], ?_⟩
    · calc gen₂.ctx.settlements = gen₁.ctx.settlements ++ tail := hs2
        _ = (gen.ctx.settlements ++ [(gen.ctx.promises, emptyLast)]) ++ tail := by rw [hs1]
        _ = gen.ctx.settlements ++ (gen.ctx.promises, emptyLast) :: tail := by
          rw [List.append_assoc, List.singleton_append]
    · intro e he
      rcases List.mem_cons.1 he with rfl | he
      · rfl
      · exact htail e he

/-! ## The two closes -/

/-- What a stop gives the reads that wait: its argument to the oldest, a rejection to the
others. -/
def stopSettlements (arg : JSValue) : List AsyncRead → List (Nat × Settlement)
  | [] => []
  | rd :: reads => (rd.capability, .resolved (.iteratorResult arg true)) ::
      reads.map fun rd => (rd.capability, .rejected .null)

/-- On an open queue that collects nothing, closing it is all that happens to it. -/
theorem stopQueue_open {s : GenState} {fns : Nat → Prop} (h : RunInv fns s) :
    ∃ gen, stopQueue s.gen = some gen ∧ gen.iterator = s.gen.iterator ∧ gen.ctx = s.gen.ctx ∧
      gen.executor = s.gen.executor ∧ gen.callback = s.gen.callback := by
  cases hq : s.gen.q with
  | none => exact ⟨s.gen, by rw [stopQueue, hq], rfl, rfl, rfl, rfl⟩
  | some q =>
    have hqueue := queue_of_q hq
    have hopen : OpenItems q.items := hqueue ▸ h.inv.isOpen
    have hcont : q.continuous = false := hqueue ▸ h.continuous
    refine ⟨s.gen.setQueue (q.addTail doneItem), ?_, rfl, rfl, rfl, rfl⟩
    simp only [stopQueue, hq, queueClose_open hopen, Option.bind_eq_bind, Option.bind_some,
      addTail_continuous, hcont, Bool.false_eq_true, if_false]

theorem stop_spec {s : GenState} {fns : Nat → Prop} (h : RunInv fns s) (arg : JSValue) :
    ∃ gen, closeGenerator s.gen (.stop arg) = some gen ∧ Ended gen ∧
      gen.ctx.settlements = s.gen.ctx.settlements ++ stopSettlements arg s.gen.iterator.reads := by
  obtain ⟨gen, hqueue, hit, hctx, hexec, hcb⟩ := stopQueue_open h
  have hclose : closeGenerator s.gen (.stop arg) = some (iteratorStop gen arg) := by
    simp only [closeGenerator, generatorStop, h.inv.closed, Bool.false_eq_true, if_false, hqueue,
      Option.bind_eq_bind, Option.bind_some, stopIterator_eq]
    rfl
  have hfn : gen.callback.isFunction = false := by
    rw [hcb, h.callback]
    rfl
  have hexec' : gen.executor = .undefined := hexec.trans h.inv.executor
  rw [hclose, ← hctx, ← hit]
  cases hreads : gen.iterator.reads with
  | nil =>
    rw [iteratorStop_nil hreads]
    exact ⟨_, rfl, ⟨hreads, Or.inl rfl, hexec', hfn⟩, (List.append_nil _).symm⟩
  | cons rd reads =>
    obtain ⟨hs, _⟩ := rejectReads_spec .null reads
      (jsCall gen.ctx (.resolve rd.capability) [.iteratorResult arg true])
    rw [iteratorStop_cons hreads]
    refine ⟨_, rfl, ⟨rfl, Or.inr rfl, hexec', hfn⟩, ?_⟩
    simp only [hs, settlements_resolve, stopSettlements, List.append_assoc, List.singleton_append]

/-- A finish first delivers the queue to the reads that wait. -/
theorem finish_spec {s : GenState} {fns : Nat → Prop} (h : RunInv fns s)
    (hq : s.gen.q.isSome = true) :
    ∃ gen, closeGenerator s.gen .finish = some gen ∧
      gen.iterator.reads = s.gen.iterator.reads.drop s.gen.queue.items.length ∧
      (gen.iterator.reads = [] → Ended gen) ∧
      (s.gen.iterator.reads.length ≤ s.gen.queue.items.length →
        settledBytes gen.ctx.settlements = settledBytes s.gen.ctx.settlements
          ++ itemsBytes (s.gen.queue.items.take s.gen.iterator.reads.length)) ∧
      ∀ e ∈ gen.ctx.settlements, e.2.isYield = true := by
  obtain ⟨q, hq⟩ := Option.isSome_iff_exists.1 hq
  have hcont : q.continuous = false := queue_of_q hq ▸ h.continuous
  have hopen : OpenItems s.gen.setClosing.queue.items := h.inv.isOpen
  have huser : UserCallbacks fns s.gen.setClosing.queue.items := h.inv.unrefs
  obtain ⟨k, hk, _, hall⟩ := updateLoop_open _ s.gen.setClosing hopen huser rfl
  have hkeq : k = min s.gen.iterator.reads.length s.gen.queue.items.length := hall rfl
  let gen := (generatorUpdate s.gen.setClosing).1
  have hclosed : OpenItems gen.queue.items := hk.items ▸ hopen.drop k
  have hreads : gen.iterator.reads = s.gen.iterator.reads.drop k :=
    congrArg AsyncIterator.reads hk.iterator
  have hsettled : gen.ctx.settlements = s.gen.ctx.settlements ++
      deliveries s.gen.setClosing (s.gen.iterator.reads.take k) (s.gen.queue.items.take k) :=
    hk.settlements
  refine ⟨gen.setQueue (gen.queue.addTail doneItem), ?_, ?_, ?_, ?_, ?_⟩
  · simp only [closeGenerator, generatorFinish, setClosing_q, hq, hcont, Bool.false_and,
      Bool.false_eq_true, if_false]
    rw [show (generatorUpdate s.gen.setClosing).1 = gen from rfl, queueClose_open hclosed]
    rfl
  · rw [setQueue_iterator, hreads, hkeq]
    -- As many reads as items are served; reads beyond the items keep waiting.
    rcases Nat.le_total s.gen.iterator.reads.length s.gen.queue.items.length with hle | hle
    · rw [Nat.min_eq_left hle, List.drop_eq_nil_of_le (Nat.le_refl _), List.drop_eq_nil_of_le hle]
    · rw [Nat.min_eq_right hle]
  · intro hnil
    obtain ⟨_, ctx, n, m, hframe⟩ := hk.frame
    refine ⟨hnil, Or.inl ?_, ?_, ?_⟩
    · rw [setQueue_iterator, show gen.iterator = _ from hk.iterator]
      rfl
    · rw [setQueue_executor, show gen = _ from hframe]
      exact h.inv.executor
    · rw [setQueue_callback, show gen = _ from hframe]
      have hcb : s.gen.callback.isFunction = false := by
        rw [h.callback]
        rfl
      exact hcb
  · intro hle
    rw [Nat.min_eq_left hle] at hkeq
    rw [setQueue_ctx, hsettled, settledBytes_append, settledBytes_deliveries, hkeq]
    simp only [List.length_take, hkeq]
    omega
  · intro e he
    rw [setQueue_ctx, hsettled] at he
    rcases List.mem_append.1 he with he | he
    · exact h.inv.yields e he
    · exact deliveries_isYield _ _ _ e he

/-! ## What the readers are given -/

theorem isDone_of_isYield {s : Settlement} (h : s.isYield = true) : s.isDone = false := by
  cases s with
  | rejected e => rfl
  | resolved v => cases v <;> first | rfl | simpa [Settlement.isYield, Settlement.isDone] using h

theorem first_done {ys before rest after : List (Nat × Settlement)} {d e : Nat × Settlement}
    (hys : ∀ x ∈ ys, x.2.isDone = false) (hd : d.2.isDone = true)
    (hbefore : ∀ x ∈ before, x.2.isDone = false) (he : e.2.isDone = true)
    (h : ys ++ d :: rest = before ++ e :: after) : ys = before ∧ d = e ∧ rest = after := by
  induction ys generalizing before with
  | nil =>
    cases before with
    | nil =>
      obtain ⟨rfl, rfl⟩ := List.cons.inj h
      exact ⟨rfl, rfl, rfl⟩
    | cons b bs =>
      obtain ⟨rfl, _⟩ := List.cons.inj h
      exact absurd (hbefore d List.mem_cons_self) (by simp [hd])
  | cons y ys ih =>
    cases before with
    | nil =>
      obtain ⟨rfl, _⟩ := List.cons.inj h
      exact absurd (hys y List.mem_cons_self) (by simp [he])
    | cons b bs =>
      obtain ⟨rfl, h'⟩ := List.cons.inj h
      obtain ⟨rfl, hrest⟩ := ih (fun x hx => hys x (List.mem_cons_of_mem _ hx))
        (fun x hx => hbefore x (List.mem_cons_of_mem _ hx)) h'
      exact ⟨rfl, hrest⟩

variable {accepted : Bytes} {last : JSValue} {gen : Generator}

/-- Before any last result only the waiting reads matter. -/
theorem givenAll_no_done (h : ∀ e ∈ gen.ctx.settlements, e.2.isYield = true)
    (hreads : gen.iterator.reads = []) : GivenAll accepted last gen := by
  refine ⟨hreads, ?_⟩
  intro before after p v heq _
  have hmem : (p, Settlement.resolved (.iteratorResult v true)) ∈ gen.ctx.settlements := by
    rw [heq]
    exact List.mem_append_right _ List.mem_cons_self
  cases h _ hmem

/-- After values and a last result it is decided by these. -/
theorem givenAll_done {ys rest : List (Nat × Settlement)} {p : Nat} {v : JSValue}
    (hys : ∀ e ∈ ys, e.2.isYield = true) (hreads : gen.iterator.reads = [])
    (heq : gen.ctx.settlements = ys ++ (p, .resolved (.iteratorResult v true)) :: rest) :
    GivenAll accepted last gen ↔
      settledBytes ys = accepted ∧ v = last ∧ ∀ e ∈ rest, e.2 = emptyLast := by
  have hys' : ∀ e ∈ ys, e.2.isDone = false := fun e he => isDone_of_isYield (hys e he)
  refine ⟨?_, ?_⟩
  · intro h
    exact h.2 ys rest p v heq hys'
  · intro h
    refine ⟨hreads, ?_⟩
    intro before after p' v' heq' hbefore
    obtain ⟨rfl, hde, rfl⟩ := first_done hys' rfl hbefore rfl (heq.symm.trans heq')
    obtain ⟨-, rfl⟩ : p = p' ∧ v = v' := by simpa using hde
    exact h

/-- Reads after a close without a last result: the first of them gets it, with no value. -/
theorem laterReads_unanswered (hended : Ended gen)
    (hyields : ∀ e ∈ gen.ctx.settlements, e.2.isYield = true) :
    (∀ args, ∃ gen', PartialRun.run readStep gen args = some gen' ∧ GivenAll accepted last gen') ↔
      settledBytes gen.ctx.settlements = accepted ∧ .undefined = last := by
  refine ⟨?_, ?_⟩
  · intro hall
    obtain ⟨gen₂, h2, hg⟩ := hall [.undefined]
    obtain ⟨gen', tail, h2', hended', hs', hlen, htail⟩ := endedReads_spec [.undefined] hended
    obtain rfl := Option.some.inj (h2.symm.trans h2')
    obtain ⟨⟨p, e⟩, rfl⟩ := List.length_eq_one_iff.1 hlen
    obtain rfl : e = emptyLast := htail (p, e) List.mem_cons_self
    obtain ⟨hbytes, hlast, _⟩ := (givenAll_done hyields hended'.reads hs').1 hg
    exact ⟨hbytes, hlast⟩
  · intro h args
    obtain ⟨gen', tail, h2, hended', hs', _, htail⟩ := endedReads_spec args hended
    refine ⟨gen', h2, ?_⟩
    cases tail with
    | nil =>
      rw [List.append_nil] at hs'
      exact givenAll_no_done (hs' ▸ hyields) hended'.reads
    | cons e tail =>
      obtain ⟨p, e⟩ := e
      obtain rfl : e = emptyLast := htail (p, e) List.mem_cons_self
      exact (givenAll_done hyields hended'.reads hs').2
        ⟨h.1, h.2, fun e he => htail e (List.mem_cons_of_mem _ he)⟩

/-- Reads after a close that gave the last result change nothing. -/
theorem laterReads_answered {ys rest : List (Nat × Settlement)} {p : Nat} {v : JSValue}
    (hended : Ended gen) (hys : ∀ e ∈ ys, e.2.isYield = true)
    (heq : gen.ctx.settlements = ys ++ (p, .resolved (.iteratorResult v true)) :: rest) :
    (∀ args, ∃ gen', PartialRun.run readStep gen args = some gen' ∧ GivenAll accepted last gen') ↔
      settledBytes ys = accepted ∧ v = last ∧ ∀ e ∈ rest, e.2 = emptyLast := by
  rw [← givenAll_done hys hended.reads heq]
  refine ⟨?_, ?_⟩
  · intro hall
    obtain ⟨gen', hrun, hg⟩ := hall []
    obtain rfl := Option.some.inj hrun
    exact hg
  · intro hg args
    obtain ⟨hbytes, hv, hrest⟩ := (givenAll_done hys hended.reads heq).1 hg
    obtain ⟨gen', tail, h2, hended', hs', _, htail⟩ := endedReads_spec args hended
    refine ⟨gen', h2, ?_⟩
    rw [heq, List.append_assoc, List.cons_append] at hs'
    refine (givenAll_done hys hended'.reads hs').2 ⟨hbytes, hv, ?_⟩
    intro e he
    rcases List.mem_append.1 he with he | he
    · exact hrest e he
    · exact htail e he

/-! ## The exact condition -/

theorem losesNothing_iff {s : GenState} {c : Close} (hclose : closeGenerator s.gen c = some gen) :
    LosesNothing s c ↔ ∀ args, ∃ gen', PartialRun.run readStep gen args = some gen' ∧
      GivenAll s.accepted c.lastValue gen' := by
  refine ⟨?_, ?_⟩
  · intro hall args
    obtain ⟨g₁, g₂, h1, h2, h3⟩ := hall args
    obtain rfl := Option.some.inj (hclose.symm.trans h1)
    exact ⟨g₂, h2, h3⟩
  · intro hall args
    obtain ⟨g₂, h2, h3⟩ := hall args
    exact ⟨gen, g₂, hclose, h2, h3⟩

theorem stop_losesNothing {s : GenState} {fns : Nat → Prop} (h : RunInv fns s)
    (hsized : Fifo.Sized s.ledger) (arg : JSValue) :
    LosesNothing s (.stop arg) ↔ Fifo.Balanced s.ledger ∧ CloseReady s (.stop arg) := by
  obtain ⟨gen₁, hclose, hended, hs⟩ := stop_spec h arg
  have hbytes : settledBytes s.gen.ctx.settlements = s.accepted ↔
      Fifo.Balanced s.ledger ∧ itemsBytes s.gen.queue.items = [] := Fifo.sent_eq_iff hsized
  rw [losesNothing_iff hclose]
  cases hreads : s.gen.iterator.reads with
  | nil =>
    -- No read waits: the first last result is given to a later read, with no value.
    rw [hreads, stopSettlements, List.append_nil] at hs
    rw [laterReads_unanswered hended (hs ▸ h.inv.yields), hs, hbytes, and_assoc]
    simp only [CloseReady, hreads, List.length_nil, true_and, Close.lastValue, eq_comm (b := arg)]
    simp
  | cons rd reads =>
    -- A read waits: it gets the argument, and those behind it are rejected.
    rw [hreads, stopSettlements] at hs
    rw [laterReads_answered hended h.inv.yields hs, hbytes, and_assoc]
    simp only [CloseReady, hreads, List.length_cons, reduceCtorEq, false_and, or_false,
      Close.lastValue, true_and]
    refine and_congr_right fun _ => and_congr_right fun _ => ?_
    cases reads with
    | nil => simp
    | cons rd' reads =>
      refine iff_of_false ?_ (by simp)
      intro hrest
      have hrej := hrest (rd'.capability, .rejected .null) List.mem_cons_self
      cases hrej

/-- On the ledger the reads that wait are passed the bytes of the first items. -/
theorem pass_taken {s : GenState} (n : Nat) :
    Fifo.pass s.ledger (itemsBytes (s.gen.queue.items.take n)).length =
      ⟨s.accepted,
        settledBytes s.gen.ctx.settlements ++ itemsBytes (s.gen.queue.items.take n),
        itemsBytes (s.gen.queue.items.drop n)⟩ := by
  unfold GenState.ledger Generator.ledger Fifo.pass
  rw [← itemsBytes_take_drop s.gen.queue.items n, List.take_left, List.drop_left]

theorem finish_losesNothing {s : GenState} {fns : Nat → Prop} (h : RunInv fns s)
    (hsized : Fifo.Sized s.ledger) (hq : s.gen.q.isSome = true) :
    LosesNothing s .finish ↔ Fifo.Balanced s.ledger ∧ CloseReady s .finish := by
  obtain ⟨gen₁, hclose, hreads, hended, hbytes, hyields⟩ := finish_spec h hq
  have hready : Fifo.Balanced s.ledger ∧ CloseReady s .finish ↔
      gen₁.iterator.reads = [] ∧ settledBytes gen₁.ctx.settlements = s.accepted := by
    rw [hreads, List.drop_eq_nil_iff, CloseReady, and_left_comm]
    refine and_congr_right ?_
    intro hle
    -- After the delivery all bytes are out exactly when the ledger balances and holds none.
    have hpassed := Fifo.sent_eq_iff (@Fifo.pass_sized _ s.ledger
      (itemsBytes (s.gen.queue.items.take s.gen.iterator.reads.length)).length hsized)
    rw [Fifo.pass_balanced_iff, pass_taken] at hpassed
    rw [hbytes hle]
    exact hpassed.symm
  rw [hready, losesNothing_iff hclose]
  refine ⟨?_, ?_⟩
  · intro hall
    -- Without a further read no read may wait; with one the bytes are compared.
    obtain ⟨gen', hrun, hg⟩ := hall []
    obtain rfl := Option.some.inj hrun
    exact ⟨hg.1, ((laterReads_unanswered (hended hg.1) hyields).1 hall).1⟩
  · intro h'
    exact (laterReads_unanswered (hended h'.1) hyields).2 ⟨h'.2, rfl⟩

/-! ## Runs -/

theorem uses_any (c : GenCall) : c.Uses fun _ => True := by
  cases c <;> simp [GenCall.Uses]

theorem run_inv (blockFn : BlockFn) (calls : List GenCall) {s : GenState}
    (hrun : PartialRun.run genStep (.fresh blockFn) calls = some s) :
    RunInv (fun _ => True) s ∧ Fifo.Sized s.ledger := by
  let P : GenState → Prop := fun s => RunInv (fun _ => True) s ∧ Fifo.Sized s.ledger
  have hstep : ∀ s c s', P s → genStep s c = some s' → P s' := by
    intro s c s' h hstep
    obtain ⟨hinv, hsized⟩ := h
    obtain ⟨hinv', _, hledger⟩ := genStep_spec hinv (uses_any c) hstep
    exact ⟨hinv', hledger.sized hsized⟩
  have hfresh : P (.fresh blockFn) := ⟨runInv_fresh blockFn, Fifo.empty_sized⟩
  exact PartialRun.run_induct hstep calls hfresh hrun

theorem run_balanced (blockFn : BlockFn) (calls : List GenCall) {s : GenState}
    (hrun : PartialRun.run genStep (.fresh blockFn) calls = some s)
    (hturn : PartialRun.Meets genStep InTurn (.fresh blockFn) calls) : Fifo.Balanced s.ledger := by
  let P : GenState → Prop := fun s => RunInv (fun _ => True) s ∧ Fifo.Balanced s.ledger
  have hstep : ∀ s c s', P s → InTurn s c → genStep s c = some s' → P s' := by
    intro s c s' h hok hstep
    obtain ⟨hinv, hb⟩ := h
    obtain ⟨hinv', _, hledger⟩ := genStep_spec hinv (uses_any c) hstep
    exact ⟨hinv', (hledger.balanced_iff hb).2 hok⟩
  exact (PartialRun.meets_induct hstep calls ⟨runInv_fresh blockFn, Fifo.empty_balanced⟩
    hturn hrun).2

/-- **When closing loses nothing.** After any run a stop, or a finish of a generator that has a
queue, gives its readers everything if and only if what they have been given and what is queued
are in order, and the close is ready: a stop with no bytes queued and a single read for its
argument (or no read, and nothing to tell), a finish with an item for every read and no bytes
beyond. They are in order after a run in which no yield overtakes queued bytes. -/
theorem close_loses_nothing_iff (blockFn : BlockFn) (calls : List GenCall) (c : Close)
    (s : GenState) (hrun : PartialRun.run genStep (.fresh blockFn) calls = some s)
    (hq : c = .finish → s.gen.q.isSome = true) :
    (LosesNothing s c ↔ Fifo.Balanced s.ledger ∧ CloseReady s c) ∧
      (PartialRun.Meets genStep InTurn (.fresh blockFn) calls → Fifo.Balanced s.ledger) := by
  obtain ⟨hinv, hsized⟩ := run_inv blockFn calls hrun
  refine ⟨?_, run_balanced blockFn calls hrun⟩
  cases c with
  | stop arg => exact stop_losesNothing hinv hsized arg
  | finish => exact finish_losesNothing hinv hsized (hq rfl)

/-- A read that waits is given the argument of a stop. -/
theorem close_loses_nothing_waiting :
    ∃ s, PartialRun.run genStep (.fresh .toarraybuffer) [.write [1] none, .next .undefined,
        .next .undefined, .yield (.string [2]) none, .next .undefined] = some s ∧
      LosesNothing s (.stop (.int 7)) := by
  let calls : List GenCall := [.write [1] none, .next .undefined, .next .undefined,
    .yield (.string [2]) none, .next .undefined]
  have hstate : (PartialRun.run genStep (.fresh .toarraybuffer) calls).map (fun s =>
      (itemsBytes s.gen.queue.items, s.gen.iterator.reads.length)) = some ([], 1) := by decide
  cases hrun : PartialRun.run genStep (.fresh .toarraybuffer) calls with
  | none =>
    rw [hrun] at hstate
    cases hstate
  | some s =>
    rw [hrun, Option.map_some, Option.some.injEq, Prod.mk.injEq] at hstate
    obtain ⟨hiff, hbalanced⟩ := close_loses_nothing_iff .toarraybuffer calls (.stop (.int 7)) s
      hrun (fun hc => by cases hc)
    exact ⟨s, rfl, hiff.2 ⟨hbalanced (by decide), hstate.1, Or.inl hstate.2⟩⟩

/-- A queued chunk is lost at a stop, and so is the argument. -/
theorem close_loses_data :
    ∃ s, PartialRun.run genStep (.fresh .toarraybuffer) [.write [1] none] = some s ∧
      s.accepted = [1] ∧
      ((closeGenerator s.gen (.stop (.int 7))).bind fun gen =>
        (readStep gen .undefined).map fun gen => gen.ctx.settlements) = some [(0, emptyLast)] ∧
      ¬ LosesNothing s (.stop (.int 7)) := by
  refine ⟨_, rfl, rfl, rfl, ?_⟩
  intro h
  obtain ⟨gen₁, gen₂, h₁, h₂, h'⟩ := h [.undefined]
  obtain rfl := Option.some.inj h₁
  obtain rfl := Option.some.inj h₂
  have hbytes := (h'.2 [] [] 0 .undefined rfl fun e he => absurd he List.not_mem_nil).1
  cases hbytes

end QjsNet
