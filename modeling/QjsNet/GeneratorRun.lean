import QjsNet.GeneratorLedger
import QjsNet.Lib.PartialRun

/- Runs of a generator before it is ended.

   A run is any sequence of writes, yields, enqueues, reads and changes of the
   buffering on a new generator. `GenInv` is what every call keeps, and each call is
   one or two operations on the ledger (`genStep_spec`). So no bytes get lost
   (`LedgerStep.sized`), and they keep their order as long as no yield overtakes the
   queue (`InTurn`, `LedgerStep.balanced_iff`); runs follow with the rules of `PartialRun`.

   The generator has no executor, as those that the library makes for the messages of a
   client and the body of a response; the runs of one that has are in `GeneratorApi`. The
   callback of a chunk is a function of the script, or nothing. -/
namespace QjsNet

variable {fns : Nat → Prop} {gen gen' : Generator}

structure GenInv (fns : Nat → Prop) (gen : Generator) : Prop where
  closing : gen.iterator.closing = false
  closed : gen.iterator.closed = false
  isOpen : OpenItems gen.queue.items
  unrefs : UserCallbacks fns gen.queue.items
  executor : gen.executor = .undefined
  yields : ∀ e ∈ gen.ctx.settlements, e.2.isYield = true

/-- What a call leaves alone. -/
structure Kept (fns : Nat → Prop) (gen gen' : Generator) : Prop where
  inv : GenInv fns gen'
  resolveReject : gen'.resolveReject = gen.resolveReject
  blockFn : gen'.blockFn = gen.blockFn
  calls : ∀ c, ¬ fns c → gen'.ctx.callsOf (.function c) = gen.ctx.callsOf (.function c)

/-- A new generator with one of the conversions. -/
def Generator.fresh (blockFn : BlockFn) : Generator := { generatorNew .new with blockFn }

theorem genInv_fresh (blockFn : BlockFn) : GenInv fns (.fresh blockFn) where
  closing := rfl
  closed := rfl
  isOpen := openItems_nil
  unrefs := userCallbacks_nil
  executor := rfl
  yields := fun _ h => absurd h List.not_mem_nil

theorem Delivers.kept {k : Nat} (h : Delivers fns gen gen' k) (hinv : GenInv fns gen) :
    Kept fns gen gen' := by
  have hit := h.iterator
  refine ⟨⟨by rw [hit]; exact hinv.closing, by rw [hit]; exact hinv.closed,
    h.items ▸ hinv.isOpen.drop k, h.items ▸ hinv.unrefs.drop k, ?_, ?_⟩, ?_, ?_, h.calls⟩
  · obtain ⟨q, ctx, n, m, rfl⟩ := h.frame
    exact hinv.executor
  · intro e he
    rw [h.settlements] at he
    rcases List.mem_append.1 he with he | he
    · exact hinv.yields e he
    · exact deliveries_isYield gen _ _ e he
  · obtain ⟨q, ctx, n, m, rfl⟩ := h.frame
    rfl
  · obtain ⟨q, ctx, n, m, rfl⟩ := h.frame
    rfl

theorem GenInv.withQueue {q : Queue} (h : GenInv fns gen) (hopen : OpenItems q.items)
    (huser : UserCallbacks fns q.items) : Kept fns gen (gen.setQueue q) :=
  ⟨⟨h.closing, h.closed, hopen, huser, h.executor, h.yields⟩, rfl, rfl, fun _ _ => rfl⟩

theorem Kept.trans {gen'' : Generator} (h1 : Kept fns gen gen') (h2 : Kept fns gen' gen'') :
    Kept fns gen gen'' where
  inv := h2.inv
  resolveReject := h2.resolveReject.trans h1.resolveReject
  blockFn := h2.blockFn.trans h1.blockFn
  calls := fun c hc => (h2.calls c hc).trans (h1.calls c hc)

/-! ## One call -/

/-- The callback argument of a write or a yield. -/
def callbackArg (callback : Option Nat) : JSValue := callback.elim .undefined .function

theorem callbackArg_user {callback : Option Nat} (h : ∀ f, callback = some f → fns f) :
    (callbackArg callback).isFunction = true → ∃ f, fns f ∧ callbackArg callback = .function f := by
  intro hfn
  cases callback with
  | none => cases hfn
  | some f => exact ⟨f, h f rfl, rfl⟩

theorem Kept.addWritten (h : Kept fns gen gen') (n : Nat) : Kept fns gen (gen'.addWritten n) :=
  ⟨⟨h.inv.closing, h.inv.closed, h.inv.isOpen, h.inv.unrefs, h.inv.executor, h.inv.yields⟩,
    h.resolveReject, h.blockFn, h.calls⟩

theorem Kept.addRead (h : Kept fns gen gen') (n : Nat) : Kept fns gen (gen'.addRead n) :=
  ⟨⟨h.inv.closing, h.inv.closed, h.inv.isOpen, h.inv.unrefs, h.inv.executor, h.inv.yields⟩,
    h.resolveReject, h.blockFn, h.calls⟩

@[simp] theorem ledger_addWritten (gen : Generator) (n : Nat) (accepted : Bytes) :
    (gen.addWritten n).ledger accepted = gen.ledger accepted := rfl

@[simp] theorem ledger_addRead (gen : Generator) (n : Nat) (accepted : Bytes) :
    (gen.addRead n).ledger accepted = gen.ledger accepted := rfl

theorem iteratorYield_spec {rd : AsyncRead} {reads : List AsyncRead} (h : GenInv fns gen)
    (hreads : gen.iterator.reads = rd :: reads) (v : JSValue) (accepted : Bytes) :
    Kept fns gen (iteratorYield gen v).1 ∧ (iteratorYield gen v).2 = true ∧
      (iteratorYield gen v).1.ledger (accepted ++ jsInputChars v)
        = Fifo.bypass (gen.ledger accepted) (jsInputChars v) ∧
      (iteratorYield gen v).1.q = gen.q := by
  simp only [iteratorYield_cons hreads]
  refine ⟨⟨⟨h.closing, h.closed, h.isOpen, h.unrefs, h.executor, ?_⟩, rfl, rfl, ?_⟩, trivial, ?_, trivial⟩
  · intro e he
    simp only [settlements_resolve, List.mem_append, List.mem_singleton] at he
    rcases he with he | rfl
    · exact h.yields e he
    · rfl
  · intro c _
    simp [callsOf_jsCall]
  · simp [Generator.ledger, Fifo.bypass, Settlement.bytes, Generator.queue]

theorem enqueue_spec {blk : ByteBlock} {callback : JSValue} {ret : Nat} (h : GenInv fns gen)
    (hcb : callback.isFunction = true → ∃ f, fns f ∧ callback = .function f)
    (heq : enqueueBlock gen blk callback = some (gen', ret)) (accepted : Bytes) :
    Kept fns gen gen' ∧
      gen'.ledger (accepted ++ blk.data) = Fifo.accept (gen.ledger accepted) blk.data ∧
      gen'.queue.continuous = (if gen.buffering then false else gen.queue.continuous) ∧
      gen'.buffering = gen.buffering ∧ gen'.iterator = gen.iterator := by
  obtain ⟨q, rfl, hopen, huser, hbytes, hcont⟩ := enqueueBlock_open h.isOpen h.unrefs hcb heq
  refine ⟨h.withQueue hopen huser, ?_, hcont, rfl, rfl⟩
  simp only [Generator.ledger, Fifo.accept]
  rw [← hbytes]
  rfl

/-- **A write accepts its bytes, and passes some on.** -/
theorem write_spec {data : Bytes} {callback : JSValue} {ret : Nat} (h : GenInv fns gen)
    (hcb : callback.isFunction = true → ∃ f, fns f ∧ callback = .function f)
    (heq : generatorWrite gen data callback = some (gen', ret)) (accepted : Bytes) :
    Kept fns gen gen' ∧
      (∃ n, gen'.ledger (accepted ++ data) = Fifo.pass (Fifo.accept (gen.ledger accepted) data) n) ∧
      gen'.queue.continuous = (if gen.buffering then false else gen.queue.continuous) ∧
      gen'.buffering = gen.buffering := by
  unfold generatorWrite at heq
  by_cases hdirect : gen.direct = true
  · simp only [hdirect, if_true, Option.bind_eq_bind, Option.bind_some, Option.some.injEq,
      Prod.mk.injEq] at heq
    obtain ⟨rfl, -⟩ := heq
    simp only [Generator.direct, Bool.and_eq_true, Bool.not_eq_true', decide_eq_true_eq] at hdirect
    -- Nothing is held, so overtaking the queue is accepting and passing on at once.
    obtain ⟨⟨⟨hbuf, hcont⟩, hsize⟩, hpending⟩ := hdirect
    obtain ⟨rd, reads, hreads⟩ := List.exists_cons_of_ne_nil (pending_eq_true.1 hpending)
    have hitems : gen.queue.items = [] := by
      rw [gen.queue.size_eq] at hsize
      exact List.length_eq_zero_iff.1 hsize
    obtain ⟨hkept, _, hledger, hq⟩ :=
      iteratorYield_spec h hreads (gen.blockFn.apply data) accepted
    refine ⟨(hkept.addRead 0).addWritten _, ⟨data.length, ?_⟩, ?_, rfl⟩
    · rw [jsInputChars_apply] at hledger
      rw [ledger_addWritten, ledger_addRead, hledger]
      simp [Fifo.bypass, Fifo.pass, Fifo.accept, Generator.ledger, hitems]
    · rw [hbuf]
      rfl
  · simp only [hdirect, Bool.false_eq_true, if_false, Option.bind_eq_bind,
      Option.bind_some] at heq
    obtain ⟨⟨gen₁, ret₁⟩, h1, h2⟩ := Option.bind_eq_some_iff.1 heq
    simp only [Option.some.injEq, Prod.mk.injEq] at h2
    obtain ⟨rfl, -⟩ := h2
    -- The chunk is queued first; the loop then passes on what it delivers.
    obtain ⟨hkept, hledger, hcont, hbuf, hit⟩ := enqueue_spec h hcb h1 accepted
    have hk := writeLoop_full gen₁.iterator.reads.length gen₁ hkept.inv.isOpen hkept.inv.unrefs rfl
    rw [data_blockCopy] at hledger
    refine ⟨(hkept.trans (hk.kept hkept.inv)).addWritten _,
      ⟨_, (hk.ledger _).trans (by rw [hledger])⟩, ?_, ?_⟩
    · exact hk.continuous.trans hcont
    · obtain ⟨q, ctx, n, m, hframe⟩ := hk.frame
      rw [hframe]
      exact hbuf

/-- A yield accepts its bytes behind the queue, or past it when a read waits. -/
theorem yield_spec {v callback : JSValue} {b : Bool} (h : GenInv fns gen)
    (hcb : callback.isFunction = true → ∃ f, fns f ∧ callback = .function f)
    (heq : generatorYield gen v callback = some (gen', b)) (accepted : Bytes) :
    Kept fns gen gen' ∧
      gen'.ledger (accepted ++ jsInputChars v) =
        (if gen.iterator.reads = [] then Fifo.accept else Fifo.bypass)
          (gen.ledger accepted) (jsInputChars v) ∧
      (gen.queue.continuous = false → gen'.queue.continuous = false) := by
  unfold generatorYield at heq
  cases hreads : gen.iterator.reads with
  | nil =>
    simp only [iteratorYield_nil hreads, Bool.false_eq_true, if_false, Option.bind_eq_bind] at heq
    obtain ⟨⟨gen₁, ret⟩, h1, h2⟩ := Option.bind_eq_some_iff.1 heq
    simp only [Option.some.injEq, Prod.mk.injEq] at h2
    obtain ⟨rfl, -⟩ := h2
    obtain ⟨hkept, hledger, hcont, _⟩ := enqueue_spec h hcb h1 accepted
    rw [if_pos rfl]
    refine ⟨hkept.addWritten _, hledger, ?_⟩
    intro hc
    refine hcont.trans ?_
    rw [hc, ite_self]
  | cons rd reads =>
    obtain ⟨hkept, hyielded, hledger, hq⟩ := iteratorYield_spec h hreads v accepted
    simp only [hyielded, if_true, Option.bind_eq_bind, Option.bind_some, Option.some.injEq,
      Prod.mk.injEq] at heq
    obtain ⟨rfl, -⟩ := heq
    rw [if_neg (List.cons_ne_nil _ _)]
    exact ⟨(hkept.addRead _).addWritten _, hledger, fun hc => hc⟩

theorem nextBegin_open (h : GenInv fns gen) (hcb : gen.callback.isFunction = false)
    (arg : JSValue) :
    generatorNextBegin gen arg = some ({ gen with
      iterator := { gen.iterator with
        reads := gen.iterator.reads ++ [⟨gen.ctx.promises, .ofPromise gen.ctx.promises, arg, rfl⟩] },
      ctx := { gen.ctx with promises := gen.ctx.promises + 1 }, started := true },
      .promise gen.ctx.promises) := by
  have hexec : gen.executor.isFunction = false := by
    rw [h.executor]
    rfl
  have hcb' : gen.resolveReject.resolve.isFunction = false := hcb
  unfold generatorNextBegin
  rw [next_open h.closing h.closed]
  cases hs : gen.started <;>
    simp [startExecutor, hexec, generatorCallback, Generator.callback, hcb']

theorem nextEnd_open (h : GenInv fns gen) : ∃ k, Delivers fns gen (generatorNextEnd gen) k := by
  cases hq : gen.q with
  | none =>
    have hend : generatorNextEnd gen = gen := by
      simp [generatorNextEnd, hq, h.closing, h.closed]
    rw [hend]
    exact ⟨0, .zero fns gen⟩
  | some q =>
    obtain ⟨k, hk, _, _⟩ := updateLoop_open gen.iterator.reads.length gen h.isOpen h.unrefs rfl
    have hit := hk.iterator
    have hend : generatorNextEnd gen = (updateLoop gen.iterator.reads.length gen).1 := by
      simp [generatorNextEnd, hq, generatorUpdate, hit, h.closing, h.closed]
    rw [hend]
    exact ⟨k, hk⟩

theorem next_spec (h : GenInv fns gen) (hcb : gen.callback.isFunction = false) (arg : JSValue) :
    ∃ gen', generatorNext gen arg = some (gen', .promise gen.ctx.promises) ∧ Kept fns gen gen' ∧
      (∀ accepted, ∃ n, gen'.ledger accepted = Fifo.pass (gen.ledger accepted) n) ∧
      gen'.queue.continuous = gen.queue.continuous := by
  let gen₁ : Generator := { gen with
    iterator := { gen.iterator with
      reads := gen.iterator.reads ++ [⟨gen.ctx.promises, .ofPromise gen.ctx.promises, arg, rfl⟩] },
    ctx := { gen.ctx with promises := gen.ctx.promises + 1 }, started := true }
  have hkept : Kept fns gen gen₁ :=
    ⟨⟨h.closing, h.closed, h.isOpen, h.unrefs, h.executor, h.yields⟩, rfl, rfl, fun _ _ => rfl⟩
  obtain ⟨k, hk⟩ := nextEnd_open hkept.inv
  refine ⟨generatorNextEnd gen₁, ?_, hkept.trans (hk.kept hkept.inv), ?_, hk.continuous⟩
  · simp only [generatorNext, nextBegin_open h hcb]
    rfl
  · intro accepted
    exact ⟨_, hk.ledger accepted⟩

/-! ## Runs -/

inductive GenCall where
  | write (data : Bytes) (callback : Option Nat)
  | yield (value : JSValue) (callback : Option Nat)
  | enqueue (value : JSValue)
  | next (arg : JSValue)
  | buffering (chunkSize : Nat)
  deriving DecidableEq, Repr

/-- A generator, with the bytes it has accepted so far. -/
structure GenState where
  gen : Generator
  accepted : Bytes
  deriving DecidableEq, Repr

def GenState.fresh (blockFn : BlockFn) : GenState := ⟨.fresh blockFn, []⟩

def genStep (s : GenState) : GenCall → Option GenState
  | .write data callback => do
    let (gen, _) ← generatorWrite s.gen data (callbackArg callback)
    some ⟨gen, s.accepted ++ data⟩
  | .yield value callback => do
    let (gen, _) ← generatorYield s.gen value (callbackArg callback)
    some ⟨gen, s.accepted ++ jsInputChars value⟩
  | .enqueue value => do
    let (gen, _) ← generatorEnqueue s.gen value
    some ⟨gen, s.accepted ++ jsInputChars value⟩
  | .next arg => do
    let (gen, _) ← generatorNext s.gen arg
    some { s with gen }
  | .buffering chunkSize => some { s with gen := (generatorBuffering s.gen chunkSize).1 }

/-- The chunk callback of a call, when it has one, is among `fns`. -/
def GenCall.Uses (fns : Nat → Prop) : GenCall → Prop
  | .write _ callback | .yield _ callback => ∀ f, callback = some f → fns f
  | _ => True

/-- The ledger of a state. -/
def GenState.ledger (s : GenState) : Fifo.Ledger UInt8 := s.gen.ledger s.accepted

/-- What every state of a run satisfies. -/
structure RunInv (fns : Nat → Prop) (s : GenState) : Prop where
  inv : GenInv fns s.gen
  callback : s.gen.callback = .undefined
  continuous : s.gen.queue.continuous = false

theorem runInv_fresh (blockFn : BlockFn) : RunInv fns (.fresh blockFn) :=
  ⟨genInv_fresh blockFn, rfl, rfl⟩

/-- A yield to a read that waits does not change the order of the bytes: usually, nothing is
queued. -/
def InTurn (s : GenState) : GenCall → Prop
  | .yield value _ => s.gen.iterator.reads ≠ [] →
    jsInputChars value ++ itemsBytes s.gen.queue.items
      = itemsBytes s.gen.queue.items ++ jsInputChars value
  | _ => True

instance (s : GenState) : (c : GenCall) → Decidable (InTurn s c)
  | .yield value _ => inferInstanceAs (Decidable (s.gen.iterator.reads ≠ [] →
    jsInputChars value ++ itemsBytes s.gen.queue.items
      = itemsBytes s.gen.queue.items ++ jsInputChars value))
  | .write .. | .enqueue _ | .next _ | .buffering _ => isTrue trivial

/-- What a call makes of the ledger. It accepts bytes behind those held and passes some on; or
it is a yield to a read that waits, and its bytes go past those held. -/
def LedgerStep (s : GenState) (c : GenCall) (l : Fifo.Ledger UInt8) : Prop :=
  (InTurn s c ∧ ∃ xs n, l = Fifo.pass (Fifo.accept s.ledger xs) n) ∨
    ∃ value callback, c = .yield value callback ∧ s.gen.iterator.reads ≠ [] ∧
      l = Fifo.bypass s.ledger (jsInputChars value)

/-- **One call.** It keeps the invariant, calls no other function, and is one step of the
ledger. -/
theorem genStep_spec {s s' : GenState} {c : GenCall} (h : RunInv fns s) (hc : c.Uses fns)
    (hstep : genStep s c = some s') :
    RunInv fns s' ∧
      (∀ f, ¬ fns f → s'.gen.ctx.callsOf (.function f) = s.gen.ctx.callsOf (.function f)) ∧
      LedgerStep s c s'.ledger := by
  have hfalse : s.gen.callback.isFunction = false := by
    rw [h.callback]
    rfl
  have hnone : (JSValue.undefined).isFunction = true → ∃ f, fns f ∧ JSValue.undefined = .function f :=
    fun hf => by cases hf
  cases c with
  | write data callback =>
    obtain ⟨⟨gen, ret⟩, heq, hs'⟩ := Option.bind_eq_some_iff.1 hstep
    obtain rfl := Option.some.inj hs'
    obtain ⟨hkept, ⟨n, hledger⟩, hcont, _⟩ := write_spec h.inv (callbackArg_user hc) heq s.accepted
    refine ⟨⟨hkept.inv, (congrArg _ hkept.resolveReject).trans h.callback, ?_⟩, hkept.calls,
      Or.inl ⟨trivial, data, n, hledger⟩⟩
    rw [hcont, h.continuous, ite_self]
  | yield value callback =>
    obtain ⟨⟨gen, ret⟩, heq, hs'⟩ := Option.bind_eq_some_iff.1 hstep
    obtain rfl := Option.some.inj hs'
    obtain ⟨hkept, hledger, hcont⟩ := yield_spec h.inv (callbackArg_user hc) heq s.accepted
    refine ⟨⟨hkept.inv, (congrArg _ hkept.resolveReject).trans h.callback, hcont h.continuous⟩,
      hkept.calls, ?_⟩
    by_cases hreads : s.gen.iterator.reads = []
    · rw [if_pos hreads] at hledger
      refine Or.inl ⟨fun hne => absurd hreads hne, jsInputChars value, 0, ?_⟩
      exact hledger.trans (Fifo.pass_zero _).symm
    · rw [if_neg hreads] at hledger
      exact Or.inr ⟨value, callback, rfl, hreads, hledger⟩
  | enqueue value =>
    obtain ⟨⟨gen, ret⟩, heq, hs'⟩ := Option.bind_eq_some_iff.1 hstep
    obtain rfl := Option.some.inj hs'
    have hcreated : Kept fns s.gen (createQueue s.gen) := h.inv.withQueue h.inv.isOpen h.inv.unrefs
    obtain ⟨hkept, hledger, hcont, _⟩ := enqueue_spec hcreated.inv hnone heq s.accepted
    refine ⟨⟨hkept.inv, (congrArg _ hkept.resolveReject).trans h.callback, ?_⟩, hkept.calls,
      Or.inl ⟨trivial, jsInputChars value, 0, ?_⟩⟩
    · refine hcont.trans ?_
      rw [show (createQueue s.gen).queue.continuous = false from h.continuous, ite_self]
    · exact hledger.trans (Fifo.pass_zero _).symm
  | next arg =>
    obtain ⟨gen, heq, hkept, hledger, hcont⟩ := next_spec h.inv hfalse arg
    simp only [genStep, heq] at hstep
    obtain rfl := Option.some.inj hstep
    obtain ⟨n, hn⟩ := hledger s.accepted
    refine ⟨⟨hkept.inv, (congrArg _ hkept.resolveReject).trans h.callback, ?_⟩, hkept.calls,
      Or.inl ⟨trivial, [], n, ?_⟩⟩
    · rw [hcont, h.continuous]
    · rw [Fifo.accept_nil]
      exact hn
  | buffering chunkSize =>
    obtain rfl := Option.some.inj hstep
    refine ⟨⟨⟨h.inv.closing, h.inv.closed, h.inv.isOpen, h.inv.unrefs, h.inv.executor, h.inv.yields⟩,
      h.callback, h.continuous⟩, fun _ _ => rfl, Or.inl ⟨trivial, [], 0, ?_⟩⟩
    rw [Fifo.accept_nil, Fifo.pass_zero]
    rfl

/-- A ledger that balances goes on to do so exactly when the call is in turn. -/
theorem LedgerStep.balanced_iff {s : GenState} {c : GenCall} {l : Fifo.Ledger UInt8}
    (h : LedgerStep s c l) (hb : Fifo.Balanced s.ledger) : Fifo.Balanced l ↔ InTurn s c := by
  rcases h with ⟨hturn, xs, n, rfl⟩ | ⟨value, callback, rfl, hreads, rfl⟩
  · exact iff_of_true (Fifo.pass_balanced (Fifo.accept_balanced hb)) hturn
  · -- This is the overtaking `InTurn` speaks of.
    rw [Fifo.bypass_balanced_iff hb]
    exact ⟨fun heq _ => heq, fun hturn => hturn hreads⟩

theorem LedgerStep.sized {s : GenState} {c : GenCall} {l : Fifo.Ledger UInt8}
    (h : LedgerStep s c l) (hs : Fifo.Sized s.ledger) : Fifo.Sized l := by
  rcases h with ⟨_, xs, n, rfl⟩ | ⟨value, callback, _, _, rfl⟩
  · exact Fifo.pass_sized (Fifo.accept_sized hs)
  · exact Fifo.bypass_sized hs

end QjsNet
