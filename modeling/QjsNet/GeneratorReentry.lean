import QjsNet.GeneratorFifo

/- A generator that is written to, with the calls that the callbacks of its chunks make.

   `queue_next` calls the callback of the front item, twice, before it takes the item out of the
   list, and `dequeue_value` comes before the read is taken off. When the callback writes
   or reads, the inner call finds a read that waits and the same front: it delivers the
   chunk and frees the item, which the outer call goes on to use (`Fault.freed`).

   So the chunks come out as they were written exactly as long as no callback that is
   called makes a call (`generator_fifo_iff`). What a function does when it is called is
   a `CallbackScript`: it may depend on all calls before. The calls of the executor are
   steps of the run, as in `channelStep`. Items are told apart by the number of items that
   were removed before; no item ends the stream before a stop, and `gen->callback` is
   set by no call here.

   Correspondence (C ↔ Lean):
     `queue_next`, up to `list_del`       ↔ `callChunk`
     its rest, with `dequeue_value` and `asynciterator_emplace` ↔ `Reentrant.take`
     the loops of `generator_update` and `generator_write` ↔ `takeTurns`
     `generator_write`, `generator_next`  ↔ `reentrantWrite`, `reentrantNext` -/
namespace QjsNet

inductive Fault where
  /-- Memory of an item is read that was freed. -/
  | freed
  /-- Calls are nested deeper than the fuel, or a loop takes more turns. -/
  | deep
  /-- A call that fails without any callback. -/
  | failed
  deriving DecidableEq, Repr

/-- A call that a callback makes. -/
inductive ChunkCall where
  | write (chunk : Chunk) (callback : Option Nat)
  | next (arg : JSValue)
  deriving DecidableEq, Repr

/-- The calls that a function makes, after the calls in the log. -/
abbrev CallbackScript := List Call → Nat → List ChunkCall

structure Reentrant where
  gen : Generator
  /-- How many items were removed from the queue. -/
  removed : Nat
  written : List Bytes
  asked : List Nat
  deriving DecidableEq, Repr

def Reentrant.withCtx (s : Reentrant) (ctx : JSContext) : Reentrant :=
  { s with gen := { s.gen with ctx } }

section Calls

/-! The calls that a function makes are answered by `again`. -/

variable (again : Reentrant → ChunkCall → Except Fault Reentrant) (script : CallbackScript)

/-- What a function does that has been called. -/
def runFunction (s : Reentrant) : JSValue → Except Fault Reentrant
  | .function f => (script s.gen.ctx.log f).foldlM again s
  | _ => .ok s

/-- `JS_Call(ctx, fn, JS_UNDEFINED, 0, 0)` -/
def callFunction (s : Reentrant) (fn : JSValue) : Except Fault Reentrant :=
  runFunction again script (s.withCtx (jsCall s.gen.ctx fn [])) fn

/-- `i->unref` is read before each call, and `i` afterwards. -/
def callChunk (s : Reentrant) : Option JSValue → Except Fault Reentrant
  | none => .ok s
  | some fn => do
    let s₁ ← callFunction again script s fn
    if s₁.removed ≠ s.removed then .error .freed
    else
      let s₂ ← callFunction again script s₁ fn
      if s₂.removed ≠ s.removed then .error .freed else .ok s₂

/-- The callback of the front item `i` has been called: the item goes to the oldest read. -/
def Reentrant.take (s : Reentrant) (i : QueueItem) : Reentrant :=
  { s with
    gen := (deliverFront s.gen (s.gen.queue.modify 0 fun _ => { i with unref := none })).1
    removed := s.removed + 1 }

/-- A loop that delivers items as long as `takes` says so, with the number of its turns. -/
def takeTurns (takes : Generator → QueueItem → Bool) :
    Nat → Reentrant → Except Fault (Reentrant × Nat)
  | 0, _ => .error .deep
  | turns + 1, s =>
    match s.gen.queue.items with
    | [] => .ok (s, 0)
    | front :: _ =>
      if s.gen.iterator.reads.isEmpty || !takes s.gen front then .ok (s, 0)
      else do
        let s ← callChunk again script s front.unref
        let (s, i) ← takeTurns takes turns (s.take front)
        .ok (s, i + 1)

def updateTakes (gen : Generator) (front : QueueItem) : Bool :=
  !(!gen.iterator.closing && gen.buffering && decide (front.block.size < gen.chunkSize))

def writeTakes (gen : Generator) (front : QueueItem) : Bool :=
  decide (gen.chunkSize ≤ front.block.size)

/-- `generator_next` behind the update, which has taken `n` turns. -/
def stopAnswered (gen : Generator) (n : Nat) : Generator :=
  if n = 0 && (gen.iterator.closing || gen.iterator.closed) then
    let (it, ctx, stopped) := asynciteratorStop gen.iterator .undefined gen.ctx
    let it := if stopped then { it with closing := false, closed := true } else it
    { gen with iterator := it, ctx }
  else gen

/-- More turns than reads are enough when no callback makes a call. -/
def reentrantNextEnd (fuel : Nat) (s : Reentrant) : Except Fault Reentrant := do
  let (s, n) ← takeTurns again script updateTakes (fuel + s.gen.iterator.reads.length + 1) s
  .ok { s with gen := stopAnswered s.gen n }

def reentrantWrite (fuel : Nat) (s : Reentrant) (data : Bytes) (callback : JSValue) :
    Except Fault Reentrant :=
  let s := { s with written := s.written ++ [data] }
  if s.gen.direct then
    let gen := (iteratorYield s.gen (s.gen.blockFn.apply data)).1.addRead 0
    .ok { s with gen := gen.addWritten data.length }
  else
    match enqueueBlock s.gen (blockCopy data) callback with
    | none => .error .failed
    | some (gen, ret) => do
      let (s, _) ← takeTurns again script writeTakes (fuel + gen.iterator.reads.length + 1)
        { s with gen }
      .ok { s with gen := s.gen.addWritten ret }

/-- An executor was started before the first item is taken, so that no callback of an item starts
one. -/
def reentrantNext (fuel : Nat) (s : Reentrant) (arg : JSValue) : Except Fault Reentrant :=
  match generatorNextBegin s.gen arg with
  | none => .error .failed
  | some (gen, _) => do
    let s ← runFunction again script { s with gen, asked := s.asked ++ [s.gen.ctx.promises] }
      s.gen.executor
    reentrantNextEnd again script fuel s

end Calls

/-- The calls of callbacks are calls like any other. -/
def nestedCall (script : CallbackScript) : Nat → Reentrant → ChunkCall → Except Fault Reentrant
  | 0, _, _ => .error .deep
  | fuel + 1, s, .write chunk callback =>
    reentrantWrite (nestedCall script fuel) script fuel s chunk.data (callbackArg callback)
  | fuel + 1, s, .next arg => reentrantNext (nestedCall script fuel) script fuel s arg

/-- A channel, and how many items were removed from its queue. -/
structure ReentrantState where
  channel : ChannelState
  removed : Nat
  deriving DecidableEq, Repr

def ReentrantState.new (blockFn : BlockFn) (executor : Option Nat) : ReentrantState :=
  ⟨.new blockFn executor none, 0⟩

def ReentrantState.open (s : ReentrantState) : Reentrant :=
  ⟨s.channel.api.gen, s.removed, s.channel.written, s.channel.api.asked⟩

/-- The call has returned. -/
def ReentrantState.close (s : ReentrantState) (r : Reentrant) (running : Bool) : ReentrantState :=
  ⟨⟨⟨r.gen, running, r.asked, s.channel.api.pushed⟩, r.written, false⟩, r.removed⟩

def reentrantCall (script : CallbackScript) (fuel : Nat) (s : ReentrantState) :
    ChannelCall → Except Fault ReentrantState
  | .write chunk callback => do
    let r ← reentrantWrite (nestedCall script fuel) script fuel s.open chunk.data
      (callbackArg callback)
    .ok (s.close r s.channel.api.running)
  | .next arg =>
    if s.channel.api.gen.executor.isFunction then
      -- the calls of the executor are the next steps
      match channelStep s.channel (.next arg) with
      | none => .error .failed
      | some channel => .ok { s with channel }
    else do
      let r ← reentrantNext (nestedCall script fuel) script fuel s.open arg
      .ok (s.close r s.channel.api.running)
  | .executorReturns =>
    if s.channel.api.running then do
      let r ← reentrantNextEnd (nestedCall script fuel) script fuel s.open
      .ok (s.close r false)
    else .ok s

def reentrantStep (script : CallbackScript) (fuel : Nat) (s : ReentrantState) (c : ChannelCall) :
    Option ReentrantState :=
  (reentrantCall script fuel s c).toOption

/-! ## What the callbacks do -/

/-- A callback makes no call, neither the first time nor the second. -/
def CallbackQuiet (script : CallbackScript) (log : List Call) : Option JSValue → Prop
  | some (.function f) =>
    script (log ++ [⟨.function f, []⟩]) f = [] ∧
      script (log ++ [⟨.function f, []⟩] ++ [⟨.function f, []⟩]) f = []
  | _ => True

/-- The calls of a delivery: those of the callback, and that of the read. -/
def deliveryCalls (f : BlockFn) (rd : AsyncRead) (i : QueueItem) : List Call :=
  (i.unref.elim [] fun fn => [⟨fn, []⟩, ⟨fn, []⟩]) ++
    [⟨.resolve rd.capability, [.iteratorResult (f.value i.block.data) false]⟩]

/-- The items go to the reads without a call of a callback on the generator. -/
def TurnsQuiet (script : CallbackScript) (f : BlockFn) :
    List Call → List AsyncRead → List QueueItem → Prop
  | log, rd :: reads, i :: items =>
    CallbackQuiet script log i.unref ∧
      TurnsQuiet script f (log ++ deliveryCalls f rd i) reads items
  | _, _, _ => True

/-- The item that a write puts into the queue. -/
def writtenItem (data : Bytes) (callback : Option Nat) : QueueItem :=
  ⟨blockCopy data, none, false, callback.map .function⟩

/-- No callback of a chunk that the call takes out of the queue makes a call. -/
def StepQuiet (script : CallbackScript) (s : ReentrantState) (c : ChannelCall) : Prop :=
  let gen := s.channel.api.gen
  let reads := gen.iterator.reads
  match c with
  | .write chunk callback => gen.direct = true ∨
      TurnsQuiet script gen.blockFn gen.ctx.log reads
        (gen.queue.items ++ [writtenItem chunk.data callback])
  | .next arg => gen.executor.isFunction = true ∨
      TurnsQuiet script gen.blockFn gen.ctx.log
        (reads ++ [⟨gen.ctx.promises, .ofPromise gen.ctx.promises, arg, rfl⟩]) gen.queue.items
  | .executorReturns => s.channel.api.running = false ∨
      TurnsQuiet script gen.blockFn gen.ctx.log reads gen.queue.items

variable {again : Reentrant → ChunkCall → Except Fault Reentrant} {script : CallbackScript}
  {takes : Generator → QueueItem → Bool} {s s' : Reentrant} {gen : Generator} {i : QueueItem}
  {is : List QueueItem} {fuel : Nat}

theorem except_bind {α β ε : Type} {x : Except ε α} {f : α → Except ε β} {b : β}
    (h : x >>= f = .ok b) : ∃ a, x = .ok a ∧ f a = .ok b := by
  cases x with
  | error e => cases h
  | ok a => exact ⟨a, rfl, h⟩

/-! ## Items are only removed -/

/-- Calls that do not put an item back. -/
def Removes (again : Reentrant → ChunkCall → Except Fault Reentrant) : Prop :=
  ∀ {s c s'}, again s c = .ok s' → s.removed ≤ s'.removed

theorem Removes.fold (h : Removes again) (cs : List ChunkCall) : ∀ {s : Reentrant},
    cs.foldlM again s = .ok s' → s.removed ≤ s'.removed := by
  induction cs with
  | nil =>
    intro s hs
    exact Nat.le_of_eq (congrArg Reentrant.removed (Except.ok.inj hs))
  | cons c cs ih =>
    intro s hs
    obtain ⟨s₁, h1, h2⟩ := except_bind hs
    exact (h h1).trans (ih h2)

theorem Removes.runFunction {fn : JSValue} (h : Removes again)
    (hs : runFunction again script s fn = .ok s') : s.removed ≤ s'.removed := by
  unfold QjsNet.runFunction at hs
  split at hs
  · exact h.fold _ hs
  · exact Nat.le_of_eq (congrArg Reentrant.removed (Except.ok.inj hs))

theorem callChunk_removed {unref : Option JSValue}
    (hs : callChunk again script s unref = .ok s') : s'.removed = s.removed := by
  cases unref with
  | none => exact (congrArg Reentrant.removed (Except.ok.inj hs)).symm
  | some fn =>
    obtain ⟨s₁, -, h⟩ := except_bind hs
    split at h
    · cases h
    · obtain ⟨s₂, -, h⟩ := except_bind h
      split at h
      · cases h
      · next hsame =>
        obtain rfl := Except.ok.inj h
        exact not_not.1 hsame

theorem takeTurns_removes : ∀ (turns : Nat) {s : Reentrant} {r : Reentrant × Nat},
    takeTurns again script takes turns s = .ok r → s.removed ≤ r.1.removed := by
  intro turns
  induction turns with
  | zero =>
    intro s r h
    cases h
  | succ turns ih =>
    intro s r h
    rw [takeTurns] at h
    split at h
    · exact Nat.le_of_eq (congrArg (·.1.removed) (Except.ok.inj h))
    · split at h
      · exact Nat.le_of_eq (congrArg (·.1.removed) (Except.ok.inj h))
      · obtain ⟨s₁, hcall, h⟩ := except_bind h
        obtain ⟨⟨s₂, n⟩, hrest, h⟩ := except_bind h
        have hlater := ih hrest
        have hsame := callChunk_removed hcall
        obtain rfl := Except.ok.inj h
        exact (Nat.le_of_eq hsame.symm).trans ((Nat.le_succ _).trans hlater)

/-- A turn removes an item. -/
theorem takeTurns_grows {turns : Nat} {r : Reentrant × Nat} (hitems : s.gen.queue.items = i :: is)
    (hreads : s.gen.iterator.reads ≠ []) (htakes : takes s.gen i = true)
    (h : takeTurns again script takes (turns + 1) s = .ok r) : s.removed < r.1.removed := by
  have hgo : (s.gen.iterator.reads.isEmpty || !takes s.gen i) = false := by
    simpa [htakes] using hreads
  rw [takeTurns, hitems] at h
  dsimp only at h
  rw [hgo, if_neg Bool.false_ne_true] at h
  obtain ⟨s₁, hcall, h⟩ := except_bind h
  obtain ⟨⟨s₂, n⟩, hrest, h⟩ := except_bind h
  have hlater := takeTurns_removes turns hrest
  have hsame := callChunk_removed hcall
  obtain rfl := Except.ok.inj h
  exact (Nat.le_of_eq (congrArg (· + 1) hsame.symm)).trans hlater

theorem reentrantNextEnd_removes (h : reentrantNextEnd again script fuel s = .ok s') :
    s.removed ≤ s'.removed := by
  obtain ⟨⟨s₁, n⟩, h1, h2⟩ := except_bind h
  obtain rfl := Except.ok.inj h2
  exact takeTurns_removes _ h1

theorem reentrantWrite_removes {data : Bytes} {callback : JSValue}
    (h : reentrantWrite again script fuel s data callback = .ok s') : s.removed ≤ s'.removed := by
  unfold reentrantWrite at h
  dsimp only at h
  split at h
  · obtain rfl := Except.ok.inj h
    exact Nat.le_refl _
  · split at h
    · cases h
    · obtain ⟨⟨s₁, n⟩, h1, h2⟩ := except_bind h
      have hturns := takeTurns_removes _ h1
      obtain rfl := Except.ok.inj h2
      exact hturns

theorem Removes.reentrantNext {arg : JSValue} (hagain : Removes again)
    (h : reentrantNext again script fuel s arg = .ok s') : s.removed ≤ s'.removed := by
  unfold QjsNet.reentrantNext at h
  split at h
  · cases h
  · obtain ⟨s₁, h1, h2⟩ := except_bind h
    have hbegin := hagain.runFunction h1
    exact hbegin.trans (reentrantNextEnd_removes h2)

theorem nestedCall_removes (script : CallbackScript) :
    ∀ fuel, Removes (nestedCall script fuel) := by
  intro fuel
  induction fuel with
  | zero =>
    intro s c s' h
    cases h
  | succ fuel ih =>
    intro s c s' h
    cases c with
    | write chunk callback => exact reentrantWrite_removes h
    | next arg => exact ih.reentrantNext h

/-! ## A call inside a callback -/

/-- A generator that hands out its chunks one by one, before any stop. -/
structure Plain (gen : Generator) : Prop where
  buffering : gen.buffering = false
  chunkSize : gen.chunkSize = 0
  separate : gen.queue.continuous = false
  isOpen : OpenItems gen.queue.items
  callbacks : UserCallbacks (fun _ => True) gen.queue.items

theorem Plain.updateTakes (h : Plain gen) (i : QueueItem) : QjsNet.updateTakes gen i = true := by
  simp [QjsNet.updateTakes, h.buffering]

theorem Plain.writeTakes (h : Plain gen) (i : QueueItem) : QjsNet.writeTakes gen i = true := by
  simp [QjsNet.writeTakes, h.chunkSize]

/-- The front item is about to go to a read. -/
structure Busy (s : Reentrant) : Prop where
  plain : Plain s.gen
  reads : s.gen.iterator.reads ≠ []
  items : s.gen.queue.items ≠ []
  executor : s.gen.executor.isFunction = false

theorem Busy.withCtx (h : Busy s) (ctx : JSContext) : Busy (s.withCtx ctx) :=
  ⟨⟨h.plain.buffering, h.plain.chunkSize, h.plain.separate, h.plain.isOpen, h.plain.callbacks⟩,
    h.reads, h.items, h.executor⟩

theorem Busy.write_grows {data : Bytes} {callback : JSValue} (h : Busy s)
    (hs : reentrantWrite again script fuel s data callback = .ok s') : s.removed < s'.removed := by
  have hdirect : s.gen.direct = false :=
    Bool.eq_false_iff.2 fun hd => h.items (direct_iff.1 hd).2.2.1
  unfold reentrantWrite at hs
  dsimp only at hs
  rw [hdirect, if_neg Bool.false_ne_true] at hs
  split at hs
  · cases hs
  · next gen ret heq =>
    obtain ⟨⟨s₁, n⟩, h1, h2⟩ := except_bind hs
    obtain ⟨q, rfl, hdata, -⟩ := enqueueBlock_data h.plain.isOpen h.plain.separate heq
    obtain ⟨i, is, hitems⟩ : ∃ i is, q.items = i :: is := by
      refine List.exists_cons_of_ne_nil fun hnil => ?_
      have hempty := hdata h.plain.buffering
      rw [hnil] at hempty
      simp [itemsData] at hempty
    have htakes : writeTakes (s.gen.setQueue q) i = true := by
      simp [writeTakes, Generator.setQueue, h.plain.chunkSize]
    have hturns := @takeTurns_grows again script writeTakes
      { s with gen := s.gen.setQueue q, written := s.written ++ [data] } i is _ _ hitems h.reads
      htakes h1
    obtain rfl := Except.ok.inj h2
    exact hturns

theorem Busy.next_grows {arg : JSValue} (h : Busy s)
    (hs : reentrantNext again script fuel s arg = .ok s') : s.removed < s'.removed := by
  unfold reentrantNext at hs
  split at hs
  · cases hs
  · next gen ret hbegin =>
    obtain ⟨s₁, h1, h2⟩ := except_bind hs
    have hrun : runFunction again script
        { s with gen, asked := s.asked ++ [s.gen.ctx.promises] } s.gen.executor
        = .ok { s with gen, asked := s.asked ++ [s.gen.ctx.promises] } := by
      have hexec := h.executor
      unfold runFunction
      split
      · next f heq =>
        rw [heq] at hexec
        cases hexec
      · rfl
    rw [hrun] at h1
    obtain rfl := Except.ok.inj h1
    obtain ⟨⟨s₂, n⟩, h3, h4⟩ := except_bind h2
    have hnext : ∃ it ctx, asynciteratorNext s.gen.iterator arg s.gen.ctx = some (it, ctx, ret) ∧
        gen = Generator.resume { s.gen with iterator := it, ctx } arg := by
      cases heq : asynciteratorNext s.gen.iterator arg s.gen.ctx with
      | none => simp [generatorNextBegin, heq] at hbegin
      | some r =>
        obtain ⟨it, ctx, ret'⟩ := r
        rw [nextBegin_eq heq] at hbegin
        obtain ⟨rfl, rfl⟩ := Prod.mk.inj (Option.some.inj hbegin)
        exact ⟨it, ctx, rfl, rfl⟩
    obtain ⟨it, ctx, heq, rfl⟩ := hnext
    have hit : it.reads ≠ [] := by
      unfold asynciteratorNext at heq
      have hne : s.gen.iterator.reads.isEmpty = false := by simpa using h.reads
      dsimp only at heq
      rw [hne] at heq
      split at heq
      · cases heq
      · obtain ⟨rfl, -⟩ := Prod.mk.inj (Option.some.inj heq)
        simp
    obtain ⟨ctx', executor, funcs, started, hframe⟩ :=
      resume_frame { s.gen with iterator := it, ctx } arg
    obtain ⟨i, is, hitems⟩ := List.exists_cons_of_ne_nil h.items
    rw [hframe] at h3
    have hturns := @takeTurns_grows again script updateTakes
      { s with
        gen := { s.gen with
          iterator := it
          ctx := ctx'
          executor := executor
          resolveReject := funcs
          started := started }
        asked := s.asked ++ [s.gen.ctx.promises] } i is _ _ hitems hit
      (by simp [updateTakes, h.plain.buffering]) h3
    obtain rfl := Except.ok.inj h4
    exact hturns

/-- It delivers the front item. -/
theorem Busy.nested_grows (h : Busy s) {c : ChunkCall}
    (hs : nestedCall script fuel s c = .ok s') : s.removed < s'.removed := by
  cases fuel with
  | zero => cases hs
  | succ fuel =>
    cases c with
    | write chunk callback => exact h.write_grows hs
    | next arg => exact h.next_grows hs

/-- So the outer call finds the item freed. -/
theorem Busy.runFunction_grows (h : Busy s) {f : Nat} (hcalls : script s.gen.ctx.log f ≠ [])
    (hs : runFunction (nestedCall script fuel) script s (.function f) = .ok s') :
    s.removed < s'.removed := by
  obtain ⟨c, cs, hscript⟩ := List.exists_cons_of_ne_nil hcalls
  unfold runFunction at hs
  dsimp only at hs
  rw [hscript] at hs
  obtain ⟨s₁, h1, h2⟩ := except_bind hs
  have hrest := @Removes.fold (nestedCall script fuel) s' (nestedCall_removes script fuel) cs s₁ h2
  exact Nat.lt_of_lt_of_le (h.nested_grows h1) hrest

/-! ## One callback -/

theorem callChunk_quiet {unref : Option JSValue} (h : CallbackQuiet script s.gen.ctx.log unref) :
    callChunk again script s unref = .ok (s.withCtx (callUnref s.gen.ctx unref)) := by
  cases unref with
  | none => rfl
  | some fn =>
    have hfirst : callFunction again script s fn = .ok (s.withCtx (jsCall s.gen.ctx fn [])) := by
      cases fn with
      | function f =>
        show (script (s.gen.ctx.log ++ [⟨.function f, []⟩]) f).foldlM again _ = _
        rw [h.1]
        rfl
      | _ => rfl
    have hsecond : callFunction again script (s.withCtx (jsCall s.gen.ctx fn [])) fn
        = .ok (s.withCtx (callUnref s.gen.ctx (some fn))) := by
      cases fn with
      | function f =>
        show (script (s.gen.ctx.log ++ [⟨.function f, []⟩] ++ [⟨.function f, []⟩]) f).foldlM again _
          = _
        rw [h.2]
        rfl
      | _ => rfl
    rw [callChunk, hfirst]
    refine (if_neg (not_not.2 rfl)).trans ?_
    rw [hsecond]
    exact if_neg (not_not.2 rfl)

/-- A callback that makes a call ends in the use of freed memory, if it ends. -/
theorem callChunk_noisy {unref : Option JSValue} (h : Busy s)
    (hnoisy : ¬ CallbackQuiet script s.gen.ctx.log unref) :
    ∃ e, callChunk (nestedCall script fuel) script s unref = .error e := by
  have hfn : ∃ f, unref = some (.function f) := by
    unfold CallbackQuiet at hnoisy
    split at hnoisy
    · exact ⟨_, rfl⟩
    · exact absurd trivial hnoisy
  obtain ⟨f, rfl⟩ := hfn
  cases hcall : callChunk (nestedCall script fuel) script s (some (.function f)) with
  | error e => exact ⟨e, rfl⟩
  | ok s' =>
    obtain ⟨s₁, h1, h2⟩ := except_bind hcall
    split at h2
    · cases h2
    · next hsame =>
      by_cases hfirst : script (s.gen.ctx.log ++ [⟨.function f, []⟩]) f = []
      · have hs₁ : s₁ = s.withCtx (jsCall s.gen.ctx (.function f) []) := by
          have hrun : callFunction (nestedCall script fuel) script s (.function f)
              = .ok (s.withCtx (jsCall s.gen.ctx (.function f) [])) := by
            show (script (s.gen.ctx.log ++ [⟨.function f, []⟩]) f).foldlM _ _ = _
            rw [hfirst]
            rfl
          exact Except.ok.inj (h1.symm.trans hrun)
        obtain ⟨s₂, h3, h4⟩ := except_bind h2
        have hgrows := ((h.withCtx _).withCtx _).runFunction_grows
          (fun hsecond => hnoisy ⟨hfirst, hsecond⟩) (hs₁ ▸ h3)
        split at h4
        · cases h4
        · next hsame' => exact absurd (not_not.1 hsame') (Nat.ne_of_gt hgrows)
      · have hgrows := (h.withCtx _).runFunction_grows hfirst h1
        exact absurd (not_not.1 hsame) (Nat.ne_of_gt hgrows)

/-! ## Quiet turns -/

variable {rd : AsyncRead} {reads : List AsyncRead}

theorem Plain.deliverFront (h : Plain gen) (hitems : gen.queue.items = i :: is)
    (hreads : gen.iterator.reads = rd :: reads) :
    gen.q = some gen.queue ∧ Delivers (fun _ => True) gen (deliverFront gen gen.queue).1 1 ∧
      (QjsNet.deliverFront gen gen.queue).2 = false ∧
      (QjsNet.deliverFront gen gen.queue).1.ctx.log
        = gen.ctx.log ++ deliveryCalls gen.blockFn rd i := by
  obtain ⟨q, hq, hqi⟩ := q_of_items hitems
  have hqueue := queue_of_q hq
  obtain ⟨hk, hdone⟩ := deliverFront_open hq hqi hreads (hqueue ▸ h.isOpen) (hqueue ▸ h.callbacks)
  rw [hqueue]
  refine ⟨hq, hk, hdone, ?_⟩
  have hi : i.done = false := h.isOpen i (by simp [hitems])
  have hvalue : (if i.block.size ≠ 0 then gen.blockFn.apply i.block.data else .undefined)
      = gen.blockFn.value i.block.data := chunkOf_eq gen i
  have hcalls : (callUnref gen.ctx i.unref).log
      = gen.ctx.log ++ i.unref.elim [] fun fn => [⟨fn, []⟩, ⟨fn, []⟩] := by
    cases i.unref with
    | none => exact (List.append_nil _).symm
    | some fn => exact List.append_assoc ..
  simp only [QjsNet.deliverFront, dequeueValue, queueNext_cons hqi hi]
  split
  · simp only [Generator.addRead, emplace_cons hreads, jsCall_log, hcalls, hvalue, deliveryCalls,
      List.append_assoc]
  · simp only [emplace_cons hreads, jsCall_log, hcalls, hvalue, deliveryCalls, List.append_assoc]

theorem Plain.delivers {gen' : Generator} (h : Plain gen)
    (hk : Delivers (fun _ => True) gen gen' 1) : Plain gen' := by
  have hframe := hk.frame
  refine ⟨?_, ?_, hk.continuous.trans h.separate, hk.items ▸ h.isOpen.drop 1,
    hk.items ▸ h.callbacks.drop 1⟩
  · obtain ⟨q, ctx, n, m, rfl⟩ := hframe
    exact h.buffering
  · obtain ⟨q, ctx, n, m, rfl⟩ := hframe
    exact h.chunkSize

theorem Plain.updateLoop_cons (h : Plain gen) (hitems : gen.queue.items = i :: is)
    (hreads : gen.iterator.reads = rd :: reads) (n : Nat) :
    updateLoop (n + 1) gen
      = ((updateLoop n (QjsNet.deliverFront gen gen.queue).1).1,
        (updateLoop n (QjsNet.deliverFront gen gen.queue).1).2 + 1) := by
  obtain ⟨hq, -, hdone, -⟩ := h.deliverFront hitems hreads
  conv_lhs => unfold updateLoop
  rw [hq, hitems]
  simp only [hreads, List.isEmpty_cons, Bool.false_eq_true, if_false, h.buffering, Bool.and_false,
    Bool.false_and, hdone]

theorem updateLoop_noItems (hitems : gen.queue.items = []) (n : Nat) :
    updateLoop n gen = (gen, 0) := by
  cases n with
  | zero => rfl
  | succ n => cases hq : gen.q <;> simp [updateLoop, hq, hitems]

theorem Plain.writeLoop_eq : ∀ (n : Nat) {gen : Generator}, Plain gen →
    gen.iterator.reads.length = n → writeLoop n gen = (updateLoop n gen).1 := by
  intro n
  induction n with
  | zero =>
    intro gen _ _
    rfl
  | succ n ih =>
    intro gen h hlen
    obtain ⟨rd, reads, hreads⟩ :=
      List.exists_cons_of_length_pos (by omega : 0 < gen.iterator.reads.length)
    cases hitems : gen.queue.items with
    | nil =>
      rw [updateLoop_noItems hitems]
      cases hq : gen.q <;> simp [writeLoop, hq, hitems]
    | cons i is =>
      obtain ⟨hq, hk, -, -⟩ := h.deliverFront hitems hreads
      have hturn : writeLoop (n + 1) gen = writeLoop n (QjsNet.deliverFront gen gen.queue).1 := by
        conv_lhs => unfold writeLoop
        rw [hq, hitems]
        simp [asynciteratorPending, hreads, h.chunkSize]
      have hlen' : (QjsNet.deliverFront gen gen.queue).1.iterator.reads.length = n := by
        rw [hk.iterator, List.length_drop, hlen]
        rfl
      rw [hturn, h.updateLoop_cons hitems hreads, ih (h.delivers hk) hlen']

/-- After a quiet callback the item goes to the read as in `deliverFront`. -/
theorem Plain.take_quiet (h : Plain s.gen) (hitems : s.gen.queue.items = i :: is) :
    (s.withCtx (callUnref s.gen.ctx i.unref)).take i
      = { s with gen := (QjsNet.deliverFront s.gen s.gen.queue).1, removed := s.removed + 1 } := by
  have hi : i.done = false := h.isOpen i (by simp [hitems])
  let q := s.gen.queue.modify 0 fun _ => { i with unref := none }
  have hq : q.items = { i with unref := none } :: is := by
    simp [q, hitems]
  have hdel : q.delHead = s.gen.queue.delHead := Queue.ext_items (by simp [hq, hitems]) rfl
  have hfront : (QjsNet.deliverFront { s.gen with ctx := callUnref s.gen.ctx i.unref } q).1
      = (QjsNet.deliverFront s.gen s.gen.queue).1 := by
    simp only [QjsNet.deliverFront, dequeueValue, queueNext_cons hitems hi, queueNext_cons hq hi,
      hdel, callUnref]
  exact congrArg (fun g => { s with gen := g, removed := s.removed + 1 }) hfront

theorem takeTurns_noReads {turns : Nat} (h : s.gen.iterator.reads = []) :
    takeTurns again script takes (turns + 1) s = .ok (s, 0) := by
  unfold takeTurns
  split
  · rfl
  · rw [h]
    rfl

theorem takeTurns_noItems {turns : Nat} (h : s.gen.queue.items = []) :
    takeTurns again script takes (turns + 1) s = .ok (s, 0) := by
  unfold takeTurns
  rw [h]

theorem takeTurns_cons {turns : Nat} (h : Plain s.gen)
    (htakes : ∀ {gen : Generator} (i : QueueItem), Plain gen → takes gen i = true)
    (hitems : s.gen.queue.items = i :: is) (hreads : s.gen.iterator.reads = rd :: reads)
    (hquiet : CallbackQuiet script s.gen.ctx.log i.unref) :
    takeTurns again script takes (turns + 1) s = (do
      let (s, i) ← takeTurns again script takes turns
        { s with gen := (deliverFront s.gen s.gen.queue).1, removed := s.removed + 1 }
      .ok (s, i + 1)) := by
  conv_lhs => unfold takeTurns
  rw [hitems]
  simp only [hreads, List.isEmpty_cons, htakes i h, Bool.not_true, Bool.or_self, Bool.false_eq_true,
    if_false, callChunk_quiet hquiet]
  rw [← h.take_quiet hitems]
  rfl

/-- **Quiet callbacks.** The loop does what it does without callbacks that call. -/
theorem takeTurns_quiet
    (htakes : ∀ {gen : Generator} (i : QueueItem), Plain gen → takes gen i = true) (extra : Nat) :
    ∀ (n : Nat) {s : Reentrant}, Plain s.gen → s.gen.iterator.reads.length = n →
    TurnsQuiet script s.gen.blockFn s.gen.ctx.log s.gen.iterator.reads s.gen.queue.items →
    takeTurns again script takes (extra + n + 1) s
      = .ok ({ s with
            gen := (updateLoop n s.gen).1
            removed := s.removed + (updateLoop n s.gen).2 }, (updateLoop n s.gen).2) := by
  intro n
  induction n with
  | zero =>
    intro s _ hlen _
    exact takeTurns_noReads (List.length_eq_zero_iff.1 hlen)
  | succ n ih =>
    intro s h hlen hquiet
    obtain ⟨rd, reads, hreads⟩ :=
      List.exists_cons_of_length_pos (by omega : 0 < s.gen.iterator.reads.length)
    cases hitems : s.gen.queue.items with
    | nil =>
      rw [updateLoop_noItems hitems]
      exact takeTurns_noItems hitems
    | cons i is =>
      rw [hreads, hitems] at hquiet
      obtain ⟨hfirst, hrest⟩ := hquiet
      obtain ⟨-, hk, -, hlog⟩ := h.deliverFront hitems hreads
      have hblockFn : (deliverFront s.gen s.gen.queue).1.blockFn = s.gen.blockFn := by
        obtain ⟨q, ctx, m, m', hframe⟩ := hk.frame
        rw [hframe]
      have hreads' : (deliverFront s.gen s.gen.queue).1.iterator.reads = reads := by
        rw [hk.iterator, hreads]
        rfl
      have hitems' : (deliverFront s.gen s.gen.queue).1.queue.items = is := by
        rw [hk.items, hitems]
        rfl
      have hturn := @takeTurns_cons again script takes s i is rd reads (extra + n + 1) h htakes
        hitems hreads hfirst
      rw [show extra + (n + 1) + 1 = extra + n + 1 + 1 from rfl, hturn,
        ih (h.delivers hk) (by rw [hreads']; simpa [hreads] using hlen)
          (by rw [hblockFn, hlog, hreads', hitems']; exact hrest),
        h.updateLoop_cons hitems hreads, ← Nat.add_assoc, Nat.add_right_comm]
      rfl

/-- **A callback that calls.** The loop does not get behind it. -/
theorem takeTurns_noisy
    (htakes : ∀ {gen : Generator} (i : QueueItem), Plain gen → takes gen i = true) :
    ∀ (turns : Nat) {s : Reentrant}, Plain s.gen → s.gen.executor.isFunction = false →
    ¬ TurnsQuiet script s.gen.blockFn s.gen.ctx.log s.gen.iterator.reads s.gen.queue.items →
    ∃ e, takeTurns (nestedCall script fuel) script takes turns s = .error e := by
  intro turns
  induction turns with
  | zero =>
    intro s _ _ _
    exact ⟨_, rfl⟩
  | succ turns ih =>
    intro s h hexec hnoisy
    obtain ⟨rd, reads, i, is, hreads, hitems⟩ : ∃ rd reads i is,
        s.gen.iterator.reads = rd :: reads ∧ s.gen.queue.items = i :: is := by
      unfold TurnsQuiet at hnoisy
      split at hnoisy
      · exact ⟨_, _, _, _, ‹_›, ‹_›⟩
      · exact absurd trivial hnoisy
    rw [hreads, hitems] at hnoisy
    by_cases hfirst : CallbackQuiet script s.gen.ctx.log i.unref
    · obtain ⟨-, hk, -, hlog⟩ := h.deliverFront hitems hreads
      have hframe : (deliverFront s.gen s.gen.queue).1.blockFn = s.gen.blockFn ∧
          (deliverFront s.gen s.gen.queue).1.executor = s.gen.executor := by
        obtain ⟨q, ctx, m, m', hframe⟩ := hk.frame
        rw [hframe]
        exact ⟨rfl, rfl⟩
      have hrest : ¬ TurnsQuiet script s.gen.blockFn
          (s.gen.ctx.log ++ deliveryCalls s.gen.blockFn rd i) reads is :=
        fun hrest => hnoisy ⟨hfirst, hrest⟩
      obtain ⟨e, he⟩ := @ih
        { s with gen := (deliverFront s.gen s.gen.queue).1, removed := s.removed + 1 }
        (h.delivers hk) (by rw [hframe.2, hexec])
        (by rw [hframe.1, hlog, hk.iterator, hk.items, hreads, hitems]; exact hrest)
      refine ⟨e, ?_⟩
      rw [takeTurns_cons h htakes hitems hreads hfirst, he]
      rfl
    · have hbusy : Busy s := ⟨h, by simp [hreads], by simp [hitems], hexec⟩
      obtain ⟨e, he⟩ := @callChunk_noisy script s fuel i.unref hbusy hfirst
      refine ⟨e, ?_⟩
      unfold takeTurns
      rw [hitems]
      simp only [hreads, List.isEmpty_cons, htakes i h, Bool.not_true, Bool.or_self,
        Bool.false_eq_true, if_false, he]
      rfl

/-! ## One call -/

variable {f : BlockFn} {asked : List Nat} {accepted : List Bytes}

theorem ChunkInv.plain (h : ChunkInv f none gen [] asked accepted) : Plain gen :=
  ⟨h.setting.1, h.setting.2, h.separate, h.isOpen, h.api.unrefs⟩

theorem Plain.enqueueBlock (h : Plain gen) (blk : ByteBlock) (callback : Option Nat) :
    QjsNet.enqueueBlock gen blk (callbackArg callback)
      = some (gen.setQueue (gen.queue.addTail ⟨blk, none, false, callback.map .function⟩),
          blk.size) := by
  have hput : queuePut gen.queue blk
      = (gen.queue.addTail ⟨blk, none, false, none⟩, some gen.queue.items.length) := by
    unfold queuePut
    rw [h.separate]
    exact queueAdd_open h.isOpen blk
  simp only [QjsNet.enqueueBlock, show (createQueue gen).queue = gen.queue from rfl,
    show (createQueue gen).buffering = false from h.buffering, hput, Bool.false_eq_true, if_false]
  cases callback with
  | none => rfl
  | some f =>
    have hset : ((gen.queue.addTail ⟨blk, none, false, none⟩).modify gen.queue.items.length
          fun i => { i with unref := some (.function f) })
        = gen.queue.addTail ⟨blk, none, false, some (.function f)⟩ := by
      refine Queue.ext_items ?_ rfl
      rw [modify_items, addTail_items, addTail_items, modify_middle]
    exact congrArg (fun q => some (gen.setQueue q, blk.size)) hset

theorem Plain.setQueue_addTail (h : Plain gen) (blk : ByteBlock) (callback : Option Nat) :
    Plain (gen.setQueue (gen.queue.addTail ⟨blk, none, false, callback.map .function⟩)) := by
  refine ⟨h.buffering, h.chunkSize, h.separate, ?_, ?_⟩
  · exact openItems_append.2 ⟨h.isOpen, openItems_cons.2 ⟨rfl, openItems_nil⟩⟩
  · intro i hi fn hfn
    rcases List.mem_append.1 hi with hi | hi
    · exact h.callbacks i hi fn hfn
    · obtain rfl := List.mem_singleton.1 hi
      obtain ⟨f, -, rfl⟩ := Option.map_eq_some_iff.1 hfn
      exact ⟨f, trivial, rfl⟩

theorem reentrantWrite_quiet {data : Bytes} {callback : Option Nat} (h : Plain s.gen)
    (hquiet : s.gen.direct = true ∨ TurnsQuiet script s.gen.blockFn s.gen.ctx.log
      s.gen.iterator.reads (s.gen.queue.items ++ [writtenItem data callback])) :
    ∃ gen' ret r, generatorWrite s.gen data (callbackArg callback) = some (gen', ret) ∧
      reentrantWrite again script fuel s data (callbackArg callback)
        = .ok ⟨gen', r, s.written ++ [data], s.asked⟩ := by
  unfold generatorWrite reentrantWrite
  cases hdirect : s.gen.direct with
  | true =>
    refine ⟨_, _, s.removed, rfl, ?_⟩
    dsimp only
    rw [hdirect, if_pos rfl]
  | false =>
    have hturns := hquiet.resolve_left (by simp [hdirect])
    let gen := s.gen.setQueue (s.gen.queue.addTail (writtenItem data callback))
    have hput := h.enqueueBlock (blockCopy data) callback
    have hplain := h.setQueue_addTail (blockCopy data) callback
    have hloop := @takeTurns_quiet again script writeTakes (fun i h => h.writeTakes i) fuel
      gen.iterator.reads.length { s with gen, written := s.written ++ [data] } hplain rfl hturns
    have heq := hplain.writeLoop_eq _ rfl
    refine ⟨(updateLoop gen.iterator.reads.length gen).1.addWritten (blockCopy data).size,
      (blockCopy data).size, s.removed + (updateLoop gen.iterator.reads.length gen).2, ?_, ?_⟩
    · simp only [hput, Bool.false_eq_true, if_false, Option.bind_eq_bind, Option.bind_some, heq]
      rfl
    · simp only [hdirect, hput, Bool.false_eq_true, if_false]
      exact congrArg (fun r => r >>= fun r =>
        .ok { r.1 with gen := r.1.gen.addWritten (blockCopy data).size }) hloop

theorem reentrantWrite_noisy {data : Bytes} {callback : Option Nat} (h : Plain s.gen)
    (hexec : s.gen.executor.isFunction = false)
    (hnoisy : ¬ (s.gen.direct = true ∨ TurnsQuiet script s.gen.blockFn s.gen.ctx.log
      s.gen.iterator.reads (s.gen.queue.items ++ [writtenItem data callback]))) :
    ∃ e, reentrantWrite (nestedCall script fuel) script fuel s data (callbackArg callback)
      = .error e := by
  have hdirect : s.gen.direct = false := Bool.eq_false_iff.2 fun hd => hnoisy (Or.inl hd)
  let gen := s.gen.setQueue (s.gen.queue.addTail (writtenItem data callback))
  have hput := h.enqueueBlock (blockCopy data) callback
  obtain ⟨e, he⟩ := @takeTurns_noisy script writeTakes fuel (fun i h => h.writeTakes i)
    (fuel + gen.iterator.reads.length + 1) { s with gen, written := s.written ++ [data] }
    (h.setQueue_addTail (blockCopy data) callback) hexec fun hturns => hnoisy (Or.inr hturns)
  refine ⟨e, ?_⟩
  unfold reentrantWrite
  simp only [hput, hdirect, Bool.false_eq_true, if_false]
  exact congrArg (fun r => r >>= fun r =>
    .ok { r.1 with gen := r.1.gen.addWritten (blockCopy data).size }) he

theorem reentrantNextEnd_quiet (h : ChunkInv f none s.gen [] asked accepted)
    (hquiet : TurnsQuiet script s.gen.blockFn s.gen.ctx.log s.gen.iterator.reads
      s.gen.queue.items) :
    ∃ r, reentrantNextEnd again script fuel s
      = .ok ⟨generatorNextEnd s.gen, r, s.written, s.asked⟩ := by
  have hloop := @takeTurns_quiet again script updateTakes (fun i h => h.updateTakes i) fuel
    s.gen.iterator.reads.length s h.plain rfl hquiet
  have hgoing := h.nextEnd.going
  rw [h.api.nextEnd_going h.going] at hgoing
  have hstop : stopAnswered (updateLoop s.gen.iterator.reads.length s.gen).1
      (updateLoop s.gen.iterator.reads.length s.gen).2
      = generatorNextEnd s.gen := by
    rw [h.api.nextEnd_going h.going]
    unfold stopAnswered
    rw [if_neg]
    simpa [Stopped] using fun _ => hgoing
  refine ⟨s.removed + (updateLoop s.gen.iterator.reads.length s.gen).2, ?_⟩
  unfold reentrantNextEnd
  rw [hloop, ← hstop]
  rfl

theorem reentrantNextEnd_noisy (h : Plain s.gen) (hexec : s.gen.executor.isFunction = false)
    (hnoisy : ¬ TurnsQuiet script s.gen.blockFn s.gen.ctx.log s.gen.iterator.reads
      s.gen.queue.items) :
    ∃ e, reentrantNextEnd (nestedCall script fuel) script fuel s = .error e := by
  obtain ⟨e, he⟩ := @takeTurns_noisy script updateTakes fuel (fun i h => h.updateTakes i)
    (fuel + s.gen.iterator.reads.length + 1) s h hexec hnoisy
  refine ⟨e, ?_⟩
  unfold reentrantNextEnd
  rw [he]
  rfl

/-! ## Runs -/

structure ReentrantInv (f : BlockFn) (s : ReentrantState) : Prop where
  channel : ChannelInv f none s.channel
  /-- The first read starts the executor. -/
  idle : s.channel.api.gen.executor.isFunction = true → s.channel.api.gen.iterator.reads = []

theorem reentrantInv_new (f : BlockFn) (executor : Option Nat) :
    ReentrantInv f (.new f executor) :=
  ⟨channelInv_new f executor none fun _ hc => (by cases hc), fun _ => rfl⟩

theorem Serves.reads_nil {gen' : Generator} (h : Serves 0 gen gen')
    (hreads : gen.iterator.reads = []) : gen'.iterator.reads = [] := by
  obtain ⟨new, -, hnew⟩ := h.answers
  have hwaiting : gen'.iterator.waiting = [] := by
    have hnone : gen.iterator.waiting = [] := List.map_eq_nil_iff.2 hreads
    rw [hnone] at hnew
    exact (List.append_eq_nil_iff.1 hnew).2
  exact List.map_eq_nil_iff.1 hwaiting

theorem Serves.idle {gen' : Generator} (h : Serves 0 gen gen')
    (hidle : gen.executor.isFunction = true → gen.iterator.reads = []) :
    gen'.executor.isFunction = true → gen'.iterator.reads = [] := by
  intro hexec
  rw [h.executor] at hexec
  exact h.reads_nil (hidle hexec)

theorem resume_idle {arg : JSValue} (hexec : gen.executor.isFunction = false)
    (hcallback : gen.callback.isFunction = false) :
    gen.resume arg = { gen with started := true } := by
  unfold Generator.resume startExecutor
  rw [hexec, generatorCallback_idle hcallback]
  cases hstarted : gen.started with
  | true =>
    simp only [Bool.false_eq_true, if_false, if_true]
    rw [← hstarted]
  | false => rfl

theorem ReentrantInv.next_starts {s : ReentrantState} {arg : JSValue} (h : ReentrantInv f s)
    (hexec : s.channel.api.gen.executor.isFunction = true) :
    ∃ s', reentrantCall script fuel s (.next arg) = .ok s' ∧ ReentrantInv f s' := by
  obtain ⟨channel, hstep, hchannel⟩ := channelStep_inv h.channel (.next arg)
  refine ⟨{ s with channel }, ?_, hchannel, ?_⟩
  · simp only [reentrantCall, hexec, if_true, hstep]
  · have hbegin := nextBegin_ask h.channel.chunks.going arg
    obtain ⟨api, hapi, hs⟩ := Option.bind_eq_some_iff.1 hstep
    rw [apiStep_next_starts hbegin hexec] at hapi
    obtain rfl := Option.some.inj hapi
    obtain rfl := Option.some.inj hs
    have hexec' : ((s.channel.api.gen.ask arg).resume arg).executor = .undefined := by
      rw [@resume_starts (s.channel.api.gen.ask arg) arg hexec]
    intro hfn
    have hfn' : ((s.channel.api.gen.ask arg).resume arg).executor.isFunction = true := hfn
    rw [hexec'] at hfn'
    cases hfn'

theorem ReentrantInv.resume {s : ReentrantState} (h : ReentrantInv f s) {arg : JSValue}
    (hexec : s.channel.api.gen.executor.isFunction = false) :
    (s.channel.api.gen.ask arg).resume arg = { s.channel.api.gen.ask arg with started := true } :=
  resume_idle hexec (h.channel.push.resolver rfl)

/-- What a `next` comes to before it looks at the queue. -/
def ReentrantState.asks (s : ReentrantState) (arg : JSValue) : Reentrant :=
  { s.open with
    gen := (s.channel.api.gen.ask arg).resume arg
    asked := s.channel.api.asked ++ [s.channel.api.gen.ctx.promises] }

theorem ReentrantInv.next_eq {s : ReentrantState} (h : ReentrantInv f s) {arg : JSValue}
    (hexec : s.channel.api.gen.executor.isFunction = false) :
    reentrantNext (nestedCall script fuel) script fuel s.open arg
      = reentrantNextEnd (nestedCall script fuel) script fuel (s.asks arg) := by
  have hrun : runFunction (nestedCall script fuel) script (s.asks arg) s.channel.api.gen.executor
      = .ok (s.asks arg) := by
    unfold runFunction
    split
    · next g heq =>
      rw [heq] at hexec
      cases hexec
    · rfl
  unfold reentrantNext
  rw [show generatorNextBegin s.open.gen arg = _ from nextBegin_ask h.channel.chunks.going arg]
  exact congrArg (· >>= reentrantNextEnd (nestedCall script fuel) script fuel) hrun

theorem ReentrantInv.asks_chunks {s : ReentrantState} (h : ReentrantInv f s) (arg : JSValue) :
    ChunkInv f none (s.asks arg).gen [] (s.channel.api.asked ++ [s.channel.api.gen.ctx.promises])
      s.channel.written := by
  have hask := h.channel.chunks.ask List.not_mem_nil arg
  have hpush := h.channel.push.serves (serves_ask s.channel.api.gen arg) hask.api
  exact hask.resume hpush arg

theorem ReentrantInv.asks_quiet {s : ReentrantState} (h : ReentrantInv f s) {arg : JSValue}
    (hexec : s.channel.api.gen.executor.isFunction = false) :
    StepQuiet script s (.next arg) ↔ TurnsQuiet script (s.asks arg).gen.blockFn
      (s.asks arg).gen.ctx.log (s.asks arg).gen.iterator.reads (s.asks arg).gen.queue.items := by
  simp only [ReentrantState.asks, h.resume hexec]
  exact or_iff_right (by simp [hexec])

theorem ReentrantInv.next_quiet {s : ReentrantState} {arg : JSValue} (h : ReentrantInv f s)
    (hexec : s.channel.api.gen.executor.isFunction = false)
    (hquiet : StepQuiet script s (.next arg)) :
    ∃ s', reentrantCall script fuel s (.next arg) = .ok s' ∧ ReentrantInv f s' := by
  obtain ⟨channel, hstep, hchannel⟩ := channelStep_inv h.channel (.next arg)
  have hchunks := h.asks_chunks arg
  obtain ⟨removed, hend⟩ := @reentrantNextEnd_quiet (nestedCall script fuel) script _ fuel f _ _
    hchunks ((h.asks_quiet hexec).1 hquiet)
  obtain ⟨api, hapi, hs⟩ := Option.bind_eq_some_iff.1 hstep
  rw [apiStep_next (nextBegin_ask h.channel.chunks.going arg) hexec] at hapi
  obtain rfl := Option.some.inj hapi
  obtain rfl := Option.some.inj hs
  refine ⟨⟨_, removed⟩, ?_, hchannel, ?_⟩
  · simp only [reentrantCall, hexec, Bool.false_eq_true, if_false, h.next_eq hexec, hend]
    rfl
  · refine (hchunks.api.nextEnd).2.idle ?_
    intro hfn
    rw [show (s.asks arg).gen.executor = s.channel.api.gen.executor by
      rw [ReentrantState.asks, h.resume hexec]
      rfl, hexec] at hfn
    cases hfn

theorem ReentrantInv.next_noisy {s : ReentrantState} {arg : JSValue} (h : ReentrantInv f s)
    (hnoisy : ¬ StepQuiet script s (.next arg)) :
    ∃ e, reentrantCall script fuel s (.next arg) = .error e := by
  have hexec : s.channel.api.gen.executor.isFunction = false :=
    Bool.eq_false_iff.2 fun hfn => hnoisy (Or.inl hfn)
  have hexec' : (s.asks arg).gen.executor.isFunction = false := by
    rw [ReentrantState.asks, h.resume hexec]
    exact hexec
  obtain ⟨e, he⟩ := @reentrantNextEnd_noisy script _ fuel (h.asks_chunks arg).plain hexec'
    fun hturns => hnoisy ((h.asks_quiet hexec).2 hturns)
  refine ⟨e, ?_⟩
  simp only [reentrantCall, hexec, Bool.false_eq_true, if_false, h.next_eq hexec, he]
  rfl

theorem ReentrantInv.write_quiet {s : ReentrantState} {chunk : Chunk} {callback : Option Nat}
    (h : ReentrantInv f s) (hquiet : StepQuiet script s (.write chunk callback)) :
    ∃ s', reentrantCall script fuel s (.write chunk callback) = .ok s' ∧ ReentrantInv f s' := by
  obtain ⟨channel, hstep, hchannel⟩ := channelStep_inv h.channel (.write chunk callback)
  obtain ⟨gen', ret, removed, hwrite, hcall⟩ :=
    @reentrantWrite_quiet (nestedCall script fuel) script s.open fuel chunk.data callback
      h.channel.chunks.plain hquiet
  obtain ⟨-, hserves⟩ := h.channel.push.api.write hwrite
  have hchannel' : channel = ⟨{ s.channel.api with gen := gen' },
      s.channel.written ++ [chunk.data], false⟩ := by
    rw [channelStep, apiStep, show generatorWrite s.channel.api.gen _ _ = _ from hwrite] at hstep
    exact (Option.some.inj hstep).symm
  subst hchannel'
  refine ⟨⟨_, removed⟩, ?_, hchannel, hserves.idle h.idle⟩
  rw [reentrantCall, hcall]
  rfl

theorem ReentrantInv.write_noisy {s : ReentrantState} {chunk : Chunk} {callback : Option Nat}
    (h : ReentrantInv f s) (hnoisy : ¬ StepQuiet script s (.write chunk callback)) :
    ∃ e, reentrantCall script fuel s (.write chunk callback) = .error e := by
  -- a read waits, so the executor was started
  have hexec : s.open.gen.executor.isFunction = false := by
    refine Bool.eq_false_iff.2 fun hfn => hnoisy (Or.inr ?_)
    rw [h.idle hfn]
    trivial
  obtain ⟨e, he⟩ := @reentrantWrite_noisy script s.open fuel chunk.data callback
    h.channel.chunks.plain hexec hnoisy
  refine ⟨e, ?_⟩
  rw [reentrantCall, he]
  rfl

theorem ReentrantInv.returns_quiet {s : ReentrantState} (h : ReentrantInv f s)
    (hquiet : StepQuiet script s .executorReturns) :
    ∃ s', reentrantCall script fuel s .executorReturns = .ok s' ∧ ReentrantInv f s' := by
  obtain ⟨channel, hstep, hchannel⟩ := channelStep_inv h.channel .executorReturns
  cases hrunning : s.channel.api.running with
  | false => exact ⟨s, by simp [reentrantCall, hrunning], h⟩
  | true =>
    obtain ⟨removed, hend⟩ := @reentrantNextEnd_quiet (nestedCall script fuel) script s.open fuel f
      _ _ h.channel.chunks (hquiet.resolve_left (by simp [hrunning]))
    have hchannel' : channel = ⟨{ s.channel.api with
        gen := generatorNextEnd s.channel.api.gen
        running := false }, s.channel.written, false⟩ := by
      simp only [channelStep, apiStep, hrunning, if_true] at hstep
      exact (Option.some.inj hstep).symm
    subst hchannel'
    refine ⟨⟨_, removed⟩, ?_, hchannel, (h.channel.chunks.api.nextEnd).2.idle h.idle⟩
    simp only [reentrantCall, hrunning, if_true, hend]
    rfl

theorem ReentrantInv.returns_noisy {s : ReentrantState} (h : ReentrantInv f s)
    (hnoisy : ¬ StepQuiet script s .executorReturns) :
    ∃ e, reentrantCall script fuel s .executorReturns = .error e := by
  have hrunning : s.channel.api.running = true := by
    by_contra hnot
    exact hnoisy (Or.inl (Bool.eq_false_iff.2 hnot))
  have hexec : s.open.gen.executor.isFunction = false := by
    refine Bool.eq_false_iff.2 fun hfn => hnoisy (Or.inr ?_)
    rw [h.idle hfn]
    trivial
  obtain ⟨e, he⟩ := @reentrantNextEnd_noisy script s.open fuel h.channel.chunks.plain hexec
    fun hturns => hnoisy (Or.inr hturns)
  refine ⟨e, ?_⟩
  simp only [reentrantCall, hrunning, if_true, he]
  rfl

theorem reentrantCall_quiet {s : ReentrantState} (h : ReentrantInv f s) {c : ChannelCall}
    (hquiet : StepQuiet script s c) :
    ∃ s', reentrantCall script fuel s c = .ok s' ∧ ReentrantInv f s' := by
  cases c with
  | write chunk callback => exact h.write_quiet hquiet
  | next arg =>
    cases hexec : s.channel.api.gen.executor.isFunction with
    | true => exact h.next_starts hexec
    | false => exact h.next_quiet hexec hquiet
  | executorReturns => exact h.returns_quiet hquiet

theorem reentrantCall_noisy {s : ReentrantState} (h : ReentrantInv f s) {c : ChannelCall}
    (hnoisy : ¬ StepQuiet script s c) : ∃ e, reentrantCall script fuel s c = .error e := by
  cases c with
  | write chunk callback => exact h.write_noisy hnoisy
  | next arg => exact h.next_noisy hnoisy
  | executorReturns => exact h.returns_noisy hnoisy

/-- **A channel of chunks.** A run of writes and reads, and of the calls that the callbacks of the
chunks make, keeps the order of the chunks exactly when no callback of a chunk that is taken out
of the queue makes a call. -/
theorem generator_fifo_iff (script : CallbackScript) (fuel : Nat) (blockFn : BlockFn)
    (executor : Option Nat) (calls : List ChannelCall) :
    (∃ s, PartialRun.run (reentrantStep script fuel) (.new blockFn executor) calls = some s ∧
        Fifo blockFn s.channel) ↔
      PartialRun.Admits (reentrantStep script fuel) (StepQuiet script) (.new blockFn executor)
        calls := by
  have hadmitted : ∀ s c, ReentrantInv blockFn s → StepQuiet script s c →
      ∃ s', reentrantStep script fuel s c = some s' ∧ ReentrantInv blockFn s' := by
    intro s c h hquiet
    obtain ⟨s', hs', h'⟩ := @reentrantCall_quiet script fuel blockFn s h c hquiet
    exact ⟨s', by rw [reentrantStep, hs', Except.toOption], h'⟩
  have hother : ∀ s c, ReentrantInv blockFn s → ¬ StepQuiet script s c →
      reentrantStep script fuel s c = none := by
    intro s c h hnoisy
    obtain ⟨e, he⟩ := @reentrantCall_noisy script fuel blockFn s h c hnoisy
    rw [reentrantStep, he, Except.toOption]
  exact PartialRun.run_iff_admits (fun s h => h.channel.fifo) hadmitted hother calls
    (reentrantInv_new blockFn executor)

/-- A callback that reads when it is called for the first time. -/
def readsAgain : CallbackScript := fun log _ => if log.length = 1 then [.next .undefined] else []

/-- The chunk is delivered to the outer read, and then once more out of memory that was freed. -/
theorem delivered_chunk_freed : ∃ s,
    PartialRun.run (reentrantStep readsAgain 1) (.new .toarraybuffer none)
      [.write ⟨[97], by decide⟩ (some 7)] = some s ∧
    reentrantCall readsAgain 1 s (.next .undefined) = .error .freed ∧
    ¬ ∃ t, PartialRun.run (reentrantStep readsAgain 1) (.new .toarraybuffer none)
      [.write ⟨[97], by decide⟩ (some 7), .next .undefined] = some t ∧
      Fifo .toarraybuffer t.channel := by
  refine ⟨_, rfl, rfl, ?_⟩
  rintro ⟨t, ht, -⟩
  cases (ht.symm.trans rfl : some t = none)

end QjsNet
