import QjsNet.GeneratorEndings

/- Continuous mode: everything written is collected and given to one callback.

   A generator is written to and read from, put into continuous mode with the
   function `cb`, written to again, and ended by any sequence of stops and finishes.
   `CollectsOnce` says that `cb` was then called once, with all bytes no read had
   been given. A stop calls it with the last chunk in the queue, a finish with the
   first; neither looks at the rest, both do so again when they are called again,
   and a write of a buffering generator leaves continuous mode.
   `continuous_collects_iff` is the exact condition on the queue and the endings.

   The functions passed with chunks are not `cb` itself, which their type says. -/
namespace QjsNet

/-- A write, or a change of the buffering; `callback` is the function called for the chunk. -/
inductive WriteCall (cb : Nat) where
  | write (data : Bytes) (callback : Option {f : Nat // f ≠ cb})
  | buffering (chunkSize : Nat)

def WriteCall.toGenCall {cb : Nat} : WriteCall cb → GenCall
  | .write data callback => .write data (callback.map Subtype.val)
  | .buffering chunkSize => .buffering chunkSize

inductive ReadWriteCall (cb : Nat) where
  | write (call : WriteCall cb)
  | next (arg : JSValue)

def ReadWriteCall.toGenCall {cb : Nat} : ReadWriteCall cb → GenCall
  | .write call => call.toGenCall
  | .next arg => .next arg

/-- The generator before its first ending: `before` are the calls made before continuous mode,
`after` those made in it. -/
def collectRun (blockFn : BlockFn) (cb : Nat) (before : List (ReadWriteCall cb))
    (after : List (WriteCall cb)) : Option GenState := do
  let s ← PartialRun.run genStep (.fresh blockFn) (before.map ReadWriteCall.toGenCall)
  let s := { s with gen := (generatorContinuous s.gen (.function cb)).1 }
  PartialRun.run genStep s (after.map WriteCall.toGenCall)

/-- After the endings `cb` has been called once, with the bytes no read had been given. -/
def CollectsOnce (cb : Nat) (s : GenState) (ends : List Close) : Prop :=
  ∃ gen bytes, PartialRun.run closeGenerator s.gen ends = some gen ∧
    settledBytes s.gen.ctx.settlements ++ bytes = s.accepted ∧
    gen.ctx.callsOf (.function cb) = [[s.gen.blockFn.apply bytes]]

/-- The generator is still in continuous mode. For a stop the last item, for a finish the first
one, holds all bytes, and there are some; only stops follow. After a stop these are harmless
when a read waited, after a finish when no item is left. -/
def CollectReady (s : GenState) : Close → List Close → Prop
  | .stop _, further => s.gen.queue.continuous = true ∧
    (∃ init last, s.gen.queue.items = init ++ [last] ∧ itemsBytes init = [] ∧
      last.block.data ≠ []) ∧
    (further = [] ∨ s.gen.iterator.reads ≠ [] ∧ ∀ c ∈ further, c.isStop = true)
  | .finish, further => s.gen.queue.continuous = true ∧
    ∃ i is, s.gen.queue.items = i :: is ∧ i.block.data ≠ [] ∧ itemsBytes is = [] ∧
      (further = [] ∨ is = [] ∧ ∀ c ∈ further, c.isStop = true)

variable {cb : Nat} {gen gen' : Generator}

/-! ## Before the endings -/

/-- What holds up to the first ending. -/
structure CollectInv (cb : Nat) (s : GenState) : Prop where
  inv : GenInv (· ≠ cb) s.gen
  silent : s.gen.ctx.callsOf (.function cb) = []
  balanced : Fifo.Balanced s.ledger

theorem uses_writeCall (c : WriteCall cb) : c.toGenCall.Uses (· ≠ cb) := by
  cases c with
  | write data callback =>
    intro f hf
    obtain ⟨⟨f', hne⟩, _, rfl⟩ := Option.map_eq_some_iff.1 hf
    exact hne
  | buffering chunkSize => trivial

theorem uses_readWriteCall (c : ReadWriteCall cb) : c.toGenCall.Uses (· ≠ cb) := by
  cases c with
  | write call => exact uses_writeCall call
  | next arg => trivial

/-- Without yields every call is in turn. -/
theorem inTurn_readWriteCall (s : GenState) (c : ReadWriteCall cb) : InTurn s c.toGenCall := by
  cases c with
  | write call => cases call <;> trivial
  | next arg => trivial

theorem beforeCalls_inv (blockFn : BlockFn) (before : List (ReadWriteCall cb)) {s : GenState}
    (hrun : PartialRun.run genStep (.fresh blockFn) (before.map ReadWriteCall.toGenCall) = some s) :
    CollectInv cb s := by
  let P : GenState → Prop := fun s => RunInv (· ≠ cb) s ∧ CollectInv cb s
  have hfresh : P (.fresh blockFn) :=
    ⟨runInv_fresh blockFn, genInv_fresh blockFn, rfl, Fifo.empty_balanced⟩
  have hstep : ∀ s (c : ReadWriteCall cb) s', P s → genStep s c.toGenCall = some s' → P s' := by
    intro s c s' h' h
    obtain ⟨hinv, hcoll⟩ := h'
    obtain ⟨hinv', hcalls, hledger⟩ := genStep_spec hinv (uses_readWriteCall c) h
    refine ⟨hinv', hinv'.inv, ?_,
      (hledger.balanced_iff hcoll.balanced).2 (inTurn_readWriteCall s c)⟩
    rw [hcalls cb (fun hne => hne rfl), hcoll.silent]
  have hrun' := (PartialRun.run_map ReadWriteCall.toGenCall before _).symm.trans hrun
  exact (PartialRun.run_induct hstep before hfresh hrun').2

/-- Going into continuous mode may add an empty item, to collect the bytes in. -/
theorem queueContinuous_items (q : Queue) :
    (queueContinuous q).1.items = q.items ∨
      (queueContinuous q).1.items = q.items ++ [⟨none, none, false, none⟩] := by
  unfold queueContinuous
  simp only
  split
  · exact Or.inl rfl
  · exact Or.inr rfl

theorem queueContinuous_open {fns : Nat → Prop} {q : Queue} (hopen : OpenItems q.items)
    (huser : UserCallbacks fns q.items) :
    OpenItems (queueContinuous q).1.items ∧ UserCallbacks fns (queueContinuous q).1.items ∧
      itemsBytes (queueContinuous q).1.items = itemsBytes q.items := by
  rcases queueContinuous_items q with heq | heq
  · rw [heq]
    exact ⟨hopen, huser, rfl⟩
  · rw [heq]
    refine ⟨openItems_append.2 ⟨hopen, openItems_cons.2 ⟨rfl, openItems_nil⟩⟩, ?_, ?_⟩
    · exact userCallbacks_append.2 ⟨huser, userCallbacks_singleton.2 fun fn hfn => by cases hfn⟩
    · rw [itemsBytes_append, itemsBytes_cons, itemsBytes_nil]
      exact List.append_nil _

theorem continuous_spec {s : GenState} (h : CollectInv cb s) :
    CollectInv cb { s with gen := (generatorContinuous s.gen (.function cb)).1 } ∧
      (generatorContinuous s.gen (.function cb)).1.callback = .function cb := by
  obtain ⟨hopen, huser, hbytes⟩ := queueContinuous_open h.inv.isOpen h.inv.unrefs
  let gen' := (s.gen.setCallback (.function cb)).setQueue
    ((queueContinuous s.gen.queue).1.setContinuous true)
  have hgen : (generatorContinuous s.gen (.function cb)).1 = gen' := rfl
  rw [hgen]
  refine ⟨⟨⟨h.inv.closing, h.inv.closed, hopen, huser, h.inv.executor, h.inv.yields⟩, h.silent,
    ?_⟩, rfl⟩
  have hbal : settledBytes s.gen.ctx.settlements ++ itemsBytes s.gen.queue.items = s.accepted :=
    h.balanced
  rw [← hbytes] at hbal
  exact hbal

theorem writeCall_spec {s s' : GenState} {c : WriteCall cb} (h : CollectInv cb s)
    (hstep : genStep s c.toGenCall = some s') :
    CollectInv cb s' ∧ s'.gen.callback = s.gen.callback := by
  cases c with
  | write data callback =>
    obtain ⟨⟨gen, ret⟩, heq, hs'⟩ := Option.bind_eq_some_iff.1 hstep
    obtain rfl := Option.some.inj hs'
    obtain ⟨hkept, ⟨n, hledger⟩, _, _⟩ := write_spec h.inv
      (callbackArg_user (uses_writeCall (.write data callback))) heq s.accepted
    refine ⟨⟨hkept.inv, ?_, ?_⟩, congrArg ResolveFunctions.resolve hkept.resolveReject⟩
    · rw [← h.silent]
      exact hkept.calls cb fun hne => hne rfl
    · exact (congrArg Fifo.Balanced hledger).mpr (Fifo.pass_balanced (Fifo.accept_balanced h.balanced))
  | buffering chunkSize =>
    obtain rfl := Option.some.inj hstep
    exact ⟨⟨⟨h.inv.closing, h.inv.closed, h.inv.isOpen, h.inv.unrefs, h.inv.executor, h.inv.yields⟩,
      h.silent, h.balanced⟩, rfl⟩

theorem collectRun_inv {blockFn : BlockFn} {before : List (ReadWriteCall cb)}
    {after : List (WriteCall cb)} {s : GenState}
    (hrun : collectRun blockFn cb before after = some s) :
    CollectInv cb s ∧ s.gen.callback = .function cb := by
  obtain ⟨s₁, h1, h2⟩ := Option.bind_eq_some_iff.1 hrun
  obtain ⟨hcoll, hcb⟩ := continuous_spec (beforeCalls_inv blockFn before h1)
  let P : GenState → Prop := fun s => CollectInv cb s ∧ s.gen.callback = .function cb
  have hstep : ∀ s (c : WriteCall cb) s', P s → genStep s c.toGenCall = some s' → P s' := by
    intro s c s' h' h
    obtain ⟨hinv, hcb⟩ := h'
    obtain ⟨hinv', hcb'⟩ := writeCall_spec hinv h
    exact ⟨hinv', hcb'.trans hcb⟩
  have h2' := (PartialRun.run_map WriteCall.toGenCall after _).symm.trans h2
  exact PartialRun.run_induct hstep after ⟨hcoll, hcb⟩ h2'

/-! ## The exact condition -/

theorem apply_inj {f : BlockFn} {d d' : Bytes} : f.apply d = f.apply d' ↔ d = d' := by
  refine ⟨?_, ?_⟩
  · intro h
    simpa using congrArg jsInputChars h
  · exact congrArg f.apply

theorem apply_ne_undefined (f : BlockFn) (d : Bytes) : f.apply d ≠ .undefined := by
  cases f <;> exact fun h => by cases h

theorem chunkOf_eq_apply {i : QueueItem} {d : Bytes} :
    gen.chunkOf i = gen.blockFn.apply d ↔ i.block.data = d ∧ d ≠ [] := by
  unfold Generator.chunkOf
  split
  · next h =>
    rw [apply_inj]
    refine ⟨?_, ?_⟩
    · intro h'
      obtain rfl := h'
      exact ⟨rfl, fun hnil => h (ByteBlock.size_eq_zero.2 hnil)⟩
    · exact fun hd => hd.1
  · next h =>
    have hnil := ByteBlock.size_eq_zero.1 (by simpa using h)
    refine ⟨?_, ?_⟩
    · exact fun heq => absurd heq.symm (apply_ne_undefined _ _)
    · intro h'
      obtain ⟨rfl, hne⟩ := h'
      exact absurd hnil hne

theorem nonEmptyArgs_apply {f : BlockFn} {d : Bytes} (h : NonEmptyArgs f [[f.apply d]]) :
    d ≠ [] := by
  rcases h _ List.mem_cons_self with heq | ⟨d', hne, heq⟩
  · exact absurd (List.cons.inj heq).1 (apply_ne_undefined f d)
  · rw [apply_inj.1 (List.cons.inj heq).1]
    exact hne

theorem collectsOnce_iff {s : GenState} {ends : List Close} (h : CollectInv cb s) :
    CollectsOnce cb s ends ↔ ∃ gen, PartialRun.run closeGenerator s.gen ends = some gen ∧
      gen.ctx.callsOf (.function cb) = [[s.gen.blockFn.apply (itemsBytes s.gen.queue.items)]] := by
  have hbal : settledBytes s.gen.ctx.settlements ++ itemsBytes s.gen.queue.items = s.accepted :=
    h.balanced
  refine ⟨?_, ?_⟩
  · intro h'
    obtain ⟨gen, bytes, hrun, hbytes, hcalls⟩ := h'
    obtain rfl := List.append_cancel_left (hbytes.trans hbal.symm)
    exact ⟨gen, hrun, hcalls⟩
  · intro h'
    obtain ⟨gen, hrun, hcalls⟩ := h'
    exact ⟨gen, _, hrun, hbal, hcalls⟩

theorem not_collectsOnce_quiet {s : GenState} {ends : List Close} (h : CollectInv cb s)
    (hcont : s.gen.queue.continuous = false) : ¬ CollectsOnce cb s ends := by
  intro h'
  obtain ⟨gen, bytes, hrun, _, hcalls⟩ := h'
  rw [quiet_run ends ⟨hcont, h.inv.unrefs⟩ hrun, h.silent] at hcalls
  cases hcalls

/-- When something was collected, there was something to collect. -/
theorem collected_ne_nil {s : GenState} {ends : List Close} (h : CollectInv cb s)
    (hcoll : Collecting cb s.gen) (hrun : PartialRun.run closeGenerator s.gen ends = some gen)
    (hcalls : gen.ctx.callsOf (.function cb)
      = [[s.gen.blockFn.apply (itemsBytes s.gen.queue.items)]]) :
    itemsBytes s.gen.queue.items ≠ [] := by
  obtain ⟨more, hmore, hne, _⟩ := collecting_run ends hcoll hrun
  rw [h.silent, List.nil_append, hcalls] at hmore
  exact nonEmptyArgs_apply (hmore ▸ hne)

/-- When `cb` was called once in all, the first ending made the call and the further ones are
stops that made none. -/
theorem first_call {v : JSValue} {args : List JSValue} {further : List Close}
    (hfirst : gen.ctx.callsOf (.function cb) = [args]) (hcoll : Collecting cb gen)
    (hrun : PartialRun.run closeGenerator gen further = some gen')
    (hcalls : gen'.ctx.callsOf (.function cb) = [[v]]) :
    args = [v] ∧ gen'.ctx.callsOf (.function cb) = gen.ctx.callsOf (.function cb) ∧
      ∀ c ∈ further, c.isStop = true := by
  obtain ⟨more, hmore, _, hfin⟩ := collecting_run further hcoll hrun
  rw [hcalls, hfirst, List.singleton_append] at hmore
  obtain ⟨rfl, rfl⟩ := List.cons.inj hmore
  refine ⟨rfl, hcalls.trans hfirst.symm, ?_⟩
  intro c hc
  cases c with
  | stop arg => rfl
  | finish => exact absurd rfl (hfin hc)

theorem stop_collects {s : GenState} (h : CollectInv cb s) (hcoll : Collecting cb s.gen)
    (arg : JSValue) (further : List Close) :
    CollectsOnce cb s (.stop arg :: further) ↔
      (∃ init last, s.gen.queue.items = init ++ [last] ∧ itemsBytes init = [] ∧
        last.block.data ≠ []) ∧
      (further = [] ∨ s.gen.iterator.reads ≠ [] ∧ ∀ c ∈ further, c.isStop = true) := by
  obtain ⟨gen₁, h1, hcoll₁, _, hcalls₁, hdone₁, _, hclosed₁⟩ :=
    collecting_stop hcoll arg h.inv.closed (queueClose_open h.inv.isOpen)
  rw [h.silent, List.nil_append] at hcalls₁
  rw [collectsOnce_iff h]
  refine ⟨?_, ?_⟩
  · intro h'
    obtain ⟨gen, hrun, hcalls⟩ := h'
    have hne := collected_ne_nil h hcoll hrun hcalls
    obtain ⟨gen₁', h1', h2⟩ := PartialRun.run_cons_iff.1 hrun
    obtain rfl := Option.some.inj (h1.symm.trans h1')
    -- A stop hands over the last chunk, so the others must be without bytes.
    rcases List.eq_nil_or_concat' s.gen.queue.items with hnil | ⟨init, last, hsnoc⟩
    · rw [hnil] at hne
      exact absurd rfl hne
    · have hopen : OpenItems (init ++ [last]) := hsnoc ▸ h.inv.isOpen
      have hlast : last.done = false := (openItems_cons.1 (openItems_append.1 hopen).2).1
      rw [handed_snoc hsnoc hlast] at hcalls₁
      obtain ⟨hargs, hsame, hstops⟩ := first_call hcalls₁ hcoll₁ h2 hcalls
      obtain ⟨hdata, hne⟩ := chunkOf_eq_apply.1 (List.cons.inj hargs).1
      rw [hsnoc, itemsBytes_append, itemsBytes_cons, itemsBytes_nil, List.append_nil,
        List.self_eq_append_left] at hdata
      refine ⟨⟨init, last, hsnoc, hdata, ?_⟩, ?_⟩
      · rw [hsnoc, itemsBytes_append, hdata] at hne
        simpa using hne
      · cases further with
        | nil => exact Or.inl rfl
        | cons c further =>
          refine Or.inr ⟨?_, hstops⟩
          intro hreads
          -- With no read waiting the iterator only closes, and the item is still there.
          refine collecting_again hcoll₁ (hclosed₁.trans (pending_eq_false.2 hreads)) ?_ h2 hsame
          have hmem : false ∈ gen₁.queue.items.map (·.done) := by
            rw [hdone₁, addTail_items, hsnoc]
            simp [hlast]
          exact List.mem_map.1 hmem
  · intro h'
    obtain ⟨⟨init, last, hsnoc, hinit, hdata⟩, hfurther⟩ := h'
    have hopen : OpenItems (init ++ [last]) := hsnoc ▸ h.inv.isOpen
    have hlast : last.done = false := (openItems_cons.1 (openItems_append.1 hopen).2).1
    have hbytes : itemsBytes s.gen.queue.items = last.block.data := by
      rw [hsnoc, itemsBytes_append, hinit, itemsBytes_cons]
      exact List.append_nil _
    rw [handed_snoc hsnoc hlast, chunkOf_eq_apply.2 ⟨rfl, hdata⟩, ← hbytes] at hcalls₁
    rcases hfurther with rfl | ⟨hreads, hstops⟩
    · exact ⟨gen₁, PartialRun.run_cons_iff.2 ⟨gen₁, h1, rfl⟩, hcalls₁⟩
    · have hclosed : gen₁.iterator.closed = true := hclosed₁.trans (pending_eq_true.2 hreads)
      exact ⟨gen₁, PartialRun.run_cons_iff.2 ⟨gen₁, h1, stops_closed hclosed hstops⟩, hcalls₁⟩

theorem finish_collects {s : GenState} (h : CollectInv cb s) (hcoll : Collecting cb s.gen)
    (further : List Close) :
    CollectsOnce cb s (.finish :: further) ↔
      ∃ i is, s.gen.queue.items = i :: is ∧ i.block.data ≠ [] ∧ itemsBytes is = [] ∧
        (further = [] ∨ is = [] ∧ ∀ c ∈ further, c.isStop = true) := by
  obtain ⟨gen₁, args, h1, hcoll₁, _, hcalls₁, _, hfront⟩ := collecting_finish hcoll
  rw [h.silent, List.nil_append] at hcalls₁
  rw [collectsOnce_iff h]
  refine ⟨?_, ?_⟩
  · intro h'
    obtain ⟨gen, hrun, hcalls⟩ := h'
    have hne := collected_ne_nil h hcoll hrun hcalls
    obtain ⟨gen₁', h1', h2⟩ := PartialRun.run_cons_iff.1 hrun
    obtain rfl := Option.some.inj (h1.symm.trans h1')
    cases hitems : s.gen.queue.items with
    | nil =>
      rw [hitems] at hne
      exact absurd rfl hne
    | cons i is =>
      obtain ⟨hi, his⟩ := openItems_cons.1 (hitems ▸ h.inv.isOpen)
      obtain ⟨hargs, hqueue, hclosed⟩ := hfront i is hitems hi
      obtain ⟨hargs', hsame, hstops⟩ := first_call hcalls₁ hcoll₁ h2 hcalls
      rw [hargs] at hargs'
      obtain ⟨hdata, hne⟩ := chunkOf_eq_apply.1 (List.cons.inj hargs').1
      rw [hitems, itemsBytes_cons, List.self_eq_append_right] at hdata
      refine ⟨i, is, rfl, ?_, hdata, ?_⟩
      · rw [hitems, itemsBytes_cons, hdata] at hne
        simpa using hne
      · cases further with
        | nil => exact Or.inl rfl
        | cons c further =>
          refine Or.inr ⟨?_, hstops⟩
          by_contra hnonempty
          obtain ⟨j, hj⟩ := List.exists_mem_of_ne_nil is hnonempty
          -- A finish took the front only; any item behind it is handed over again.
          refine collecting_again hcoll₁ (hclosed.trans h.inv.closed) ⟨j, ?_, his j hj⟩ h2 hsame
          rw [hqueue]
          exact hj
  · intro h'
    obtain ⟨i, is, hitems, hdata, hrest, hfurther⟩ := h'
    obtain ⟨hi, _⟩ := openItems_cons.1 (hitems ▸ h.inv.isOpen)
    obtain ⟨rfl, hqueue, _⟩ := hfront i is hitems hi
    have hbytes : itemsBytes s.gen.queue.items = i.block.data := by
      rw [hitems, itemsBytes_cons, hrest, List.append_nil]
    rw [chunkOf_eq_apply.2 ⟨rfl, hdata⟩, ← hbytes] at hcalls₁
    rcases hfurther with rfl | ⟨rfl, hstops⟩
    · exact ⟨gen₁, PartialRun.run_cons_iff.2 ⟨gen₁, h1, rfl⟩, hcalls₁⟩
    · have hdrained : ∀ j ∈ gen₁.queue.items, j = doneItem := by
        rw [hqueue]
        exact fun j hj => absurd hj List.not_mem_nil
      obtain ⟨gen, h2, hsame⟩ := stops_drained hcoll₁ hdrained hstops
      exact ⟨gen, PartialRun.run_cons_iff.2 ⟨gen₁, h1, h2⟩, hsame.trans hcalls₁⟩

/-- **When continuous mode collects everything once.** After any writes and reads, the switch
and any writes, a sequence of endings calls the callback once with all bytes not read if and only
if the generator is ready for it. -/
theorem continuous_collects_iff (blockFn : BlockFn) (cb : Nat) (before : List (ReadWriteCall cb))
    (after : List (WriteCall cb)) (first : Close) (further : List Close) (s : GenState)
    (hrun : collectRun blockFn cb before after = some s) :
    CollectsOnce cb s (first :: further) ↔ CollectReady s first further := by
  obtain ⟨h, hcb⟩ := collectRun_inv hrun
  cases hcont : s.gen.queue.continuous with
  | false =>
    refine iff_of_false (not_collectsOnce_quiet h hcont) ?_
    cases first <;> simp [CollectReady, hcont]
  | true =>
    have hcoll : Collecting cb s.gen := ⟨hcont, h.inv.unrefs, hcb⟩
    cases first with
    | stop arg => simpa only [CollectReady, hcont, true_and] using stop_collects h hcoll arg further
    | finish => simpa only [CollectReady, hcont, true_and] using finish_collects h hcoll further

/-- A chunk was read before the switch; the two that follow are merged and collected. -/
theorem continuous_collects_merged :
    ∃ s, collectRun .toarraybuffer 5 [.write (.write [1] none), .next .undefined]
        [.write [2] none, .write [3] none] = some s ∧
      CollectsOnce 5 s [.finish, .stop .undefined] := by
  let before : List (ReadWriteCall 5) := [.write (.write [1] none), .next .undefined]
  let after : List (WriteCall 5) := [.write [2] none, .write [3] none]
  let item : QueueItem := ⟨some [2, 3], none, false, none⟩
  have hstate : (collectRun .toarraybuffer 5 before after).map (fun s =>
      (s.gen.queue.continuous, s.gen.queue.items)) = some (true, [item]) := by decide
  cases hrun : collectRun .toarraybuffer 5 before after with
  | none =>
    rw [hrun] at hstate
    cases hstate
  | some s =>
    rw [hrun, Option.map_some, Option.some.injEq, Prod.mk.injEq] at hstate
    refine ⟨s, rfl, (continuous_collects_iff .toarraybuffer 5 before after .finish
      [.stop .undefined] s hrun).2 ⟨hstate.1, item, [], hstate.2, by decide, rfl, ?_⟩⟩
    exact Or.inr ⟨rfl, by decide⟩

/-- Of two chunks queued before the switch only the last one is handed over. -/
theorem continuous_drops_chunk :
    ∃ s, collectRun .toarraybuffer 5 [.write (.write [1] none), .write (.write [2] none)] []
        = some s ∧ s.accepted = [1, 2] ∧ s.gen.ctx.settlements = [] ∧
      (closeGenerator s.gen (.stop .undefined)).map (·.ctx.callsOf (.function 5))
        = some [[.arrayBuffer [2]]] ∧
      ¬ CollectsOnce 5 s [.stop .undefined] := by
  refine ⟨_, rfl, rfl, rfl, rfl, ?_⟩
  intro h
  obtain ⟨gen, bytes, hrun, hbytes, hcalls⟩ := h
  obtain rfl := Option.some.inj hrun
  obtain rfl : bytes = [1, 2] := hbytes
  cases hcalls

end QjsNet
