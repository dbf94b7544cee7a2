import QjsNet.GeneratorClose

/- What stops and finishes give the callback `cb` of a generator.

   In continuous mode (`Collecting`) a stop calls `cb` with the last chunk of the queue
   and a finish with the front, each with nothing else; `handed` is what a stop hands
   over. Outside it (`Quiet`) no ending calls `cb`.

   What is proved:
     1. `collecting_stop`, `collecting_finish`, `collecting_close` — one ending;
     2. `collecting_run`, `quiet_run` — any sequence of endings;
     3. `collecting_again`, `stops_closed`, `stops_drained` — endings after the first one
        call `cb` again, unless the iterator is closed or the queue holds no chunk. -/
namespace QjsNet

def Close.isStop : Close → Bool
  | .stop _ => true
  | .finish => false

/-! ## Calls of `cb` -/

variable {cb : Nat} {gen gen' : Generator}

@[simp] theorem callsOf_resolve (ctx : JSContext) (p : Nat) (args : List JSValue) :
    (jsCall ctx (.resolve p) args).callsOf (.function cb) = ctx.callsOf (.function cb) := by
  simp [callsOf_jsCall]

theorem rejectReads_calls (e : JSValue) : ∀ (reads : List AsyncRead) (ctx : JSContext),
    (rejectReads e reads ctx).1.callsOf (.function cb) = ctx.callsOf (.function cb) := by
  intro reads
  induction reads with
  | nil =>
    intro _
    exact rfl
  | cons rd reads ih =>
    intro ctx
    simp only [rejectReads, rd.live, jsAsyncReject_ofPromise]
    rw [ih, callsOf_jsCall]
    simp

/-- Ending the iterator calls no function of the script and leaves the queue alone. -/
theorem stopIterator_spec (gen : Generator) (arg : JSValue) :
    (stopIterator gen arg).1.ctx.callsOf (.function cb) = gen.ctx.callsOf (.function cb) ∧
      (stopIterator gen arg).1.q = gen.q ∧
      (stopIterator gen arg).1.resolveReject = gen.resolveReject ∧
      (stopIterator gen arg).1.blockFn = gen.blockFn ∧
      (stopIterator gen arg).1.iterator.closed
        = (asynciteratorPending gen.iterator || gen.iterator.closed) := by
  rw [stopIterator_eq]
  cases hreads : gen.iterator.reads with
  | nil =>
    rw [iteratorStop_nil hreads, pending_eq_false.2 hreads]
    exact ⟨rfl, rfl, rfl, rfl, rfl⟩
  | cons rd reads =>
    have hp : asynciteratorPending gen.iterator = true := pending_eq_true.2 (by simp [hreads])
    simp only [iteratorStop_cons hreads, hp, Bool.true_or]
    refine ⟨?_, trivial, trivial, trivial, trivial⟩
    rw [rejectReads_calls, callsOf_resolve]

theorem userCallbacks_doneItem {fns : Nat → Prop} {items : List QueueItem}
    (h : UserCallbacks fns items) : UserCallbacks fns (items ++ [doneItem]) :=
  userCallbacks_append.2 ⟨h, userCallbacks_singleton.2 fun fn hfn => by cases hfn⟩

/-- A closed queue keeps its items, but for the one appended. -/
theorem queueClose_items {q q' : Queue} {n : Nat} (h : queueClose q = some (q', n)) :
    (q' = q ∨ q' = q.addTail doneItem) := by
  unfold queueClose at h
  split at h
  · exact Or.inl (Prod.mk.inj (Option.some.inj h)).1.symm
  · split at h
    · cases h
    · exact Or.inr (Prod.mk.inj (Option.some.inj h)).1.symm

theorem queueClose_keeps {fns : Nat → Prop} {q q' : Queue} {n : Nat}
    (h : queueClose q = some (q', n)) (huser : UserCallbacks fns q.items) :
    q'.continuous = q.continuous ∧ UserCallbacks fns q'.items := by
  rcases queueClose_items h with rfl | rfl
  · exact ⟨rfl, huser⟩
  · exact ⟨rfl, userCallbacks_doneItem huser⟩

theorem userCallbacks_modify {fns : Nat → Prop} {f : QueueItem → QueueItem}
    (hf : ∀ i, (f i).unref = i.unref) {items : List QueueItem} (h : UserCallbacks fns items)
    (n : Nat) : UserCallbacks fns (items.modify n f) := by
  intro i hi fn hfn
  obtain ⟨k, hk, rfl⟩ := List.mem_iff_getElem.1 hi
  rw [List.getElem_modify] at hfn
  have hk' : k < items.length := by simpa using hk
  refine h items[k] (List.getElem_mem hk') fn ?_
  split at hfn
  · rw [← hfn, hf]
  · exact hfn

theorem map_modify {α β : Type} {f : α → α} {g : α → β} (h : ∀ x, g (f x) = g x) (n : Nat)
    (xs : List α) : (xs.modify n f).map g = xs.map g := by
  induction xs generalizing n with
  | nil => cases n <;> rfl
  | cons x xs ih =>
    cases n with
    | zero => simp [h]
    | succ n => simp [ih]

/-! ## What an ending hands over -/

/-- The argument lists a stop calls the callback of the closed queue `q` with. -/
def Generator.handed (gen : Generator) (q : Queue) : List (List JSValue) :=
  ((queueLastChunk q).bind (q.items[·]?)).toList.map fun i => [gen.chunkOf i]

theorem handed_snoc {q : Queue} {init : List QueueItem} {last : QueueItem}
    (hitems : q.items = init ++ [last]) (hlast : last.done = false) (gen : Generator) :
    gen.handed (q.addTail doneItem) = [[gen.chunkOf last]] := by
  have hchunk : last.isChunk = true := by simp [QueueItem.isChunk, hlast]
  have hdone : doneItem.isChunk = false := rfl
  have hl : queueLastChunk (q.addTail doneItem) = some init.length := by
    unfold queueLastChunk
    rw [addTail_items, lastIdx?_snoc_not hdone, hitems, lastIdx?_snoc hchunk]
  simp [Generator.handed, hl, hitems]

theorem handed_nil {q : Queue} (h : ∀ i ∈ q.items, i.isChunk = false) (gen : Generator) :
    gen.handed q = [] := by
  simp [Generator.handed, queueLastChunk, lastIdx?_eq_none.2 h]

theorem handed_ne_nil {q : Queue} (h : ∃ i ∈ q.items, i.done = false) (gen : Generator) :
    gen.handed q ≠ [] := by
  cases hl : queueLastChunk q with
  | none =>
    obtain ⟨i, hi, hdone⟩ := h
    have hchunk := lastIdx?_eq_none.1 hl i hi
    simp [QueueItem.isChunk, hdone] at hchunk
  | some n =>
    obtain ⟨i, hi, _⟩ := getElem?_lastIdx? hl
    simp [Generator.handed, hl, hi]

/-- The calls of the callback: never with an empty value. -/
def NonEmptyArgs (f : BlockFn) (calls : List (List JSValue)) : Prop :=
  ∀ args ∈ calls, args = [.undefined] ∨ ∃ d, d ≠ [] ∧ args = [f.apply d]

theorem chunkOf_args (gen : Generator) (i : QueueItem) :
    NonEmptyArgs gen.blockFn [[gen.chunkOf i]] := by
  intro args hargs
  obtain rfl := List.mem_singleton.1 hargs
  unfold Generator.chunkOf
  split
  · next h =>
    refine Or.inr ⟨i.block.data, ?_, rfl⟩
    intro hnil
    exact h (ByteBlock.size_eq_zero.2 hnil)
  · exact Or.inl rfl

theorem handed_args (gen : Generator) (q : Queue) : NonEmptyArgs gen.blockFn (gen.handed q) := by
  unfold Generator.handed
  cases (queueLastChunk q).bind (q.items[·]?) with
  | none => exact fun args hargs => absurd hargs List.not_mem_nil
  | some i => exact chunkOf_args gen i

theorem callsOf_unref {q : Queue} {i : QueueItem} (huser : UserCallbacks (· ≠ cb) q.items)
    (hi : i ∈ q.items) (args : List JSValue) (ctx : JSContext) :
    (i.unref.elim ctx fun fn => jsCall ctx fn args).callsOf (.function cb)
      = ctx.callsOf (.function cb) := by
  -- The callback of a chunk is called before `cb`, with the chunk too.
  cases hu : i.unref with
  | none => rfl
  | some fn =>
    obtain ⟨f, hf, rfl⟩ := huser i hi fn hu
    have hne : JSValue.function f ≠ .function cb := fun heq => hf (JSValue.function.inj heq)
    rw [Option.elim_some, callsOf_jsCall, if_neg hne, List.append_nil]

theorem stopContinuous_spec {q : Queue} (huser : UserCallbacks (· ≠ cb) q.items)
    (hcb : gen.callback = .function cb) :
    (stopContinuous gen q).ctx.callsOf (.function cb)
        = gen.ctx.callsOf (.function cb) ++ gen.handed q ∧
      ∃ q' ctx, stopContinuous gen q = { gen.setQueue q' with ctx } ∧
        q'.continuous = q.continuous ∧ UserCallbacks (· ≠ cb) q'.items ∧
        q'.items.map (·.done) = q.items.map (·.done) ∧ (queueLastChunk q = none → q' = q) := by
  cases hl : queueLastChunk q with
  | none =>
    have hstop : stopContinuous gen q = gen.setQueue q := by simp [stopContinuous, hl]
    rw [hstop]
    refine ⟨?_, q, gen.ctx, rfl, rfl, huser, rfl, fun _ => rfl⟩
    simp [Generator.handed, hl]
  | some n =>
    obtain ⟨i, hi, _⟩ := getElem?_lastIdx? hl
    have hmem : i ∈ q.items := List.mem_of_getElem? hi
    have hfn : gen.callback.isFunction = true := by
      rw [hcb]
      rfl
    let q' := if i.block.size ≠ 0 then q.modify n fun i => { i with block := none } else q
    -- The chunk leaves the queue when it has bytes; its item stays in either case.
    let args := if gen.chunkOf i = .undefined then [] else [gen.chunkOf i]
    let ctx := i.unref.elim gen.ctx fun fn => jsCall gen.ctx fn args
    have hstop : stopContinuous gen q
        = { gen.setQueue q' with ctx := jsCall ctx gen.callback [gen.chunkOf i] } := by
      simp only [stopContinuous, hl, hi, hfn, if_true]
      rfl
    rw [hstop]
    refine ⟨?_, q', _, rfl, ?_, ?_, ?_, fun hnone => by cases hnone⟩
    · have hctx : ctx.callsOf (.function cb) = gen.ctx.callsOf (.function cb) :=
        callsOf_unref huser hmem args gen.ctx
      change (jsCall ctx gen.callback [gen.chunkOf i]).callsOf (.function cb) = _
      rw [hcb, callsOf_jsCall, if_pos rfl, hctx]
      simp [Generator.handed, hl, hi]
    · unfold q'
      split <;> rfl
    · unfold q'
      split
      · refine userCallbacks_modify ?_ huser n
        exact fun _ => rfl
      · exact huser
    · unfold q'
      split
      · refine map_modify ?_ n q.items
        exact fun _ => rfl
      · rfl

theorem dequeueValue_spec {q : Queue} (gen : Generator) (huser : UserCallbacks (· ≠ cb) q.items) :
    (dequeueValue gen q).1.ctx.callsOf (.function cb) = gen.ctx.callsOf (.function cb) ∧
      ((dequeueValue gen q).2.1 = .undefined ∨ ∃ i, (dequeueValue gen q).2.1 = gen.chunkOf i) ∧
      ∃ q' ctx n m, (dequeueValue gen q).1
          = { gen with q := some q', ctx, bytesRead := n, chunksRead := m } ∧
        q'.continuous = q.continuous ∧ UserCallbacks (· ≠ cb) q'.items ∧
        ∀ i is, q.items = i :: is → i.done = false →
          (dequeueValue gen q).2.1 = gen.chunkOf i ∧ q'.items = is := by
  cases hitems : q.items with
  | nil =>
    have hnext : queueNext q gen.ctx = (q, gen.ctx, none, false, none) := by
      simp [queueNext, queueFront, hitems]
    have hdeq : dequeueValue gen q = ({ gen with q := some q }, .undefined, false) := by
      simp [dequeueValue, hnext]
    rw [hdeq]
    refine ⟨rfl, Or.inl rfl, q, gen.ctx, gen.bytesRead, gen.chunksRead, rfl, rfl, huser, ?_⟩
    intro i is hnil
    cases hnil
  | cons i is =>
    have hmem : i ∈ q.items := hitems ▸ List.mem_cons_self
    obtain ⟨_, hcalls, _⟩ := callUnref_user (fun fn hfn => huser i hmem fn hfn) gen.ctx
    let q' := if i.done then q else q.delHead
    have hnext : queueNext q gen.ctx
        = (q', callUnref gen.ctx i.unref, i.block, i.done, i.binary) := by
      simp only [queueNext, queueFront, hitems, List.head?_cons, q']
    obtain ⟨n, m, hdeq⟩ : ∃ n m, dequeueValue gen q = ({ gen with
        q := some q', ctx := callUnref gen.ctx i.unref,
        bytesRead := n, chunksRead := m }, gen.chunkOf i, i.done) := by
      simp only [dequeueValue, hnext]
      split
      · exact ⟨_, _, rfl⟩
      · exact ⟨_, _, rfl⟩
    rw [hdeq]
    refine ⟨hcalls cb (fun hne => hne rfl), Or.inr ⟨i, rfl⟩, q', _, n, m, rfl, ?_, ?_, ?_⟩
    · unfold q'
      split <;> rfl
    · unfold q'
      split
      · exact huser
      · exact fun j hj => huser j (List.mem_of_mem_tail hj)
    · intro j js hjs hj
      obtain ⟨rfl, rfl⟩ := List.cons.inj hjs
      refine ⟨rfl, ?_⟩
      unfold q'
      rw [if_neg (by simp [hj]), delHead_items, hitems, List.tail_cons]

/-! ## Endings -/

/-- The generator is in continuous mode for `cb`. -/
structure Collecting (cb : Nat) (gen : Generator) : Prop where
  continuous : gen.queue.continuous = true
  unrefs : UserCallbacks (· ≠ cb) gen.queue.items
  callback : gen.callback = .function cb

theorem Collecting.q (h : Collecting cb gen) : gen.q = some gen.queue := by
  cases hq : gen.q with
  | none =>
    have hc := h.continuous
    rw [Generator.queue, hq] at hc
    cases hc
  | some q => rw [queue_of_q hq]

/-- What a stop of a generator that is not closed does, by the queue it leaves closed. -/
theorem collecting_stop {q : Queue} {n : Nat} (h : Collecting cb gen) (arg : JSValue)
    (hclosed : gen.iterator.closed = false) (hq : queueClose gen.queue = some (q, n)) :
    ∃ gen', closeGenerator gen (.stop arg) = some gen' ∧ Collecting cb gen' ∧
      gen'.blockFn = gen.blockFn ∧
      gen'.ctx.callsOf (.function cb) = gen.ctx.callsOf (.function cb) ++ gen.handed q ∧
      gen'.queue.items.map (·.done) = q.items.map (·.done) ∧
      (queueLastChunk q = none → gen'.queue = q) ∧
      gen'.iterator.closed = asynciteratorPending gen.iterator := by
  obtain ⟨hcont, huser⟩ := queueClose_keeps hq h.unrefs
  have hcont' : q.continuous = true := hcont.trans h.continuous
  obtain ⟨hcalls, q', ctx, hstop, hcq, huq, hdone, hsame⟩ := stopContinuous_spec huser h.callback
  have hqueue : stopQueue gen = some (stopContinuous gen q) := by
    simp only [stopQueue, h.q, hq, Option.bind_eq_bind, Option.bind_some, hcont', if_true]
  have hclose : closeGenerator gen (.stop arg) = some (stopIterator (stopContinuous gen q) arg).1 := by
    simp only [closeGenerator, generatorStop, hclosed, Bool.false_eq_true, if_false, hqueue]
    rfl
  obtain ⟨hc, hq', hrf, hbf, hcl⟩ := @stopIterator_spec cb (stopContinuous gen q) arg
  have hqueue' : (stopIterator (stopContinuous gen q) arg).1.queue = q' := by
    rw [Generator.queue, hq', hstop]
    rfl
  refine ⟨_, hclose, ⟨?_, ?_, ?_⟩, ?_, hc.trans hcalls, ?_, ?_, ?_⟩
  · rw [hqueue', hcq, hcont']
  · rw [hqueue']
    exact huq
  · rw [Generator.callback, hrf, hstop]
    exact h.callback
  · rw [hbf, hstop]
    rfl
  · rw [hqueue', hdone]
  · exact fun hnone => hqueue'.trans (hsame hnone)
  · rw [hcl, hstop]
    exact (congrArg _ hclosed).trans (Bool.or_false _)

/-- A finish calls `cb` with the front of the queue, and takes it out. -/
theorem collecting_finish (h : Collecting cb gen) :
    ∃ gen' args, closeGenerator gen .finish = some gen' ∧ Collecting cb gen' ∧
      gen'.blockFn = gen.blockFn ∧
      gen'.ctx.callsOf (.function cb) = gen.ctx.callsOf (.function cb) ++ [args] ∧
      NonEmptyArgs gen.blockFn [args] ∧
      ∀ i is, gen.queue.items = i :: is → i.done = false →
        args = [gen.chunkOf i] ∧ gen'.queue.items = is ∧
          gen'.iterator.closed = gen.iterator.closed := by
  obtain ⟨hcalls, hret, q', ctx, n, m, hdeq, hcont, huser, hfront⟩ :=
    dequeueValue_spec gen.setClosing h.unrefs
  let ret := (dequeueValue gen.setClosing gen.queue).2.1
  let gen' : Generator := { (dequeueValue gen.setClosing gen.queue).1 with
    ctx := jsCall (dequeueValue gen.setClosing gen.queue).1.ctx (.function cb) [ret] }
  have hcb : (dequeueValue gen.setClosing gen.queue).1.callback = .function cb := by
    rw [hdeq]
    exact h.callback
  have hclose : closeGenerator gen .finish = some gen' := by
    simp only [closeGenerator, generatorFinish, setClosing_q, h.q, h.continuous,
      setClosing_callback, h.callback, JSValue.isNullish, Bool.not_false, Bool.and_self, if_true,
      hcb]
    rfl
  have hqueue : gen'.queue = q' := by
    simp only [gen', hdeq]
    rfl
  refine ⟨gen', [ret], hclose, ⟨?_, ?_, hcb⟩, ?_, ?_, ?_, ?_⟩
  · rw [hqueue, hcont, h.continuous]
  · rw [hqueue]
    exact huser
  · simp only [gen', hdeq]
    rfl
  · change (jsCall _ _ _).callsOf _ = _
    rw [callsOf_jsCall, if_pos rfl, hcalls]
    rfl
  · rcases hret with hret | ⟨i, hret⟩
    · intro args hargs
      obtain rfl := List.mem_singleton.1 hargs
      exact Or.inl (congrArg (fun v => [v]) hret)
    · rw [show ret = gen.chunkOf i from hret]
      exact chunkOf_args gen i
  · intro i is hitems hi
    obtain ⟨hchunk, his⟩ := hfront i is hitems hi
    refine ⟨congrArg (fun v => [v]) hchunk, by rw [hqueue, his], ?_⟩
    simp only [gen', hdeq]
    rfl

theorem queueClose_mem {q q' : Queue} {n : Nat} (h : queueClose q = some (q', n)) {i : QueueItem}
    (hi : i ∈ q.items) : i ∈ q'.items := by
  rcases queueClose_items h with rfl | rfl
  · exact hi
  · rw [addTail_items]
    exact List.mem_append_left _ hi

/-- **One ending.** It stays in continuous mode and calls `cb` some number of times, never with
an empty value: a finish does, and so does a stop that finds a chunk and is not too late. -/
theorem collecting_close {c : Close} (h : Collecting cb gen)
    (hclose : closeGenerator gen c = some gen') :
    Collecting cb gen' ∧ gen'.blockFn = gen.blockFn ∧
      ∃ more, gen'.ctx.callsOf (.function cb) = gen.ctx.callsOf (.function cb) ++ more ∧
        NonEmptyArgs gen.blockFn more ∧ (c = .finish → more ≠ []) ∧
        (gen.iterator.closed = false → (∃ i ∈ gen.queue.items, i.done = false) → more ≠ []) := by
  cases c with
  | stop arg =>
    cases hclosed : gen.iterator.closed with
    | true =>
      have hsame : closeGenerator gen (.stop arg) = some gen := by
        simp [closeGenerator, generatorStop, hclosed]
      obtain rfl := Option.some.inj (hsame.symm.trans hclose)
      refine ⟨h, rfl, [], (List.append_nil _).symm, ?_, ?_, ?_⟩
      · exact fun args hargs => absurd hargs List.not_mem_nil
      · exact fun hc => by cases hc
      · exact fun hc => by cases hc
    | false =>
      -- A failed assertion in `queue_close` is no ending.
      cases hq : queueClose gen.queue with
      | none =>
        have hfail : closeGenerator gen (.stop arg) = none := by
          simp [closeGenerator, generatorStop, hclosed, stopQueue, h.q, hq]
        rw [hfail] at hclose
        cases hclose
      | some r =>
        obtain ⟨q, n⟩ := r
        obtain ⟨g, hg, hcoll, hbf, hcalls, _⟩ := collecting_stop h arg hclosed hq
        obtain rfl := Option.some.inj (hg.symm.trans hclose)
        refine ⟨hcoll, hbf, gen.handed q, hcalls, handed_args gen q, ?_, ?_⟩
        · exact fun hc => by cases hc
        · intro _ h'
          obtain ⟨i, hi, hdone⟩ := h'
          exact handed_ne_nil ⟨i, queueClose_mem hq hi, hdone⟩ gen
  | finish =>
    obtain ⟨g, args, hg, hcoll, hbf, hcalls, hne, _⟩ := collecting_finish h
    obtain rfl := Option.some.inj (hg.symm.trans hclose)
    exact ⟨hcoll, hbf, [args], hcalls, hne, fun _ => List.cons_ne_nil _ _,
      fun _ _ => List.cons_ne_nil _ _⟩

theorem collecting_run : ∀ (ends : List Close) {gen gen' : Generator}, Collecting cb gen →
    PartialRun.run closeGenerator gen ends = some gen' →
    ∃ more, gen'.ctx.callsOf (.function cb) = gen.ctx.callsOf (.function cb) ++ more ∧
      NonEmptyArgs gen.blockFn more ∧ (.finish ∈ ends → more ≠ []) := by
  intro ends
  induction ends with
  | nil =>
    intro gen gen' _ hrun
    obtain rfl := Option.some.inj hrun
    refine ⟨[], (List.append_nil _).symm, ?_, ?_⟩
    · exact fun args hargs => absurd hargs List.not_mem_nil
    · exact fun hmem => absurd hmem List.not_mem_nil
  | cons c ends ih =>
    intro gen gen' h hrun
    obtain ⟨gen₁, h1, h2⟩ := PartialRun.run_cons_iff.1 hrun
    obtain ⟨hcoll, hbf, more, hcalls, hne, hfin, _⟩ := collecting_close h h1
    obtain ⟨more', hcalls', hne', hfin'⟩ := ih hcoll h2
    refine ⟨more ++ more', ?_, ?_, ?_⟩
    · calc gen'.ctx.callsOf (.function cb) = gen₁.ctx.callsOf (.function cb) ++ more' := hcalls'
        _ = (gen.ctx.callsOf (.function cb) ++ more) ++ more' := by rw [hcalls]
        _ = gen.ctx.callsOf (.function cb) ++ (more ++ more') := List.append_assoc ..
    · intro args hargs
      rcases List.mem_append.1 hargs with hargs | hargs
      · exact hne args hargs
      · exact hbf ▸ hne' args hargs
    · intro hmem hnil
      obtain ⟨hnil1, hnil2⟩ := List.append_eq_nil_iff.1 hnil
      rcases List.mem_cons.1 hmem with heq | hmem
      · exact hfin heq.symm hnil1
      · exact hfin' hmem hnil2

/-! ## Endings outside continuous mode -/

/-- The generator has left continuous mode. -/
structure Quiet (cb : Nat) (gen : Generator) : Prop where
  continuous : gen.queue.continuous = false
  unrefs : UserCallbacks (· ≠ cb) gen.queue.items

theorem emplace_calls (it : AsyncIterator) (v : JSValue) (done : Bool) (ctx : JSContext) :
    (asynciteratorEmplace it v done ctx).2.1.callsOf (.function cb)
      = ctx.callsOf (.function cb) := by
  cases hreads : it.reads with
  | nil => rw [emplace_nil hreads]
  | cons rd reads => rw [emplace_cons hreads, callsOf_resolve]

theorem deliverFront_quiet {q : Queue} (hq : gen.q = some q) (h : Quiet cb gen) :
    Quiet cb (deliverFront gen q).1 ∧
      (deliverFront gen q).1.ctx.callsOf (.function cb) = gen.ctx.callsOf (.function cb) := by
  have hqueue := queue_of_q hq
  obtain ⟨hcalls, _, q', ctx, n, m, hdeq, hcont, huser, _⟩ :=
    @dequeueValue_spec cb q gen (hqueue ▸ h.unrefs)
  have hqueue' : (deliverFront gen q).1.queue = q' := by
    simp only [deliverFront, hdeq]
    rfl
  refine ⟨⟨?_, ?_⟩, ?_⟩
  · rw [hqueue', hcont, ← hqueue]
    exact h.continuous
  · rw [hqueue']
    exact huser
  · exact (emplace_calls _ _ _ _).trans hcalls

theorem updateLoop_quiet : ∀ (fuel : Nat) {gen : Generator}, Quiet cb gen →
    Quiet cb (updateLoop fuel gen).1 ∧
      (updateLoop fuel gen).1.ctx.callsOf (.function cb) = gen.ctx.callsOf (.function cb) := by
  intro fuel
  induction fuel with
  | zero =>
    intro gen h
    exact ⟨h, rfl⟩
  | succ fuel ih =>
    intro gen h
    unfold updateLoop
    split
    · next q front rest hq hitems =>
      split
      · exact ⟨h, rfl⟩
      · split
        · exact ⟨h, rfl⟩
        · obtain ⟨h1, hcalls⟩ := deliverFront_quiet hq h
          cases hdone : (deliverFront gen q).2 with
          | false =>
            obtain ⟨h2, hcalls2⟩ := ih h1
            simp only [hdone, Bool.false_eq_true, if_false]
            exact ⟨h2, hcalls2.trans hcalls⟩
          | true =>
            obtain ⟨h2, hcalls2⟩ := ih
              -- Closing the iterator touches neither the queue nor its callbacks.
              (⟨h1.continuous, h1.unrefs⟩ : Quiet cb { (deliverFront gen q).1 with
                iterator := { (deliverFront gen q).1.iterator with closed := true } })
            simp only [hdone, if_true]
            exact ⟨h2, hcalls2.trans hcalls⟩
    · exact ⟨h, rfl⟩

theorem quiet_stopQueue (h : Quiet cb gen) (hstop : stopQueue gen = some gen') :
    Quiet cb gen' ∧ gen'.ctx = gen.ctx := by
  unfold stopQueue at hstop
  split at hstop
  · obtain rfl := Option.some.inj hstop
    exact ⟨h, rfl⟩
  · next q hq =>
    have hqueue := queue_of_q hq
    obtain ⟨⟨q', n⟩, h1, h2⟩ := Option.bind_eq_some_iff.1 hstop
    obtain ⟨hcont, huser⟩ := queueClose_keeps h1 (hqueue ▸ h.unrefs)
    have hcont' : q'.continuous = false := hcont.trans (hqueue ▸ h.continuous)
    simp only [hcont', Bool.false_eq_true, if_false] at h2
    obtain rfl := Option.some.inj h2
    exact ⟨⟨hcont', huser⟩, rfl⟩

theorem quiet_close {c : Close} (h : Quiet cb gen) (hclose : closeGenerator gen c = some gen') :
    Quiet cb gen' ∧ gen'.ctx.callsOf (.function cb) = gen.ctx.callsOf (.function cb) := by
  cases c with
  | stop arg =>
    obtain ⟨⟨g, b⟩, hstop, rfl⟩ := Option.map_eq_some_iff.1 hclose
    unfold generatorStop at hstop
    split at hstop
    · obtain ⟨rfl, -⟩ := Prod.mk.inj (Option.some.inj hstop)
      exact ⟨h, rfl⟩
    · obtain ⟨gen₁, h1, h2⟩ := Option.bind_eq_some_iff.1 hstop
      obtain ⟨h1', hctx⟩ := quiet_stopQueue h h1
      obtain ⟨hcalls, hq, _⟩ := @stopIterator_spec cb gen₁ arg
      have hg : (stopIterator gen₁ arg).1 = g := congrArg Prod.fst (Option.some.inj h2)
      have hqueue : g.queue = gen₁.queue := by
        rw [← hg, Generator.queue, hq]
        rfl
      refine ⟨⟨hqueue ▸ h1'.continuous, hqueue ▸ h1'.unrefs⟩, ?_⟩
      rw [← hg, hcalls, hctx]
  | finish =>
    obtain ⟨⟨g, b⟩, hfinish, rfl⟩ := Option.map_eq_some_iff.1 hclose
    have hclosing : Quiet cb gen.setClosing := ⟨h.continuous, h.unrefs⟩
    cases hq : gen.q with
    | none =>
      simp only [generatorFinish, setClosing_q, hq] at hfinish
      cases hfinish
    | some q =>
      have hcont : q.continuous = false := queue_of_q hq ▸ h.continuous
      simp only [generatorFinish, setClosing_q, hq, hcont, Bool.false_and, Bool.false_eq_true,
        if_false] at hfinish
      obtain ⟨⟨q', n⟩, h1, h2⟩ := Option.bind_eq_some_iff.1 hfinish
      obtain ⟨hupd, hcalls⟩ := updateLoop_quiet gen.setClosing.iterator.reads.length hclosing
      have hg : (generatorUpdate gen.setClosing).1.setQueue q' = g :=
        congrArg Prod.fst (Option.some.inj h2)
      obtain ⟨hcont', huser'⟩ := queueClose_keeps h1 hupd.unrefs
      rw [← hg]
      exact ⟨⟨hcont'.trans hupd.continuous, huser'⟩, hcalls⟩

theorem quiet_run : ∀ (ends : List Close) {gen gen' : Generator}, Quiet cb gen →
    PartialRun.run closeGenerator gen ends = some gen' →
    gen'.ctx.callsOf (.function cb) = gen.ctx.callsOf (.function cb) := by
  intro ends
  induction ends with
  | nil =>
    intro gen gen' _ hrun
    obtain rfl := Option.some.inj hrun
    rfl
  | cons c ends ih =>
    intro gen gen' h hrun
    obtain ⟨gen₁, h1, h2⟩ := PartialRun.run_cons_iff.1 hrun
    obtain ⟨hq, hcalls⟩ := quiet_close h h1
    rw [ih hq h2, hcalls]

/-! ## Further endings -/

/-- A second ending that still finds a chunk calls `cb` again. -/
theorem collecting_again {c : Close} {further : List Close} (h : Collecting cb gen)
    (hclosed : gen.iterator.closed = false) (hchunk : ∃ i ∈ gen.queue.items, i.done = false)
    (hrun : PartialRun.run closeGenerator gen (c :: further) = some gen') :
    gen'.ctx.callsOf (.function cb) ≠ gen.ctx.callsOf (.function cb) := by
  obtain ⟨gen₁, h1, h2⟩ := PartialRun.run_cons_iff.1 hrun
  obtain ⟨hcoll, _, more, hcalls, _, _, hne⟩ := collecting_close h h1
  obtain ⟨more', hcalls', _⟩ := collecting_run further hcoll h2
  intro heq
  rw [hcalls', hcalls, List.append_assoc, List.append_right_eq_self, List.append_eq_nil_iff] at heq
  exact hne hclosed hchunk heq.1

/-- Once the iterator is closed, stops do nothing. -/
theorem stops_closed (hclosed : gen.iterator.closed = true) {further : List Close}
    (h : ∀ c ∈ further, c.isStop = true) :
    PartialRun.run closeGenerator gen further = some gen := by
  induction further with
  | nil => rfl
  | cons c further ih =>
    have hrest : ∀ c ∈ further, c.isStop = true := fun c hc => h c (List.mem_cons_of_mem _ hc)
    cases c with
    | finish => cases h .finish List.mem_cons_self
    | stop arg =>
      have hsame : closeGenerator gen (.stop arg) = some gen := by
        simp [closeGenerator, generatorStop, hclosed]
      exact PartialRun.run_cons_iff.2 ⟨gen, hsame, ih hrest⟩

/-- A queue that holds nothing but its end can be closed again. -/
theorem queueClose_drained {q : Queue} (h : ∀ i ∈ q.items, i = doneItem) :
    ∃ q' n, queueClose q = some (q', n) ∧ ∀ i ∈ q'.items, i = doneItem := by
  rcases List.eq_nil_or_concat' q.items with hnil | ⟨init, last, hsnoc⟩
  · refine ⟨_, _, queueClose_open (hnil ▸ openItems_nil), ?_⟩
    intro i hi
    rw [addTail_items, hnil] at hi
    exact List.mem_singleton.1 hi
  · have hlast : last = doneItem := h last (by simp [hsnoc])
    refine ⟨q, q.items.length - 1, ?_, h⟩
    have hcomplete : queueComplete q = true := by
      simp [queueComplete, queueBack, hsnoc, hlast, doneItem]
    simp [queueClose, hcomplete]

/-- Once the queue holds no chunk, stops call nothing. -/
theorem stops_drained {further : List Close} {gen : Generator} (hcoll : Collecting cb gen)
    (hitems : ∀ i ∈ gen.queue.items, i = doneItem) (h : ∀ c ∈ further, c.isStop = true) :
    ∃ gen', PartialRun.run closeGenerator gen further = some gen' ∧
      gen'.ctx.callsOf (.function cb) = gen.ctx.callsOf (.function cb) := by
  induction further generalizing gen with
  | nil => exact ⟨gen, rfl, rfl⟩
  | cons c further ih =>
    have hrest : ∀ c ∈ further, c.isStop = true := fun c hc => h c (List.mem_cons_of_mem _ hc)
    cases c with
    | finish => cases h .finish List.mem_cons_self
    | stop arg =>
      cases hclosed : gen.iterator.closed with
      | true => exact ⟨gen, stops_closed hclosed h, rfl⟩
      | false =>
        -- `queue_close` finds the stream complete already, or appends another end to no chunk.
        obtain ⟨q, n, hq, hdrained⟩ := queueClose_drained hitems
        obtain ⟨gen₁, h1, hcoll₁, _, hcalls, _, hqueue, _⟩ := collecting_stop hcoll arg hclosed hq
        have hchunk : ∀ i ∈ q.items, i.isChunk = false := by
          intro i hi
          rw [hdrained i hi]
          rfl
        have hqueue₁ : gen₁.queue = q := hqueue (lastIdx?_eq_none.2 hchunk)
        obtain ⟨gen₂, h2, hcalls₂⟩ := ih hcoll₁ (hqueue₁ ▸ hdrained) hrest
        refine ⟨gen₂, PartialRun.run_cons_iff.2 ⟨gen₁, h1, h2⟩, ?_⟩
        rw [hcalls₂, hcalls, handed_nil hchunk, List.append_nil]

end QjsNet
