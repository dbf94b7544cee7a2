import QjsNet.GeneratorApi

/- When the calls on a generator are safe.

   A call fails when it runs into an assertion or a queue that does not exist
   (`Fails`): a `next` of a stopped generator with a waiting read
   (`assert(list_empty(&it->reads))`), a close of a queue whose end is in front
   (`assert(!queue_closed(q))`), and `queue_close` of no queue in `generator_finish`.

   Two calls make that possible. A finish marks the generator as closing whether or
   not it could serve the reads that wait, and does not look whether it has a queue.
   `continuous` puts an item behind the end of a queue that holds nothing else.
   `generator_safe` says that these are all: as long as every call is `Ready`,
   none fails, and a call that is not either fails or leads to a ready call that
   does. -/
namespace QjsNet

/-- The calls with an assertion or a use of the queue that may be missing. A write, a push and an
enqueue have neither; they come to no end when they cut into pieces of no bytes. -/
def ApiCall.asserts : ApiCall → Bool
  | .next _ | .stop _ | .finish | .throw _ => true
  | _ => false

def Fails (s : ApiState) (c : ApiCall) : Prop := c.asserts = true ∧ apiStep s c = none

/-- A finish has a queue and serves every read that waits: the callback of continuous mode takes
what a read would get. `continuous` finds a chunk, or a queue without an end. -/
def Ready (s : ApiState) : ApiCall → Prop
  | .finish => s.gen.q.isSome = true ∧
    if s.gen.queue.continuous = true ∧ s.gen.callback.isNullish = false
    then s.gen.iterator.reads = []
    else s.gen.iterator.reads.length ≤ s.gen.queue.items.length
  | .continuous _ => queueComplete s.gen.queue = true → queueLastChunk s.gen.queue ≠ none
  | _ => True

variable {gen gen' : Generator}

/-! ## Ready calls -/

theorem queueNext_marked {q : Queue} (h : EndMarked q.items)
    (huser : UserCallbacks (fun _ => True) q.items) (ctx : JSContext) :
    EndMarked (queueNext q ctx).1.items ∧ UserCallbacks (fun _ => True) (queueNext q ctx).1.items := by
  unfold queueNext
  cases queueFront q with
  | none => exact ⟨h, huser⟩
  | some i =>
    simp only
    split
    · exact ⟨h, huser⟩
    · rw [delHead_items, ← List.drop_one]
      exact ⟨h.drop 1, huser.drop 1⟩

/-- In continuous mode the whole queue is one value for the callback. -/
theorem generatorFinish_collects {q : Queue} (hq : gen.q = some q)
    (hcont : q.continuous = true ∧ gen.callback.isNullish = false) :
    generatorFinish gen = some ({ (dequeueValue gen.setClosing q).1 with
      ctx := jsCall (dequeueValue gen.setClosing q).1.ctx
        (dequeueValue gen.setClosing q).1.callback [(dequeueValue gen.setClosing q).2.1] }, true) := by
  simp [generatorFinish, hq, hcont]

theorem generatorFinish_serves {q q' : Queue} {n : Nat} (hq : gen.q = some q)
    (hcont : ¬ (q.continuous = true ∧ gen.callback.isNullish = false))
    (hclose : queueClose (generatorUpdate gen.setClosing).1.queue = some (q', n)) :
    generatorFinish gen = some ((generatorUpdate gen.setClosing).1.setQueue q', false) := by
  have hfalse : (q.continuous && !gen.callback.isNullish) = false := by
    simpa using hcont
  simp only [generatorFinish, setClosing_q, hq, setClosing_callback, hfalse, Bool.false_eq_true,
    if_false, hclose]
  rfl

/-- Where the queue has a value for each read, the closing generator serves them all. -/
theorem ApiInv.update_drains (h : ApiInv gen)
    (hserved : gen.iterator.reads.length ≤ gen.queue.items.length) :
    ∃ k, Delivers (fun _ => True) gen.setClosing (generatorUpdate gen.setClosing).1 k ∧
      gen.iterator.reads.drop k = [] := by
  by_cases hs : Stopped gen
  · have hreads := h.drained hs
    refine ⟨0, ?_, by rw [hreads, List.drop_nil]⟩
    unfold generatorUpdate
    rw [setClosing_reads, hreads]
    exact .zero _ _
  · obtain ⟨k, hk, _, hall⟩ := @updateLoop_open (fun _ => True) _ gen.setClosing (h.isOpen hs)
      h.unrefs rfl
    refine ⟨k, hk, ?_⟩
    have hmin : k = min gen.iterator.reads.length gen.queue.items.length := hall rfl
    rw [Nat.min_eq_left hserved] at hmin
    rw [hmin]
    exact List.drop_length

theorem ApiInv.finish {s : ApiState} (h : ApiInv s.gen) (hready : Ready s .finish) :
    ∃ gen' b, generatorFinish s.gen = some (gen', b) ∧ ApiInv gen' := by
  obtain ⟨hsome, hserved⟩ := hready
  obtain ⟨q, hq⟩ := Option.isSome_iff_exists.1 hsome
  have hqueue := queue_of_q hq
  by_cases hcont : q.continuous = true ∧ s.gen.callback.isNullish = false
  · rw [hqueue, if_pos hcont] at hserved
    refine ⟨_, true, generatorFinish_collects hq hcont, ?_⟩
    obtain ⟨n, hdeq⟩ := dequeueValue_fst s.gen.setClosing q
    obtain ⟨hmarked, huser⟩ := queueNext_marked (hqueue ▸ h.marked) (hqueue ▸ h.unrefs)
      s.gen.setClosing.ctx
    rw [hdeq]
    exact ⟨fun _ => hserved, hmarked, fun _ => Or.inl rfl, huser⟩
  · rw [hqueue, if_neg hcont, ← hqueue] at hserved
    obtain ⟨k, hk, hdrop⟩ := h.update_drains hserved
    let gen₁ := (generatorUpdate s.gen.setClosing).1
    have hreads : gen₁.iterator.reads = [] := by
      have hit := hk.iterator
      rw [show gen₁.iterator = _ from hit]
      exact hdrop
    have hclosing : gen₁.iterator.closing = true := by
      rw [show gen₁.iterator = _ from hk.iterator]
      rfl
    have hmarked : EndMarked gen₁.queue.items := by
      rw [show gen₁.queue.items = _ from hk.items]
      exact h.marked.drop k
    have huser : UserCallbacks (fun _ => True) gen₁.queue.items := by
      rw [show gen₁.queue.items = _ from hk.items]
      exact h.unrefs.drop k
    obtain ⟨q', n, hclose, hmarked', huser', _⟩ := @queueClose_marked (fun _ => True) gen₁.queue hmarked
    exact ⟨gen₁.setQueue q', false, generatorFinish_serves hq hcont hclose, fun _ => hreads, hmarked',
      fun _ => Or.inl hclosing, huser' huser⟩

theorem ApiInv.continuous {s : ApiState} {callback : JSValue} (h : ApiInv s.gen)
    (hready : Ready s (.continuous callback)) :
    ApiInv (generatorContinuous s.gen callback).1 := by
  have hqueue : Extends (fun _ => True) (s.gen.queue.setContinuous true)
      (queueContinuous s.gen.queue).1 := by
    unfold queueContinuous
    simp only
    split
    · exact .refl h.marked
    · next hn =>
      -- Nothing ends the queue, so the new item is no item behind its end.
      have hc : queueComplete s.gen.queue = false := by
        by_contra hc
        exact hready (by simpa using hc) hn
      rcases complete_or_open h.marked with ⟨hopen, _⟩ | ⟨_, hc'⟩
      · have happ := @addTail_appends (s.gen.queue.setContinuous true) hopen
          ⟨none, none, false, none⟩ rfl
        refine ⟨.of_open happ.isOpen, ?_, ?_, ?_⟩
        · exact (queueComplete_of_open happ.isOpen).trans hc.symm
        · exact fun hseparate => by cases hseparate
        · intro huser
          exact userCallbacks_append.2 ⟨huser, userCallbacks_singleton.2 fun fn hfn => by cases hfn⟩
      · rw [hc] at hc'
        cases hc'
  have hset : ApiInv (s.gen.setQueue ((queueContinuous s.gen.queue).1.setContinuous true)) :=
    h.withQueue hqueue.marked hqueue.complete hqueue.unrefs
  unfold generatorContinuous
  simp only
  split
  · exact hset.congr rfl rfl
  · exact hset.congr rfl rfl

theorem safe_of_some {s : ApiState} {c : ApiCall}
    (h : ∃ s', apiStep s c = some s' ∧ ApiInv s'.gen) :
    ¬ Fails s c ∧ ∀ s', apiStep s c = some s' → ApiInv s'.gen := by
  obtain ⟨t, ht, hinv⟩ := h
  refine ⟨fun hf => ?_, ?_⟩
  · rw [hf.2] at ht
    cases ht
  · intro s' hs'
    obtain rfl := Option.some.inj (ht.symm.trans hs')
    exact hinv

/-- **One call.** A ready call does not fail, and keeps the invariant. -/
theorem apiStep_inv {s : ApiState} {c : ApiCall} (h : ApiInv s.gen) (hready : Ready s c) :
    ¬ Fails s c ∧ ∀ s', apiStep s c = some s' → ApiInv s'.gen := by
  have hquiet : c.asserts = false → ¬ Fails s c := by
    intro hc hf
    rw [hf.1] at hc
    cases hc
  cases c with
  | next arg =>
    obtain ⟨gen₁, hbegin, h₁, _⟩ := h.nextBegin arg
    refine safe_of_some ?_
    simp only [apiStep, hbegin, Option.bind_eq_bind, Option.bind_some]
    split
    · exact ⟨_, rfl, h₁.resume arg⟩
    · exact ⟨_, rfl, (h₁.resume arg).nextEnd.1⟩
  | executorReturns =>
    refine ⟨hquiet rfl, ?_⟩
    intro s' hs'
    simp only [apiStep] at hs'
    split at hs'
    · obtain rfl := Option.some.inj hs'
      exact h.nextEnd.1
    · cases hs'
  | write data callback =>
    refine ⟨hquiet rfl, ?_⟩
    intro s' hs'
    obtain ⟨⟨gen, ret⟩, heq, hs'⟩ := Option.bind_eq_some_iff.1 hs'
    obtain rfl := Option.some.inj hs'
    exact (h.write heq).1
  | push value =>
    refine ⟨hquiet rfl, ?_⟩
    intro s' hs'
    obtain ⟨⟨gen, ret⟩, heq, hs'⟩ := Option.bind_eq_some_iff.1 hs'
    obtain rfl := Option.some.inj hs'
    exact (h.push heq).1
  | enqueue value =>
    refine ⟨hquiet rfl, ?_⟩
    intro s' hs'
    obtain ⟨⟨gen, ret⟩, heq, hs'⟩ := Option.bind_eq_some_iff.1 hs'
    obtain rfl := Option.some.inj hs'
    exact (h.enqueue heq).1
  | stop arg =>
    obtain ⟨gen, b, hstop, h₁, _⟩ := h.stop arg
    exact safe_of_some ⟨_, Option.bind_eq_some_iff.2 ⟨(gen, b), hstop, rfl⟩, h₁⟩
  | finish =>
    obtain ⟨gen, b, hfinish, h₁⟩ := h.finish hready
    exact safe_of_some ⟨_, Option.bind_eq_some_iff.2 ⟨(gen, b), hfinish, rfl⟩, h₁⟩
  | continuous callback => exact safe_of_some ⟨_, rfl, h.continuous hready⟩
  | buffering chunkSize => exact safe_of_some ⟨_, rfl, h.congr rfl rfl⟩
  | iteratorReturn arg => exact safe_of_some ⟨_, rfl, h.iteratorReturn arg⟩
  | throw error =>
    obtain ⟨gen, ret, hthrow, h₁⟩ := h.throw error
    exact safe_of_some ⟨_, Option.bind_eq_some_iff.2 ⟨(gen, ret), hthrow, rfl⟩, h₁⟩
  | thenPush argc => exact safe_of_some ⟨_, rfl, h.congr rfl rfl⟩
  | catchPush => exact safe_of_some ⟨_, rfl, h.congr rfl rfl⟩

/-! ## Calls that are not ready -/

/-- Ready calls lead to a ready call that fails. -/
def Strands (s : ApiState) : Prop := ∃ more c t,
  PartialRun.Admits apiStep Ready s (more ++ [c]) ∧ PartialRun.run apiStep s more = some t ∧ Fails t c

theorem Strands.of_fails {s : ApiState} {c : ApiCall} (hready : Ready s c) (hf : Fails s c) :
    Strands s :=
  ⟨[], c, s, ⟨hready, fun _ _ => trivial⟩, rfl, hf⟩

theorem next_fails {s : ApiState} (hs : Stopped s.gen) (hreads : s.gen.iterator.reads ≠ [])
    (arg : JSValue) : Fails s (.next arg) := by
  have hend : (s.gen.iterator.closing || s.gen.iterator.closed) = true := by
    simpa [Stopped] using hs
  have hnext : asynciteratorNext s.gen.iterator arg s.gen.ctx = none := by
    simp [asynciteratorNext, hend, hreads]
  refine ⟨rfl, ?_⟩
  simp [apiStep, generatorNextBegin, hnext]

theorem finish_strands_collects {s : ApiState} {q : Queue} (hq : s.gen.q = some q)
    (hcont : q.continuous = true ∧ s.gen.callback.isNullish = false)
    (hreads : s.gen.iterator.reads ≠ []) :
    ∃ s', apiStep s .finish = some s' ∧ Strands s' := by
  obtain ⟨n, hdeq⟩ := dequeueValue_fst s.gen.setClosing q
  let gen' : Generator := { (dequeueValue s.gen.setClosing q).1 with
    ctx := jsCall (dequeueValue s.gen.setClosing q).1.ctx
      (dequeueValue s.gen.setClosing q).1.callback [(dequeueValue s.gen.setClosing q).2.1] }
  have hit : gen'.iterator = s.gen.setClosing.iterator := by
    simp only [gen', hdeq]
  refine ⟨{ s with gen := gen' }, ?_,
    @Strands.of_fails _ (.next .undefined) trivial (next_fails ?_ ?_ _)⟩
  · rw [apiStep, generatorFinish_collects hq hcont]
    rfl
  · exact Or.inl (by rw [hit]; rfl)
  · rw [hit]
    exact hreads

theorem finish_strands_serves {s : ApiState} {q : Queue} (h : ApiInv s.gen) (hq : s.gen.q = some q)
    (hcont : ¬ (q.continuous = true ∧ s.gen.callback.isNullish = false))
    (hfew : q.items.length < s.gen.iterator.reads.length) :
    ∃ s', apiStep s .finish = some s' ∧ Strands s' := by
  -- A read waits, so the generator is not stopped and its queue is open.
  have hs : ¬ Stopped s.gen := by
    intro hs
    rw [h.drained hs] at hfew
    exact absurd hfew (Nat.not_lt_zero _)
  obtain ⟨k, hk, _, hall⟩ := @updateLoop_open (fun _ => True) _ s.gen.setClosing (h.isOpen hs)
    h.unrefs rfl
  have hmin : k = min s.gen.iterator.reads.length s.gen.queue.items.length := hall rfl
  rw [queue_of_q hq, Nat.min_eq_right (Nat.le_of_lt hfew)] at hmin
  let gen₁ := (generatorUpdate s.gen.setClosing).1
  have hit : gen₁.iterator = { s.gen.setClosing.iterator with
      reads := s.gen.iterator.reads.drop k } := hk.iterator
  have hopen : OpenItems gen₁.queue.items := by
    rw [show gen₁.queue.items = _ from hk.items]
    exact OpenItems.drop (h.isOpen hs) k
  refine ⟨{ s with gen := gen₁.setQueue (gen₁.queue.addTail doneItem) }, ?_,
    @Strands.of_fails _ (.next .undefined) trivial (next_fails (Or.inl ?_) ?_ _)⟩
  · rw [apiStep, generatorFinish_serves hq hcont (queueClose_open hopen)]
    rfl
  · rw [setQueue_iterator, hit]
    rfl
  · rw [setQueue_iterator, hit, hmin]
    intro hnil
    have hlen := congrArg List.length hnil
    rw [List.length_drop, List.length_nil] at hlen
    omega

/-- A finish that leaves a read waiting makes the next `next` fail. -/
theorem finish_strands {s : ApiState} (h : ApiInv s.gen) (hready : ¬ Ready s .finish) :
    Fails s .finish ∨ ∃ s', apiStep s .finish = some s' ∧ Strands s' := by
  cases hq : s.gen.q with
  | none =>
    refine Or.inl ⟨rfl, ?_⟩
    simp [apiStep, generatorFinish, hq]
  | some q =>
    refine Or.inr ?_
    have hserved : ¬ (if q.continuous = true ∧ s.gen.callback.isNullish = false
        then s.gen.iterator.reads = []
        else s.gen.iterator.reads.length ≤ q.items.length) := by
      intro hserved
      refine hready ⟨by rw [hq]; rfl, ?_⟩
      rwa [queue_of_q hq]
    by_cases hcont : q.continuous = true ∧ s.gen.callback.isNullish = false
    · rw [if_pos hcont] at hserved
      exact finish_strands_collects hq hcont hserved
    · rw [if_neg hcont, Nat.not_le] at hserved
      exact finish_strands_serves h hq hcont hserved

/-- The assertion in `queue_close`: an item was put behind the end of an empty queue. -/
theorem finish_fails {s : ApiState} {q : Queue} {last new : QueueItem} (hq : s.gen.q = some q)
    (hitems : q.items = [last, new]) (hlast : last.done = true) (hnew : new.done = false)
    (hcont : q.continuous = false) (hreads : s.gen.iterator.reads = []) : Fails s .finish := by
  have hupdate : generatorUpdate s.gen.setClosing = (s.gen.setClosing, 0) := by
    unfold generatorUpdate
    rw [setClosing_reads, hreads]
    rfl
  have hclose : queueClose q = none := by
    simp [queueClose, queueComplete, queueBack, queueClosed, queueFront, hitems, hlast, hnew]
  refine ⟨rfl, ?_⟩
  simp [apiStep, generatorFinish, hq, hcont, hupdate, queue_of_q hq, hclose]

/-- A block of no bytes merged behind the end takes the queue out of continuous mode. -/
theorem enqueue_behind_end {last : QueueItem}
    (hitems : gen.queue.items = [last, ⟨none, none, false, none⟩]) (hbuf : gen.buffering = true) :
    ∃ q n, generatorEnqueue gen .undefined = some (gen.setQueue q, n) ∧
      q.items = [last, ⟨some [], none, false, none⟩] ∧ q.continuous = false := by
  obtain ⟨hi, _, hn⟩ := @queuePut_continuous_snoc (gen.queue.setContinuous true) [last] _ hitems rfl
    rfl (blockCopy [])
  rcases hput : queuePut (gen.queue.setContinuous true) (blockCopy []) with ⟨q, item⟩
  rw [hput] at hi hn
  -- What is merged has no bytes, so nothing is cut.
  have hsplit : splitItem (q.setContinuous false) 1 (some []) gen.chunkSize
      = some (q.setContinuous false) := by
    simp [splitItem]
  refine ⟨q.setContinuous false, 0, ?_, hi, rfl⟩
  have hqueue : (createQueue (createQueue gen)).queue = gen.queue := rfl
  have hbuf' : (createQueue (createQueue gen)).buffering = true := hbuf
  simp only [generatorEnqueue, enqueueValue, jsInputChars, enqueueBlock, hqueue, hbuf', if_true,
    hput, hn]
  have hblk : ((q.setContinuous false).items[1]?).elim none (·.block) = some [] := by
    rw [setContinuous_items, hi]
    rfl
  simp only [List.length_singleton, hblk]
  exact Option.bind_eq_some_iff.2 ⟨_, hsplit, rfl⟩

/-- Collecting behind the end makes a finish fail, once the generator has left continuous mode. -/
theorem continuous_strands {s : ApiState} {callback : JSValue} (h : ApiInv s.gen)
    (hready : ¬ Ready s (.continuous callback)) :
    ∃ s', apiStep s (.continuous callback) = some s' ∧ Strands s' := by
  obtain ⟨hc, hl⟩ : queueComplete s.gen.queue = true ∧ queueLastChunk s.gen.queue = none := by
    simpa [Ready] using hready
  rcases complete_or_open h.marked with ⟨_, hopen⟩ | ⟨⟨chunks, last, hcomplete⟩, _⟩
  · rw [hopen] at hc
    cases hc
  · -- Nothing but the end is there.
    have hitems : s.gen.queue.items = [last] := by
      have hnone := lastIdx?_eq_none.1 hl
      cases chunks with
      | nil => exact hcomplete.items
      | cons i is =>
        have hi := hnone i (by rw [hcomplete.items]; simp)
        have hdone := hcomplete.isOpen i (List.mem_cons_self ..)
        simp [QueueItem.isChunk, hdone] at hi
    have hreads : s.gen.iterator.reads = [] := h.drained (h.ended hc)
    have hbehind : (queueContinuous s.gen.queue).1.items = [last, ⟨none, none, false, none⟩] := by
      unfold queueContinuous
      have hl' : queueLastChunk (s.gen.queue.setContinuous true) = none := hl
      simp only [hl', addTail_items, setContinuous_items, hitems]
      rfl
    let s₁ : ApiState := { s with gen := (generatorContinuous s.gen callback).1 }
    let s₂ : ApiState := { s₁ with gen := (generatorBuffering s₁.gen 1).1 }
    have hqueue₂ : s₂.gen.queue.items = [last, ⟨none, none, false, none⟩] := by
      simp only [s₂, s₁, generatorContinuous]
      split
      · exact hbehind
      · exact hbehind
    have hreads₂ : s₂.gen.iterator.reads = [] := by
      simp only [s₂, s₁, generatorContinuous]
      split
      · exact hreads
      · exact hreads
    obtain ⟨q, n, henq, hq, hcont⟩ := enqueue_behind_end hqueue₂ rfl
    let s₃ : ApiState := { s₂ with gen := s₂.gen.setQueue q }
    have hstep₃ : apiStep s₂ (.enqueue .undefined) = some s₃ :=
      Option.bind_eq_some_iff.2 ⟨_, henq, rfl⟩
    have hready₃ : Ready s₃ .finish := by
      refine ⟨rfl, ?_⟩
      rw [show s₃.gen.queue.continuous = false from hcont,
        show s₃.gen.iterator.reads = [] from hreads₂]
      simp
    refine ⟨s₁, rfl, [.buffering 1, .enqueue .undefined], .finish, s₃, ?_, ?_, ?_⟩
    · refine ⟨trivial, ?_⟩
      intro s' hs'
      obtain rfl : s₂ = s' := Option.some.inj hs'
      refine ⟨trivial, ?_⟩
      intro s' hs'
      obtain rfl := Option.some.inj (hstep₃.symm.trans hs')
      exact ⟨hready₃, fun _ _ => trivial⟩
    · exact PartialRun.run_cons_iff.2 ⟨s₂, rfl, PartialRun.run_cons_iff.2 ⟨s₃, hstep₃, rfl⟩⟩
    · exact finish_fails rfl hq hcomplete.done rfl hcont hreads₂

/-! ## Runs -/

/-- **Safety.** On a new generator no call of a run of ready calls fails; and after such a run, a
call that is not ready fails, or leads to a ready one that does. -/
theorem generator_safe (blockFn : BlockFn) (executor : JSValue) (chunkSize : Option Nat) :
    (∀ calls, PartialRun.Admits apiStep Ready (.new (.new blockFn executor chunkSize)) calls →
      PartialRun.Admits apiStep (fun s c => ¬ Fails s c) (.new (.new blockFn executor chunkSize))
        calls) ∧
    ∀ calls s c, PartialRun.Admits apiStep Ready (.new (.new blockFn executor chunkSize)) calls →
      PartialRun.run apiStep (.new (.new blockFn executor chunkSize)) calls = some s →
      ¬ Ready s c → Fails s c ∨ ∃ s', apiStep s c = some s' ∧ Strands s' := by
  have hnew := apiInv_new blockFn executor chunkSize
  refine ⟨?_, ?_⟩
  · intro calls
    exact @PartialRun.admits_mono _ _ _ (fun s => ApiInv s.gen) _ _
      (fun s c hs hready => apiStep_inv hs hready) calls _ hnew
  · intro calls s c hcalls hrun hready
    have hs : ApiInv s.gen := by
      refine (@PartialRun.admits_induct _ _ _ (fun s => ApiInv s.gen) _ ?_ calls [] _ _ hnew
        (by rwa [List.append_nil]) hrun).1
      exact fun s c s' hs hready hstep => (apiStep_inv hs hready).2 s' hstep
    cases c with
    | finish => exact finish_strands hs hready
    | continuous callback => exact Or.inr (continuous_strands hs hready)
    | _ => exact absurd trivial hready

/-- A second stop runs into `assert(!queue_closed(q))`. -/
theorem generator_unsafe : ¬ PartialRun.Admits apiStep (fun s c => ¬ Fails s c)
    (.new (.new .toarraybuffer (.function 0) none))
    [.buffering 4, .stop .null, .continuous .null, .stop .null] := by
  intro h
  obtain ⟨_, h⟩ := h
  obtain ⟨_, h⟩ := h _ rfl
  obtain ⟨_, h⟩ := h _ rfl
  obtain ⟨hsafe, _⟩ := h _ rfl
  exact hsafe ⟨rfl, rfl⟩

end QjsNet
