import QjsNet.GeneratorPush

/- What becomes of an error that is thrown into a generator.

   `generator_throw` either stops the generator and gives the error back in a
   rejected promise, or rejects the promise of the last push and reads on. Which one
   it takes does not depend on whether that promise is there and unsettled, so an
   error can go nowhere (`Unheard`): the executor runs, the queue is empty, and a
   read has already resolved the push it waits for, or it has not pushed yet.
   `throw_keeps_iff` says that this is the only way to lose one.

   A run takes any reads, pushes, writes, enqueues, stops and throws, and whether the
   promises of the pushes are awaited (`thenPush`, `catchPush`) is part of it. -/
namespace QjsNet

variable {gen gen' : Generator} {pushed : List Nat} {s s' t : ApiState}

/-- The calls of a run. -/
def ApiCall.plain : ApiCall → Bool
  | .finish | .continuous _ | .buffering _ | .iteratorReturn _ => false
  | _ => true

def throwStep (s : ApiState) (c : ApiCall) : Option ApiState :=
  if c.plain then apiStep s c else none

/-- The read that the call makes waits, or has been answered. -/
def IsRead (gen : Generator) (p : Nat) : Prop :=
  p ∈ gen.iterator.waiting ∨ ∃ v done, gen.ctx.outcome p = some (.resolved (.iteratorResult v done))

/-- A `next` is answered at once, with the last result. -/
def AnswersDone (s : ApiState) : Prop := ∀ arg, ∃ s', apiStep s (.next arg) = some s' ∧
  s'.gen.ctx.outcome s.gen.ctx.promises = some (.resolved (.iteratorResult .undefined true))

/-- The error rejects the outstanding push, and the call returns the promise of a new read; or the
call returns a promise rejected with it, and from then on the generator is stopped. -/
def KeepsError (s : ApiState) (error : JSValue) : Prop :=
  ∃ gen, generatorThrow s.gen error = some (gen, .promise s.gen.ctx.promises) ∧
    ((∃ p, s.outstanding = some p ∧ gen.ctx.outcome p = some (.rejected error) ∧
        IsRead gen s.gen.ctx.promises) ∨
      (gen.ctx.outcome s.gen.ctx.promises = some (.rejected error) ∧ Stopped gen ∧
        ∀ calls t, PartialRun.run throwStep { s with gen } calls = some t → AnswersDone t))

/-- Nobody would hear of an error. -/
structure Unheard (s : ApiState) : Prop where
  started : generatorStarted s.gen = true
  going : generatorStopped s.gen = false
  empty : queueEmpty s.gen.queue = true
  awaited : ∀ wpr, s.gen.promise = some wpr → (wpr.thened || wpr.catched) = true
  settled : s.outstanding = none

theorem stopped_iff : Stopped gen ↔ generatorStopped gen = true := by
  simp [Stopped, generatorStopped]

/-- What the test in `generator_throw` does not ask is whether a push is outstanding. -/
theorem unheard_iff : Unheard s ↔ s.gen.unhandled = false ∧ s.outstanding = none := by
  have hqueue : (s.gen.q.isSome && !queueEmpty s.gen.queue) = false
      ↔ queueEmpty s.gen.queue = true := by
    cases hq : s.gen.q with
    | none => simp [Generator.queue, hq, queueEmpty, queueNew]
    | some q => simp
  have hpromise : (s.gen.promise.elim false fun wpr => !(wpr.thened || wpr.catched)) = false
      ↔ ∀ wpr, s.gen.promise = some wpr → (wpr.thened || wpr.catched) = true := by
    cases hp : s.gen.promise with
    | none => simp
    | some wpr => cases ht : wpr.thened <;> simp [ht]
  unfold Generator.unhandled
  simp only [Bool.or_eq_false_iff, hqueue, hpromise, Bool.not_eq_false']
  refine ⟨fun h => ⟨⟨⟨⟨h.started, h.going⟩, h.empty⟩, h.awaited⟩, h.settled⟩, ?_⟩
  intro h
  obtain ⟨⟨⟨⟨hstarted, hgoing⟩, hempty⟩, hawaited⟩, hsettled⟩ := h
  exact ⟨hstarted, hgoing, hempty, hawaited, hsettled⟩

/-! ## Throwing -/

theorem PushInv.rejectPush (h : PushInv gen pushed) (error : JSValue) :
    PushInv (gen.rejectPush error) pushed ∧ (gen.rejectPush error).outstanding pushed = none ∧
      ∀ p, gen.outstanding pushed = some p →
        (gen.rejectPush error).ctx.outcome p = some (.rejected error) := by
  have hidle : gen.resolveReject.reject.isNullish = true → gen.rejectPush error = gen := by
    intro hnull
    simp [Generator.rejectPush, jsAsyncReject, hnull]
  have hcall : ∀ p, gen.resolveReject.reject = .reject p → gen.rejectPush error
      = { gen with
          ctx := jsCall gen.ctx (.reject p) [error]
          resolveReject := .zero } := by
    intro p hp
    simp [Generator.rejectPush, jsAsyncReject, hp, JSValue.isNullish]
  cases hout : gen.outstanding pushed with
  | some p =>
    have hslot := h.slot p hout
    obtain ⟨hinv, hnone⟩ := h.settle (outstanding_mem hout) (Or.inl hout)
      (settlements_reject gen.ctx p error) rfl (rfl : ResolveFunctions.zero.resolve.isFunction = false)
      (Or.inl rfl)
    rw [hcall p (by rw [hslot]; rfl)]
    refine ⟨hinv, hnone, ?_⟩
    intro q hq
    obtain rfl := Option.some.inj hq
    have hunsettled := outcome_eq_none.1 (outstanding_eq_some.1 hout).2
    unfold JSContext.outcome
    rw [settlementsOf_append (settlements_reject gen.ctx p error), hunsettled]
    simp
  | none =>
    refine ⟨?_, ?_, fun p hp => by cases hp⟩
    · rcases h.rejecter with hnull | ⟨p, hp, hreject⟩
      · rw [hidle hnull]
        exact h
      · rw [hcall p hreject]
        exact (h.settle hp (Or.inr hout) (settlements_reject gen.ctx p error) rfl rfl (Or.inl rfl)).1
    · rcases h.rejecter with hnull | ⟨p, hp, hreject⟩
      · rw [hidle hnull]
        exact hout
      · rw [hcall p hreject]
        exact (h.settle hp (Or.inr hout) (settlements_reject gen.ctx p error) rfl rfl (Or.inl rfl)).2

theorem PushInv.rejectNew (h : PushInv gen pushed) (error : JSValue) :
    PushInv (gen.rejectNew error) pushed ∧
      (gen.rejectNew error).ctx.outcome gen.ctx.promises = some (.rejected error) := by
  let p₀ := gen.ctx.promises
  have hsettlements : (gen.rejectNew error).ctx.settlements
      = gen.ctx.settlements ++ [(p₀, .rejected error)] := settlements_reject ..
  have hother : ∀ p ∈ pushed, (gen.rejectNew error).ctx.settlementsOf p = gen.ctx.settlementsOf p := by
    intro p hp
    refine settlementsOf_other hsettlements ?_
    rw [List.map_singleton, List.mem_singleton]
    exact Nat.ne_of_lt (h.created p hp).1
  have hsame : (gen.rejectNew error).outstanding pushed = gen.outstanding pushed := by
    refine outstanding_congr ?_
    intro p hp
    unfold JSContext.outcome
    rw [hother p hp]
  refine ⟨⟨h.api.congr rfl rfl, h.separate, h.executor, ?_, ?_, ?_, ?_, ?_, h.rejecter, h.record⟩, ?_⟩
  · intro p hp
    rw [hsettlements, List.map_append] at hp
    rcases List.mem_append.1 hp with hold | hnew
    · exact Nat.lt_succ_of_lt (h.settled p hold)
    · rw [List.map_singleton, List.mem_singleton] at hnew
      rw [hnew]
      exact Nat.lt_succ_self _
  · exact fun p hp => Nat.lt_succ_of_lt (h.waiting p hp)
  · intro p hp
    obtain ⟨hlt, hw⟩ := h.created p hp
    exact ⟨Nat.lt_succ_of_lt hlt, hw⟩
  · rw [hsame]
    exact h.slot
  · rw [hsame]
    exact h.resolver
  · unfold JSContext.outcome
    rw [settlementsOf_append hsettlements, h.fresh]
    simp [p₀]

/-- What keeps the invariant of the pushes, and a stopped generator stopped. -/
structure Keeps (gen gen' : Generator) (pushed : List Nat) : Prop where
  inv : PushInv gen' pushed
  stopped : Stopped gen → Stopped gen'

theorem PushInv.keeps {k : Nat} (h : PushInv gen pushed) (hserves : Serves k gen gen')
    (hapi : ApiInv gen') : Keeps gen gen' pushed :=
  ⟨h.serves hserves hapi, hserves.stopped⟩

theorem PushInv.resumed (h : PushInv gen pushed) (arg : JSValue) :
    Keeps gen (generatorNextEnd (gen.resume arg)) pushed := by
  obtain ⟨h₁, _⟩ := h.resume arg
  obtain ⟨hapi, hserves⟩ := h₁.api.nextEnd
  refine ⟨h₁.serves hserves hapi, ?_⟩
  intro hs
  refine hserves.stopped ?_
  unfold Stopped
  rw [(resume_iterator gen arg).1]
  exact hs

theorem PushInv.throw (h : PushInv gen pushed) (error : JSValue) {ret : JSValue}
    (heq : generatorThrow gen error = some (gen', ret)) : Keeps gen gen' pushed := by
  cases hu : gen.unhandled with
  | true =>
    obtain ⟨gen₁, hthrow, hapi, hs, hserves⟩ := h.api.throw_unhandled error hu
    obtain ⟨rfl, -⟩ := Prod.mk.inj (Option.some.inj (hthrow.symm.trans heq))
    exact ⟨(h.rejectNew error).1.serves (hserves h.separate) hapi, fun _ => hs⟩
  | false =>
    obtain ⟨gen₁, hthrow, hapi, hserves⟩ := h.api.throw_handled error hu
    obtain ⟨rfl, -⟩ := Prod.mk.inj (Option.some.inj (hthrow.symm.trans heq))
    obtain ⟨h₁, _⟩ := h.rejectPush error
    refine ⟨((h₁.serves hserves hapi).resumed .undefined).inv, ?_⟩
    exact fun hs => ((h₁.serves hserves hapi).resumed .undefined).stopped (hserves.stopped hs)

theorem PushInv.ask {wpr : Option JSWrappedPromiseRecord} (h : PushInv gen pushed)
    (hwpr : wpr.map (·.promise) = gen.promise.map (·.promise)) :
    Keeps gen { gen with promise := wpr } pushed :=
  ⟨⟨h.api.congr rfl rfl, h.separate, h.executor, h.settled, h.waiting, h.created, h.slot, h.resolver,
    h.rejecter, hwpr.trans h.record⟩, id⟩

theorem throwStep_keeps {c : ApiCall} (h : PushInv s.gen s.pushed)
    (hstep : throwStep s c = some s') :
    PushInv s'.gen s'.pushed ∧ (Stopped s.gen → Stopped s'.gen) := by
  have hplain : c.plain = true ∧ apiStep s c = some s' := by
    unfold throwStep at hstep
    split at hstep
    · next hc => exact ⟨hc, hstep⟩
    · cases hstep
  obtain ⟨hc, hstep⟩ := hplain
  have hkeeps : ∀ {gen'}, Keeps s.gen gen' s.pushed →
      PushInv gen' s.pushed ∧ (Stopped s.gen → Stopped gen') := fun hk => ⟨hk.inv, hk.stopped⟩
  cases c with
  | next arg =>
    obtain ⟨gen₁, hbegin, hapi, hserves⟩ := h.api.nextBegin arg
    have h₁ := h.serves hserves hapi
    simp only [apiStep, hbegin, Option.bind_eq_bind, Option.bind_some] at hstep
    have hstopped : Stopped s.gen → Stopped (gen₁.resume arg) := by
      unfold Stopped
      rw [(resume_iterator gen₁ arg).1]
      exact hserves.stopped
    split at hstep
    · obtain rfl := Option.some.inj hstep
      exact ⟨(h₁.resume arg).1, hstopped⟩
    · obtain rfl := Option.some.inj hstep
      exact ⟨(h₁.resumed arg).inv, fun hs => (h₁.resumed arg).stopped (hserves.stopped hs)⟩
  | executorReturns =>
    simp only [apiStep] at hstep
    split at hstep
    · obtain rfl := Option.some.inj hstep
      obtain ⟨hapi, hserves⟩ := h.api.nextEnd
      exact hkeeps (h.keeps hserves hapi)
    · cases hstep
  | write data callback =>
    obtain ⟨⟨gen, ret⟩, heq, hs'⟩ := Option.bind_eq_some_iff.1 hstep
    obtain rfl := Option.some.inj hs'
    obtain ⟨hapi, hserves⟩ := h.api.write heq
    exact hkeeps (h.keeps hserves hapi)
  | push value =>
    obtain ⟨⟨gen, ret⟩, heq, hs'⟩ := Option.bind_eq_some_iff.1 hstep
    obtain rfl := Option.some.inj hs'
    obtain ⟨_, gen₁, hserves, rfl⟩ := h.api.push heq
    exact ⟨(h.push heq).1, hserves.stopped⟩
  | enqueue value =>
    obtain ⟨⟨gen, ret⟩, heq, hs'⟩ := Option.bind_eq_some_iff.1 hstep
    obtain rfl := Option.some.inj hs'
    obtain ⟨hapi, hserves⟩ := h.api.enqueue heq
    exact hkeeps (h.keeps hserves hapi)
  | stop arg =>
    obtain ⟨gen₁, b, hstop, hapi, _, hserves⟩ := h.api.stop arg
    obtain ⟨⟨gen, ret⟩, heq, hs'⟩ := Option.bind_eq_some_iff.1 hstep
    obtain rfl := Option.some.inj hs'
    obtain ⟨rfl, -⟩ := Prod.mk.inj (Option.some.inj (hstop.symm.trans heq))
    exact hkeeps (h.keeps (hserves h.separate) hapi)
  | throw error =>
    obtain ⟨⟨gen, ret⟩, heq, hs'⟩ := Option.bind_eq_some_iff.1 hstep
    obtain rfl := Option.some.inj hs'
    exact hkeeps (h.throw error heq)
  | thenPush argc =>
    obtain rfl := Option.some.inj hstep
    exact hkeeps (h.ask (by rw [Option.map_map]; rfl))
  | catchPush =>
    obtain rfl := Option.some.inj hstep
    exact hkeeps (h.ask (by rw [Option.map_map]; rfl))
  | finish => cases hc
  | «continuous» callback => cases hc
  | buffering chunkSize => cases hc
  | iteratorReturn arg => cases hc

/-- A stopped generator answers every later read. -/
theorem stopped_answersDone (h : PushInv s.gen s.pushed) (hs : Stopped s.gen) : AnswersDone s := by
  intro arg
  have hreads := h.api.drained hs
  have hbegin := nextBegin_answerDone hs hreads arg
  have hanswered : s.gen.answerDone.ctx.outcome s.gen.ctx.promises
      = some (.resolved (.iteratorResult .undefined true)) := by
    unfold JSContext.outcome
    rw [settlementsOf_append (answerDone_settlements s.gen), h.fresh]
    simp
  -- Whatever the call does afterwards, the promise is settled.
  obtain ⟨h₁, hresumed⟩ := (h.serves (serves_answerDone hreads) h.api.answerDone).resume arg
  have hresumed' := outcome_append hresumed hanswered
  cases hexec : s.gen.executor.isFunction with
  | true => exact ⟨_, apiStep_next_starts hbegin hexec, hresumed'⟩
  | false =>
    obtain ⟨new, hnew, _⟩ := h₁.api.nextEnd.2.answers
    exact ⟨_, apiStep_next hbegin hexec, outcome_append hnew hresumed'⟩

theorem nextEnd_idle (hs : ¬ Stopped gen) (hitems : gen.queue.items = []) :
    generatorNextEnd gen = gen := by
  have hend : (gen.iterator.closing || gen.iterator.closed) = false := by
    simpa [Stopped] using hs
  have hloop : ∀ fuel, updateLoop fuel gen = (gen, 0) := by
    intro fuel
    cases fuel with
    | zero => rfl
    | succ fuel => cases hq : gen.q <;> simp [updateLoop, hq, hitems]
  have hupdate : (if gen.q.isSome then generatorUpdate gen else (gen, 0)) = (gen, 0) := by
    rw [generatorUpdate, hloop, ite_self]
  unfold generatorNextEnd
  rw [hupdate]
  simp [hend]

/-- A handled error leaves the new read waiting, and settles the last push at most. -/
theorem throw_handled_eq (h : PushInv gen pushed) (error : JSValue) (hu : gen.unhandled = false) :
    ∃ gen', generatorThrow gen error = some (gen', .promise gen.ctx.promises) ∧
      gen'.ctx.settlements = (gen.rejectPush error).ctx.settlements ∧
      gen.ctx.promises ∈ gen'.iterator.waiting := by
  have hhandled : generatorStopped gen = false ∧ gen.queue.items = [] := by
    simp only [Generator.unhandled, Bool.or_eq_false_iff] at hu
    obtain ⟨⟨⟨_, hgoing⟩, hempty⟩, _⟩ := hu
    refine ⟨hgoing, ?_⟩
    cases hq : gen.q with
    | none => simp [Generator.queue, hq, queueNew]
    | some q => simpa [hq, queueEmpty] using hempty
  obtain ⟨hgoing, hitems⟩ := hhandled
  obtain ⟨h₁, hnone, _⟩ := h.rejectPush error
  obtain ⟨ctx, funcs, hreject⟩ : ∃ ctx funcs, gen.rejectPush error
      = { gen with ctx := ctx, resolveReject := funcs } := ⟨_, _, rfl⟩
  have hpromises := rejectPush_promises gen error
  have hs : ¬ Stopped (gen.rejectPush error) := by
    rw [stopped_iff, hreject]
    exact Bool.eq_false_iff.1 hgoing
  let gen₁ := (gen.rejectPush error).ask .undefined
  have h₂ : PushInv gen₁ pushed := h₁.serves (serves_ask _ _) (h₁.api.ask hs _)
  have hnone₁ : gen₁.outstanding pushed = none :=
    (outstanding_congr fun _ _ => rfl).trans hnone
  obtain ⟨_, hresumed⟩ := h₂.resume .undefined
  rw [hnone₁] at hresumed
  obtain ⟨hit, hq⟩ := resume_iterator gen₁ .undefined
  have hidle : generatorNextEnd (gen₁.resume .undefined) = gen₁.resume .undefined := by
    refine nextEnd_idle ?_ ?_
    · unfold Stopped
      rw [hit]
      exact hs
    · unfold Generator.queue
      rw [hq, show gen₁.q = gen.q by simp only [gen₁, Generator.ask, hreject]]
      exact hitems
  refine ⟨gen₁.resume .undefined, ?_, ?_, ?_⟩
  · unfold generatorThrow
    rw [if_neg (by rw [hu]; exact Bool.false_ne_true), generatorNext, nextBegin_ask hs, hpromises]
    exact congrArg (fun g => some (g, _)) hidle
  · rw [hresumed]
    simp only [Option.toList_none, List.map_nil, ite_self, List.append_nil]
    rfl
  · rw [hit]
    simp [gen₁, Generator.ask, AsyncIterator.waiting, hpromises]

/-- **A thrown error.** In every state a run reaches, the error is kept exactly when somebody would
hear of it. -/
theorem throw_keeps_iff (blockFn : BlockFn) (executor chunkSize : Option Nat)
    (calls : List ApiCall) (s : ApiState) (error : JSValue)
    (hrun : PartialRun.run throwStep
      (.new (.new blockFn (executor.elim .undefined .function) chunkSize)) calls = some s) :
    KeepsError s error ↔ ¬ Unheard s := by
  have h : PushInv s.gen s.pushed := by
    refine @PartialRun.run_induct _ _ _ (fun s => PushInv s.gen s.pushed) ?_ calls _ _
      (pushInv_new blockFn executor chunkSize) hrun
    exact fun s c s' hs hstep => (throwStep_keeps hs hstep).1
  rw [unheard_iff]
  cases hu : s.gen.unhandled with
  | true =>
    refine iff_of_true ?_ (fun hn => by cases hn.1)
    obtain ⟨gen₁, hthrow, hapi, hs, hserves⟩ := h.api.throw_unhandled error hu
    obtain ⟨hnew, hrejected⟩ := h.rejectNew error
    obtain ⟨new, hsettlements, _⟩ := (hserves h.separate).answers
    refine ⟨gen₁, hthrow, Or.inr ⟨outcome_append hsettlements hrejected, hs, ?_⟩⟩
    intro more t hmore
    have ht : PushInv t.gen t.pushed ∧ Stopped t.gen := by
      refine @PartialRun.run_induct _ _ _ (fun s => PushInv s.gen s.pushed ∧ Stopped s.gen) ?_ more
        { s with gen := gen₁ } _ ⟨hnew.serves (hserves h.separate) hapi, hs⟩ hmore
      intro s c s' hs hstep
      obtain ⟨hinv, hstopped⟩ := throwStep_keeps hs.1 hstep
      exact ⟨hinv, hstopped hs.2⟩
    exact stopped_answersDone ht.1 ht.2
  | false =>
    obtain ⟨gen', hthrow, hsettlements, hwaiting⟩ := throw_handled_eq h error hu
    obtain ⟨h₁, _, hrejected⟩ := h.rejectPush error
    have houtcome : ∀ p, gen'.ctx.outcome p = (s.gen.rejectPush error).ctx.outcome p := by
      intro p
      unfold JSContext.outcome JSContext.settlementsOf
      rw [hsettlements]
    cases hout : s.outstanding with
    | some p =>
      refine iff_of_true ?_ (fun hn => by cases hn.2)
      exact ⟨gen', hthrow, Or.inl ⟨p, hout, (houtcome p).trans (hrejected p hout), Or.inl hwaiting⟩⟩
    | none =>
      refine iff_of_false ?_ (fun hn => hn ⟨rfl, rfl⟩)
      intro hkeeps
      obtain ⟨gen, heq, hkept⟩ := hkeeps
      obtain ⟨rfl, -⟩ := Prod.mk.inj (Option.some.inj (hthrow.symm.trans heq))
      rcases hkept with ⟨p, hp, _⟩ | ⟨hreturned, _⟩
      · rw [hout] at hp
        cases hp
      · -- The promise that is returned is that of the read, and it waits.
        rw [houtcome, ← rejectPush_promises s.gen error, outcome_eq_none.2 h₁.fresh] at hreturned
        cases hreturned

/-- The first push waits for its promise. -/
theorem throw_keeps_awaited : ∃ s, PartialRun.run throwStep
      (.new (.new .toarraybuffer (.function 0) none))
      [.next .undefined, .push .null, .thenPush 2, .executorReturns] = some s ∧
    (KeepsError s (.int 7) ↔ ¬ Unheard s) :=
  ⟨_, rfl, throw_keeps_iff .toarraybuffer (some 0) none
    [.next .undefined, .push .null, .thenPush 2, .executorReturns] _ (.int 7) rfl⟩

/-- The executor has not pushed yet. -/
theorem throw_loses_error : ∃ s, PartialRun.run throwStep
      (.new (.new .toarraybuffer (.function 0) none)) [.next .undefined, .executorReturns] = some s ∧
    ¬ KeepsError s (.int 7) := by
  refine ⟨_, rfl, ?_⟩
  intro hkeeps
  obtain ⟨gen, heq, hkept⟩ := hkeeps
  obtain ⟨rfl, -⟩ := Prod.mk.inj (Option.some.inj heq)
  rcases hkept with ⟨p, hp, _⟩ | ⟨hreturned, _⟩
  · cases hp
  · exact absurd hreturned (by decide)

end QjsNet
