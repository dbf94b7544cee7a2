import QjsNet.GeneratorApi

/- Push and next as a protocol between the executor and the consumer.

   `generator_push` leaves the capability of its promise in the slot that
   `generator_next` calls (`generator_callback`), so a read should resume the executor
   that waits for it. `PushInv` says what the slot holds: the capability of the last
   push as long as its promise is unsettled (`outstanding`), and nothing that can be
   called afterwards.

   The slot is looked at as long as `started` is not set, and the first `next` that
   finds no executor to start sets it. The first `next` starts the executor, so it is
   the second one and no other that resumes a push (`back_pressure_iff`). -/
namespace QjsNet

variable {gen gen' : Generator} {pushed : List Nat}

/-- The last push, when its promise is unsettled. -/
def Generator.outstanding (gen : Generator) (pushed : List Nat) : Option Nat :=
  pushed.getLast?.filter fun p => gen.ctx.outcome p = none

theorem outstanding_eq_some {p : Nat} : gen.outstanding pushed = some p ↔
    pushed.getLast? = some p ∧ gen.ctx.outcome p = none := by
  simp [Generator.outstanding, Option.filter_eq_some_iff]

theorem outstanding_mem {p : Nat} (h : gen.outstanding pushed = some p) : p ∈ pushed :=
  List.mem_of_getLast? (outstanding_eq_some.1 h).1

theorem outstanding_congr (h : ∀ p ∈ pushed, gen'.ctx.outcome p = gen.ctx.outcome p) :
    gen'.outstanding pushed = gen.outstanding pushed := by
  unfold Generator.outstanding
  cases hl : pushed.getLast? with
  | none => rfl
  | some p =>
    rw [Option.filter_some, Option.filter_some, h p (List.mem_of_getLast? hl)]

structure PushInv (gen : Generator) (pushed : List Nat) : Prop where
  api : ApiInv gen
  separate : gen.queue.continuous = false
  executor : gen.executor.isFunction = true → ∃ e, gen.executor = .function e
  settled : ∀ p ∈ gen.ctx.settlements.map Prod.fst, p < gen.ctx.promises
  waiting : ∀ p ∈ gen.iterator.waiting, p < gen.ctx.promises
  created : ∀ p ∈ pushed, p < gen.ctx.promises ∧ p ∉ gen.iterator.waiting
  slot : ∀ p, gen.outstanding pushed = some p → gen.resolveReject = .ofPromise p
  resolver : gen.outstanding pushed = none → gen.callback.isFunction = false
  rejecter : gen.resolveReject.reject.isNullish = true ∨
    ∃ p ∈ pushed, gen.resolveReject.reject = .reject p
  record : gen.promise.map (·.promise) = pushed.getLast?

theorem pushInv_new (blockFn : BlockFn) (executor chunkSize : Option Nat) :
    PushInv (.new blockFn (executor.elim .undefined .function) chunkSize) [] := by
  have hexecutor := @callbackArg_function executor
  have hnew := apiInv_new blockFn (executor.elim .undefined .function) chunkSize
  cases chunkSize with
  | none =>
    exact ⟨hnew, rfl, hexecutor, fun _ hp => absurd hp List.not_mem_nil,
      fun _ hp => absurd hp List.not_mem_nil, fun _ hp => absurd hp List.not_mem_nil,
      (fun _ hp => by cases hp), fun _ => rfl, Or.inl rfl, rfl⟩
  | some n =>
    exact ⟨hnew, rfl, hexecutor, fun _ hp => absurd hp List.not_mem_nil,
      fun _ hp => absurd hp List.not_mem_nil, fun _ hp => absurd hp List.not_mem_nil,
      (fun _ hp => by cases hp), fun _ => rfl, Or.inl rfl, rfl⟩

theorem PushInv.untouched {k : Nat} (h : PushInv gen pushed) (hserves : Serves k gen gen') :
    ∀ p ∈ pushed, gen'.ctx.settlementsOf p = gen.ctx.settlementsOf p := by
  intro p hp
  obtain ⟨hlt, hwaiting⟩ := h.created p hp
  obtain ⟨new, hs, hw⟩ := hserves.answers
  refine settlementsOf_other hs ?_
  intro hnew
  have hmem : p ∈ gen.iterator.waiting ++ List.range' gen.ctx.promises k := by
    rw [← hw]
    exact List.mem_append_left _ hnew
  rcases List.mem_append.1 hmem with hw' | hr
  · exact hwaiting hw'
  · exact absurd (List.mem_range'_1.1 hr).1 (Nat.not_le_of_lt hlt)

theorem PushInv.serves {k : Nat} (h : PushInv gen pushed) (hserves : Serves k gen gen')
    (hapi : ApiInv gen') : PushInv gen' pushed := by
  have hsame : gen'.outstanding pushed = gen.outstanding pushed := by
    refine outstanding_congr ?_
    intro p hp
    unfold JSContext.outcome
    rw [h.untouched hserves p hp]
  obtain ⟨new, hs, hw⟩ := hserves.answers
  -- A promise that is settled or waits now did so before, or is new.
  have hids : ∀ p, p ∈ new.map Prod.fst ++ gen'.iterator.waiting →
      p < gen'.ctx.promises ∧ (p ∈ gen.iterator.waiting ∨ gen.ctx.promises ≤ p) := by
    intro p hp
    rw [hw] at hp
    rw [hserves.promises]
    rcases List.mem_append.1 hp with hw' | hr
    · exact ⟨Nat.lt_add_right k (h.waiting p hw'), Or.inl hw'⟩
    · exact ⟨(List.mem_range'_1.1 hr).2, Or.inr (List.mem_range'_1.1 hr).1⟩
  refine ⟨hapi, hserves.separate h.separate, ?_, ?_, ?_, ?_, ?_, ?_, ?_, ?_⟩
  · rw [hserves.executor]
    exact h.executor
  · intro p hp
    rw [hs, List.map_append] at hp
    rcases List.mem_append.1 hp with hold | hnew
    · rw [hserves.promises]
      exact Nat.lt_add_right k (h.settled p hold)
    · exact (hids p (List.mem_append_left _ hnew)).1
  · exact fun p hp => (hids p (List.mem_append_right _ hp)).1
  · intro p hp
    obtain ⟨hlt, hwaiting⟩ := h.created p hp
    refine ⟨?_, ?_⟩
    · rw [hserves.promises]
      exact Nat.lt_add_right k hlt
    · intro hp'
      rcases (hids p (List.mem_append_right _ hp')).2 with hw' | hge
      · exact hwaiting hw'
      · exact absurd hge (Nat.not_le_of_lt hlt)
  · rw [hsame, hserves.slot]
    exact h.slot
  · unfold Generator.callback
    rw [hsame, hserves.slot]
    exact h.resolver
  · rw [hserves.slot]
    exact h.rejecter
  · rw [hserves.promise]
    exact h.record

/-! ## Settling the last push -/

/-- A push is settled, and nothing that can be called for it stays in the slot. -/
theorem PushInv.settle {p : Nat} {x : Settlement} {ctx : JSContext} {funcs : ResolveFunctions}
    (h : PushInv gen pushed) (hp : p ∈ pushed)
    (hlast : gen.outstanding pushed = some p ∨ gen.outstanding pushed = none)
    (hctx : ctx.settlements = gen.ctx.settlements ++ [(p, x)])
    (hpromises : ctx.promises = gen.ctx.promises) (hresolve : funcs.resolve.isFunction = false)
    (hreject : funcs.reject.isNullish = true ∨ ∃ p ∈ pushed, funcs.reject = .reject p) :
    PushInv { gen with ctx, resolveReject := funcs } pushed ∧
      Generator.outstanding { gen with ctx, resolveReject := funcs } pushed = none := by
  have hnone : Generator.outstanding { gen with ctx, resolveReject := funcs } pushed = none := by
    rw [Option.eq_none_iff_forall_not_mem]
    intro q hq
    obtain ⟨hq, hunsettled⟩ := outstanding_eq_some.1 hq
    have hsettled : ∃ y, ctx.outcome q = some y := by
      cases hold : gen.ctx.outcome q with
      | some y => exact ⟨y, outcome_append hctx hold⟩
      | none =>
        -- The last push was unsettled, so it is the one that was settled now.
        have hout : gen.outstanding pushed = some q := outstanding_eq_some.2 ⟨hq, hold⟩
        rcases hlast with hlast | hlast
        · obtain rfl := Option.some.inj (hlast.symm.trans hout)
          refine ⟨x, ?_⟩
          unfold JSContext.outcome
          rw [settlementsOf_append hctx, outcome_eq_none.1 hold]
          simp
        · rw [hlast] at hout
          cases hout
    obtain ⟨y, hy⟩ := hsettled
    rw [show JSContext.outcome _ q = some y from hy] at hunsettled
    cases hunsettled
  refine ⟨⟨h.api.congr rfl rfl, h.separate, h.executor, ?_, ?_, ?_, ?_, fun _ => hresolve, hreject,
    h.record⟩, hnone⟩
  · intro q hq
    rw [hctx, List.map_append] at hq
    rw [hpromises]
    rcases List.mem_append.1 hq with hold | hnew
    · exact h.settled q hold
    · rw [List.map_singleton, List.mem_singleton] at hnew
      rw [hnew]
      exact (h.created p hp).1
  · rw [hpromises]
    exact h.waiting
  · rw [hpromises]
    exact h.created
  · intro q hq
    rw [hnone] at hq
    cases hq

theorem PushInv.setStarted (h : PushInv gen pushed) : PushInv { gen with started := true } pushed :=
  ⟨h.api.congr rfl rfl, h.separate, h.executor, h.settled, h.waiting, h.created, h.slot, h.resolver,
    h.rejecter, h.record⟩

theorem PushInv.fresh (h : PushInv gen pushed) : gen.ctx.settlementsOf gen.ctx.promises = [] :=
  settlementsOf_eq_nil.2 fun hp => absurd (h.settled _ hp) (Nat.lt_irrefl _)

theorem generatorCallback_resolve {arg : JSValue} {p : Nat} (h : gen.callback = .resolve p) :
    generatorCallback gen arg = { gen with
      ctx := jsCall gen.ctx (.resolve p) [arg]
      resolveReject := { gen.resolveReject with resolve := .null } } := by
  simp [generatorCallback, h, JSValue.isFunction, Generator.setCallback]

theorem resume_starts {arg : JSValue} (h : gen.executor.isFunction = true) :
    gen.resume arg = { gen with
      executor := .undefined
      ctx := jsCall gen.ctx gen.executor [] } := by
  simp [Generator.resume, startExecutor, h]

theorem resume_started {arg : JSValue} (h : gen.executor.isFunction = false) :
    (gen.resume arg).executor = gen.executor ∧ (gen.resume arg).started = true := by
  have hstart : startExecutor gen = (gen, false) := by simp [startExecutor, h]
  simp only [Generator.resume, hstart, Bool.false_eq_true, if_false]
  cases hs : gen.started with
  | true => exact ⟨rfl, hs⟩
  | false => cases hc : gen.callback.isFunction <;> simp [generatorCallback, hc, Generator.setCallback]

/-- **Resuming.** Before `started` is set, the last push is resolved with the argument of the read;
otherwise no promise is settled. -/
theorem PushInv.resume (h : PushInv gen pushed) (arg : JSValue) :
    PushInv (gen.resume arg) pushed ∧
      (gen.resume arg).ctx.settlements = gen.ctx.settlements ++
        (if gen.executor.isFunction || gen.started then []
         else (gen.outstanding pushed).toList.map fun p => (p, .resolved arg)) := by
  unfold Generator.resume startExecutor
  by_cases hexec : gen.executor.isFunction = true
  · obtain ⟨e, he⟩ := h.executor hexec
    simp only [hexec, if_true, Bool.true_or]
    have hctx : (jsCall gen.ctx gen.executor []).settlements = gen.ctx.settlements ++ [] := by
      rw [he, settlements_function, List.append_nil]
    refine ⟨?_, hctx⟩
    have hserves : Serves 0 { gen with executor := .undefined }
        { gen with executor := .undefined, ctx := jsCall gen.ctx gen.executor [] } :=
      ⟨rfl, rfl, rfl, rfl, rfl, ⟨[], hctx, (List.append_nil _).symm⟩, id, id⟩
    have hundefined : PushInv { gen with executor := .undefined } pushed :=
      ⟨h.api.congr rfl rfl, h.separate, (fun hfn => by cases hfn), h.settled, h.waiting, h.created,
        h.slot, h.resolver, h.rejecter, h.record⟩
    exact hundefined.serves hserves (h.api.congr rfl rfl)
  · simp only [hexec, Bool.false_eq_true, if_false]
    cases hs : gen.started with
    | true => exact ⟨by simpa using h, by simp⟩
    | false =>
      simp only [Bool.false_eq_true, if_false, Bool.or_self]
      cases hout : gen.outstanding pushed with
      | none =>
        rw [generatorCallback_idle (h.resolver hout)]
        exact ⟨h.setStarted, by simp⟩
      | some p =>
        have hslot := h.slot p hout
        have hcallback : gen.callback = .resolve p := by rw [Generator.callback, hslot]; rfl
        have hreject : gen.resolveReject.reject = .reject p := by rw [hslot]; rfl
        rw [generatorCallback_resolve hcallback]
        obtain ⟨hinv, _⟩ := @PushInv.settle _ _ p _ _ ⟨.null, gen.resolveReject.reject⟩ h
          (outstanding_mem hout) (Or.inl hout) (settlements_resolve gen.ctx p arg) rfl rfl
          (Or.inr ⟨p, outstanding_mem hout, hreject⟩)
        exact ⟨hinv.setStarted, settlements_resolve ..⟩

theorem PushInv.push {v ret : JSValue} (h : PushInv gen pushed)
    (heq : generatorPush gen v = some (gen', ret)) :
    PushInv gen' (pushed ++ [gen.ctx.promises]) ∧
      gen'.executor = gen.executor ∧ gen'.started = gen.started ∧
      gen'.outstanding (pushed ++ [gen.ctx.promises]) = some gen.ctx.promises ∧
      ∀ p ∈ pushed, gen'.ctx.settlementsOf p = gen.ctx.settlementsOf p := by
  obtain ⟨hapi, gen₁, hserves, rfl⟩ := h.api.push heq
  let p₀ := gen.ctx.promises
  -- The new promise is none of the settled or waiting ones.
  have hnew : gen.createPush.ctx.settlementsOf p₀ = [] := h.fresh
  have hwaiting : p₀ ∉ gen.iterator.waiting := fun hp => absurd (h.waiting p₀ hp) (Nat.lt_irrefl _)
  have hlast : (pushed ++ [p₀]).getLast? = some p₀ := List.getLast?_concat
  have hcreated : PushInv { gen.createPush with promise := some (jsPromiseWrap p₀) }
      (pushed ++ [p₀]) := by
    have hout : Generator.outstanding { gen.createPush with promise := some (jsPromiseWrap p₀) }
        (pushed ++ [p₀]) = some p₀ := outstanding_eq_some.2 ⟨hlast, outcome_eq_none.2 hnew⟩
    refine ⟨h.api.congr rfl rfl, h.separate, h.executor, ?_, ?_, ?_, ?_, ?_, ?_, hlast.symm⟩
    · exact fun p hp => Nat.lt_succ_of_lt (h.settled p hp)
    · exact fun p hp => Nat.lt_succ_of_lt (h.waiting p hp)
    · intro p hp
      rcases List.mem_append.1 hp with hp | hp
      · obtain ⟨hlt, hw⟩ := h.created p hp
        exact ⟨Nat.lt_succ_of_lt hlt, hw⟩
      · obtain rfl := List.mem_singleton.1 hp
        exact ⟨Nat.lt_succ_self _, hwaiting⟩
    · intro p hp
      obtain rfl := Option.some.inj (hout.symm.trans hp)
      rfl
    · intro hnone
      rw [hout] at hnone
      cases hnone
    · exact Or.inr ⟨p₀, List.mem_append_right _ (List.mem_singleton_self _), rfl⟩
  have hserves' : Serves 0 { gen.createPush with promise := some (jsPromiseWrap p₀) }
      { gen₁ with promise := some (jsPromiseWrap p₀) } :=
    ⟨hserves.slot, rfl, hserves.executor, hserves.started, hserves.promises, hserves.answers,
      hserves.separate, hserves.stopped⟩
  refine ⟨hcreated.serves hserves' hapi, hserves.executor, hserves.started, ?_, ?_⟩
  · refine outstanding_eq_some.2 ⟨hlast, ?_⟩
    rw [outcome_eq_none, ← hnew]
    exact hcreated.untouched hserves' p₀ (List.mem_append_right _ (List.mem_singleton_self _))
  · intro p hp
    exact hcreated.untouched hserves' p (List.mem_append_left _ hp)

/-! ## An executor that waits for each push -/

inductive AwaitCall where
  | next (arg : JSValue)
  | push (value : JSValue)
  | executorReturns
  deriving DecidableEq, Repr

def ApiState.outstanding (s : ApiState) : Option Nat := s.gen.outstanding s.pushed

/-- Only an executor that was started can push, and it does so when its last push is settled. -/
def awaitStep (s : ApiState) : AwaitCall → Option ApiState
  | .next arg => apiStep s (.next arg)
  | .push value =>
    if generatorStarted s.gen && s.outstanding.isNone then apiStep s (.push value) else none
  | .executorReturns => apiStep s .executorReturns

/-- A read resolves the outstanding push with its argument, and leaves the other pushes alone. -/
def Resumes (s : ApiState) : AwaitCall → Prop
  | .next arg => ∀ p, s.outstanding = some p → ∃ s', awaitStep s (.next arg) = some s' ∧
      s'.gen.ctx.outcome p = some (.resolved arg) ∧
      ∀ p' ∈ s.pushed, p' ≠ p → s'.gen.ctx.settlementsOf p' = s.gen.ctx.settlementsOf p'
  | _ => True

/-- No push is settled twice. -/
def SettledOnce (s : ApiState) : Prop :=
  ∀ p ∈ s.pushed, (s.gen.ctx.settlementsOf p).length ≤ 1

/-- A read that finds a push outstanding is the second one. -/
def OnSecondRead (s : ApiState) : AwaitCall → Prop
  | .next _ => s.outstanding ≠ none → s.asked.length = 1
  | _ => True

/-- Before the first read nothing was pushed; `started` is set by the second one. -/
structure AwaitInv (s : ApiState) : Prop where
  inv : PushInv s.gen s.pushed
  fresh : s.asked = [] → s.pushed = [] ∧ s.gen.executor.isFunction = true ∧ s.gen.started = false
  begun : s.asked ≠ [] → s.gen.executor.isFunction = false ∧
    (s.gen.started = false ↔ s.asked.length = 1)
  once : SettledOnce s

theorem awaitInv_new (blockFn : BlockFn) (e : Nat) (chunkSize : Option Nat) :
    AwaitInv (.new (.new blockFn (.function e) chunkSize)) := by
  refine ⟨pushInv_new blockFn (some e) chunkSize, ?_, fun hne => absurd rfl hne,
    fun _ hp => absurd hp List.not_mem_nil⟩
  intro _
  cases chunkSize with
  | none => exact ⟨rfl, rfl, rfl⟩
  | some n => exact ⟨rfl, rfl, rfl⟩

theorem PushInv.next_starts {s : ApiState} (h : PushInv s.gen s.pushed)
    (hexec : s.gen.executor.isFunction = true) (arg : JSValue) :
    ∃ gen', awaitStep s (.next arg) = some { s with
        gen := gen'
        running := true
        asked := s.asked ++ [s.gen.ctx.promises] } ∧
      PushInv gen' s.pushed ∧ gen'.executor.isFunction = false ∧ gen'.started = s.gen.started ∧
      ∀ p ∈ s.pushed, gen'.ctx.settlementsOf p = s.gen.ctx.settlementsOf p := by
  obtain ⟨gen₁, hbegin, hapi₁, hserves₁⟩ := h.api.nextBegin arg
  have h₁ : PushInv gen₁ s.pushed := h.serves hserves₁ hapi₁
  obtain ⟨h₂, hresumed⟩ := h₁.resume arg
  have hexec₁ : gen₁.executor.isFunction = true := by rw [hserves₁.executor, hexec]
  have hresume := @resume_starts gen₁ arg hexec₁
  refine ⟨gen₁.resume arg, apiStep_next_starts hbegin hexec, h₂, ?_, ?_, ?_⟩
  · rw [hresume]
    rfl
  · rw [hresume]
    exact hserves₁.started
  · intro p hp
    rw [hexec₁, Bool.true_or, if_pos rfl] at hresumed
    rw [settlementsOf_other hresumed List.not_mem_nil, h.untouched hserves₁ p hp]

theorem PushInv.next_resumes {s : ApiState} (h : PushInv s.gen s.pushed)
    (hexec : s.gen.executor.isFunction = false) (arg : JSValue) :
    ∃ gen', awaitStep s (.next arg) = some { s with
        gen := gen'
        asked := s.asked ++ [s.gen.ctx.promises] } ∧
      PushInv gen' s.pushed ∧ gen'.executor.isFunction = false ∧ gen'.started = true ∧
      ∀ p ∈ s.pushed, gen'.ctx.settlementsOf p = s.gen.ctx.settlementsOf p ++
        if s.gen.started = false ∧ s.outstanding = some p then [.resolved arg] else [] := by
  obtain ⟨gen₁, hbegin, hapi₁, hserves₁⟩ := h.api.nextBegin arg
  have h₁ : PushInv gen₁ s.pushed := h.serves hserves₁ hapi₁
  obtain ⟨h₂, hresumed⟩ := h₁.resume arg
  obtain ⟨hapi₃, hserves₃⟩ := h₂.api.nextEnd
  have hexec₁ : gen₁.executor.isFunction = false := by rw [hserves₁.executor, hexec]
  have hresume := @resume_started gen₁ arg hexec₁
  refine ⟨generatorNextEnd (gen₁.resume arg), apiStep_next hbegin hexec,
    h₂.serves hserves₃ hapi₃, ?_, ?_, ?_⟩
  · rw [hserves₃.executor, hresume.1, hexec₁]
  · rw [hserves₃.started, hresume.2]
  · intro p hp
    -- Taking in the read leaves the outstanding push outstanding.
    have hout : gen₁.outstanding s.pushed = s.outstanding := by
      refine outstanding_congr ?_
      intro p hp
      unfold JSContext.outcome
      rw [h.untouched hserves₁ p hp]
    rw [hexec₁, Bool.false_or, hserves₁.started, hout] at hresumed
    rw [h₂.untouched hserves₃ p hp, settlementsOf_append hresumed, h.untouched hserves₁ p hp]
    congr 1
    cases s.gen.started with
    | true => rfl
    | false =>
      cases s.outstanding with
      | none => rfl
      | some q => by_cases hqp : q = p <;> simp [hqp]

theorem AwaitInv.next_first {s : ApiState} (h : AwaitInv s)
    (hexec : s.gen.executor.isFunction = true) (arg : JSValue) :
    (∀ s', awaitStep s (.next arg) = some s' → AwaitInv s') ∧
      (Resumes s (.next arg) ↔ OnSecondRead s (.next arg)) := by
  have hasked : s.asked = [] := by
    by_contra hne
    rw [(h.begun hne).1] at hexec
    cases hexec
  obtain ⟨hpushed, _, hstarted⟩ := h.fresh hasked
  obtain ⟨gen', hstep, hinv, hexec', hstarted', hsame⟩ := h.inv.next_starts hexec arg
  refine ⟨?_, ?_⟩
  · intro s' hs'
    obtain rfl := Option.some.inj (hstep.symm.trans hs')
    refine ⟨hinv, fun hnil => by simp at hnil, ?_, ?_⟩
    · intro _
      rw [hasked]
      exact ⟨hexec', iff_of_true (hstarted'.trans hstarted) rfl⟩
    · intro p hp
      rw [hsame p hp]
      exact h.once p hp
  · -- Nothing was pushed yet.
    refine iff_of_true ?_ ?_
    · intro p hp
      have hmem := outstanding_mem hp
      rw [hpushed] at hmem
      cases hmem
    · intro hne
      simp [ApiState.outstanding, Generator.outstanding, hpushed] at hne

theorem outstanding_unsettled {s : ApiState} {p : Nat} (hp : s.outstanding = some p) :
    s.gen.ctx.settlementsOf p = [] :=
  outcome_eq_none.1 (outstanding_eq_some.1 hp).2

theorem AwaitInv.asked {s : ApiState} (h : AwaitInv s)
    (hexec : s.gen.executor.isFunction = false) : s.asked ≠ [] := by
  intro hnil
  rw [(h.fresh hnil).2.1] at hexec
  cases hexec

theorem AwaitInv.next_later_inv {s s' : ApiState} (h : AwaitInv s)
    (hexec : s.gen.executor.isFunction = false) {arg : JSValue}
    (hs' : awaitStep s (.next arg) = some s') : AwaitInv s' := by
  have hasked := h.asked hexec
  obtain ⟨gen', hstep, hinv, hexec', hstarted', hresumed⟩ := h.inv.next_resumes hexec arg
  obtain rfl := Option.some.inj (hstep.symm.trans hs')
  refine ⟨hinv, fun hnil => by simp at hnil, ?_, ?_⟩
  · intro _
    rw [show gen'.started = _ from hstarted']
    refine ⟨hexec', iff_of_false (by decide) ?_⟩
    rw [List.length_append, List.length_singleton]
    have hlen := List.length_pos_iff.2 hasked
    omega
  · intro p hp
    rw [hresumed p hp]
    split
    · next hout =>
      rw [outstanding_unsettled hout.2]
      exact Nat.le_refl _
    · rw [List.append_nil]
      exact h.once p hp

theorem AwaitInv.next_later_resumes {s : ApiState} (h : AwaitInv s)
    (hexec : s.gen.executor.isFunction = false) (arg : JSValue) :
    Resumes s (.next arg) ↔ OnSecondRead s (.next arg) := by
  have hphase := (h.begun (h.asked hexec)).2
  obtain ⟨gen', hstep, -, -, -, hresumed⟩ := h.inv.next_resumes hexec arg
  cases hout : s.outstanding with
  | none =>
    refine iff_of_true ?_ (fun hne => absurd hout hne)
    intro p hp
    rw [hout] at hp
    cases hp
  | some p =>
    have hp : p ∈ s.pushed := outstanding_mem hout
    have hafter := hresumed p hp
    rw [outstanding_unsettled hout, List.nil_append] at hafter
    cases hstarted : s.gen.started with
    | false =>
      rw [if_pos ⟨hstarted, hout⟩] at hafter
      refine iff_of_true ?_ (fun _ => hphase.1 hstarted)
      intro p' hp'
      obtain rfl := Option.some.inj (hout.symm.trans hp')
      refine ⟨_, hstep, by simp [JSContext.outcome, hafter], ?_⟩
      intro p' hp' hne
      have hother : ¬ (s.gen.started = false ∧ s.outstanding = some p') := by
        rw [hout]
        exact fun hsame => hne (Option.some.inj hsame.2).symm
      rw [hresumed p' hp', if_neg hother, List.append_nil]
    | true =>
      rw [if_neg (by simp [hstarted])] at hafter
      refine iff_of_false ?_ ?_
      · intro hresumes
        obtain ⟨s', hs', houtcome, _⟩ := hresumes p hout
        obtain rfl := Option.some.inj (hstep.symm.trans hs')
        rw [JSContext.outcome, hafter] at houtcome
        cases houtcome
      · intro hsecond
        have hlen := hsecond (by rw [hout]; exact Option.some_ne_none p)
        rw [hphase.2 hlen] at hstarted
        cases hstarted

/-- **A read.** It keeps the invariant, and resumes the push exactly when it is the second one. -/
theorem AwaitInv.next {s : ApiState} (h : AwaitInv s) (arg : JSValue) :
    (∀ s', awaitStep s (.next arg) = some s' → AwaitInv s') ∧
      (Resumes s (.next arg) ↔ OnSecondRead s (.next arg)) := by
  cases hexec : s.gen.executor.isFunction with
  | true => exact h.next_first hexec arg
  | false => exact ⟨fun _ hs' => h.next_later_inv hexec hs', h.next_later_resumes hexec arg⟩

theorem awaitStep_spec {s s' : ApiState} {c : AwaitCall} (h : AwaitInv s)
    (hstep : awaitStep s c = some s') : AwaitInv s' ∧ (Resumes s c ↔ OnSecondRead s c) := by
  cases c with
  | next arg =>
    obtain ⟨hkeep, hiff⟩ := h.next arg
    exact ⟨hkeep s' hstep, hiff⟩
  | push value =>
    refine ⟨?_, Iff.rfl⟩
    simp only [awaitStep] at hstep
    split at hstep
    · next hready =>
      obtain ⟨⟨gen, ret⟩, heq, hs'⟩ := Option.bind_eq_some_iff.1 hstep
      obtain rfl := Option.some.inj hs'
      obtain ⟨hinv, hexecutor, hstarted, hout, hsame⟩ := h.inv.push heq
      have hasked : s.asked ≠ [] := by
        intro hnil
        simp [generatorStarted, (h.fresh hnil).2.1] at hready
      refine ⟨hinv, fun hnil => absurd hnil hasked, ?_, ?_⟩
      · intro _
        rw [show gen.executor = _ from hexecutor, show gen.started = _ from hstarted]
        exact h.begun hasked
      · intro p hp
        rcases List.mem_append.1 hp with hp | hp
        · rw [show gen.ctx.settlementsOf p = _ from hsame p hp]
          exact h.once p hp
        · obtain rfl := List.mem_singleton.1 hp
          rw [show gen.ctx.settlementsOf _ = _ from outcome_eq_none.1 (outstanding_eq_some.1 hout).2]
          exact Nat.zero_le _
    · cases hstep
  | executorReturns =>
    refine ⟨?_, Iff.rfl⟩
    simp only [awaitStep, apiStep] at hstep
    split at hstep
    · obtain rfl := Option.some.inj hstep
      obtain ⟨hapi, hserves⟩ := h.inv.api.nextEnd
      refine ⟨h.inv.serves hserves hapi, ?_, ?_, ?_⟩
      · intro hnil
        rw [show (generatorNextEnd s.gen).executor = _ from hserves.executor,
          show (generatorNextEnd s.gen).started = _ from hserves.started]
        exact h.fresh hnil
      · intro hne
        rw [show (generatorNextEnd s.gen).executor = _ from hserves.executor,
          show (generatorNextEnd s.gen).started = _ from hserves.started]
        exact h.begun hne
      · intro p hp
        rw [h.inv.untouched hserves p hp]
        exact h.once p hp
    · cases hstep

/-- **Back-pressure.** In a run of an executor that waits for each push, every read resumes the
outstanding push and no push is settled twice, if and only if no read but the second one finds a
push outstanding. -/
theorem back_pressure_iff (blockFn : BlockFn) (e : Nat) (chunkSize : Option Nat)
    (calls : List AwaitCall) :
    (PartialRun.Meets awaitStep Resumes (.new (.new blockFn (.function e) chunkSize)) calls ∧
      PartialRun.Throughout awaitStep SettledOnce (.new (.new blockFn (.function e) chunkSize))
        calls) ↔
    PartialRun.Meets awaitStep OnSecondRead (.new (.new blockFn (.function e) chunkSize)) calls := by
  have hnew := awaitInv_new blockFn e chunkSize
  have hiff := @PartialRun.meets_iff _ _ awaitStep AwaitInv Resumes OnSecondRead
    (fun s c s' hs hstep =>
      ⟨(awaitStep_spec hs hstep).2, fun _ => (awaitStep_spec hs hstep).1⟩) calls _ hnew
  rw [hiff]
  refine ⟨fun h => h.1, fun h => ⟨h, ?_⟩⟩
  intro pre _ s hrun
  exact (PartialRun.run_induct (fun s c s' hs hstep => (awaitStep_spec hs hstep).1) pre hnew hrun).once

/-- The second push of an executor is not resumed. -/
theorem push_not_resumed :
    let calls := [.next .undefined, .push (.string [97]), .executorReturns, .next (.int 1),
      .push (.string [98]), .next (.int 2)]
    ¬ (PartialRun.Meets awaitStep Resumes (.new (.new .toarraybuffer (.function 0) none)) calls ∧
      PartialRun.Throughout awaitStep SettledOnce (.new (.new .toarraybuffer (.function 0) none))
        calls) := by
  intro calls h
  obtain ⟨h, _⟩ := h
  obtain ⟨_, h⟩ := h _ rfl
  obtain ⟨_, h⟩ := h _ rfl
  obtain ⟨_, h⟩ := h _ rfl
  obtain ⟨_, h⟩ := h _ rfl
  obtain ⟨_, h⟩ := h _ rfl
  obtain ⟨hresumes, _⟩ := h _ rfl
  obtain ⟨s', hs', houtcome, _⟩ := hresumes 3 (by decide)
  obtain rfl := Option.some.inj hs'
  exact absurd houtcome (by decide)

end QjsNet
