import QjsNet.GeneratorChunks

/- Two schedules of the same calls that feed a generator.

   What the generator is given is fixed, and the reads come in between in any
   order. A read that waits is given a value at once; a read that comes later is given
   what the queue makes of it. `Timed` says that the two are the same: the value is
   what `block_fn` makes of its characters, and it is the turn of this value.
   `generator_write` makes sure of both except for a chunk without bytes;
   `generator_yield` of neither.

   When it holds at every step of two schedules, every read that is settled in both gets
   the same in both (`timing_independent`). -/
namespace QjsNet

/-- A call that gives the generator a chunk. -/
inductive Feed where
  | push (value : JSValue)
  | yield (value : JSValue) (callback : Option Nat)
  | write (data : Bytes) (callback : Option Nat)
  | enqueue (value : JSValue)
  deriving DecidableEq, Repr

def Feed.chunk : Feed → Bytes
  | .push value => jsInputChars value
  | .yield value _ => jsInputChars value
  | .write data _ => data
  | .enqueue value => jsInputChars value

inductive ScheduleCall where
  | feed (p : Feed)
  | next (arg : JSValue)
  | executorReturns
  deriving DecidableEq, Repr

def ScheduleCall.feed? : ScheduleCall → Option Feed
  | .feed p => some p
  | _ => none

/-- The feeds of a schedule, in order. -/
def feeds (calls : List ScheduleCall) : List Feed := calls.filterMap ScheduleCall.feed?

/-- The number of its reads. -/
def readCount (calls : List ScheduleCall) : Nat := calls.countP fun c => c matches .next _

def scheduleStep (s : ApiState) : ScheduleCall → Option ApiState
  | .feed (.push value) => apiStep s (.push value)
  | .feed (.yield value callback) => do
    let (gen, _) ← generatorYield s.gen value (callbackArg callback)
    some { s with gen }
  | .feed (.write data callback) => apiStep s (.write data callback)
  | .feed (.enqueue value) => apiStep s (.enqueue value)
  | .next arg => apiStep s (.next arg)
  | .executorReturns => apiStep s .executorReturns

def Generator.mode (gen : Generator) : Option Nat :=
  if gen.buffering then some gen.chunkSize else none

/-- The value is what a read would get for it from the queue, and nothing queued is overtaken. -/
def Generator.inTurn (gen : Generator) (value : JSValue) : Prop :=
  value = gen.blockFn.value (jsInputChars value) ∧
    Passes gen.mode (itemsData gen.queue.items) (jsInputChars value)

/-- What a read that waits is given directly it would get from the queue as well. -/
def Timed (s : ApiState) : ScheduleCall → Prop
  | .feed (.push value) => s.gen.iterator.reads ≠ [] → s.gen.inTurn value
  | .feed (.yield value _) => s.gen.iterator.reads ≠ [] → s.gen.inTurn value
  | .feed (.write data _) => s.gen.direct = true → data ≠ []
  | _ => True

instance (gen : Generator) (value : JSValue) : Decidable (gen.inTurn value) :=
  inferInstanceAs (Decidable (_ ∧ _))

instance (s : ApiState) : (c : ScheduleCall) → Decidable (Timed s c)
  | .feed (.push value) => inferInstanceAs (Decidable (_ → s.gen.inTurn value))
  | .feed (.yield value _) => inferInstanceAs (Decidable (_ → s.gen.inTurn value))
  | .feed (.write data _) => inferInstanceAs (Decidable (s.gen.direct = true → data ≠ []))
  | .feed (.enqueue _) => isTrue trivial
  | .next _ => isTrue trivial
  | .executorReturns => isTrue trivial

/-- Every read that is settled in both states was given the same. -/
def SameDeliveries (s₁ s₂ : ApiState) : Prop :=
  ∀ (k p₁ p₂ : Nat) x₁ x₂, s₁.asked[k]? = some p₁ → s₂.asked[k]? = some p₂ →
    s₁.gen.ctx.outcome p₁ = some x₁ → s₂.gen.ctx.outcome p₂ = some x₂ → x₁ = x₂

variable {gen gen' : Generator} {pushed asked : List Nat} {f : BlockFn} {mode : Option Nat}
  {accepted delivered delivered' queued queued' : List Bytes} {d d' : Bytes} {k : Nat}

/-! ## The chunks of two schedules -/

/-- What was delivered at one place is determined by what was accepted. -/
theorem Fits.agree (h : Fits mode accepted delivered queued)
    (h' : Fits mode accepted delivered' queued') (hd : delivered[k]? = some d)
    (hd' : delivered'[k]? = some d') : d = d' := by
  cases mode with
  | none =>
    -- Both are the chunk that was accepted at this place.
    have hall : ∀ {delivered queued : List Bytes} {d : Bytes}, delivered ++ queued = accepted →
        delivered[k]? = some d → accepted[k]? = some d := by
      intro delivered queued d heq hd
      obtain ⟨hlt, _⟩ := List.getElem?_eq_some_iff.1 hd
      rw [← heq, List.getElem?_append_left hlt, hd]
    exact Option.some.inj ((hall h hd).symm.trans (hall h' hd'))
  | some c =>
    obtain ⟨hlen, _, hbytes⟩ := h
    obtain ⟨hlen', _, hbytes'⟩ := h'
    exact Cut.full_pieces_eq k hlen hlen' (hbytes.trans hbytes'.symm) hd hd'

theorem InMode.mode_eq (h : InMode gen mode) : gen.mode = mode := by
  unfold Generator.mode
  cases mode with
  | none => rw [h.1]; rfl
  | some c => rw [h.1, h.2]; rfl

theorem outcome_mem {ctx : JSContext} {p : Nat} {x : Settlement} (h : ctx.outcome p = some x) :
    (p, x) ∈ ctx.settlements := by
  obtain ⟨e, he, hx⟩ := List.mem_map.1 (List.mem_of_mem_head? h)
  obtain ⟨hmem, hp⟩ := List.mem_filter.1 he
  have hep : e.1 = p := by simpa using hp
  rw [← hep, ← hx]
  exact hmem

/-- The `k`-th read, when it is settled, was given the `k`-th chunk. -/
theorem Holds.outcome {p : Nat} {x : Settlement} (h : Holds gen pushed asked delivered)
    (hnodup : asked.Nodup) (hapart : ∀ p ∈ pushed, p ∉ gen.iterator.waiting)
    (hp : asked[k]? = some p) (hx : gen.ctx.outcome p = some x) :
    ∃ d, delivered[k]? = some d ∧ x = gen.blockFn.answer d := by
  have hread : p ∉ pushed := by
    intro hpush
    have hmem := List.mem_of_getElem? hp
    rw [← h.asked] at hmem
    rcases List.mem_append.1 hmem with hans | hw
    · obtain ⟨e, he, rfl⟩ := List.mem_map.1 hans
      have hout := (List.mem_filter.1 he).2
      simp only [decide_eq_true_eq] at hout
      exact hout hpush
    · exact hapart p hpush hw
  have hans : (p, x) ∈ gen.answers pushed :=
    List.mem_filter.2 ⟨outcome_mem hx, by simpa using hread⟩
  obtain ⟨j, hj⟩ := List.getElem?_of_mem hans
  -- The promise was asked for once, so this is its place.
  have hjp : asked[j]? = some p := by
    have hmap : ((gen.answers pushed).map (·.1))[j]? = some p := by
      rw [List.getElem?_map, hj]
      rfl
    obtain ⟨hlt, _⟩ := List.getElem?_eq_some_iff.1 hmap
    rw [← h.asked, List.getElem?_append_left hlt, hmap]
  obtain ⟨hlt, _⟩ := List.getElem?_eq_some_iff.1 hjp
  have hjk : j = k := (List.getElem?_inj hlt hnodup).1 (hjp.trans hp.symm)
  have hsnd := congrArg (·[k]?) h.answers
  simp only [List.getElem?_map, ← hjk, hj, Option.map_some] at hsnd
  obtain ⟨d, hd, hdx⟩ := Option.map_eq_some_iff.1 hsnd.symm
  exact ⟨d, hjk ▸ hd, hdx.symm⟩

/-! ## One step -/

theorem ChunkInv.grow {p : Nat} (h : ChunkInv f mode gen pushed asked accepted)
    (hsettled : p ∉ gen.ctx.settlements.map Prod.fst) (hwaiting : p ∉ gen.iterator.waiting) :
    ChunkInv f mode gen (pushed ++ [p]) asked accepted := by
  obtain ⟨delivered, hholds, hfits⟩ := h.chunks
  have hanswers : gen.answers (pushed ++ [p]) = gen.answers pushed := by
    refine List.filter_congr ?_
    intro e he
    have hne : e.1 ≠ p := fun hep => hsettled (List.mem_map.2 ⟨e, he, hep⟩)
    simp [hne]
  refine ⟨h.api, h.going, h.separate, h.blockFn, h.setting, ?_, delivered, ⟨?_, ?_⟩, hfits⟩
  · intro q hq
    rcases List.mem_append.1 hq with hq | hq
    · exact h.apart q hq
    · exact List.mem_singleton.1 hq ▸ hwaiting
  · rw [hanswers]
    exact hholds.answers
  · rw [hanswers]
    exact hholds.asked

theorem ChunkInv.push {v ret : JSValue} (h : ChunkInv f mode gen pushed asked accepted)
    (hpush : PushInv gen pushed)
    (hv : gen.iterator.reads ≠ [] → v = gen.blockFn.value (jsInputChars v) ∧
      Passes mode (itemsData gen.queue.items) (jsInputChars v))
    (heq : generatorPush gen v = some (gen', ret)) :
    ChunkInv f mode gen' (pushed ++ [gen.ctx.promises]) asked (accepted ++ [jsInputChars v]) := by
  have hcreated : ChunkInv f mode gen.createPush pushed asked accepted :=
    h.congr rfl rfl rfl rfl rfl rfl
  have hgrown := hcreated.grow (settlementsOf_eq_nil.1 hpush.fresh)
    (fun hp => absurd (hpush.waiting _ hp) (Nat.lt_irrefl _))
  unfold generatorPush at heq
  obtain ⟨⟨gen₁, b⟩, h1, h2⟩ := Option.bind_eq_some_iff.1 heq
  have hyield := hgrown.yield (fun hfn => by cases hfn) hv h1
  obtain ⟨_, _, rfl⟩ := hcreated.api.yield (fun hfn => by cases hfn) h1
  obtain ⟨rfl, -⟩ := Prod.mk.inj (Option.some.inj h2)
  exact hyield.congr rfl rfl rfl rfl rfl rfl

structure ScheduleInv (f : BlockFn) (mode : Option Nat) (s : ApiState) (accepted : List Bytes) :
    Prop where
  push : PushInv s.gen s.pushed
  chunks : ChunkInv f mode s.gen s.pushed s.asked accepted
  once : s.asked.Nodup
  old : ∀ p ∈ s.asked, p < s.gen.ctx.promises

theorem scheduleInv_new (f : BlockFn) (executor chunkSize : Option Nat) :
    ScheduleInv f (chunkSize.map (· % 2 ^ 32))
      (.new (.new f (executor.elim .undefined .function) chunkSize)) [] :=
  ⟨pushInv_new f executor chunkSize, chunkInv_new f _ chunkSize, List.nodup_nil,
    fun _ hp => absurd hp List.not_mem_nil⟩

theorem ScheduleInv.feeds {s : ApiState} {running : Bool} {accepted' : List Bytes}
    (h : ScheduleInv f mode s accepted)
    (hapi : ApiInv gen') (hserves : Serves k s.gen gen')
    (hchunks : ChunkInv f mode gen' s.pushed s.asked accepted') :
    ScheduleInv f mode { s with gen := gen', running } accepted' := by
  refine ⟨h.push.serves hserves hapi, hchunks, h.once, ?_⟩
  intro p hp
  show p < gen'.ctx.promises
  rw [hserves.promises]
  exact Nat.lt_add_right k (h.old p hp)

theorem ScheduleInv.pushes {s : ApiState} {v ret : JSValue} {accepted' : List Bytes}
    (h : ScheduleInv f mode s accepted)
    (hchunks : ChunkInv f mode gen' (s.pushed ++ [s.gen.ctx.promises]) s.asked accepted')
    (heq : generatorPush s.gen v = some (gen', ret)) :
    ScheduleInv f mode { s with gen := gen', pushed := s.pushed ++ [s.gen.ctx.promises] }
      accepted' := by
  obtain ⟨hpush, _⟩ := h.push.push heq
  obtain ⟨_, gen₁, hserves, rfl⟩ := h.push.api.push heq
  refine ⟨hpush, hchunks, h.once, ?_⟩
  intro p hp
  rw [show JSContext.promises _ = _ from hserves.promises]
  exact Nat.lt_succ_of_lt (h.old p hp)

theorem ScheduleInv.asks {s : ApiState} {running : Bool} (h : ScheduleInv f mode s accepted)
    (hpush : PushInv gen' s.pushed)
    (hchunks : ChunkInv f mode gen' s.pushed (s.asked ++ [s.gen.ctx.promises]) accepted)
    (hpromises : gen'.ctx.promises = s.gen.ctx.promises + 1) :
    ScheduleInv f mode { s with gen := gen', running, asked := s.asked ++ [s.gen.ctx.promises] }
      accepted := by
  refine ⟨hpush, hchunks, ?_, ?_⟩
  · refine List.nodup_append.2 ⟨h.once, List.pairwise_singleton _ _, ?_⟩
    intro p hp p' hp' heq
    have hlt := h.old p hp
    rw [heq, List.mem_singleton.1 hp'] at hlt
    exact Nat.lt_irrefl _ hlt
  · intro p hp
    show p < gen'.ctx.promises
    rw [hpromises]
    rcases List.mem_append.1 hp with hp | hp
    · exact Nat.lt_succ_of_lt (h.old p hp)
    · exact List.mem_singleton.1 hp ▸ Nat.lt_succ_self _

theorem scheduleStep_inv {s s' : ApiState} {c : ScheduleCall} (h : ScheduleInv f mode s accepted)
    (htimed : Timed s c) (hstep : scheduleStep s c = some s') :
    ScheduleInv f mode s' (accepted ++ (c.feed?.map Feed.chunk).toList) := by
  have hmode : s.gen.mode = mode := h.chunks.setting.mode_eq
  cases c with
  | feed p =>
    cases p with
    | push value =>
      obtain ⟨⟨gen, ret⟩, heq, hs'⟩ := Option.bind_eq_some_iff.1 hstep
      obtain rfl := Option.some.inj hs'
      exact h.pushes (h.chunks.push h.push (hmode ▸ htimed) heq) heq
    | yield value callback =>
      obtain ⟨⟨gen, b⟩, heq, hs'⟩ := Option.bind_eq_some_iff.1 hstep
      obtain rfl := Option.some.inj hs'
      obtain ⟨hapi, hserves, _⟩ := h.push.api.yield callbackArg_function heq
      exact h.feeds hapi hserves (h.chunks.yield callbackArg_function (hmode ▸ htimed) heq)
    | write data callback =>
      obtain ⟨⟨gen, ret⟩, heq, hs'⟩ := Option.bind_eq_some_iff.1 hstep
      obtain rfl := Option.some.inj hs'
      obtain ⟨hapi, hserves⟩ := h.push.api.write heq
      exact h.feeds hapi hserves (h.chunks.write htimed heq)
    | enqueue value =>
      obtain ⟨⟨gen, ret⟩, heq, hs'⟩ := Option.bind_eq_some_iff.1 hstep
      obtain rfl := Option.some.inj hs'
      obtain ⟨hapi, hserves⟩ := h.push.api.enqueue heq
      exact h.feeds hapi hserves (h.chunks.enqueue heq)
  | next arg =>
    have hbegin := nextBegin_ask h.chunks.going arg
    have hfresh : s.gen.ctx.promises ∉ s.pushed :=
      fun hp => absurd (h.push.created _ hp).1 (Nat.lt_irrefl _)
    have hask := h.chunks.ask hfresh arg
    have hpush₁ := h.push.serves (serves_ask s.gen arg) hask.api
    obtain ⟨hpush₂, _⟩ := hpush₁.resume arg
    have hresume := hask.resume hpush₁ arg
    have hpromises := resume_promises (s.gen.ask arg) arg
    rw [show Option.toList _ = [] from rfl, List.append_nil]
    cases hexec : s.gen.executor.isFunction with
    | true =>
      obtain rfl := Option.some.inj ((apiStep_next_starts hbegin hexec).symm.trans hstep)
      exact h.asks hpush₂ hresume hpromises
    | false =>
      obtain rfl := Option.some.inj ((apiStep_next hbegin hexec).symm.trans hstep)
      obtain ⟨hapi, hserves⟩ := hpush₂.api.nextEnd
      exact h.asks (hpush₂.serves hserves hapi) hresume.nextEnd (hserves.promises.trans hpromises)
  | executorReturns =>
    simp only [scheduleStep, apiStep] at hstep
    split at hstep
    · obtain rfl := Option.some.inj hstep
      obtain ⟨hapi, hserves⟩ := h.push.api.nextEnd
      rw [show Option.toList _ = [] from rfl, List.append_nil]
      exact h.feeds hapi hserves h.chunks.nextEnd
    · cases hstep

/-! ## Two schedules -/

/-- The chunks of a run are those of its feeds. -/
theorem schedule_inv : ∀ (calls : List ScheduleCall) {s s' : ApiState} {accepted : List Bytes},
    ScheduleInv f mode s accepted → PartialRun.Meets scheduleStep Timed s calls →
    PartialRun.run scheduleStep s calls = some s' →
    ScheduleInv f mode s' (accepted ++ (feeds calls).map Feed.chunk) := by
  intro calls
  induction calls with
  | nil =>
    intro s s' accepted h _ hrun
    obtain rfl := Option.some.inj hrun
    rw [show (feeds []).map Feed.chunk = [] from rfl, List.append_nil]
    exact h
  | cons c calls ih =>
    intro s s' accepted h hmeets hrun
    obtain ⟨s₁, hstep, hrun⟩ := PartialRun.run_cons_iff.1 hrun
    obtain ⟨htimed, hmeets⟩ := hmeets s₁ hstep
    have hrest := ih (scheduleStep_inv h htimed hstep) hmeets hrun
    have hsplit : (feeds (c :: calls)).map Feed.chunk
        = (c.feed?.map Feed.chunk).toList ++ (feeds calls).map Feed.chunk := by
      cases c <;> rfl
    rw [hsplit, ← List.append_assoc]
    exact hrest

/-- **Delivery does not depend on timing.** Two schedules of the same feeds, in both of which
every value that goes straight to a read is in turn, give the same to every read that is settled in
both. -/
theorem timing_independent (blockFn : BlockFn) (executor chunkSize : Option Nat)
    (calls₁ calls₂ : List ScheduleCall) (hsame : feeds calls₁ = feeds calls₂)
    {s₁ s₂ : ApiState}
    (htimed₁ : PartialRun.Meets scheduleStep Timed
      (.new (.new blockFn (executor.elim .undefined .function) chunkSize)) calls₁)
    (htimed₂ : PartialRun.Meets scheduleStep Timed
      (.new (.new blockFn (executor.elim .undefined .function) chunkSize)) calls₂)
    (hrun₁ : PartialRun.run scheduleStep
      (.new (.new blockFn (executor.elim .undefined .function) chunkSize)) calls₁ = some s₁)
    (hrun₂ : PartialRun.run scheduleStep
      (.new (.new blockFn (executor.elim .undefined .function) chunkSize)) calls₂ = some s₂) :
    SameDeliveries s₁ s₂ := by
  have h₁ := schedule_inv calls₁ (scheduleInv_new blockFn executor chunkSize) htimed₁ hrun₁
  have h₂ := schedule_inv calls₂ (scheduleInv_new blockFn executor chunkSize) htimed₂ hrun₂
  rw [hsame] at h₁
  obtain ⟨delivered₁, hholds₁, hfits₁⟩ := h₁.chunks.chunks
  obtain ⟨delivered₂, hholds₂, hfits₂⟩ := h₂.chunks.chunks
  intro k p₁ p₂ x₁ x₂ hp₁ hp₂ hx₁ hx₂
  obtain ⟨d₁, hd₁, rfl⟩ := hholds₁.outcome h₁.once h₁.chunks.apart hp₁ hx₁
  obtain ⟨d₂, hd₂, rfl⟩ := hholds₂.outcome h₂.once h₂.chunks.apart hp₂ hx₂
  rw [hfits₁.agree hfits₂ hd₁ hd₂, h₁.chunks.blockFn, h₂.chunks.blockFn]

/-- A string that is yielded to a generator of strings, before the read and after it. -/
theorem timing_independent_strings :
    ∃ s₁ s₂, PartialRun.run scheduleStep (.new (.new .tostring .undefined none))
        [.next .undefined, .feed (.yield (.string [97]) none)] = some s₁ ∧
      PartialRun.run scheduleStep (.new (.new .tostring .undefined none))
        [.feed (.yield (.string [97]) none), .next .undefined] = some s₂ ∧
      s₁.gen.ctx.outcome 0 = s₂.gen.ctx.outcome 0 ∧ s₁.gen.ctx.outcome 0 ≠ none := by
  have hsame := timing_independent .tostring none none
    [.next .undefined, .feed (.yield (.string [97]) none)]
    [.feed (.yield (.string [97]) none), .next .undefined] rfl (by decide) (by decide) rfl rfl
  exact ⟨_, _, rfl, rfl, congrArg some (hsame 0 0 0 _ _ rfl rfl rfl rfl), by decide⟩

/-- A string that is yielded before the read is queued as a buffer. -/
theorem timing_dependent :
    ¬ ∀ (blockFn : BlockFn) (executor chunkSize : Option Nat) (calls₁ calls₂ : List ScheduleCall)
      (s₁ s₂ : ApiState), feeds calls₁ = feeds calls₂ → readCount calls₁ = readCount calls₂ →
      PartialRun.run scheduleStep
        (.new (.new blockFn (executor.elim .undefined .function) chunkSize)) calls₁ = some s₁ →
      PartialRun.run scheduleStep
        (.new (.new blockFn (executor.elim .undefined .function) chunkSize)) calls₂ = some s₂ →
      SameDeliveries s₁ s₂ := by
  intro h
  have hsame := h .toarraybuffer none none
    [.next .undefined, .feed (.yield (.string [97]) none)]
    [.feed (.yield (.string [97]) none), .next .undefined] _ _ rfl rfl rfl rfl
  have hboth := hsame 0 0 0 _ _ rfl rfl rfl rfl
  cases hboth

end QjsNet
