import QjsNet.AsyncIterator
import QjsNet.Lib.PartialRun

/- The protocol between the readers of an async iterator and its producer.

   A run is any sequence of `next`, `push`, `stop`, `throw` and `cancel` calls on
   one iterator. `IterInv` is what every call preserves: the promises handed out
   are the settled ones followed by the waiting ones, an ended iterator has no
   waiting read, and an iterator that has given its last result is ended. From it
   follow the order of the settlements, that none is settled twice, and that the
   assertion in `asynciterator_next` holds (`asynciterator_protocol`).

   All calls that settle reads take them off the front of the list, so one lemma
   (`IterInv.settle`) covers them; they differ in what the reads are given. -/
namespace QjsNet

inductive IterCall where
  | next (argument : JSValue)
  | push (value : JSValue)
  | stop (value : JSValue)
  | throw (error : JSValue)
  | cancel (error : JSValue)
  deriving DecidableEq, Repr

/-- An iterator in its context, with the promises `next` has returned so far. -/
structure IterState where
  it : AsyncIterator
  ctx : JSContext
  requested : List JSValue
  deriving DecidableEq, Repr

/-- A new iterator, in a context that has already made `n` promises. -/
def IterState.fresh (n : Nat) : IterState := ⟨asynciteratorZero, ⟨n, []⟩, []⟩

def iterStep (s : IterState) : IterCall → Option IterState
  | .next argument => do
    let (it, ctx, ret) ← asynciteratorNext s.it argument s.ctx
    some ⟨it, ctx, s.requested ++ [ret]⟩
  | .push value =>
    let (it, ctx, _) := asynciteratorYield s.it value s.ctx
    some { s with it, ctx }
  | .stop value =>
    let (it, ctx, _) := asynciteratorStop s.it value s.ctx
    some { s with it, ctx }
  | .throw error =>
    let (it, ctx, _) := asynciteratorThrow s.it error s.ctx
    some { s with it, ctx }
  | .cancel error =>
    let (it, ctx, _) := asynciteratorCancel s.it error s.ctx
    some { s with it, ctx }

/-! ## What a settlement says -/

/-- `b` may come after `a`. -/
def NotAfterDone (a b : Nat × Settlement) : Prop := a.2.isDone = true → b.2.isYield = false

/-- The promises settled, in the order they were settled. -/
def JSContext.settled (ctx : JSContext) : List Nat := ctx.settlements.map Prod.fst

structure IterInv (s : IterState) : Prop where
  requested : s.requested = (s.ctx.settled ++ s.it.waiting).map .promise
  increasing : (s.ctx.settled ++ s.it.waiting).Pairwise (· < ·)
  created : ∀ p ∈ s.ctx.settled ++ s.it.waiting, p < s.ctx.promises
  drained : s.it.closing = true ∨ s.it.closed = true → s.it.reads = []
  ended : ∀ e ∈ s.ctx.settlements, e.2.isDone = true → s.it.closing = true ∨ s.it.closed = true
  ordered : s.ctx.settlements.Pairwise NotAfterDone

theorem iterInv_fresh (n : Nat) : IterInv (.fresh n) := by
  constructor <;>
    simp [IterState.fresh, asynciteratorZero, JSContext.settled, JSContext.settlements,
      AsyncIterator.waiting]

theorem IterInv.not_done {s : IterState} (h : IterInv s) (hreads : s.it.reads ≠ []) :
    ∀ e ∈ s.ctx.settlements, e.2.isDone = false := by
  intro e he
  by_contra hd
  exact hreads (h.drained (h.ended e he (by simpa using hd)))

/-- **Settling reads off the front.** `new` are the settlements, in order. -/
theorem IterInv.settle {s : IterState} {it : AsyncIterator} {ctx : JSContext}
    (h : IterInv s) (new : List (Nat × Settlement)) (hnew : s.it.reads ≠ [])
    (hsettlements : ctx.settlements = s.ctx.settlements ++ new)
    (hpromises : ctx.promises = s.ctx.promises)
    (hwaiting : new.map Prod.fst ++ it.waiting = s.it.waiting)
    (hordered : new.Pairwise NotAfterDone)
    (hdrained : it.closing = true ∨ it.closed = true → it.reads = [])
    (hended : ∀ e ∈ new, e.2.isDone = true → it.closing = true ∨ it.closed = true) :
    IterInv { s with it, ctx } := by
  -- What leaves the waiting list joins the settled ones, so the two together stay the same.
  have hids : ctx.settled ++ it.waiting = s.ctx.settled ++ s.it.waiting := by
    unfold JSContext.settled
    rw [hsettlements, List.map_append, List.append_assoc, hwaiting]
  have hold := h.not_done hnew
  refine ⟨?_, ?_, ?_, hdrained, ?_, ?_⟩
  · rw [h.requested, hids]
  · rw [hids]
    exact h.increasing
  · rw [hids, hpromises]
    exact h.created
  · intro e he hd
    rw [hsettlements] at he
    rcases List.mem_append.1 he with he | he
    · exact absurd hd (by rw [hold e he]; decide)
    · exact hended e he hd
  · rw [hsettlements]
    refine List.pairwise_append.2 ⟨h.ordered, hordered, ?_⟩
    intro a ha b _ hd
    exact absurd hd (by rw [hold a ha]; decide)

/-! ## One call -/

theorem IterInv.request {s : IterState} (h : IterInv s) (rd : AsyncRead)
    (hrd : rd.capability = s.ctx.promises)
    (hopen : ¬ (s.it.closing = true ∨ s.it.closed = true)) :
    IterInv ⟨{ s.it with reads := s.it.reads ++ [rd] },
      { s.ctx with promises := s.ctx.promises + 1 },
      s.requested ++ [.promise s.ctx.promises]⟩ := by
  have hw : AsyncIterator.waiting { s.it with reads := s.it.reads ++ [rd] }
      = s.it.waiting ++ [s.ctx.promises] := by
    simp [AsyncIterator.waiting, hrd]
  have hs : JSContext.settled { s.ctx with promises := s.ctx.promises + 1 } = s.ctx.settled := rfl
  refine ⟨?_, ?_, ?_, fun hc => absurd hc hopen, h.ended, h.ordered⟩ <;>
    simp only [hw, hs, ← List.append_assoc]
  · rw [h.requested]
    simp
  · refine List.pairwise_append.2 ⟨h.increasing, List.pairwise_singleton _ _, ?_⟩
    intro a ha b hb
    rw [List.mem_singleton.1 hb]
    exact h.created a ha
  · intro p hp
    rcases List.mem_append.1 hp with hp | hp
    · exact Nat.lt_succ_of_lt (h.created p hp)
    · rw [List.mem_singleton.1 hp]
      exact Nat.lt_succ_self _

/-- A `next` on an ended iterator settles its own promise; no other one waits. -/
theorem IterInv.requestEnded {s : IterState} (h : IterInv s) (hreads : s.it.reads = []) :
    IterInv ⟨⟨[], true, true⟩,
      jsCall { s.ctx with promises := s.ctx.promises + 1 } (.resolve s.ctx.promises)
        [.iteratorResult .undefined true],
      s.requested ++ [.promise s.ctx.promises]⟩ := by
  have hw : s.it.waiting = [] := by simp [AsyncIterator.waiting, hreads]
  have hrequested := h.requested
  have hincreasing := h.increasing
  have hcreated := h.created
  rw [hw, List.append_nil] at hrequested hincreasing hcreated
  have hs : (jsCall { s.ctx with promises := s.ctx.promises + 1 } (.resolve s.ctx.promises)
      [.iteratorResult .undefined true]).settled = s.ctx.settled ++ [s.ctx.promises] := by
    simp [JSContext.settled]
  have hw' : AsyncIterator.waiting ⟨[], true, true⟩ = [] := rfl
  refine ⟨?_, ?_, ?_, fun _ => rfl, fun _ _ _ => Or.inl rfl, ?_⟩ <;>
    simp only [hw', hs, List.append_nil, settlements_resolve]
  · rw [hrequested, List.map_append, List.map_singleton]
  · refine List.pairwise_append.2 ⟨hincreasing, List.pairwise_singleton _ _, ?_⟩
    intro a ha b hb
    rw [List.mem_singleton.1 hb]
    exact hcreated a ha
  · intro p hp
    rcases List.mem_append.1 hp with hp | hp
    · exact Nat.lt_succ_of_lt (hcreated p hp)
    · rw [List.mem_singleton.1 hp]
      exact Nat.lt_succ_self _
  · refine List.pairwise_append.2 ⟨h.ordered, List.pairwise_singleton _ _, ?_⟩
    intro a _ b hb _
    rw [List.mem_singleton.1 hb]
    rfl

theorem IterInv.next {s : IterState} (h : IterInv s) (v : JSValue) :
    ∃ s', iterStep s (.next v) = some s' ∧ IterInv s' := by
  by_cases hend : s.it.closing = true ∨ s.it.closed = true
  · have hreads := h.drained hend
    exact ⟨_, by rw [iterStep, next_ended hend hreads]; rfl, h.requestEnded hreads⟩
  · obtain ⟨hclosing, hclosed⟩ : s.it.closing = false ∧ s.it.closed = false := by
      simpa using hend
    exact ⟨_, by rw [iterStep, next_open hclosing hclosed]; rfl, h.request _ rfl hend⟩

theorem IterInv.push {s : IterState} (h : IterInv s) (v : JSValue) :
    IterInv { s with it := (asynciteratorYield s.it v s.ctx).1,
                     ctx := (asynciteratorYield s.it v s.ctx).2.1 } := by
  cases hreads : s.it.reads with
  | nil =>
    simp only [yield_nil hreads]
    exact h
  | cons rd reads =>
    have hopen : ¬ (s.it.closing = true ∨ s.it.closed = true) := by
      intro hc
      rw [h.drained hc] at hreads
      cases hreads
    simp only [yield_cons hreads]
    refine h.settle [(rd.capability, .resolved (.iteratorResult v false))]
      (by rw [hreads]; exact List.cons_ne_nil _ _) (settlements_resolve ..) rfl ?_
      (List.pairwise_singleton _ _) (fun hc => absurd hc hopen) ?_
    · simp [AsyncIterator.waiting, hreads]
    · intro e he hd
      rw [List.mem_singleton.1 he] at hd
      cases hd

theorem rejections_ordered (e : JSValue) (reads : List AsyncRead) :
    (reads.map fun rd => (rd.capability, Settlement.rejected e)).Pairwise NotAfterDone := by
  rw [List.pairwise_map]
  refine List.pairwise_of_forall ?_
  intro _ _ hd
  cases hd

theorem IterInv.cancel {s : IterState} (h : IterInv s) (e : JSValue) :
    IterInv { s with it := (asynciteratorCancel s.it e s.ctx).1,
                     ctx := (asynciteratorCancel s.it e s.ctx).2.1 } := by
  obtain ⟨hs, hp⟩ := rejectReads_spec e s.it.reads s.ctx
  -- Without reads only the flag changes, and `settle` needs a read.
  by_cases hreads : s.it.reads = []
  · have hctx : (asynciteratorCancel s.it e s.ctx).2.1 = s.ctx := by
      simp [asynciteratorCancel, hreads, rejectReads]
    have hw : (asynciteratorCancel s.it e s.ctx).1.waiting = s.it.waiting := by
      simp [asynciteratorCancel, AsyncIterator.waiting, hreads]
    rw [hctx]
    refine ⟨?_, ?_, ?_, fun _ => rfl, fun _ _ _ => Or.inr rfl, h.ordered⟩ <;> simp only [hw]
    · exact h.requested
    · exact h.increasing
    · exact h.created
  · refine h.settle _ hreads hs hp ?_ (rejections_ordered e _) (fun _ => rfl) fun _ _ _ => Or.inr rfl
    simp [AsyncIterator.waiting, asynciteratorCancel]

theorem IterInv.throw {s : IterState} (h : IterInv s) (e : JSValue) :
    IterInv { s with it := (asynciteratorThrow s.it e s.ctx).1,
                     ctx := (asynciteratorThrow s.it e s.ctx).2.1 } := by
  cases hreads : s.it.reads with
  | nil =>
    simp only [asynciteratorThrow, hreads, List.isEmpty_nil, if_true]
    exact h
  | cons rd reads =>
    simp only [asynciteratorThrow, hreads, List.isEmpty_cons, Bool.false_eq_true, if_false]
    exact h.cancel e

theorem IterInv.stop {s : IterState} (h : IterInv s) (v : JSValue) :
    IterInv { s with it := (asynciteratorStop s.it v s.ctx).1,
                     ctx := (asynciteratorStop s.it v s.ctx).2.1 } := by
  cases hreads : s.it.reads with
  | nil =>
    simp only [stop_idle hreads]
    exact ⟨h.requested, h.increasing, h.created, fun _ => hreads, fun _ _ _ => Or.inl rfl,
      h.ordered⟩
  | cons rd reads =>
    obtain ⟨hs, hp⟩ := rejectReads_spec .null reads
      (jsCall s.ctx (.resolve rd.capability) [.iteratorResult v true])
    simp only [stop_cons hreads]
    refine h.settle ((rd.capability, .resolved (.iteratorResult v true)) ::
        reads.map fun rd => (rd.capability, .rejected .null))
      (by rw [hreads]; exact List.cons_ne_nil _ _) ?_ hp ?_ ?_ (fun _ => rfl) fun _ _ _ => Or.inr rfl
    · rw [hs, settlements_resolve, List.append_assoc, List.singleton_append]
    · simp [AsyncIterator.waiting, hreads]
    · refine List.pairwise_cons.2 ⟨?_, rejections_ordered _ _⟩
      intro b hb _
      obtain ⟨rd', _, rfl⟩ := List.mem_map.1 hb
      rfl

theorem iterStep_inv (s : IterState) (c : IterCall) (h : IterInv s) :
    ∃ s', iterStep s c = some s' ∧ IterInv s' := by
  cases c with
  | next v => exact h.next v
  | push v => exact ⟨_, rfl, h.push v⟩
  | stop v => exact ⟨_, rfl, h.stop v⟩
  | throw e => exact ⟨_, rfl, h.throw e⟩
  | cancel e => exact ⟨_, rfl, h.cancel e⟩

/-! ## Every run -/

theorem run_iterInv (n : Nat) (calls : List IterCall) :
    ∃ s, PartialRun.run iterStep (.fresh n) calls = some s ∧ IterInv s :=
  PartialRun.run_total iterStep_inv calls (iterInv_fresh n)

/-- A push reports whether a read waited, and gives its value to the oldest one only. -/
theorem push_spec (it : AsyncIterator) (v : JSValue) (ctx : JSContext) :
    ((asynciteratorYield it v ctx).2.2 = true ↔ it.reads ≠ []) ∧
    (it.reads = [] → (asynciteratorYield it v ctx).2.1 = ctx) ∧
    ∀ rd reads, it.reads = rd :: reads →
      (asynciteratorYield it v ctx).1.reads = reads ∧
      (asynciteratorYield it v ctx).2.1.settlements
        = ctx.settlements ++ [(rd.capability, .resolved (.iteratorResult v false))] := by
  cases hreads : it.reads with
  | nil => simp [yield_nil hreads]
  | cons rd reads =>
    simp only [yield_cons hreads, settlements_resolve]
    refine ⟨by simp, by simp, ?_⟩
    intro rd' reads' h
    obtain ⟨rfl, rfl⟩ := List.cons.inj h
    exact ⟨rfl, rfl⟩

/-- **The iterator protocol.** Every sequence of calls runs to its end (the assertion in
`next` holds), the promises returned so far are those settled, in the order of their
settlements, followed by those waiting, and no promise occurs twice among them; a push
settles exactly the oldest waiting read, or nothing; nothing is yielded after a last result;
and a closing or closed iterator has no waiting read. -/
theorem asynciterator_protocol (n : Nat) (calls : List IterCall) :
    ∃ s, PartialRun.run iterStep (.fresh n) calls = some s ∧
      s.requested = (s.ctx.settled ++ s.it.waiting).map .promise ∧
      s.requested.Nodup ∧
      (∀ v, ((asynciteratorYield s.it v s.ctx).2.2 = true ↔ s.it.reads ≠ []) ∧
        (s.it.reads = [] → (asynciteratorYield s.it v s.ctx).2.1 = s.ctx) ∧
        ∀ rd reads, s.it.reads = rd :: reads →
          (asynciteratorYield s.it v s.ctx).1.reads = reads ∧
          (asynciteratorYield s.it v s.ctx).2.1.settlements
            = s.ctx.settlements ++ [(rd.capability, .resolved (.iteratorResult v false))]) ∧
      (∀ before after e, s.ctx.settlements = before ++ e :: after → e.2.isDone = true →
        ∀ e' ∈ after, e'.2.isYield = false) ∧
      (s.it.closing = true ∨ s.it.closed = true → s.it.reads = []) := by
  obtain ⟨s, hrun, h⟩ := run_iterInv n calls
  refine ⟨s, hrun, h.requested, ?_, fun v => push_spec s.it v s.ctx, ?_, h.drained⟩
  · rw [h.requested]
    refine (h.increasing.imp Nat.ne_of_lt).map _ ?_
    intro p q hpq heq
    exact hpq (JSValue.promise.inj heq)
  · intro before after e heq hd e' he'
    have hord := h.ordered
    rw [heq] at hord
    exact (List.pairwise_cons.1 (List.pairwise_append.1 hord).2.1).1 e' he' hd

end QjsNet
