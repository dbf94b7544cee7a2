import QjsNet.JSValue

/- The async iterator (`asynciterator.c`): a list of reads waiting for a value and
   the two flags that end it.

   A read keeps the capability its promise was created with, and it is in the
   list only as long as that capability is unused; `AsyncRead.live` says so, so a
   read whose promise cannot be settled cannot be built. The reference count, and
   the serial number that only debug output prints, are left out.

   Correspondence (C ↔ Lean):
     `asynciterator_pending`, `asynciterator_next` ↔ `asynciteratorPending`, `asynciteratorNext`
     `asynciterator_emplace`, `asynciterator_yield` ↔ `asynciteratorEmplace`, `asynciteratorYield`
     `asynciterator_stop`, `asynciterator_cancel`, `asynciterator_throw`
       ↔ `asynciteratorStop`, `asynciteratorCancel`, `asynciteratorThrow` -/
namespace QjsNet

/-- A read that waits for a value. `promise` is the capability `capability`, not used yet. -/
structure AsyncRead where
  capability : Nat
  promise : ResolveFunctions
  argument : JSValue
  live : promise = .ofPromise capability
  deriving DecidableEq, Repr

structure AsyncIterator where
  reads : List AsyncRead
  closed : Bool
  closing : Bool
  deriving DecidableEq, Repr

/-- `asynciterator_zero` -/
def asynciteratorZero : AsyncIterator := ⟨[], false, false⟩

/-- The promises that wait, oldest first. -/
def AsyncIterator.waiting (it : AsyncIterator) : List Nat := it.reads.map (·.capability)

def asynciteratorPending (it : AsyncIterator) : Bool := !it.reads.isEmpty

/-- `asynciterator_next`. `none` is a failed `assert(list_empty(&it->reads))`. -/
def asynciteratorNext (it : AsyncIterator) (argument : JSValue) (ctx : JSContext) :
    Option (AsyncIterator × JSContext × JSValue) :=
  let p := ctx.promises
  let (ctx, async, ret) := jsAsyncCreate ctx
  if it.closing || it.closed then
    if it.reads.isEmpty then
      -- an ended iterator answers at once, with an undefined last result
      let (ctx, _, _) := jsAsyncResolve ctx async (.iteratorResult .undefined true)
      some ({ it with closed := true, closing := true }, ctx, ret)
    else none
  else
    some ({ it with reads := it.reads ++ [⟨p, .ofPromise p, argument, rfl⟩] }, ctx, ret)

/-- Settle the oldest read with `{ value, done }`. -/
def asynciteratorEmplace (it : AsyncIterator) (value : JSValue) (done : Bool) (ctx : JSContext) :
    AsyncIterator × JSContext × Bool :=
  match it.reads with
  | [] => (it, ctx, false)
  | rd :: reads =>
    let (ctx, _, _) := jsAsyncResolve ctx rd.promise (.iteratorResult value done)
    ({ it with reads }, ctx, true)

/-- The loop of `asynciterator_cancel`, with the number of reads it rejects. -/
def rejectReads (error : JSValue) : List AsyncRead → JSContext → JSContext × Nat
  | [], ctx => (ctx, 0)
  | rd :: reads, ctx =>
    let (ctx, _, _) := jsAsyncReject ctx rd.promise error
    let (ctx, n) := rejectReads error reads ctx
    (ctx, n + 1)

def asynciteratorCancel (it : AsyncIterator) (error : JSValue) (ctx : JSContext) :
    AsyncIterator × JSContext × Nat :=
  let (ctx, n) := rejectReads error it.reads ctx
  ({ it with reads := [], closed := true }, ctx, n)

def asynciteratorStop (it : AsyncIterator) (value : JSValue) (ctx : JSContext) :
    AsyncIterator × JSContext × Bool :=
  if asynciteratorPending it then
    let (it, ctx, _) := asynciteratorEmplace it value true ctx
    -- more reads may wait than the one that got the last result
    let it := { it with closing := false, closed := true }
    let (it, ctx, _) := asynciteratorCancel it .null ctx
    (it, ctx, true)
  else
    ({ it with closing := true }, ctx, false)

def asynciteratorYield (it : AsyncIterator) (value : JSValue) (ctx : JSContext) :
    AsyncIterator × JSContext × Bool :=
  if it.reads.isEmpty then (it, ctx, false) else asynciteratorEmplace it value false ctx

def asynciteratorThrow (it : AsyncIterator) (error : JSValue) (ctx : JSContext) :
    AsyncIterator × JSContext × Bool :=
  if it.reads.isEmpty then (it, ctx, false)
  else
    let (it, ctx, _) := asynciteratorCancel it error ctx
    (it, ctx, true)

/-! ## What a settlement says -/

/-- The read got a value and more may follow. -/
def Settlement.isYield : Settlement → Bool
  | .resolved (.iteratorResult _ done) => !done
  | _ => false

/-- The read got the last result. -/
def Settlement.isDone : Settlement → Bool
  | .resolved (.iteratorResult _ done) => done
  | _ => false

/-! ## What each operation does -/

variable {it : AsyncIterator} {ctx : JSContext} {v : JSValue}

theorem pending_eq_false : asynciteratorPending it = false ↔ it.reads = [] := by
  simp [asynciteratorPending]

theorem pending_eq_true : asynciteratorPending it = true ↔ it.reads ≠ [] := by
  simp [asynciteratorPending]

theorem next_open (hclosing : it.closing = false) (hclosed : it.closed = false) :
    asynciteratorNext it v ctx =
      some ({ it with reads := it.reads ++ [⟨ctx.promises, .ofPromise ctx.promises, v, rfl⟩] },
        { ctx with promises := ctx.promises + 1 }, .promise ctx.promises) := by
  simp [asynciteratorNext, jsAsyncCreate, hclosing, hclosed]

theorem next_ended (hend : it.closing = true ∨ it.closed = true) (hreads : it.reads = []) :
    asynciteratorNext it v ctx =
      some (⟨[], true, true⟩,
        jsCall { ctx with promises := ctx.promises + 1 } (.resolve ctx.promises)
          [.iteratorResult .undefined true], .promise ctx.promises) := by
  have h : (it.closing || it.closed) = true := by simpa using hend
  simp [asynciteratorNext, jsAsyncCreate, h, hreads, jsAsyncResolve_ofPromise]

theorem emplace_nil {d : Bool} (hreads : it.reads = []) :
    asynciteratorEmplace it v d ctx = (it, ctx, false) := by
  simp [asynciteratorEmplace, hreads]

theorem emplace_cons {d : Bool} {rd : AsyncRead} {reads : List AsyncRead}
    (hreads : it.reads = rd :: reads) :
    asynciteratorEmplace it v d ctx =
      ({ it with reads }, jsCall ctx (.resolve rd.capability) [.iteratorResult v d], true) := by
  simp only [asynciteratorEmplace, hreads, rd.live, jsAsyncResolve_ofPromise]

/-- The cancel loop rejects every read, oldest first, and calls nothing else. -/
theorem rejectReads_spec (e : JSValue) : ∀ (reads : List AsyncRead) (ctx : JSContext),
    (rejectReads e reads ctx).1.settlements
        = ctx.settlements ++ reads.map (fun rd => (rd.capability, .rejected e)) ∧
      (rejectReads e reads ctx).1.promises = ctx.promises := by
  intro reads
  induction reads with
  | nil =>
    intro ctx
    simp [rejectReads]
  | cons rd reads ih =>
    intro ctx
    obtain ⟨hs, hp⟩ := ih (jsCall ctx (.reject rd.capability) [e])
    simp only [rejectReads, rd.live, jsAsyncReject_ofPromise]
    refine ⟨?_, hp⟩
    rw [hs, settlements_reject, List.append_assoc]
    rfl

theorem stop_idle (hreads : it.reads = []) :
    asynciteratorStop it v ctx = ({ it with closing := true }, ctx, false) := by
  simp [asynciteratorStop, pending_eq_false.2 hreads]

theorem stop_cons {rd : AsyncRead} {reads : List AsyncRead} (hreads : it.reads = rd :: reads) :
    asynciteratorStop it v ctx =
      (⟨[], true, false⟩,
        (rejectReads .null reads (jsCall ctx (.resolve rd.capability) [.iteratorResult v true])).1,
        true) := by
  have hp : asynciteratorPending it = true := pending_eq_true.2 (by simp [hreads])
  simp [asynciteratorStop, hp, emplace_cons hreads, asynciteratorCancel]

theorem yield_nil (hreads : it.reads = []) : asynciteratorYield it v ctx = (it, ctx, false) := by
  simp [asynciteratorYield, hreads]

theorem yield_cons {rd : AsyncRead} {reads : List AsyncRead} (hreads : it.reads = rd :: reads) :
    asynciteratorYield it v ctx =
      ({ it with reads }, jsCall ctx (.resolve rd.capability) [.iteratorResult v false], true) := by
  simp [asynciteratorYield, hreads, emplace_cons hreads]

end QjsNet
