import Mathlib.Data.List.Basic

/- The JavaScript side of the library: the values the C code creates or
   inspects, and the calls it makes.

   The QuickJS context is the record of what was done to it: how many promise
   capabilities were created, and every function call in order. A promise is
   named by the number of its capability, its two resolving functions by
   `JSValue.resolve` and `JSValue.reject`, so what happened to a promise is read
   off the calls (`JSContext.settlements`). A called function may run any script;
   the calls such a script makes back into the library are the next steps of a
   run, not part of the call. The callback of a chunk is called while the chunk is
   still queued, where the next steps do not find the generator: what its calls do
   there is in `GeneratorReentry`, and elsewhere it makes none.

   A string is the bytes it is decoded from. Allocations succeed, so the error
   returns of `js_malloc` and `malloc` are not modelled.

   Correspondence (C ↔ Lean):
     `js_is_nullish`, `JS_IsFunction`  ↔ `JSValue.isNullish`, `JSValue.isFunction`
     `JS_Call`                         ↔ `jsCall`
     `js_input_chars`                  ↔ `jsInputChars`
     `ResolveFunctions`                ↔ `ResolveFunctions`
     `js_async_create`/`_resolve`/`_reject` ↔ `jsAsyncCreate`, `jsAsyncResolve`, `jsAsyncReject`
     `js_promise_wrap`, `js_wrappedpromise_methods`
       ↔ `jsPromiseWrap`, `JSWrappedPromiseRecord.then`/`.catch` -/
namespace QjsNet

abbrev Bytes := List UInt8

inductive JSValue where
  | undefined
  | null
  | bool (b : Bool)
  | int (n : Int)
  | string (chars : Bytes)
  | arrayBuffer (data : Bytes)
  /-- A view of `length` bytes at `offset` into `buffer`. -/
  | typedArray (buffer : Bytes) (offset length : Nat)
  | object (id : Nat)
  /-- A function of the script. -/
  | function (id : Nat)
  /-- The resolving functions of promise `p`, and the promise itself. -/
  | resolve (p : Nat)
  | reject (p : Nat)
  | promise (p : Nat)
  /-- `{ value, done }`, as `js_iterator_result` builds it. -/
  | iteratorResult (value : JSValue) (done : Bool)
  deriving DecidableEq, Repr

def JSValue.isNullish : JSValue → Bool
  | .undefined | .null => true
  | _ => false

def JSValue.isFunction : JSValue → Bool
  | .function _ | .resolve _ | .reject _ => true
  | _ => false

/-- The bytes `js_input_chars` finds in a value: the characters of a string, the contents of
an array buffer, and for a typed array its whole buffer. Any other value has none. -/
def jsInputChars : JSValue → Bytes
  | .string chars => chars
  | .arrayBuffer data => data
  | .typedArray buffer _ _ => buffer
  | _ => []

structure Call where
  func : JSValue
  args : List JSValue
  deriving DecidableEq, Repr

structure JSContext where
  /-- The number of the next promise capability. -/
  promises : Nat
  log : List Call
  deriving DecidableEq, Repr

def JSContext.new : JSContext := ⟨0, []⟩

def jsCall (ctx : JSContext) (func : JSValue) (args : List JSValue) : JSContext :=
  { ctx with log := ctx.log ++ [⟨func, args⟩] }

structure ResolveFunctions where
  resolve : JSValue
  reject : JSValue
  deriving DecidableEq, Repr

/-- The capability of promise `p`. -/
def ResolveFunctions.ofPromise (p : Nat) : ResolveFunctions := ⟨.resolve p, .reject p⟩

/-- `js_async_create`: the new promise and its resolving functions. -/
def jsAsyncCreate (ctx : JSContext) : JSContext × ResolveFunctions × JSValue :=
  ({ ctx with promises := ctx.promises + 1 }, .ofPromise ctx.promises, .promise ctx.promises)

/-- `js_async_free` leaves both functions null. -/
def ResolveFunctions.zero : ResolveFunctions := ⟨.null, .null⟩

def jsAsyncResolve (ctx : JSContext) (funcs : ResolveFunctions) (value : JSValue) :
    JSContext × ResolveFunctions × Bool :=
  if funcs.resolve.isNullish then (ctx, funcs, false)
  else (jsCall ctx funcs.resolve [value], .zero, true)

def jsAsyncReject (ctx : JSContext) (funcs : ResolveFunctions) (value : JSValue) :
    JSContext × ResolveFunctions × Bool :=
  if funcs.reject.isNullish then (ctx, funcs, false)
  else (jsCall ctx funcs.reject [value], .zero, true)

/-- A promise and whether somebody has asked for its outcome. -/
structure JSWrappedPromiseRecord where
  promise : Nat
  thened : Bool
  catched : Bool
  deriving DecidableEq, Repr

def jsPromiseWrap (promise : Nat) : JSWrappedPromiseRecord := ⟨promise, false, false⟩

/-- `then()`, with `argc` handlers. -/
def JSWrappedPromiseRecord.then (wpr : JSWrappedPromiseRecord) (argc : Nat) :
    JSWrappedPromiseRecord :=
  { wpr with thened := true, catched := wpr.catched || decide (1 < argc) }

def JSWrappedPromiseRecord.catch (wpr : JSWrappedPromiseRecord) : JSWrappedPromiseRecord :=
  { wpr with catched := true }

/-! ## What happened to a promise -/

inductive Settlement where
  | resolved (value : JSValue)
  | rejected (error : JSValue)
  deriving DecidableEq, Repr

/-- The promise a call settles, if it is a call of a resolving function. -/
def Call.settlement? : Call → Option (Nat × Settlement)
  | ⟨.resolve p, args⟩ => some (p, .resolved (args.headD .undefined))
  | ⟨.reject p, args⟩ => some (p, .rejected (args.headD .undefined))
  | _ => none

/-- The calls of resolving functions, in order. -/
def JSContext.settlements (ctx : JSContext) : List (Nat × Settlement) :=
  ctx.log.filterMap Call.settlement?

/-- What the resolving functions of promise `p` were called with, in order. -/
def JSContext.settlementsOf (ctx : JSContext) (p : Nat) : List Settlement :=
  (ctx.settlements.filter fun e => e.1 = p).map (·.2)

/-- A promise is settled by the first call; the others do nothing. -/
def JSContext.outcome (ctx : JSContext) (p : Nat) : Option Settlement :=
  (ctx.settlementsOf p).head?

/-- The arguments of the calls of `f`, in order. -/
def JSContext.callsOf (ctx : JSContext) (f : JSValue) : List (List JSValue) :=
  (ctx.log.filter fun c => c.func = f).map Call.args

def Call.function? : Call → Option Nat
  | ⟨.function f, _⟩ => some f
  | _ => none

/-- The functions of the script that were called, in order. -/
def JSContext.called (ctx : JSContext) : List Nat := ctx.log.filterMap Call.function?

@[simp] theorem jsCall_promises (ctx : JSContext) (f : JSValue) (args : List JSValue) :
    (jsCall ctx f args).promises = ctx.promises := rfl

@[simp] theorem jsCall_log (ctx : JSContext) (f : JSValue) (args : List JSValue) :
    (jsCall ctx f args).log = ctx.log ++ [⟨f, args⟩] := rfl

theorem settlements_jsCall (ctx : JSContext) (f : JSValue) (args : List JSValue) :
    (jsCall ctx f args).settlements
      = ctx.settlements ++ (Call.settlement? ⟨f, args⟩).toList := by
  unfold JSContext.settlements
  rw [jsCall_log, List.filterMap_append]
  cases h : Call.settlement? ⟨f, args⟩ <;> simp [h]

theorem called_jsCall (ctx : JSContext) (f : JSValue) (args : List JSValue) :
    (jsCall ctx f args).called = ctx.called ++ (Call.function? ⟨f, args⟩).toList := by
  unfold JSContext.called
  rw [jsCall_log, List.filterMap_append]
  cases h : Call.function? ⟨f, args⟩ <;> simp [h]

@[simp] theorem called_function (ctx : JSContext) (f : Nat) (args : List JSValue) :
    (jsCall ctx (.function f) args).called = ctx.called ++ [f] := called_jsCall ..

@[simp] theorem called_resolve (ctx : JSContext) (p : Nat) (args : List JSValue) :
    (jsCall ctx (.resolve p) args).called = ctx.called := by
  rw [called_jsCall]
  exact List.append_nil _

theorem callsOf_jsCall (ctx : JSContext) (f g : JSValue) (args : List JSValue) :
    (jsCall ctx g args).callsOf f = ctx.callsOf f ++ if g = f then [args] else [] := by
  unfold JSContext.callsOf
  rw [jsCall_log, List.filter_append, List.map_append]
  by_cases h : g = f <;> simp [h]

@[simp] theorem settlements_resolve (ctx : JSContext) (p : Nat) (v : JSValue) :
    (jsCall ctx (.resolve p) [v]).settlements = ctx.settlements ++ [(p, .resolved v)] :=
  settlements_jsCall ..

@[simp] theorem settlements_reject (ctx : JSContext) (p : Nat) (v : JSValue) :
    (jsCall ctx (.reject p) [v]).settlements = ctx.settlements ++ [(p, .rejected v)] :=
  settlements_jsCall ..

@[simp] theorem settlements_function (ctx : JSContext) (f : Nat) (args : List JSValue) :
    (jsCall ctx (.function f) args).settlements = ctx.settlements := by
  rw [settlements_jsCall]
  exact List.append_nil _

@[simp] theorem settlements_promises (ctx : JSContext) (n : Nat) :
    JSContext.settlements { ctx with promises := n } = ctx.settlements := rfl

@[simp] theorem callsOf_promises (ctx : JSContext) (n : Nat) (f : JSValue) :
    JSContext.callsOf { ctx with promises := n } f = ctx.callsOf f := rfl

theorem settlementsOf_append {ctx ctx' : JSContext} {new : List (Nat × Settlement)}
    (h : ctx'.settlements = ctx.settlements ++ new) (p : Nat) :
    ctx'.settlementsOf p
      = ctx.settlementsOf p ++ (new.filter fun e => e.1 = p).map (·.2) := by
  unfold JSContext.settlementsOf
  rw [h, List.filter_append, List.map_append]

theorem settlementsOf_other {ctx ctx' : JSContext} {new : List (Nat × Settlement)} {p : Nat}
    (h : ctx'.settlements = ctx.settlements ++ new) (hp : p ∉ new.map Prod.fst) :
    ctx'.settlementsOf p = ctx.settlementsOf p := by
  have hnone : new.filter (fun e => e.1 = p) = [] := by
    rw [List.filter_eq_nil_iff]
    intro e he hpe
    exact hp (List.mem_map.2 ⟨e, he, by simpa using hpe⟩)
  rw [settlementsOf_append h, hnone, List.map_nil, List.append_nil]

theorem outcome_append {ctx ctx' : JSContext} {new : List (Nat × Settlement)} {p : Nat}
    {x : Settlement} (h : ctx'.settlements = ctx.settlements ++ new)
    (hx : ctx.outcome p = some x) : ctx'.outcome p = some x := by
  unfold JSContext.outcome at hx ⊢
  rw [settlementsOf_append h, List.head?_append, hx]
  rfl

theorem settlementsOf_eq_nil {ctx : JSContext} {p : Nat} :
    ctx.settlementsOf p = [] ↔ p ∉ ctx.settlements.map Prod.fst := by
  rw [JSContext.settlementsOf, List.map_eq_nil_iff, List.filter_eq_nil_iff]
  refine ⟨?_, ?_⟩
  · intro h hp
    obtain ⟨e, he, hep⟩ := List.mem_map.1 hp
    exact h e he (by simpa using hep)
  · intro h e he hep
    exact h (List.mem_map.2 ⟨e, he, by simpa using hep⟩)

theorem outcome_eq_none {ctx : JSContext} {p : Nat} :
    ctx.outcome p = none ↔ ctx.settlementsOf p = [] := List.head?_eq_none_iff

theorem jsAsyncResolve_ofPromise (ctx : JSContext) (p : Nat) (v : JSValue) :
    jsAsyncResolve ctx (.ofPromise p) v = (jsCall ctx (.resolve p) [v], .zero, true) := rfl

theorem jsAsyncReject_ofPromise (ctx : JSContext) (p : Nat) (v : JSValue) :
    jsAsyncReject ctx (.ofPromise p) v = (jsCall ctx (.reject p) [v], .zero, true) := rfl

end QjsNet
