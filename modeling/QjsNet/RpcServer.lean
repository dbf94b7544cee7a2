import Mathlib.Logic.Function.Basic

/- The replies of an RPC server (`rpc.js`).

   `RPCServer.processMessage` looks the method up in what `FactoryEndpoint` returns, calls
   it, and spreads what it returned into the reply, behind the id. Every command makes its
   response with `Respond`. `rpc_reply_iff` says which messages with an id get the one
   reply that they should get.

   What the program's own objects do (its constructors, methods, getters and setters, and
   the functions every object inherits) is a parameter, and so is the codec. A number is
   given by its text. The connection has a socket that is open, and what is judged is the
   object that is encoded for it.

   Correspondence (JavaScript ↔ Lean):
     `Respond`                      ↔ `respond`
     `instance(fn)`                 ↔ `FactoryEndpoint.instance`
     `new`, `list`, `delete`, ...   ↔ `FactoryEndpoint.new`, `.list`, `.delete`, ...
     `RPCServer.processMessage`     ↔ `processMessage`
     `Connection.onmessage`, `sendMessage` ↔ `onmessage`, `sendMessage` -/
namespace QjsNet

inductive RpcValue where
  | undefined
  | null
  | bool (b : Bool)
  | number (text : String)
  | string (chars : String)
  | array (items : List RpcValue)
  | object (props : List (String × RpcValue))
  | function (id : Nat)
  /-- Any other object of the program. -/
  | other (id : Nat)
  deriving Repr, Inhabited

abbrev RpcProps := List (String × RpcValue)

def RpcValue.isUndefined : RpcValue → Bool
  | .undefined => true
  | _ => false

def RpcValue.isNullish : RpcValue → Bool
  | .undefined | .null => true
  | _ => false

def RpcValue.truthy : RpcValue → Bool
  | .undefined | .null => false
  | .bool b => b
  | .number text => text ≠ "0" && text ≠ "NaN"
  | .string chars => chars ≠ ""
  | _ => true

def RpcValue.isFunction : RpcValue → Bool
  | .function _ => true
  | _ => false

/-- An own property. -/
def own (props : RpcProps) (key : String) : Option RpcValue :=
  (props.find? (·.1 = key)).map Prod.snd

def setOwn (props : RpcProps) (p : String × RpcValue) : RpcProps :=
  if (own props p.1).isSome then props.map fun q => if q.1 = p.1 then p else q else props ++ [p]

/-- `{ ...props, ...more }` -/
def spreadInto (props more : RpcProps) : RpcProps := more.foldl setOwn props

/-- What a call comes to; an exception, for a promise, is its rejection. -/
inductive Completion (α : Type) where
  | value (a : α)
  | error (e : RpcValue)
  | pending
  deriving Repr

/-- What a method of the program returns. -/
inductive Called where
  | returned (value : RpcValue)
  | threw (error : RpcValue)
  | promise (c : Completion RpcValue)
  deriving Repr

inductive Description where
  | keys | names | symbols | properties | methods
  deriving DecidableEq, Repr

/-- What the engine and the program do. -/
structure RpcHost where
  /-- `new classes[name](...args)` -/
  construct : RpcValue → List RpcValue → Except RpcValue Nat
  /-- `Object.keys(classes)` -/
  classNames : List String
  /-- What an object inherits under a key. -/
  inheritedObject : String → Option Nat
  /-- The same, as a function: the own properties of what it returns when it is called. -/
  inheritedMethod : String → Option (List RpcValue → Except RpcValue RpcProps)
  /-- `key in obj` -/
  hasMember : Nat → RpcValue → Except RpcValue Bool
  /-- `obj[key]` -/
  getMember : Nat → RpcValue → Except RpcValue RpcValue
  /-- `obj[key] = value` -/
  setMember : Nat → RpcValue → RpcValue → Except RpcValue Unit
  /-- `obj[key](...args)` -/
  callMember : Nat → RpcValue → List RpcValue → Called
  /-- What `GetProperties` or `members` lists of an object. -/
  describe : Description → Nat → List RpcValue → Except RpcValue (List RpcValue)
  /-- `SerializeValue` -/
  serialize : RpcValue → Except RpcValue RpcProps
  /-- The items and the key of another object, and its `data`. -/
  iterate : Nat → Except RpcValue (List RpcValue)
  key : Nat → Except RpcValue String
  data : Nat → RpcValue
  /-- `error.message` and `error.stack` -/
  message : RpcValue → RpcValue
  stack : RpcValue → RpcValue
  /-- What the engine throws. -/
  typeError : RpcValue
  typeError_object : typeError.isNullish = false

/-- What is encoded, and what is decoded. -/
structure RpcCodec where
  decode : RpcValue → Option RpcValue
  encodes : RpcProps → Bool

/-! ## The language -/

/-- `...value` -/
def RpcHost.spread (host : RpcHost) : RpcValue → Except RpcValue (List RpcValue)
  | .array items => .ok items
  | .string chars => .ok (chars.toList.map fun c => .string (String.singleton c))
  | .other id => host.iterate id
  | _ => .error host.typeError

mutual

/-- A property key, or the text of a value. Data has no functions, so an own `toString` is one
that cannot be called. -/
def RpcHost.propertyKey (host : RpcHost) : RpcValue → Except RpcValue String
  | .undefined => .ok "undefined"
  | .null => .ok "null"
  | .bool b => .ok (if b then "true" else "false")
  | .number text => .ok text
  | .string chars => .ok chars
  | .array items => (host.itemKeys items).map (",".intercalate ·)
  | .object props => if (own props "toString").isSome then .error host.typeError else .ok "[object Object]"
  | .function id | .other id => host.key id

/-- The texts that `items.join()` joins. -/
def RpcHost.itemKeys (host : RpcHost) : List RpcValue → Except RpcValue (List String)
  | [] => .ok []
  | item :: items => do
    let text ← if item.isNullish then .ok "" else host.propertyKey item
    let texts ← host.itemKeys items
    .ok (text :: texts)

end

/-- An argument, or undefined. -/
def arg (args : List RpcValue) (n : Nat) : RpcValue := (args[n]?).getD .undefined

/-- An argument with `[]` for a default. -/
def listArg (args : List RpcValue) (n : Nat) : RpcValue :=
  if (arg args n).isUndefined then .array [] else arg args n

/-! ## The commands -/

def respond (success resultOrError : RpcValue) : RpcProps :=
  if resultOrError.isUndefined then [("success", success)]
  else [("success", success), (if success.truthy then "result" else "error", resultOrError)]

/-- `{ message }` -/
def failed (message : String) : RpcProps :=
  respond (.bool false) (.object [("message", .string message)])

/-- `instances` has its own properties. -/
structure FactoryEndpoint where
  nextId : UInt32
  instances : String → Option Nat

/-- What a command returns, or the promise of it. -/
abbrev Reply := FactoryEndpoint × Completion RpcProps

variable (host : RpcHost) (s : FactoryEndpoint) (args : List RpcValue)

def instanceKey (id : UInt32) : String := toString id.toNat

def FactoryEndpoint.new : Reply :=
  match (host.spread (listArg args 1)).bind (host.construct (arg args 0)) with
  | .ok obj =>
    (⟨s.nextId + 1, Function.update s.instances (instanceKey s.nextId) (some obj)⟩,
      .value (respond (.bool true) (.object [("instance", .number (instanceKey s.nextId))])))
  | .error e =>
    -- the parameter of the `catch` takes the error apart
    if e.isNullish then (s, .error host.typeError)
    else (s, .value (respond (.bool false)
      (.object [("message", host.message e), ("stack", host.stack e)])))

def FactoryEndpoint.list : Reply :=
  (s, .value (respond (.bool true) (.array (host.classNames.map .string))))

def FactoryEndpoint.delete : Reply :=
  match host.propertyKey (arg args 0) with
  | .ok key => (⟨s.nextId, Function.update s.instances key none⟩,
      .value (respond (.bool true) .undefined))
  | .error e => (s, .error e)

/-- `instances[key]` -/
def FactoryEndpoint.find (key : String) : Option Nat :=
  (s.instances key).or (host.inheritedObject key)

/-- `instance(fn)` -/
def FactoryEndpoint.instance (fn : Nat → List RpcValue → Completion RpcProps) : Reply :=
  match host.propertyKey (arg args 0) with
  | .ok key =>
    match s.find host key with
    | some obj => (s, fn obj args.tail)
    | none => (s, .value (failed ("No such object #" ++ key)))
  | .error e => (s, .error e)

/-- The text of the function `instance`, which `invoke` takes for the number of the object. -/
def instanceSource : String :=
  "function instance(fn) \x7b\n    return (key, ...args) => (key in instances ? " ++
  "fn(instances[key], ...args) : Respond(false, \x7b message: `No such object #$\x7bkey\x7d` " ++
  "\x7d));\n  \x7d"

/-- A failure whose message ends with the text of a value. -/
def failedFor (message : String) (value : RpcValue) : Completion RpcProps :=
  match host.propertyKey value with
  | .ok text => .value (failed (message ++ text))
  | .error e => .error e

/-- What `invoke` makes of what the method returns. -/
def respondCalled : Called → Completion RpcProps
  | .returned value => .value (respond (.bool true) value)
  | .threw e => .error e
  | .promise (.value value) => .value (respond (.bool true) value)
  | .promise (.error e) => .value (respond (.bool false) e)
  | .promise .pending => .pending

def invoke (obj : Nat) (args : List RpcValue) : Completion RpcProps :=
  let noMethod := failedFor host ("No such method on object #" ++ instanceSource ++ ": ") (arg args 0)
  match host.hasMember obj (arg args 0) with
  | .error e => .error e
  | .ok false => noMethod
  | .ok true =>
    match host.getMember obj (arg args 0) with
    | .error e => .error e
    | .ok method =>
      if method.isFunction then
        match host.spread (listArg args 1) with
        | .error e => .error e
        | .ok params => respondCalled (host.callMember obj (arg args 0) params)
      else noMethod

/-- `keys`, `names`, `symbols`, `properties` and `methods` -/
def describe (what : Description) (obj : Nat) (args : List RpcValue) : Completion RpcProps :=
  match host.describe what obj args with
  | .ok items => .value (respond (.bool true) (.array items))
  | .error e => .error e

/-- The third parameter hides the function `instance`. -/
def getProperty (obj : Nat) (args : List RpcValue) : Completion RpcProps :=
  match host.hasMember obj (arg args 0) with
  | .error e => .error e
  | .ok true =>
    match (host.getMember obj (arg args 0)).bind host.serialize with
    | .ok result => .value (respond (.bool true) (.object result))
    | .error e => .error e
  | .ok false =>
    match host.propertyKey (arg args 1) with
    | .ok text => failedFor host ("No such property on object #" ++ text ++ ": ") (arg args 0)
    | .error e => .error e

def setProperty (obj : Nat) (args : List RpcValue) : Completion RpcProps :=
  match host.setMember obj (arg args 0) (arg args 1) with
  | .ok _ => .value (respond (.bool true) (arg args 1))
  | .error e => .error e

inductive Command where
  | new | list | delete | invoke | describe (what : Description) | get | set
  deriving DecidableEq, Repr

/-- The properties of what `FactoryEndpoint` returns. -/
def commands : List (String × Command) :=
  [("new", .new), ("list", .list), ("delete", .delete), ("invoke", .invoke),
    ("keys", .describe .keys), ("names", .describe .names), ("symbols", .describe .symbols),
    ("properties", .describe .properties), ("methods", .describe .methods), ("get", .get), ("set", .set)]

def Command.named (key : String) : Option Command :=
  (commands.find? (·.1 = key)).map Prod.snd

def Command.call : Command → Reply
  | .new => s.new host args
  | .list => s.list host
  | .delete => s.delete host args
  | .invoke => s.instance host args (QjsNet.invoke host)
  | .describe what => s.instance host args (QjsNet.describe host what)
  | .get => s.instance host args (getProperty host)
  | .set => s.instance host args (setProperty host)

/-! ## A message -/

/-- `this.methods[method]`, called. -/
def callMethod (key : String) : Reply :=
  match Command.named key with
  | some cmd => cmd.call host s args
  | none =>
    match host.inheritedMethod key with
    | some fn =>
      match fn args with
      | .ok ret => (s, .value ret)
      | .error e => (s, .error e)
    | none => (s, .error host.typeError)

/-- `...(params ?? [])` -/
def spreadParams (params : RpcValue) : Except RpcValue (List RpcValue) :=
  if params.isNullish then .ok [] else host.spread params

/-- What is spread behind the id: nothing after an exception, unless it is undefined or null,
which the `catch` asks for its message. -/
def caught : Completion RpcProps → Option RpcProps
  | .value ret => some ret
  | .error e => if e.isNullish then none else some []
  | .pending => none

/-- The rest of `processMessage` for a message with a method. -/
def processCall (method id params : RpcValue) : FactoryEndpoint × Option RpcProps :=
  match host.propertyKey method with
  | .error _ => (s, none)
  | .ok key =>
    let (s, c) := match spreadParams host params with
      | .ok args => callMethod host s args key
      | .error e => (s, .error e)
    (s, (caught c).map (spreadInto [("id", id)]))

/-- The own properties of an object, for which `in` does not throw. -/
def RpcValue.props : RpcValue → Option RpcProps
  | .object props => some props
  | .array _ | .function _ | .other _ => some []
  | _ => none

/-- A property, or undefined. -/
def readOwn (props : RpcProps) (key : String) : RpcValue := (own props key).getD .undefined

/-- What the promise is resolved with; `none` when it is rejected or stays pending. -/
def processMessage (msg : RpcValue) : FactoryEndpoint × Option RpcProps :=
  match msg.props with
  | none => (s, none)
  | some props =>
    match own props "method" with
    | none => (s, some (respond (readOwn props "id") (.bool false)))
    | some method => processCall host s method (readOwn props "id") (readOwn props "params")

/-- What `trim()` takes away. -/
def isSpace (c : Char) : Bool :=
  (9 ≤ c.toNat && c.toNat ≤ 13) || (0x2000 ≤ c.toNat && c.toNat ≤ 0x200a) ||
    [32, 0xa0, 0x1680, 0x2028, 0x2029, 0x202f, 0x205f, 0x3000, 0xfeff].contains c.toNat

def RpcValue.isBlank : RpcValue → Bool
  | .string chars => chars.toList.all isSpace
  | _ => false

/-- `(msg && msg.data) || msg` -/
def payload (msg : RpcValue) : RpcValue :=
  let data := match msg with
    | .object props => readOwn props "data"
    | .other id => host.data id
    | _ => .undefined
  if data.truthy then data else msg

variable (codec : RpcCodec)

/-- The data of a message that is not skipped. -/
def incoming (msg : RpcValue) : Option RpcValue :=
  if !msg.truthy || msg.isBlank then none
  else some ((codec.decode (payload host msg)).getD (payload host msg))

/-- Nothing is sent when the codec throws. -/
def sendMessage (obj : RpcProps) : List RpcProps := if codec.encodes obj then [obj] else []

/-- The endpoint afterwards, and what is sent. -/
def onmessage (msg : RpcValue) : FactoryEndpoint × List RpcProps :=
  match incoming host codec msg with
  | none => (s, [])
  | some data =>
    let (s, response) := processMessage host s data
    (s, response.elim [] (sendMessage codec))

/-! ## What a message comes to -/

/-- A command succeeds, or fails with a response of its own, or throws; its promise may stay
pending. -/
inductive Outcome where
  | success (result : RpcValue)
  | failure (error : RpcValue)
  | exception (error : RpcValue)
  | pending
  deriving Repr

def Outcome.ofExcept {α : Type} (result : α → RpcValue) : Except RpcValue α → Outcome
  | .ok a => .success (result a)
  | .error e => .exception e

/-- The object with a message. -/
def errorMessage (message : String) : RpcValue := .object [("message", .string message)]

def Outcome.ofText (message : String) : Except RpcValue String → Outcome
  | .ok text => .failure (errorMessage (message ++ text))
  | .error e => .exception e

def Outcome.ofCalled : Called → Outcome
  | .returned value | .promise (.value value) => .success value
  | .threw e => .exception e
  | .promise (.error e) => .failure e
  | .promise .pending => .pending

/-- A command that needs an object. -/
def FactoryEndpoint.outcome (fn : Nat → List RpcValue → Outcome) : Outcome :=
  match host.propertyKey (arg args 0) with
  | .ok key => (s.find host key).elim (.failure (errorMessage ("No such object #" ++ key)))
      (fn · args.tail)
  | .error e => .exception e

def invokeOutcome (obj : Nat) (args : List RpcValue) : Outcome :=
  let noMethod := Outcome.ofText ("No such method on object #" ++ instanceSource ++ ": ")
    (host.propertyKey (arg args 0))
  match host.hasMember obj (arg args 0) with
  | .error e => .exception e
  | .ok false => noMethod
  | .ok true =>
    match host.getMember obj (arg args 0) with
    | .error e => .exception e
    | .ok method =>
      if method.isFunction then
        match host.spread (listArg args 1) with
        | .error e => .exception e
        | .ok params => .ofCalled (host.callMember obj (arg args 0) params)
      else noMethod

def getOutcome (obj : Nat) (args : List RpcValue) : Outcome :=
  match host.hasMember obj (arg args 0) with
  | .ok true => .ofExcept .object ((host.getMember obj (arg args 0)).bind host.serialize)
  | .ok false =>
    match host.propertyKey (arg args 1) with
    | .ok text => .ofText ("No such property on object #" ++ text ++ ": ")
        (host.propertyKey (arg args 0))
    | .error e => .exception e
  | .error e => .exception e

def Command.outcome : Command → Outcome
  | .new =>
    match (host.spread (listArg args 1)).bind (host.construct (arg args 0)) with
    | .ok _ => .success (.object [("instance", .number (instanceKey s.nextId))])
    | .error e =>
      if e.isNullish then .exception host.typeError
      else .failure (.object [("message", host.message e), ("stack", host.stack e)])
  | .list => .success (.array (host.classNames.map .string))
  | .delete => .ofExcept (fun _ => .undefined) (host.propertyKey (arg args 0))
  | .invoke => s.outcome host args (invokeOutcome host)
  | .describe what =>
    s.outcome host args fun obj args => .ofExcept .array (host.describe what obj args)
  | .get => s.outcome host args (getOutcome host)
  | .set => s.outcome host args fun obj args =>
      .ofExcept (fun _ => arg args 1) (host.setMember obj (arg args 0) (arg args 1))

/-- What a message comes to: a method that is none of the commands fails. -/
def outcome (props : RpcProps) : Outcome :=
  match host.propertyKey (readOwn props "method"), spreadParams host (readOwn props "params") with
  | .ok key, .ok args =>
    (Command.named key).elim (.exception host.typeError) fun cmd => cmd.outcome host s args
  | .error e, _ => .exception e
  | .ok _, .error e => .exception e

def Outcome.succeeded : Outcome → Bool
  | .success _ => true
  | _ => false

/-- The result of a command that succeeds. -/
def Outcome.result : Outcome → Option RpcValue
  | .success result => some result
  | _ => none

/-- The reply shows the id, whether the command succeeded, and the result or an error. -/
def Shows (id : RpcValue) (o : Outcome) (result : Option RpcValue) (reply : RpcProps) : Prop :=
  own reply "id" = some id ∧ own reply "success" = some (.bool o.succeeded) ∧
    own reply "result" = result ∧ (own reply "error").isSome = !o.succeeded

/-- There is one reply, and it shows what it should. -/
def Replied (id : RpcValue) (o : Outcome) (result : Option RpcValue) (sent : List RpcProps) : Prop :=
  ∃ reply, sent = [reply] ∧ Shows id o result reply

/-- A result that is undefined is not there. -/
def Outcome.carried (o : Outcome) : Option RpcValue := o.result.filter (!·.isUndefined)

/-- The command responds itself: it does not throw, and what it fails with is not undefined. -/
def Outcome.responds : Outcome → Bool
  | .success _ => true
  | .failure e => !e.isUndefined
  | _ => false

/-- The reply that shows it. -/
def Outcome.reply (id : RpcValue) : Outcome → RpcProps
  | .success result =>
    ("id", id) :: ("success", .bool true) :: if result.isUndefined then [] else [("result", result)]
  | .failure e => [("id", id), ("success", .bool false), ("error", e)]
  | _ => []

/-- An object that is the response of a command that has failed, with no other id. The last of two
properties with one name counts. -/
def FailedResponse (id : RpcValue) (ret : RpcProps) : Prop :=
  (own ret.reverse "id").getD id = id ∧ own ret.reverse "success" = some (.bool false) ∧
    own ret.reverse "result" = none ∧ (own ret.reverse "error").isSome = true

/-- A command responds itself, with what can be encoded. A function that every object inherits may
be called in its place, which makes a reply when it returns one. -/
def KeyAnswered (key : String) (id : RpcValue) : Prop :=
  match Command.named key with
  | some cmd => (cmd.outcome host s args).responds = true ∧
      codec.encodes ((cmd.outcome host s args).reply id) = true
  | none => ∃ fn ret, host.inheritedMethod key = some fn ∧ fn args = .ok ret ∧
      FailedResponse id ret ∧ codec.encodes (spreadInto [("id", id)] ret) = true

/-- There is a method, it has a key, and the parameters can be spread. -/
def Answered (props : RpcProps) (id : RpcValue) : Prop :=
  (own props "method").isSome ∧ ∃ key args,
    host.propertyKey (readOwn props "method") = .ok key ∧
    spreadParams host (readOwn props "params") = .ok args ∧ KeyAnswered host s args codec key id

variable {host s args codec} {id : RpcValue} {o : Outcome} {result : Option RpcValue}
  {props reply : RpcProps}

/-! ## The commands respond with what they come to -/

theorem respond_success (value : RpcValue) : respond (.bool true) value =
    ("success", .bool true) :: if value.isUndefined then [] else [("result", value)] := by
  unfold respond
  split <;> rfl

theorem respond_failure {e : RpcValue} (h : e.isUndefined = false) :
    respond (.bool false) e = [("success", .bool false), ("error", e)] := by
  rw [respond, if_neg (by rw [h]; decide)]
  rfl

/-- How a command responds. -/
def Outcome.completion : Outcome → Completion RpcProps
  | .success result => .value (respond (.bool true) result)
  | .failure e => .value (respond (.bool false) e)
  | .exception e => .error e
  | .pending => .pending

theorem failedFor_eq (message : String) (value : RpcValue) : failedFor host message value =
    (Outcome.ofText message (host.propertyKey value)).completion := by
  unfold failedFor
  cases host.propertyKey value with
  | ok text => rfl
  | error e => rfl

theorem respondCalled_eq (c : Called) : respondCalled c = (Outcome.ofCalled c).completion := by
  cases c with
  | returned value => rfl
  | threw e => rfl
  | promise c => cases c <;> rfl

theorem instance_eq {fn : Nat → List RpcValue → Completion RpcProps}
    {fnOutcome : Nat → List RpcValue → Outcome}
    (h : ∀ obj args, fn obj args = (fnOutcome obj args).completion) :
    (s.instance host args fn).2 = (s.outcome host args fnOutcome).completion := by
  unfold FactoryEndpoint.instance FactoryEndpoint.outcome
  cases host.propertyKey (arg args 0) with
  | error e => rfl
  | ok key =>
    cases hfind : s.find host key with
    | none => simp only [hfind, Option.elim_none]; rfl
    | some obj =>
      simp only [hfind, Option.elim_some]
      exact h obj args.tail

theorem invoke_eq (obj : Nat) (args : List RpcValue) :
    invoke host obj args = (invokeOutcome host obj args).completion := by
  unfold invoke invokeOutcome
  cases host.hasMember obj (arg args 0) with
  | error e => rfl
  | ok there =>
    cases there with
    | false => exact failedFor_eq _ _
    | true =>
      cases host.getMember obj (arg args 0) with
      | error e => rfl
      | ok method =>
        dsimp only
        split
        · cases host.spread (listArg args 1) with
          | error e => rfl
          | ok params => exact respondCalled_eq _
        · exact failedFor_eq _ _

theorem getProperty_eq (obj : Nat) (args : List RpcValue) :
    getProperty host obj args = (getOutcome host obj args).completion := by
  unfold getProperty getOutcome
  cases host.hasMember obj (arg args 0) with
  | error e => rfl
  | ok there =>
    cases there with
    | true =>
      dsimp only
      cases (host.getMember obj (arg args 0)).bind host.serialize with
      | ok result => rfl
      | error e => rfl
    | false =>
      dsimp only
      cases host.propertyKey (arg args 1) with
      | ok text => exact failedFor_eq _ _
      | error e => rfl

theorem describe_eq (what : Description) (obj : Nat) (args : List RpcValue) :
    describe host what obj args = (Outcome.ofExcept .array (host.describe what obj args)).completion := by
  unfold describe
  cases host.describe what obj args with
  | ok items => rfl
  | error e => rfl

theorem setProperty_eq (obj : Nat) (args : List RpcValue) : setProperty host obj args =
    (Outcome.ofExcept (fun _ => arg args 1) (host.setMember obj (arg args 0) (arg args 1))).completion := by
  unfold setProperty
  cases host.setMember obj (arg args 0) (arg args 1) with
  | ok _ => rfl
  | error e => rfl

theorem new_eq : (s.new host args).2 = (Command.outcome host s args .new).completion := by
  unfold FactoryEndpoint.new Command.outcome
  cases (host.spread (listArg args 1)).bind (host.construct (arg args 0)) with
  | ok obj => rfl
  | error e =>
    dsimp only
    split <;> rfl

theorem delete_eq : (s.delete host args).2 = (Command.outcome host s args .delete).completion := by
  unfold FactoryEndpoint.delete Command.outcome
  cases host.propertyKey (arg args 0) with
  | ok key => rfl
  | error e => rfl

/-- Every command responds with what it comes to. -/
theorem call_eq (cmd : Command) :
    (cmd.call host s args).2 = (cmd.outcome host s args).completion := by
  cases cmd with
  | new => exact new_eq
  | list => rfl
  | delete => exact delete_eq
  | invoke => exact instance_eq invoke_eq
  | describe what => exact instance_eq (describe_eq what)
  | get => exact instance_eq getProperty_eq
  | set => exact instance_eq setProperty_eq

theorem instance_unchanged (fn : Nat → List RpcValue → Completion RpcProps) :
    (s.instance host args fn).1 = s := by
  unfold FactoryEndpoint.instance
  cases host.propertyKey (arg args 0) with
  | error e => rfl
  | ok key => cases hfind : s.find host key <;> simp only [hfind]

/-- A command that fails leaves the endpoint as it is. -/
theorem call_unchanged {cmd : Command} (h : (cmd.outcome host s args).succeeded = false) :
    (cmd.call host s args).1 = s := by
  cases cmd with
  | new =>
    unfold Command.outcome at h
    unfold Command.call FactoryEndpoint.new
    cases hnew : (host.spread (listArg args 1)).bind (host.construct (arg args 0)) with
    | ok obj =>
      rw [hnew] at h
      cases h
    | error e =>
      dsimp only
      split <;> rfl
  | list => rfl
  | delete =>
    unfold Command.outcome at h
    unfold Command.call FactoryEndpoint.delete
    cases hkey : host.propertyKey (arg args 0) with
    | ok key =>
      rw [hkey] at h
      cases h
    | error e => rfl
  | invoke => exact instance_unchanged _
  | describe what => exact instance_unchanged _
  | get => exact instance_unchanged _
  | set => exact instance_unchanged _

/-! ## Spreading -/

theorem own_append (props more : RpcProps) (key : String) :
    own (props ++ more) key = (own props key).or (own more key) := by
  rw [own, own, own, List.find?_append, Option.map_or]

theorem own_cons (p : String × RpcValue) (props : RpcProps) (key : String) :
    own (p :: props) key = if p.1 = key then some p.2 else own props key := by
  unfold own
  by_cases h : p.1 = key <;> simp [h]

theorem own_singleton (p : String × RpcValue) (key : String) :
    own [p] key = if p.1 = key then some p.2 else none := own_cons p [] key

theorem own_replace (props : RpcProps) (p : String × RpcValue) (key : String) :
    own (props.map fun q => if q.1 = p.1 then p else q) key =
      if p.1 = key then (own props key).map fun _ => p.2 else own props key := by
  induction props with
  | nil => split <;> rfl
  | cons q props ih =>
    rw [List.map_cons, own_cons, own_cons, ih]
    by_cases hq : q.1 = p.1
    · rw [if_pos hq, hq]
      split <;> rfl
    · rw [if_neg hq]
      by_cases hp : p.1 = key
      · rw [if_pos hp, if_pos hp, if_neg fun hqk => hq (hqk.trans hp.symm),
          if_neg fun hqk => hq (hqk.trans hp.symm)]
      · rw [if_neg hp, if_neg hp]

theorem own_setOwn (props : RpcProps) (p : String × RpcValue) (key : String) :
    own (setOwn props p) key = if p.1 = key then some p.2 else own props key := by
  unfold setOwn
  cases hthere : own props p.1 with
  | some value =>
    rw [Option.isSome_some, if_pos rfl, own_replace]
    by_cases hp : p.1 = key
    · rw [if_pos hp, if_pos hp, ← hp, hthere, Option.map_some]
    · rw [if_neg hp, if_neg hp]
  | none =>
    rw [Option.isSome_none, if_neg Bool.false_ne_true, own_append, own_singleton]
    by_cases hp : p.1 = key
    · rw [if_pos hp, if_pos hp, ← hp, hthere, Option.none_or]
    · rw [if_neg hp, if_neg hp, Option.or_none]

/-- What is spread comes before what was there. -/
theorem own_spreadInto (props more : RpcProps) (key : String) :
    own (spreadInto props more) key = (own more.reverse key).or (own props key) := by
  induction more generalizing props with
  | nil => rfl
  | cons p more ih =>
    have hstep : spreadInto props (p :: more) = spreadInto (setOwn props p) more := rfl
    rw [hstep, ih, own_setOwn, List.reverse_cons, own_append, own_singleton, Option.or_assoc]
    split <;> rfl

/-- A failure is shown by what it is spread into the reply for. -/
theorem shows_failed_iff {id e : RpcValue} {ret : RpcProps} :
    Shows id (.exception e) none (spreadInto [("id", id)] ret) ↔ FailedResponse id ret := by
  have hid : own (spreadInto [("id", id)] ret) "id" = some ((own ret.reverse "id").getD id) := by
    rw [own_spreadInto]
    cases own ret.reverse "id" <;> rfl
  have hother : ∀ key, "id" ≠ key →
      own (spreadInto [("id", id)] ret) key = own ret.reverse key := by
    intro key hkey
    rw [own_spreadInto, own_singleton, if_neg hkey, Option.or_none]
  unfold Shows FailedResponse
  rw [hid, hother _ (by decide), hother _ (by decide), hother _ (by decide), Option.some.injEq]
  rfl

/-! ## The reply -/

theorem replied_send : Replied id o result (sendMessage codec reply) ↔
    codec.encodes reply = true ∧ Shows id o result reply := by
  unfold sendMessage
  split
  · next henc =>
    refine ⟨?_, fun h => ⟨reply, rfl, h.2⟩⟩
    rintro ⟨reply', hsent, hshows⟩
    cases hsent
    exact ⟨henc, hshows⟩
  · next henc =>
    refine iff_of_false ?_ fun h => henc h.1
    rintro ⟨reply', hsent, -⟩
    cases hsent

theorem not_replied_nil : ¬ Replied id o result [] := by
  rintro ⟨reply, hsent, -⟩
  cases hsent

/-- Without a success flag, nothing is shown. -/
theorem not_shows (h : own reply "success" = none) : ¬ Shows id o result reply := by
  rintro ⟨-, hsuccess, -⟩
  rw [h] at hsuccess
  cases hsuccess

/-- A message without a method is answered without its id. -/
theorem not_shows_respond (value e : RpcValue) : ¬ Shows id o result (respond value e) := by
  rintro ⟨hid, -⟩
  unfold respond at hid
  split at hid
  · cases hid
  · revert hid
    cases value.truthy <;> exact nofun

/-- What a command that responds itself puts behind the id. -/
theorem spread_reply (id : RpcValue) (h : o.responds = true) :
    (caught o.completion).map (spreadInto [("id", id)]) = some (o.reply id) := by
  cases o with
  | success value =>
    rw [Outcome.completion, respond_success, Outcome.reply]
    split <;> rfl
  | failure e =>
    have hdefined : e.isUndefined = false := by simpa [Outcome.responds] using h
    rw [Outcome.completion, respond_failure hdefined]
    rfl
  | exception e => cases h
  | pending => cases h

/-- Otherwise nothing is sent, or neither a result nor an error. -/
theorem spread_silent (h : o.responds = false) :
    ∀ reply ∈ (caught o.completion).map (spreadInto [("id", id)]), ¬ Shows id o result reply := by
  intro reply hreply
  cases o with
  | success value => cases h
  | failure e =>
    have hundefined : e.isUndefined = true := by simpa [Outcome.responds] using h
    rw [Outcome.completion, respond, if_pos hundefined] at hreply
    cases hreply
    rintro ⟨-, -, -, herror⟩
    cases herror
  | exception e =>
    rw [Outcome.completion, caught] at hreply
    split at hreply
    · cases hreply
    · cases hreply
      exact not_shows rfl
  | pending => cases hreply

theorem shows_reply_iff (h : o.responds = true) :
    Shows id o result (o.reply id) ↔ result = o.carried := by
  cases o with
  | success value =>
    have hresult : own (Outcome.reply id (.success value)) "result" =
        Outcome.carried (.success value) := by
      cases hvalue : value.isUndefined <;>
        simp [own, Outcome.reply, Outcome.carried, Outcome.result, Option.filter, hvalue]
    have herror : own (Outcome.reply id (.success value)) "error" = none := by
      cases hvalue : value.isUndefined <;> simp [own, Outcome.reply, hvalue]
    rw [Shows, hresult, herror]
    refine ⟨fun h => h.2.2.1.symm, fun h => ⟨rfl, rfl, h.symm, rfl⟩⟩
  | failure e => exact ⟨fun h => h.2.2.1.symm, fun h => ⟨rfl, rfl, h.symm, rfl⟩⟩
  | exception e => cases h
  | pending => cases h

/-- A result that is sent is one that is not undefined. -/
theorem result_carried_iff : o.result = o.carried ↔ o ≠ .success .undefined := by
  cases o with
  | success value =>
    cases value with
    | undefined => exact iff_of_false nofun fun h => h rfl
    | _ => exact iff_of_true rfl nofun
  | failure e => exact iff_of_true rfl nofun
  | exception e => exact iff_of_true rfl nofun
  | pending => exact iff_of_true rfl nofun

/-! ## A message with a method -/

theorem replied_option (r : Option RpcProps) :
    Replied id o result (r.elim [] (sendMessage codec)) ↔
      ∃ reply, r = some reply ∧ codec.encodes reply = true ∧ Shows id o result reply := by
  cases r with
  | none => exact iff_of_false not_replied_nil fun ⟨reply, hr, _⟩ => nomatch hr
  | some reply =>
    rw [Option.elim_some, replied_send]
    refine ⟨fun h => ⟨reply, rfl, h⟩, ?_⟩
    rintro ⟨reply', hr, h⟩
    cases hr
    exact h

/-- What is sent for what the method came to. -/
def sentFor (codec : RpcCodec) (id : RpcValue) (c : Completion RpcProps) : List RpcProps :=
  ((caught c).map (spreadInto [("id", id)])).elim [] (sendMessage codec)

theorem not_replied_thrown (e : RpcValue) : ¬ Replied id o result (sentFor codec id (.error e)) := by
  intro hreplied
  obtain ⟨reply, hreply, -, hshows⟩ := (replied_option _).1 hreplied
  rw [caught] at hreply
  split at hreply
  · cases hreply
  · cases hreply
    exact not_shows rfl hshows

theorem replied_command {key : String} {cmd : Command} (hkey : Command.named key = some cmd) :
    Replied id (cmd.outcome host s args) result (sentFor codec id (cmd.call host s args).2) ↔
      KeyAnswered host s args codec key id ∧ result = (cmd.outcome host s args).carried := by
  rw [KeyAnswered, hkey, call_eq, sentFor, replied_option]
  dsimp only
  cases hresponds : (cmd.outcome host s args).responds with
  | true =>
    rw [spread_reply id hresponds]
    refine ⟨?_, ?_⟩
    · rintro ⟨reply, hreply, hencodes, hshows⟩
      cases hreply
      exact ⟨⟨rfl, hencodes⟩, (shows_reply_iff hresponds).1 hshows⟩
    · rintro ⟨⟨-, hencodes⟩, hresult⟩
      exact ⟨_, rfl, hencodes, (shows_reply_iff hresponds).2 hresult⟩
  | false =>
    refine iff_of_false ?_ fun h => nomatch h.1.1
    rintro ⟨reply, hreply, -, hshows⟩
    exact spread_silent hresponds reply hreply hshows

theorem replied_inherited {key : String} (hkey : Command.named key = none) :
    Replied id (.exception host.typeError) none (sentFor codec id (callMethod host s args key).2) ↔
      KeyAnswered host s args codec key id := by
  rw [KeyAnswered, hkey]
  unfold callMethod
  rw [hkey]
  dsimp only
  cases hinherited : host.inheritedMethod key with
  | none => exact iff_of_false (not_replied_thrown _) nofun
  | some fn =>
    dsimp only
    cases hreturn : fn args with
    | error e =>
      refine iff_of_false (not_replied_thrown e) ?_
      rintro ⟨fn', ret, hfn, hret, -⟩
      cases hfn
      rw [hreturn] at hret
      cases hret
    | ok ret =>
      rw [sentFor, replied_option]
      refine ⟨?_, ?_⟩
      · rintro ⟨reply, hreply, hencodes, hshows⟩
        cases hreply
        exact ⟨fn, ret, rfl, hreturn, shows_failed_iff.1 hshows, hencodes⟩
      · rintro ⟨fn', ret', hfn, hret, hshows, hencodes⟩
        cases hfn
        rw [hreturn] at hret
        cases hret
        exact ⟨_, rfl, hencodes, shows_failed_iff.2 hshows⟩

theorem onmessage_sent {msg : RpcValue} (hdata : incoming host codec msg = some (.object props)) :
    (onmessage host s codec msg).2 =
      (processMessage host s (.object props)).2.elim [] (sendMessage codec) := by
  rw [onmessage, hdata]

theorem processMessage_call {method : RpcValue} (hmethod : own props "method" = some method) :
    processMessage host s (.object props) =
      processCall host s (readOwn props "method") (readOwn props "id") (readOwn props "params") := by
  have hread : readOwn props "method" = method := by rw [readOwn, hmethod, Option.getD_some]
  simp only [processMessage, RpcValue.props, hmethod, hread]

theorem outcome_call {key : String} (hkey : host.propertyKey (readOwn props "method") = .ok key)
    (hargs : spreadParams host (readOwn props "params") = .ok args) :
    outcome host s props = (Command.named key).elim (.exception host.typeError)
      fun cmd => cmd.outcome host s args := by
  rw [outcome, hkey, hargs]

theorem callMethod_command {key : String} {cmd : Command} (hkey : Command.named key = some cmd) :
    callMethod host s args key = cmd.call host s args := by
  rw [callMethod, hkey]

/-- A function that is none of the commands leaves the endpoint as it is. -/
theorem callMethod_inherited {key : String} (hkey : Command.named key = none) :
    (callMethod host s args key).1 = s := by
  unfold callMethod
  rw [hkey]
  cases host.inheritedMethod key with
  | none => rfl
  | some fn =>
    dsimp only
    cases fn args with
    | ok ret => rfl
    | error e => rfl

/-- A message whose command fails leaves the endpoint as it is. -/
theorem onmessage_unchanged {msg : RpcValue} (hdata : incoming host codec msg = some (.object props))
    (h : (outcome host s props).succeeded = false) : (onmessage host s codec msg).1 = s := by
  have hmessage : (onmessage host s codec msg).1 = (processMessage host s (.object props)).1 := by
    rw [onmessage, hdata]
  rw [hmessage]
  cases hmethod : own props "method" with
  | none => simp only [processMessage, RpcValue.props, hmethod]
  | some method =>
    rw [processMessage_call hmethod, processCall]
    cases hkey : host.propertyKey (readOwn props "method") with
    | error e => rfl
    | ok key =>
      cases hargs : spreadParams host (readOwn props "params") with
      | error e => rfl
      | ok args =>
        rw [outcome_call hkey hargs] at h
        cases hcmd : Command.named key with
        | none => exact callMethod_inherited hcmd
        | some cmd =>
          rw [hcmd, Option.elim_some] at h
          dsimp only
          rw [callMethod_command hcmd]
          exact call_unchanged h

/-- What is left of the condition when the message has a method and parameters. -/
theorem answered_call {key : String} (hsome : (own props "method").isSome = true)
    (hkey : host.propertyKey (readOwn props "method") = .ok key)
    (hargs : spreadParams host (readOwn props "params") = .ok args) :
    Answered host s codec props id ↔ KeyAnswered host s args codec key id := by
  refine ⟨?_, fun h => ⟨hsome, key, args, hkey, hargs, h⟩⟩
  rintro ⟨-, key', args', hkey', hargs', h⟩
  rw [hkey] at hkey'
  rw [hargs] at hargs'
  cases hkey'
  cases hargs'
  exact h

theorem replied_call {method : RpcValue} (hmethod : own props "method" = some method)
    (hid : own props "id" = some id) (hnone : (outcome host s props).result = none → result = none) :
    Replied id (outcome host s props) result
        ((processMessage host s (.object props)).2.elim [] (sendMessage codec)) ↔
      Answered host s codec props id ∧ result = (outcome host s props).carried := by
  have hsome : (own props "method").isSome = true := by rw [hmethod]; rfl
  have hread : readOwn props "id" = id := by rw [readOwn, hid, Option.getD_some]
  rw [processMessage_call hmethod, hread]
  cases hkey : host.propertyKey (readOwn props "method") with
  | error e =>
    have hsent : (processCall host s (readOwn props "method") id (readOwn props "params")).2 = none := by
      rw [processCall, hkey]
    rw [hsent]
    refine iff_of_false not_replied_nil ?_
    rintro ⟨⟨-, key, args, hkey', -⟩, -⟩
    rw [hkey] at hkey'
    cases hkey'
  | ok key =>
    cases hargs : spreadParams host (readOwn props "params") with
    | error e =>
      have hsent : (processCall host s (readOwn props "method") id (readOwn props "params")).2.elim []
          (sendMessage codec) = sentFor codec id (.error e) := by
        rw [processCall, hkey, hargs]
        rfl
      rw [hsent]
      refine iff_of_false (not_replied_thrown e) ?_
      rintro ⟨⟨-, key', args, -, hargs', -⟩, -⟩
      rw [hargs] at hargs'
      cases hargs'
    | ok args =>
      have hsent : (processCall host s (readOwn props "method") id (readOwn props "params")).2.elim []
          (sendMessage codec) = sentFor codec id (callMethod host s args key).2 := by
        rw [processCall, hkey, hargs]
        rfl
      rw [hsent, answered_call hsome hkey hargs]
      rw [outcome_call hkey hargs] at hnone ⊢
      cases hcmd : Command.named key with
      | some cmd =>
        rw [Option.elim_some, callMethod_command hcmd]
        exact replied_command hcmd
      | none =>
        rw [hcmd, Option.elim_none] at hnone
        have hresult : result = none := hnone rfl
        subst hresult
        rw [Option.elim_none, replied_inherited hcmd]
        exact (and_iff_left rfl).symm

theorem replied_iff {msg : RpcValue} (hdata : incoming host codec msg = some (.object props))
    (hid : own props "id" = some id)
    (hnone : (outcome host s props).result = none → result = none) :
    Replied id (outcome host s props) result (onmessage host s codec msg).2 ↔
      Answered host s codec props id ∧ result = (outcome host s props).carried := by
  rw [onmessage_sent hdata]
  cases hmethod : own props "method" with
  | some method => exact replied_call hmethod hid hnone
  | none =>
    refine iff_of_false ?_ ?_
    · have hresponse : (processMessage host s (.object props)).2 =
          some (respond (readOwn props "id") (.bool false)) := by
        simp only [processMessage, RpcValue.props, hmethod]
      rw [hresponse, replied_option]
      rintro ⟨reply, hreply, -, hshows⟩
      cases hreply
      exact not_shows_respond _ _ hshows
    · rintro ⟨⟨hsome, -⟩, -⟩
      rw [hmethod] at hsome
      cases hsome

/-- Every message with an id gets one reply, which shows the id, whether the command succeeded, and
its result or an error, exactly when it is answered; where a result is asked for that may be
undefined, also that it is not. -/
theorem rpc_reply_iff (host : RpcHost) (s : FactoryEndpoint) (codec : RpcCodec) (msg : RpcValue)
    (props : RpcProps) (id : RpcValue) (hdata : incoming host codec msg = some (.object props))
    (hid : own props "id" = some id) :
    (Replied id (outcome host s props) (outcome host s props).carried
        (onmessage host s codec msg).2 ↔ Answered host s codec props id) ∧
      (Replied id (outcome host s props) (outcome host s props).result
        (onmessage host s codec msg).2 ↔
          Answered host s codec props id ∧ outcome host s props ≠ .success .undefined) := by
  refine ⟨?_, ?_⟩
  · rw [replied_iff hdata hid fun h => by rw [Outcome.carried, h]; rfl]
    exact and_iff_left rfl
  · rw [replied_iff hdata hid fun h => h, result_carried_iff]

/-- A program with one class, whose objects are not asked for anything. -/
def oneClass : RpcHost where
  construct _ _ := .ok 0
  classNames := ["Map"]
  inheritedObject _ := none
  inheritedMethod _ := none
  hasMember _ _ := .ok false
  getMember _ _ := .ok .undefined
  setMember _ _ _ := .ok ()
  callMember _ _ _ := .threw (.other 0)
  describe _ _ _ := .ok []
  serialize _ := .ok []
  iterate _ := .error (.other 0)
  key _ := .ok "[object Object]"
  data _ := .undefined
  message _ := .undefined
  stack _ := .undefined
  typeError := .other 0
  typeError_object := rfl

/-- `codecs.none` -/
def noCodec : RpcCodec := ⟨some, fun _ => true⟩

theorem rpc_reply_list : Replied (.number "1") (.success (.array [.string "Map"]))
    (some (.array [.string "Map"]))
    (onmessage oneClass ⟨0, fun _ => none⟩ noCodec
      (.object [("method", .string "list"), ("id", .number "1")])).2 :=
  (rpc_reply_iff oneClass ⟨0, fun _ => none⟩ noCodec
    (.object [("method", .string "list"), ("id", .number "1")])
    [("method", .string "list"), ("id", .number "1")] (.number "1") rfl rfl).1.2
    ⟨rfl, "list", [], rfl, rfl, rfl, rfl⟩

/-- `Respond` takes the id for the success. -/
theorem no_method_no_id : ¬ ∀ host s codec msg props id,
    incoming host codec msg = some (.object props) → own props "id" = some id →
    Replied id (outcome host s props) (outcome host s props).carried
      (onmessage host s codec msg).2 := by
  intro h
  obtain ⟨reply, hsent, hid, -⟩ := h oneClass ⟨0, fun _ => none⟩ noCodec
    (.object [("id", .number "1")]) [("id", .number "1")] (.number "1") rfl rfl
  cases hsent
  cases hid

end QjsNet
