import QjsNet.RpcServer
import QjsNet.Utils

/- How values are sent by RPC (`rpc.js`).

   `SerializeValue` gives a value a description: its type, for an object the name of its
   class, and its contents as what JSON can carry. `DeserializeValue` looks the class up among
   the global variables and calls its constructor with the contents. The constructors of sets
   and of typed arrays take a list of elements, that of `ArrayBuffer` a length. An object with
   a property `constructor` is of the class that this one names.

   A number is given by its text. Data has no functions that could be called for it, so an own
   `toJSON` or `valueOf` is not one. What the conversions make of texts that are not decimal
   numerals, and the program's own objects and global variables, are given by the `RpcRealm`.
   Memory does not run out.

   Correspondence (JavaScript ↔ Lean):
     `getPrototypeName`             ↔ `RpcRealm.prototypeName`
     `SerializeValue`, `DeserializeValue`
       ↔ `RpcRealm.serializeValue`, `RpcRealm.deserializeValue`
     `JSON.parse(JSON.stringify(value))` ↔ `RpcRealm.jsonCopy`
     `globalThis[name]`             ↔ `RpcRealm.lookup`
     `new Object`, `new Set`, `new ArrayBuffer`, `new Uint8Array`, ...
       ↔ `RpcRealm.newObject`, `.newSet`, `.newArrayBuffer`, `.newTypedArray` -/
namespace QjsNet

inductive IntArrayKind where
  | int8 | uint8 | uint8Clamped | int16 | uint16 | int32 | uint32 | bigInt64 | bigUint64
  deriving DecidableEq, Repr

namespace IntArrayKind

def all : List IntArrayKind :=
  [.int8, .uint8, .uint8Clamped, .int16, .uint16, .int32, .uint32, .bigInt64, .bigUint64]

def name : IntArrayKind → String
  | .int8 => "Int8Array"
  | .uint8 => "Uint8Array"
  | .uint8Clamped => "Uint8ClampedArray"
  | .int16 => "Int16Array"
  | .uint16 => "Uint16Array"
  | .int32 => "Int32Array"
  | .uint32 => "Uint32Array"
  | .bigInt64 => "BigInt64Array"
  | .bigUint64 => "BigUint64Array"

/-- The elements are BigInts. -/
def isBigInt : IntArrayKind → Bool
  | .bigInt64 | .bigUint64 => true
  | _ => false

/-- The lowest and the highest element. -/
def range : IntArrayKind → Int × Int
  | .int8 => (-128, 127)
  | .uint8 | .uint8Clamped => (0, 255)
  | .int16 => (-32768, 32767)
  | .uint16 => (0, 65535)
  | .int32 => (-2147483648, 2147483647)
  | .uint32 => (0, 4294967295)
  | .bigInt64 => (-9223372036854775808, 9223372036854775807)
  | .bigUint64 => (0, 18446744073709551615)

def InRange (kind : IntArrayKind) (n : Int) : Prop := kind.range.1 ≤ n ∧ n ≤ kind.range.2

/-- The element an integer is converted to: the nearest, or the one that differs by a multiple of
the number of elements. -/
def wrap (kind : IntArrayKind) (n : Int) : Int :=
  match kind with
  | .uint8Clamped => max 0 (min 255 n)
  | kind => (n - kind.range.1) % (kind.range.2 - kind.range.1 + 1) + kind.range.1

end IntArrayKind

/-- The values that are described. -/
inductive RpcData where
  | data (v : RpcValue)
  | symbol (description : Option String)
  | set (items : List RpcValue)
  | arrayBuffer (bytes : Bytes)
  | typedArray (kind : IntArrayKind) (elems : List Int)
  deriving Repr

/-- What `globalThis` has for a name: something falsy, `Array`, or a value with what `new` makes of
it with an argument, where `none` is an exception. -/
inductive Global where
  | falsy
  | array
  | other (construct : RpcValue → Option RpcData)

/-- `desc.value` behind the construction: it stays what it is without a constructor, and with
`Array`. -/
def Global.make (ctor : Global) (value : RpcValue) : Option RpcData :=
  match ctor with
  | .falsy | .array => some (.data value)
  | .other construct => construct value

structure RpcRealm where
  host : RpcHost
  /-- `value.length` and the source of a function. -/
  functionLength : Nat → RpcValue
  functionText : Nat → String
  /-- `value.name` of a function, and `getPrototypeName` of any other object and of its prototype.
  -/
  functionName : Nat → RpcValue
  objectName : Nat → RpcValue
  protoName : Nat → RpcValue
  /-- What JSON makes of any other object. -/
  copyObject : Nat → Option RpcValue
  /-- The integer a text is converted to that is neither empty nor a decimal numeral. -/
  textInteger : String → Int
  /-- The element for a value that is not an integer. -/
  element : IntArrayKind → RpcValue → Option Int
  /-- The elements of a typed array that is not made of a list. -/
  typedFrom : IntArrayKind → RpcValue → Option (List Int)
  /-- The object for a primitive value. -/
  wrapper : RpcValue → Nat
  /-- The global variables that are not one of the constructors. -/
  global : String → Global

/-! ## Numerals -/

/-- The integer with this decimal text. -/
def decimal (s : String) : Option Int :=
  let n : Int := match s.toList with
    | '-' :: digits => -(Nat.ofDigitChars 10 digits 0 : Nat)
    | digits => (Nat.ofDigitChars 10 digits 0 : Nat)
  if n.repr = s then some n else none

/-- The integers that a number can have exactly. -/
def safeInteger (n : Int) : Bool := -9007199254740992 ≤ n ∧ n ≤ 9007199254740992

namespace RpcRealm

variable (realm : RpcRealm)

/-- The integer part of the number for a text, 0 when it is no number. -/
def toInteger (text : String) : Int :=
  if text = "" then 0
  else if ',' ∈ text.toList then 0
  else ((decimal text).filter (safeInteger ·)).getD (realm.textInteger text)

/-! ## The constructors -/

def newObject : RpcValue → Option RpcData
  | .undefined | .null => some (.data (.object []))
  | .bool b => some (.data (.other (realm.wrapper (.bool b))))
  | .number text => some (.data (.other (realm.wrapper (.number text))))
  | .string chars => some (.data (.other (realm.wrapper (.string chars))))
  | v => some (.data v)

/-- The same value for a set. Two objects that come from a list differ. -/
def samePrimitive : RpcValue → RpcValue → Bool
  | .undefined, .undefined => true
  | .null, .null => true
  | .bool a, .bool b => a = b
  | .number a, .number b => a = b
  | .string a, .string b => a = b
  | .function a, .function b => a = b
  | .other a, .other b => a = b
  | _, _ => false

/-- `add` of each item. -/
def setOf (items : List RpcValue) : List RpcValue :=
  items.foldl (fun set item => if set.any (samePrimitive · item) then set else set ++ [item]) []

def newSet (v : RpcValue) : Option RpcData :=
  if v.isNullish then some (.set [])
  else (realm.host.spread v).toOption.map fun items => .set (setOf items)

/-- The integer part of `Number(value)`. -/
def valueInteger : RpcValue → Option Int
  | .undefined | .null => some 0
  | .bool b => some (if b then 1 else 0)
  | v => (realm.host.propertyKey v).toOption.map realm.toInteger

/-- `ToIndex` -/
def toIndex (v : RpcValue) : Option Nat :=
  (realm.valueInteger v).bind fun n => if 0 ≤ n ∧ n < 9007199254740992 then some n.toNat else none

def newArrayBuffer (v : RpcValue) : Option RpcData :=
  (realm.toIndex v).map fun length => .arrayBuffer (List.replicate length 0)

/-- The integer that an item of a list is, as a BigInt or as a number. -/
def itemInteger (kind : IntArrayKind) : RpcValue → Option Int
  | .string text => if kind.isBigInt then decimal text else none
  | .number text => if kind.isBigInt then none else (decimal text).filter (safeInteger ·)
  | _ => none

/-- The element of a typed array for an item of a list. -/
def toElement (kind : IntArrayKind) (item : RpcValue) : Option Int :=
  match itemInteger kind item with
  | some n => some (kind.wrap n)
  | none => realm.element kind item

def newTypedArray (kind : IntArrayKind) : RpcValue → Option RpcData
  | .array items => (items.mapM (realm.toElement kind)).map (.typedArray kind)
  | v => (realm.typedFrom kind v).map (.typedArray kind)

def lookup (key : String) : Global :=
  if key = "Object" then .other realm.newObject
  else if key = "Array" then .array
  else if key = "Set" then .other realm.newSet
  else if key = "ArrayBuffer" then .other realm.newArrayBuffer
  else match IntArrayKind.all.find? (·.name = key) with
    | some kind => .other (realm.newTypedArray kind)
    | none => realm.global key

/-! ## Descriptions -/

/-- `typeof value` -/
def typeName : RpcData → String
  | .data .undefined => "undefined"
  | .data (.bool _) => "boolean"
  | .data (.number _) => "number"
  | .data (.string _) => "string"
  | .data (.function _) => "function"
  | .symbol _ => "symbol"
  | _ => "object"

/-- `constructor?.name` of an object with these own properties; the property it inherits is
`Object`. -/
def constructorName (props : RpcProps) : RpcValue :=
  match own props "constructor" with
  | none => .string "Object"
  | some (.object props) => (own props "name").getD .undefined
  | some (.function id) => realm.functionName id
  | some (.other id) => (realm.host.getMember id (.string "name")).toOption.getD .undefined
  | some _ => .undefined

/-- `getPrototypeName` of a value and of its prototype. -/
def prototypeName : RpcData → RpcValue × RpcValue
  | .data (.object props) => (realm.constructorName props, .string "Object")
  | .data (.array _) => (.string "Array", .string "Array")
  | .data (.other id) => (realm.objectName id, realm.protoName id)
  | .set _ => (.string "Set", .string "Set")
  | .arrayBuffer _ => (.string "ArrayBuffer", .string "ArrayBuffer")
  | .typedArray kind _ => (.string kind.name, .string kind.name)
  | _ => (.undefined, .undefined)

/-- `getPrototypeName(value) ?? getPrototypeName(Object.getPrototypeOf(value))` -/
def className (v : RpcData) : RpcValue :=
  if (realm.prototypeName v).1.isNullish then (realm.prototypeName v).2 else (realm.prototypeName v).1

/-- An element as it is sent: a BigInt as its text. -/
def sentElement (kind : IntArrayKind) (n : Int) : RpcValue :=
  if kind.isBigInt then .string n.repr else .number n.repr

/-- `desc.value` -/
def sentValue : RpcData → RpcValue
  | .data v => v
  | .symbol _ => .undefined
  | .set items => .array items
  | .arrayBuffer bytes => .array (bytes.map fun b => .number b.toNat.repr)
  | .typedArray kind elems => .array (elems.map (sentElement kind))

def functionProps (source : Bool) (id : Nat) : RpcProps :=
  (if (realm.functionLength id).isUndefined then [] else [("length", realm.functionLength id)])
    ++ if source then [("source", .string (realm.functionText id))] else []

def serializeValue (v : RpcData) (source : Bool) : RpcProps :=
  ("type", .string (typeName v)) :: match v with
    | .symbol description =>
      [("description", description.elim .undefined .string),
        ("symbol", .string ("Symbol(" ++ description.getD "" ++ ")"))]
    | .data (.function id) => realm.functionProps source id
    | .data .null => [("value", .null)]
    | v =>
      if typeName v = "object" then [("class", realm.className v), ("value", sentValue v)]
      else [("value", sentValue v)]

/-- The texts of the numbers that are not finite. -/
def finiteText (text : String) : Bool := text ∉ ["NaN", "Infinity", "-Infinity"]

mutual

/-- What JSON carries of a value, nothing of a function or of undefined. -/
def jsonCopy : RpcValue → Option RpcValue
  | .undefined | .function _ => none
  | .null => some .null
  | .bool b => some (.bool b)
  | .number text => some (if finiteText text then .number text else .null)
  | .string chars => some (.string chars)
  | .array items => some (.array (jsonItems items))
  | .object props => some (.object (jsonProps props))
  | .other id => realm.copyObject id

def jsonItems : List RpcValue → List RpcValue
  | [] => []
  | item :: items => (jsonCopy item).getD .null :: jsonItems items

def jsonProps : List (String × RpcValue) → List (String × RpcValue)
  | [] => []
  | (key, value) :: props =>
    match jsonCopy value with
    | some value => (key, value) :: jsonProps props
    | none => jsonProps props

end

/-- `desc.type == name` -/
def hasType (desc : RpcProps) (name : String) : Bool :=
  match own desc "type" with
  | some (.string type) => type = name
  | _ => false

/-- `none` is an exception. -/
def deserializeValue (desc : RpcProps) : Option RpcData :=
  let value := (own desc "value").getD .undefined
  if hasType desc "symbol" then
    (realm.host.propertyKey ((own desc "description").getD .undefined)).toOption.map fun key =>
      .symbol (some key)
  else if hasType desc "object" && (own desc "class").isSome then do
    let key ← (realm.host.propertyKey ((own desc "class").getD .undefined)).toOption
    (realm.lookup key).make value
  else some (.data value)

/-- `DeserializeValue(JSON.parse(JSON.stringify(SerializeValue(v))))` -/
def transfer (v : RpcData) : Option RpcData :=
  match realm.jsonCopy (.object (realm.serializeValue v false)) with
  | some (.object desc) => realm.deserializeValue desc
  | _ => none

end RpcRealm

/-! ## What is sent -/

mutual

/-- A value that JSON can carry. -/
def isJson : RpcValue → Bool
  | .null | .bool _ | .string _ => true
  | .number text => RpcRealm.finiteText text
  | .array items => allJson items
  | .object props => allJsonProps props
  | _ => false

def allJson : List RpcValue → Bool
  | [] => true
  | item :: items => isJson item && allJson items

def allJsonProps : List (String × RpcValue) → Bool
  | [] => true
  | (_, value) :: props => isJson value && allJsonProps props

end

/-- A JSON value, a set of such values, an array buffer, or a typed array with elements of its
kind. -/
def Sendable : RpcData → Prop
  | .data v => isJson v = true
  | .symbol _ => False
  | .set items => allJson items = true ∧ items.Pairwise fun a b => RpcRealm.samePrimitive a b = false
  | .arrayBuffer _ => True
  | .typedArray kind elems => ∀ n ∈ elems, kind.InRange n

/-- The object stays as it is: the global variable is falsy, or `Array`, or its constructor gives
back an equal object. -/
def Global.Keeps (ctor : Global) (props : RpcProps) : Prop :=
  match ctor with
  | .falsy | .array => True
  | .other construct => construct (.object props) = some (.data (.object props))

/-- `Set`, `ArrayBuffer` or the name of a typed array. -/
def NamesCollection (key : String) : Prop :=
  key = "Set" ∨ key = "ArrayBuffer" ∨ ∃ kind ∈ IntArrayKind.all, kind.name = key

/-- The class that the object seems to be of is `Object` or `Array`, or a global variable of the
program that keeps it. -/
def RestoresObject (realm : RpcRealm) (props : RpcProps) : Prop :=
  ∃ key, realm.host.propertyKey (realm.className (.data (.object props))) = .ok key
    ∧ (key = "Object" ∨ key = "Array"
      ∨ ¬ NamesCollection key ∧ (realm.global key).Keeps props)

/-- What is received is what was sent. -/
def Restores (realm : RpcRealm) : RpcData → Prop
  | .data (.object props) => RestoresObject realm props
  | .arrayBuffer bytes => bytes = []
  | _ => True

/-! ## Numerals and lists of them -/

theorem isDigit_of_mem_repr {n : Nat} {c : Char} (hc : c ∈ n.repr.toList) : c.isDigit = true := by
  rw [Nat.toList_repr] at hc
  exact Nat.isDigit_of_mem_toDigits (by decide) (by decide) hc

theorem decimal_natRepr (n : Nat) : decimal n.repr = some (n : Int) := by
  have hparse : Nat.ofDigitChars 10 n.repr.toList 0 = n := by
    rw [Nat.toList_repr]
    exact Nat.ofDigitChars_toDigits (by decide) (by decide)
  have hint : (n : Int).repr = n.repr := by
    rw [Int.repr_eq_if, if_pos (Int.natCast_nonneg n), Int.toNat_natCast]
  unfold decimal
  split
  · next digits hlist =>
    -- A minus is no digit.
    have hminus := isDigit_of_mem_repr (n := n) (c := '-') (by rw [hlist]; exact List.mem_cons_self)
    exact absurd hminus (by decide)
  · simp only [hparse, hint, if_true]

theorem decimal_repr (n : Int) : decimal n.repr = some n := by
  rcases Int.lt_or_le n 0 with hneg | hpos
  · have hrepr : n.repr = "-" ++ (-n).toNat.repr := by
      rw [Int.repr_eq_if, if_neg (Int.not_le.2 hneg)]
    have hlist : n.repr.toList = '-' :: (-n).toNat.repr.toList := by
      rw [hrepr, String.toList_append]
      rfl
    have hparse : Nat.ofDigitChars 10 (-n).toNat.repr.toList 0 = (-n).toNat := by
      rw [Nat.toList_repr]
      exact Nat.ofDigitChars_toDigits (by decide) (by decide)
    have hvalue : -((-n).toNat : Int) = n := by omega
    unfold decimal
    simp only [hlist, hparse, hvalue, if_true]
  · have hrepr : n.repr = n.toNat.repr := by rw [Int.repr_eq_if, if_pos hpos]
    rw [hrepr, decimal_natRepr, Int.toNat_of_nonneg hpos]

theorem intercalate_cons (a b : String) (rest : List String) :
    ",".intercalate (a :: b :: rest) = ",".intercalate ((a ++ "," ++ b) :: rest) := rfl

theorem comma_kept (rest : List String) : ∀ acc : String, ',' ∈ acc.toList →
    ',' ∈ (",".intercalate (acc :: rest)).toList := by
  induction rest with
  | nil => exact fun _ hmem => hmem
  | cons c rest ih =>
    intro acc hmem
    rw [intercalate_cons]
    apply ih
    rw [String.toList_append, String.toList_append]
    exact List.mem_append_left _ (List.mem_append_left _ hmem)

/-- A list of more than one text is joined with a comma in it. -/
theorem comma_mem_intercalate (a b : String) (rest : List String) :
    ',' ∈ (",".intercalate (a :: b :: rest)).toList := by
  rw [intercalate_cons]
  apply comma_kept
  rw [String.toList_append, String.toList_append]
  exact List.mem_append_left _ (List.mem_append_right _ (by decide))

namespace RpcRealm

variable (realm : RpcRealm) {v : RpcData}

theorem toInteger_repr {n : Nat} (hn : n < 9007199254740992) : realm.toInteger n.repr = n := by
  have hcomma : ',' ∉ n.repr.toList := by
    intro hmem
    exact absurd (isDigit_of_mem_repr hmem) (by decide)
  have hsafe : safeInteger (n : Int) = true := by
    unfold safeInteger
    rw [decide_eq_true_eq]
    omega
  rw [toInteger, if_neg Nat.repr_ne_empty, if_neg hcomma, decimal_natRepr, Option.filter_some,
    if_pos hsafe, Option.getD_some]

/-! ## Copies of data -/

mutual

theorem jsonCopy_eq : ∀ v : RpcValue, isJson v = true → realm.jsonCopy v = some v
  | .undefined, h => by cases h
  | .null, _ => rfl
  | .bool _, _ => rfl
  | .number text, h => by
    rw [isJson] at h
    rw [jsonCopy, if_pos h]
  | .string _, _ => rfl
  | .array items, h => by
    rw [isJson] at h
    rw [jsonCopy, jsonItems_eq items h]
  | .object props, h => by
    rw [isJson] at h
    rw [jsonCopy, jsonProps_eq props h]
  | .function _, h => by cases h
  | .other _, h => by cases h

theorem jsonItems_eq : ∀ items : List RpcValue, allJson items = true → realm.jsonItems items = items
  | [], _ => rfl
  | item :: items, h => by
    rw [allJson, Bool.and_eq_true] at h
    rw [jsonItems, jsonCopy_eq item h.1, jsonItems_eq items h.2, Option.getD_some]

theorem jsonProps_eq : ∀ props : List (String × RpcValue), allJsonProps props = true →
    realm.jsonProps props = props
  | [], _ => rfl
  | (key, value) :: props, h => by
    rw [allJsonProps, Bool.and_eq_true] at h
    rw [jsonProps, jsonCopy_eq value h.1, jsonProps_eq props h.2]

end

theorem allJson_iff (items : List RpcValue) :
    allJson items = true ↔ ∀ v ∈ items, isJson v = true := by
  induction items with
  | nil => simp [allJson]
  | cons item items ih => simp [allJson, ih]

theorem allJson_map {α : Type} (f : α → RpcValue) (hf : ∀ a, isJson (f a) = true) (as : List α) :
    allJson (as.map f) = true := by
  rw [allJson_iff]
  intro v hv
  obtain ⟨a, -, rfl⟩ := List.mem_map.1 hv
  exact hf a

theorem isJson_own {props : RpcProps} {key : String} {v : RpcValue} (h : allJsonProps props = true)
    (hown : own props key = some v) : isJson v = true := by
  induction props with
  | nil => cases hown
  | cons p props ih =>
    obtain ⟨name, value⟩ := p
    rw [allJsonProps, Bool.and_eq_true] at h
    rw [own, List.find?_cons] at hown
    by_cases hname : name = key
    · simp only [hname, decide_true, Option.map_some, Option.some.injEq] at hown
      exact hown ▸ h.1
    · simp only [hname, decide_false] at hown
      exact ih h.2 hown

/-! ## Descriptions that are received -/

/-- A value without a class is received as it was sent. -/
theorem transfer_plain {x : RpcValue} (type : String) (hx : isJson x = true) (htype : type ≠ "symbol")
    (hdesc : realm.serializeValue v false = [("type", .string type), ("value", x)]) :
    realm.transfer v = some (.data x) := by
  have hjson : isJson (.object [("type", .string type), ("value", x)]) = true := by
    simp [isJson, allJsonProps, hx]
  have hsymbol : hasType [("type", .string type), ("value", x)] "symbol" = false :=
    decide_eq_false htype
  rw [transfer, hdesc, realm.jsonCopy_eq _ hjson]
  simp only
  rw [deserializeValue, hsymbol, if_neg Bool.false_ne_true, if_neg]
  · rfl
  · rw [Bool.and_eq_true]
    rintro ⟨-, hclass⟩
    cases hclass

/-- A value with a class is made from its contents. -/
theorem transfer_class {c x : RpcValue} (hc : isJson c = true) (hx : isJson x = true)
    (hdesc : realm.serializeValue v false = [("type", .string "object"), ("class", c), ("value", x)]) :
    realm.transfer v
      = (realm.host.propertyKey c).toOption.bind fun key => (realm.lookup key).make x := by
  have hjson : isJson (.object [("type", .string "object"), ("class", c), ("value", x)]) = true := by
    simp [isJson, allJsonProps, hx, hc]
  rw [transfer, hdesc, realm.jsonCopy_eq _ hjson]
  rfl

/-- The class of a value that is not an object of the program is a string. -/
theorem transfer_named {name : String} {x : RpcValue} (hx : isJson x = true)
    (hdesc : realm.serializeValue v false
      = [("type", .string "object"), ("class", .string name), ("value", x)]) :
    realm.transfer v = (realm.lookup name).make x := by
  rw [realm.transfer_class rfl hx hdesc]
  rfl

/-! ## Sets and typed arrays -/

theorem setOf_eq {items : List RpcValue} (h : items.Pairwise fun a b => samePrimitive a b = false) :
    setOf items = items := by
  have hfold : ∀ items set : List RpcValue,
      (set ++ items).Pairwise (fun a b => samePrimitive a b = false) →
      items.foldl (fun set item => if set.any (samePrimitive · item) then set else set ++ [item]) set
        = set ++ items := by
    intro items
    induction items with
    | nil => exact fun set _ => (List.append_nil set).symm
    | cons item items ih =>
      intro set hdistinct
      have hnew : set.any (samePrimitive · item) = false := by
        rw [List.any_eq_false]
        intro a ha hsame
        have hfalse := (List.pairwise_append.1 hdistinct).2.2 a ha item List.mem_cons_self
        rw [hfalse] at hsame
        cases hsame
      rw [List.foldl_cons, hnew, if_neg Bool.false_ne_true, ih _ (by simpa using hdistinct),
        List.append_assoc]
      rfl
  exact hfold items [] h

theorem wrap_eq {kind : IntArrayKind} {n : Int} (h : kind.InRange n) : kind.wrap n = n := by
  obtain ⟨hlo, hhi⟩ := h
  by_cases hclamped : kind = .uint8Clamped
  · subst hclamped
    simp only [IntArrayKind.range] at hlo hhi
    rw [IntArrayKind.wrap]
    omega
  · have hwrap : kind.wrap n
        = (n - kind.range.1) % (kind.range.2 - kind.range.1 + 1) + kind.range.1 := by
      cases kind
      all_goals first | rfl | exact absurd rfl hclamped
    rw [hwrap, Int.emod_eq_of_lt (by omega) (by omega)]
    omega

theorem safeInteger_of_inRange {kind : IntArrayKind} {n : Int} (hbig : kind.isBigInt = false)
    (h : kind.InRange n) : safeInteger n = true := by
  obtain ⟨hlo, hhi⟩ := h
  unfold safeInteger
  rw [decide_eq_true_eq]
  cases kind
  all_goals first
    | (simp only [IntArrayKind.range] at hlo hhi; omega)
    | cases hbig

theorem toElement_eq {kind : IntArrayKind} {n : Int} (h : kind.InRange n) :
    realm.toElement kind (sentElement kind n) = some n := by
  have hinteger : itemInteger kind (sentElement kind n) = some n := by
    rw [sentElement]
    cases hbig : kind.isBigInt with
    | true => rw [if_pos rfl, itemInteger, hbig, if_pos rfl, decimal_repr]
    | false =>
      rw [if_neg Bool.false_ne_true, itemInteger, hbig, if_neg Bool.false_ne_true, decimal_repr,
        Option.filter_some, if_pos (safeInteger_of_inRange hbig h)]
  rw [toElement, hinteger]
  simp only [wrap_eq h]

theorem newTypedArray_eq {kind : IntArrayKind} {elems : List Int} (h : ∀ n ∈ elems, kind.InRange n) :
    realm.newTypedArray kind (.array (elems.map (sentElement kind)))
      = some (.typedArray kind elems) := by
  have hmap : (elems.map (sentElement kind)).mapM (realm.toElement kind) = some elems := by
    induction elems with
    | nil => rfl
    | cons n elems ih =>
      rw [List.map_cons, List.mapM_cons, realm.toElement_eq (h n List.mem_cons_self),
        ih fun m hm => h m (List.mem_cons_of_mem n hm)]
      rfl
  rw [newTypedArray, hmap]
  rfl

theorem lookup_kind (kind : IntArrayKind) :
    realm.lookup kind.name = .other (realm.newTypedArray kind) := by
  cases kind
  all_goals rfl

/-! ## Plain objects -/

theorem make_object_iff (ctor : Global) (props : RpcProps) :
    ctor.make (.object props) = some (.data (.object props)) ↔ ctor.Keeps props := by
  cases ctor with
  | falsy => exact iff_of_true rfl trivial
  | array => exact iff_of_true rfl trivial
  | other construct => exact Iff.rfl

/-- A constructor that makes something else of every object. -/
theorem not_keeps_map {α : Type} {make : RpcValue → Option RpcData} {props : RpcProps}
    {x : Option α} {f : α → RpcData} (hmake : make (.object props) = x.map f)
    (hf : ∀ a, f a ≠ .data (.object props)) : ¬ (Global.other make).Keeps props := by
  intro h
  obtain ⟨a, -, ha⟩ := Option.map_eq_some_iff.1 (hmake.symm.trans h)
  exact hf a ha

theorem lookup_keeps_iff (key : String) (props : RpcProps) : (realm.lookup key).Keeps props
    ↔ key = "Object" ∨ key = "Array" ∨ ¬ NamesCollection key ∧ (realm.global key).Keeps props := by
  rw [lookup]
  by_cases hobject : key = "Object"
  · rw [if_pos hobject]
    exact iff_of_true rfl (Or.inl hobject)
  by_cases harray : key = "Array"
  · rw [if_neg hobject, if_pos harray]
    exact iff_of_true trivial (Or.inr (Or.inl harray))
  rw [if_neg hobject, if_neg harray, or_iff_right hobject, or_iff_right harray]
  by_cases hset : key = "Set"
  · rw [if_pos hset]
    have hmake : realm.newSet (.object props) = (realm.host.spread (.object props)).toOption.map
        fun items => .set (setOf items) := rfl
    exact iff_of_false (not_keeps_map hmake nofun) fun h => h.1 (Or.inl hset)
  by_cases hbuffer : key = "ArrayBuffer"
  · rw [if_neg hset, if_pos hbuffer]
    have hmake : realm.newArrayBuffer (.object props) = (realm.toIndex (.object props)).map
        fun length => .arrayBuffer (List.replicate length 0) := rfl
    exact iff_of_false (not_keeps_map hmake nofun) fun h => h.1 (Or.inr (Or.inl hbuffer))
  rw [if_neg hset, if_neg hbuffer, NamesCollection, or_iff_right hset, or_iff_right hbuffer]
  cases hfind : IntArrayKind.all.find? (·.name = key) with
  | some kind =>
    have hname : kind.name = key := by simpa using List.find?_some hfind
    have hmake : realm.newTypedArray kind (.object props)
        = (realm.typedFrom kind (.object props)).map (.typedArray kind) := rfl
    exact iff_of_false (not_keeps_map hmake nofun)
      fun h => h.1 ⟨kind, List.mem_of_find?_eq_some hfind, hname⟩
  | none =>
    refine (and_iff_right ?_).symm
    rintro ⟨kind, hkind, hname⟩
    exact List.find?_eq_none.1 hfind kind hkind (by simpa using hname)

/-! ## Array buffers -/

theorem itemKeys_numbers (bytes : Bytes) :
    realm.host.itemKeys (bytes.map fun b => .number b.toNat.repr)
      = .ok (bytes.map fun b => b.toNat.repr) := by
  induction bytes with
  | nil => rfl
  | cons b bytes ih =>
    rw [List.map_cons, RpcHost.itemKeys, ih]
    rfl

theorem toIndex_of_integer {v : RpcValue} {n : Nat} (h : realm.valueInteger v = some (n : Int))
    (hn : n < 9007199254740992) : realm.toIndex v = some n := by
  rw [toIndex, h, Option.bind_some, if_pos (by omega), Int.toNat_natCast]

/-- The length that the numbers are taken for. One number gives a length, more of them do not. -/
def lengthOf : Bytes → Nat
  | [b] => b.toNat
  | _ => 0

theorem toIndex_numbers (bytes : Bytes) :
    realm.toIndex (.array (bytes.map fun b => .number b.toNat.repr)) = some (lengthOf bytes) := by
  have hvalue : realm.valueInteger (.array (bytes.map fun b => .number b.toNat.repr))
      = some (realm.toInteger (",".intercalate (bytes.map fun b => b.toNat.repr))) := by
    rw [valueInteger, RpcHost.propertyKey, realm.itemKeys_numbers]
    · rfl
    all_goals nofun
  apply realm.toIndex_of_integer
  · rw [hvalue]
    congr 1
    match bytes with
    | [] => rfl
    | [b] =>
      have hb := b.toNat_lt
      exact realm.toInteger_repr (by omega)
    | b :: c :: rest =>
      have hcomma := comma_mem_intercalate b.toNat.repr c.toNat.repr (rest.map fun b => b.toNat.repr)
      rw [List.map_cons, List.map_cons, toInteger, if_pos hcomma, ite_self]
      rfl
  · match bytes with
    | [] => exact Nat.zero_lt_succ _
    | [b] =>
      have hb := b.toNat_lt
      exact Nat.lt_trans hb (by decide)
    | b :: c :: rest => exact Nat.zero_lt_succ _

/-- A buffer of that length has no byte of the one that was sent. -/
theorem newArrayBuffer_iff (bytes : Bytes) :
    realm.newArrayBuffer (.array (bytes.map fun b => .number b.toNat.repr)) = some (.arrayBuffer bytes)
      ↔ bytes = [] := by
  rw [newArrayBuffer, realm.toIndex_numbers, Option.map_some, Option.some.injEq,
    RpcData.arrayBuffer.injEq]
  match bytes with
  | [] => exact iff_of_true rfl rfl
  | [b] =>
    refine iff_of_false ?_ nofun
    intro heq
    -- The buffer has one byte only if that byte is 1, and then the one it has is 0.
    have hlen := congrArg List.length heq
    rw [List.length_replicate, List.length_singleton] at hlen
    rw [hlen] at heq
    rw [← (List.cons.inj heq).1] at hlen
    cases hlen
  | b :: c :: rest => exact iff_of_false nofun nofun

end RpcRealm

/-! ## The round trip -/

theorem finiteText_of_decimal {text : String} {n : Int} (h : decimal text = some n) :
    RpcRealm.finiteText text = true := by
  unfold RpcRealm.finiteText
  rw [decide_eq_true_eq]
  intro hmem
  have hnone : ∀ text ∈ ["NaN", "Infinity", "-Infinity"], decimal text = none := by decide
  rw [hnone text hmem] at h
  cases h

theorem isJson_sentElement (kind : IntArrayKind) (n : Int) :
    isJson (RpcRealm.sentElement kind n) = true := by
  rw [RpcRealm.sentElement]
  cases kind.isBigInt with
  | true => rfl
  | false => exact finiteText_of_decimal (decimal_repr n)

theorem isJson_constructorName {realm : RpcRealm} {props : RpcProps} (h : allJsonProps props = true) :
    (realm.constructorName props).isNullish = true ∨ isJson (realm.constructorName props) = true := by
  rw [RpcRealm.constructorName]
  cases hown : own props "constructor" with
  | none => exact Or.inr rfl
  | some c =>
    have hc := RpcRealm.isJson_own h hown
    cases c with
    | object inner =>
      simp only
      cases hname : own inner "name" with
      | none => exact Or.inl rfl
      | some name =>
        rw [isJson] at hc
        exact Or.inr (RpcRealm.isJson_own hc hname)
    | function id => cases hc
    | other id => cases hc
    | _ => exact Or.inl rfl

theorem isJson_className {realm : RpcRealm} {props : RpcProps} (h : allJsonProps props = true) :
    isJson (realm.className (.data (.object props))) = true := by
  rw [RpcRealm.className, RpcRealm.prototypeName]
  by_cases hnull : (realm.constructorName props).isNullish = true
  · rw [if_pos hnull]
    rfl
  · rw [if_neg hnull]
    exact (isJson_constructorName h).resolve_left hnull

theorem transfer_object (realm : RpcRealm) {props : RpcProps} (h : allJsonProps props = true) :
    realm.transfer (.data (.object props)) = some (.data (.object props))
      ↔ RestoresObject realm props := by
  have hjson : isJson (.object props) = true := by rw [isJson, h]
  rw [realm.transfer_class (isJson_className h) hjson rfl, Option.bind_eq_some_iff, RestoresObject]
  apply exists_congr
  intro key
  rw [RpcRealm.make_object_iff, realm.lookup_keeps_iff]
  apply and_congr_left'
  cases realm.host.propertyKey (realm.className (.data (.object props))) with
  | error e => exact iff_of_false nofun nofun
  | ok text => simp [Except.toOption]

theorem transfer_arrayBuffer (realm : RpcRealm) (bytes : Bytes) : realm.transfer (.arrayBuffer bytes)
    = realm.newArrayBuffer (.array (bytes.map fun b => .number b.toNat.repr)) := by
  have hjson : isJson (.array (bytes.map fun b => .number b.toNat.repr)) = true := by
    apply RpcRealm.allJson_map
    intro b
    exact finiteText_of_decimal (decimal_natRepr b.toNat)
  rw [realm.transfer_named hjson rfl]
  rfl

/-- What can be sent is received as it was, but for the contents of an array buffer, and for an
object that names another class. -/
theorem rpc_value_round_trip_iff (realm : RpcRealm) (v : RpcData) (h : Sendable v) :
    realm.transfer v = some v ↔ Restores realm v := by
  cases v with
  | data v =>
    cases v with
    | object props =>
      have hprops : allJsonProps props = true := by simpa [Sendable, isJson] using h
      exact transfer_object realm hprops
    | array items =>
      refine iff_of_true ?_ trivial
      rw [realm.transfer_named h rfl]
      rfl
    | undefined => cases h
    | function id => cases h
    | other id => cases h
    | null => exact iff_of_true (realm.transfer_plain "object" h (by decide) rfl) trivial
    | bool b => exact iff_of_true (realm.transfer_plain "boolean" h (by decide) rfl) trivial
    | number text => exact iff_of_true (realm.transfer_plain "number" h (by decide) rfl) trivial
    | string chars => exact iff_of_true (realm.transfer_plain "string" h (by decide) rfl) trivial
  | symbol description => exact h.elim
  | set items =>
    obtain ⟨hjson, hdistinct⟩ := h
    have hitems : isJson (.array items) = true := by rw [isJson, hjson]
    refine iff_of_true ?_ trivial
    calc realm.transfer (.set items)
        = (realm.lookup "Set").make (.array items) := realm.transfer_named hitems rfl
      _ = some (.set (RpcRealm.setOf items)) := rfl
      _ = some (.set items) := by rw [RpcRealm.setOf_eq hdistinct]
  | arrayBuffer bytes =>
    rw [transfer_arrayBuffer]
    exact realm.newArrayBuffer_iff bytes
  | typedArray kind elems =>
    have hjson : isJson (.array (elems.map (RpcRealm.sentElement kind))) = true :=
      RpcRealm.allJson_map _ (isJson_sentElement kind) elems
    refine iff_of_true ?_ trivial
    rw [realm.transfer_named hjson rfl, realm.lookup_kind]
    exact realm.newTypedArray_eq h

/-- A program without objects and variables of its own. -/
def bareRealm : RpcRealm where
  host := oneClass
  functionLength _ := .number "0"
  functionText _ := ""
  functionName _ := .string ""
  objectName _ := .undefined
  protoName _ := .string "Object"
  copyObject _ := some (.object [])
  textInteger _ := 0
  element _ _ := none
  typedFrom _ _ := none
  wrapper _ := 0
  global _ := .falsy

theorem rpc_value_round_trip_set :
    Sendable (.set [.number "1", .array [.null]])
      ∧ (bareRealm.transfer (.set [.number "1", .array [.null]])
          = some (.set [.number "1", .array [.null]])
        ↔ Restores bareRealm (.set [.number "1", .array [.null]])) := by
  have hsendable : Sendable (.set [.number "1", .array [.null]]) := by
    refine ⟨by decide, ?_⟩
    simp [RpcRealm.samePrimitive]
  exact ⟨hsendable, rpc_value_round_trip_iff bareRealm _ hsendable⟩

/-- The bytes of a buffer are lost. -/
theorem array_buffer_lost :
    bareRealm.transfer (.arrayBuffer [1, 2]) = some (.arrayBuffer [])
      ∧ bareRealm.transfer (.arrayBuffer [1, 2]) ≠ some (.arrayBuffer [1, 2]) := by
  have hlost : bareRealm.transfer (.arrayBuffer [1, 2]) = some (.arrayBuffer []) := by
    rw [transfer_arrayBuffer, RpcRealm.newArrayBuffer, RpcRealm.toIndex_numbers]
    rfl
  refine ⟨hlost, ?_⟩
  rw [hlost]
  exact nofun

end QjsNet
