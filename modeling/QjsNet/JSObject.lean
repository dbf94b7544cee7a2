import Mathlib.Data.List.Nodup
import QjsNet.JSValue

/- Plain objects with string values, as the C code enumerates and builds them.

   The properties are the own enumerable ones with a string for a key, and no key comes
   twice. Setting a property differs from defining one: the setter of `__proto__` that
   every object inherits takes no string, and a property that is defined as enumerable only
   can neither be written nor defined anew, so that its first value stays.

   Correspondence (C ↔ Lean):
     `JS_NewObject`                 ↔ `JSObject.new`
     `JS_SetProperty`               ↔ `JSObject.setProperty`
     `JS_DefinePropertyValueStr`    ↔ `JSObject.defineProperty` -/
namespace QjsNet

/-- An object: its properties, in the order they are enumerated. -/
structure JSObject where
  props : List (Bytes × Bytes)
  nodup : (props.map Prod.fst).Nodup
  deriving DecidableEq, Repr

/-- `JS_NewObject` -/
def JSObject.new : JSObject := ⟨[], List.nodup_nil⟩

/-- `__proto__` -/
def protoKey : Bytes := [95, 95, 112, 114, 111, 116, 111, 95, 95]

/-- Give a property a value; a new one comes last. -/
def assign (key value : Bytes) : List (Bytes × Bytes) → List (Bytes × Bytes)
  | [] => [(key, value)]
  | e :: es => if e.1 = key then (key, value) :: es else e :: assign key value es

theorem mem_assign_keys {key value k : Bytes} {es : List (Bytes × Bytes)} :
    k ∈ (assign key value es).map Prod.fst ↔ k = key ∨ k ∈ es.map Prod.fst := by
  induction es with
  | nil => simp [assign]
  | cons e es ih =>
    unfold assign
    split
    · next h => simp [h]
    · rw [List.map_cons, List.mem_cons, ih, List.map_cons, List.mem_cons]
      exact or_left_comm

theorem assign_nodup {key value : Bytes} {es : List (Bytes × Bytes)}
    (h : (es.map Prod.fst).Nodup) : ((assign key value es).map Prod.fst).Nodup := by
  induction es with
  | nil => exact List.pairwise_singleton _ key
  | cons e es ih =>
    obtain ⟨hfirst, hrest⟩ := List.nodup_cons.1 h
    unfold assign
    split
    · next heq =>
      rw [heq] at hfirst
      exact List.nodup_cons.2 ⟨hfirst, hrest⟩
    · next hne =>
      refine List.nodup_cons.2 ⟨?_, ih hrest⟩
      intro hmem
      rcases mem_assign_keys.1 hmem with heq | hmem
      · exact hne heq
      · exact hfirst hmem

theorem append_nodup {key value : Bytes} {es : List (Bytes × Bytes)}
    (h : (es.map Prod.fst).Nodup) (hkey : key ∉ es.map Prod.fst) :
    ((es ++ [(key, value)]).map Prod.fst).Nodup := by
  rw [List.map_append]
  refine List.nodup_append.2 ⟨h, List.nodup_singleton key, ?_⟩
  intro a ha b hb heq
  obtain rfl : b = key := List.mem_singleton.1 hb
  exact hkey (heq ▸ ha)

/-- A property with `JS_PROP_ENUMERABLE` only. -/
def JSObject.defineProperty (obj : JSObject) (key value : Bytes) : JSObject :=
  if h : key ∈ obj.props.map Prod.fst then obj
  else ⟨obj.props ++ [(key, value)], append_nodup obj.nodup h⟩

def JSObject.setProperty (obj : JSObject) (key value : Bytes) : JSObject :=
  if key = protoKey then obj else ⟨assign key value obj.props, assign_nodup obj.nodup⟩

/-- The same keys and values. -/
def JSObject.Same (obj obj' : JSObject) : Prop := ∀ e, e ∈ obj.props ↔ e ∈ obj'.props

/-! ## The value of a key -/

def JSObject.get (obj : JSObject) (key : Bytes) : Option Bytes :=
  (obj.props.find? (·.1 = key)).map Prod.snd

variable {obj obj' : JSObject} {key k value : Bytes}

theorem eq_of_props (h : obj.props = obj'.props) : obj = obj' := by
  cases obj with
  | mk props nodup =>
    cases obj' with
    | mk props' nodup' =>
      subst h
      rfl

theorem get_eq_none_iff : obj.get key = none ↔ key ∉ obj.props.map Prod.fst := by
  rw [JSObject.get, Option.map_eq_none_iff, List.find?_eq_none]
  simp only [decide_eq_true_eq, List.mem_map, not_exists, not_and]

theorem get_defineProperty (obj : JSObject) (key value k : Bytes) :
    (obj.defineProperty key value).get k
      = (obj.get k).or (if key = k then some value else none) := by
  unfold JSObject.defineProperty
  split
  · next hmem =>
    by_cases hk : key = k
    · rw [if_pos hk, Option.or_of_isSome]
      rw [Option.isSome_iff_ne_none, ne_eq, get_eq_none_iff, not_not]
      exact hk ▸ hmem
    · rw [if_neg hk, Option.or_none]
  · rw [JSObject.get, List.find?_append, JSObject.get, Option.map_or]
    by_cases hk : key = k <;> simp [hk]

theorem get_eq_some_iff : obj.get key = some value ↔ (key, value) ∈ obj.props := by
  rw [JSObject.get, Option.map_eq_some_iff]
  refine ⟨?_, ?_⟩
  · rintro ⟨e, hfind, rfl⟩
    have hkey : e.1 = key := by simpa using List.find?_some hfind
    exact hkey ▸ List.mem_of_find?_eq_some hfind
  · intro hmem
    have hsome : (obj.props.find? (·.1 = key)).isSome = true :=
      List.find?_isSome.2 ⟨_, hmem, decide_eq_true rfl⟩
    obtain ⟨e, hfind⟩ := Option.isSome_iff_exists.1 hsome
    have hkey : e.1 = key := by simpa using List.find?_some hfind
    have heq : e = (key, value) :=
      List.inj_on_of_nodup_map obj.nodup (List.mem_of_find?_eq_some hfind) hmem hkey
    exact ⟨e, hfind, by rw [heq]⟩

theorem same_iff_get : obj.Same obj' ↔ ∀ key, obj.get key = obj'.get key := by
  refine ⟨?_, ?_⟩
  · intro h key
    refine Option.ext fun value => ?_
    rw [get_eq_some_iff, get_eq_some_iff]
    exact h (key, value)
  · intro h e
    rw [← get_eq_some_iff, ← get_eq_some_iff, h]

theorem foldl_defineProperty (es : List (Bytes × Bytes)) : ∀ {obj : JSObject},
    ((obj.props ++ es).map Prod.fst).Nodup →
    (es.foldl (fun obj e => obj.defineProperty e.1 e.2) obj).props = obj.props ++ es := by
  induction es with
  | nil => exact fun {obj} _ => (List.append_nil _).symm
  | cons e es ih =>
    intro obj h
    have hnew : e.1 ∉ obj.props.map Prod.fst := by
      rw [List.map_append, List.map_cons] at h
      exact fun hmem => List.disjoint_of_nodup_append h hmem List.mem_cons_self
    have hprops : (obj.defineProperty e.1 e.2).props = obj.props ++ [e] := by
      rw [JSObject.defineProperty, dif_neg hnew]
    rw [List.foldl_cons, ih, hprops, List.append_assoc]
    · rfl
    · rw [hprops, List.append_assoc]
      exact h

/-- The properties of an object, defined in their order, make the object again. -/
theorem foldl_defineProperty_new (obj : JSObject) :
    obj.props.foldl (fun obj e => obj.defineProperty e.1 e.2) .new = obj :=
  eq_of_props (@foldl_defineProperty obj.props .new obj.nodup)

end QjsNet
