import QjsNet.JSObject
import QjsNet.Utils

/- Query strings (`query.c`): an object printed as one and parsed again.

   `query_from` prints `key=value` for every property and puts nothing in between,
   while `query_object_len` looks for `&` between two entries; so all of the string is
   one entry. `lws_urlencode` and `lws_urldecode` are parameters: functions on C strings,
   the first with three bytes of room for every byte. In the byte strings 38 is `&`,
   61 is `=`.

   Correspondence (C ↔ Lean):
     `query_from`                        ↔ `queryFrom`
     `query_object_len`, `query_entry`   ↔ `queryObjectLen`, `queryEntry`
     `query_object`                      ↔ `queryObject`
     `js_entry_apply`                    ↔ `JSObject.setProperty` -/
namespace QjsNet

section
variable (urlencode urldecode : Bytes → Bytes)

/-- A turn of the loop of `query_from`. -/
def printEntry (e : Bytes × Bytes) : Bytes := cString e.1 ++ 61 :: urlencode (cString e.2)

/-- `query_from`. The buffer of an object without properties is never allocated. -/
def queryFrom (obj : JSObject) : Option Bytes :=
  if obj.props.isEmpty then none
  else some (obj.props.flatMap (printEntry urlencode))

def queryEntry (q : Bytes) : Option (Bytes × Bytes) :=
  let len := byteChr q 61
  if len < q.length then some (q.take len, urldecode (q.drop (len + 1))) else none

/-- The loop of `query_object_len`. Each turn takes at least one byte. -/
def queryEntries : Nat → Bytes → JSObject → JSObject
  | 0, _, ret => ret
  | fuel + 1, p, ret =>
    if p.isEmpty then ret
    else
      let entrylen := byteChr p 38
      let ret := (queryEntry urldecode (p.take entrylen)).elim ret fun e => ret.setProperty e.1 e.2
      queryEntries fuel (p.drop (entrylen + 1)) ret

def queryObjectLen (q : Bytes) : JSObject := queryEntries urldecode q.length q .new

/-- `query_object`, of a C string. -/
def queryObject (q : Bytes) : JSObject := queryObjectLen urldecode q

end

/-- Printed and parsed, the object has the same keys and values. -/
def RoundTrips (urlencode urldecode : Bytes → Bytes) (obj : JSObject) : Prop :=
  ∃ q, queryFrom urlencode obj = some q ∧ (queryObject urldecode q).Same obj

/-- Keys that can be told from what follows them, and values that are C strings. -/
structure QueryProps (props : List (Bytes × Bytes)) : Prop where
  key : ∀ e ∈ props, e.1 ≠ [] ∧ (61 : UInt8) ∉ e.1 ∧ (38 : UInt8) ∉ e.1 ∧ (37 : UInt8) ∉ e.1
  value : ∀ e ∈ props, (0 : UInt8) ∉ e.2

/-! ## A percent encoding

An instance of the two parameters, which keeps letters and digits. -/

def isalnum (c : UInt8) : Bool := isdigit c || (97 ≤ tolower c && tolower c ≤ 122)

def hexDigit (n : Nat) : UInt8 := UInt8.ofNat (if n < 10 then 48 + n else 55 + n)

def hexValue (c : UInt8) : Nat := if isdigit c then c.toNat - 48 else (tolower c).toNat - 87

def percentEncode : Bytes → Bytes
  | [] => []
  | c :: s =>
    if isalnum c then c :: percentEncode s
    else 37 :: hexDigit (c.toNat / 16) :: hexDigit (c.toNat % 16) :: percentEncode s

def percentDecode : Bytes → Bytes
  | 37 :: hi :: lo :: s => UInt8.ofNat (16 * hexValue hi + hexValue lo) :: percentDecode s
  | c :: s => c :: percentDecode s
  | [] => []

theorem hexValue_hexDigit : ∀ n < 16, hexValue (hexDigit n) = n := by
  decide

theorem hexDigit_ne_amp : ∀ n < 16, hexDigit n ≠ 38 := by
  decide

theorem percentDecode_plain {c : UInt8} (hc : c ≠ 37) (s : Bytes) :
    percentDecode (c :: s) = c :: percentDecode s := by
  rw [percentDecode]
  intro hi lo s' h
  exact absurd h hc

theorem percentDecode_percentEncode (s : Bytes) : percentDecode (percentEncode s) = s := by
  induction s with
  | nil => rfl
  | cons c s ih =>
    unfold percentEncode
    split
    · next halnum =>
      have hc : c ≠ 37 := by
        rintro rfl
        cases halnum
      rw [percentDecode_plain hc, ih]
    · have hlt : c.toNat < 256 := c.toNat_lt_size
      rw [percentDecode, hexValue_hexDigit _ (by omega), hexValue_hexDigit _ (by omega), ih,
        Nat.div_add_mod, UInt8.ofNat_toNat]

theorem amp_not_mem_percentEncode (s : Bytes) : (38 : UInt8) ∉ percentEncode s := by
  induction s with
  | nil => exact List.not_mem_nil
  | cons c s ih =>
    unfold percentEncode
    split
    · next halnum =>
      intro h
      rcases List.mem_cons.1 h with rfl | h
      · cases halnum
      · exact ih h
    · have hlt : c.toNat < 256 := c.toNat_lt_size
      intro h
      simp only [List.mem_cons] at h
      rcases h with h | h | h | h
      · cases h
      · exact hexDigit_ne_amp _ (by omega) h.symm
      · exact hexDigit_ne_amp _ (by omega) h.symm
      · exact ih h

/-! ## Round trip -/

variable {urlencode urldecode : Bytes → Bytes} {obj : JSObject}

theorem queryEntries_nil (fuel : Nat) (ret : JSObject) : queryEntries urldecode fuel [] ret = ret := by
  cases fuel <;> rfl

theorem queryObject_single {q : Bytes} (hne : q ≠ []) (hsep : (38 : UInt8) ∉ q) :
    queryObject urldecode q
      = (queryEntry urldecode q).elim .new fun e => JSObject.new.setProperty e.1 e.2 := by
  obtain ⟨c, cs, rfl⟩ := List.exists_cons_of_ne_nil hne
  unfold queryObject queryObjectLen
  rw [List.length_cons, queryEntries, byteChr_of_not_mem hsep]
  simp only [List.isEmpty_cons, Bool.false_eq_true, if_false, List.take_length]
  rw [List.drop_eq_nil_of_le (Nat.le_succ _), queryEntries_nil]

theorem queryEntry_key {key : Bytes} (hkey : (61 : UInt8) ∉ key) (rest : Bytes) :
    queryEntry urldecode (key ++ 61 :: rest) = some (key, urldecode rest) := by
  unfold queryEntry
  simp only [byteChr_append_cons hkey]
  rw [if_pos (by simp), List.take_left, List.drop_length_add_append, List.drop_succ_cons,
    List.drop_zero]

theorem mem_cString {c : UInt8} {s : Bytes} (h : c ∈ cString s) : c ∈ s :=
  List.takeWhile_subset _ h

theorem queryFrom_no_separator (hamp : ∀ s, (38 : UInt8) ∉ urlencode s)
    (hprops : QueryProps obj.props) :
    (38 : UInt8) ∉ obj.props.flatMap (printEntry urlencode) := by
  intro h
  obtain ⟨e, he, hc⟩ := List.mem_flatMap.1 h
  rcases List.mem_append.1 hc with hc | hc
  · exact (hprops.key e he).2.2.1 (mem_cString hc)
  · rcases List.mem_cons.1 hc with hc | hc
    · cases hc
    · exact hamp _ hc

/-- What comes back is one property: the first key, with all the rest for a value. -/
theorem queryObject_queryFrom (hamp : ∀ s, (38 : UInt8) ∉ urlencode s) {e : Bytes × Bytes}
    {es : List (Bytes × Bytes)} (hobj : obj.props = e :: es) (hprops : QueryProps obj.props) :
    ∃ q, queryFrom urlencode obj = some q ∧
      queryObject urldecode q = JSObject.new.setProperty (cString e.1)
        (urldecode (urlencode (cString e.2) ++ es.flatMap (printEntry urlencode))) := by
  have hsep := queryFrom_no_separator hamp hprops
  have hkey : (61 : UInt8) ∉ cString e.1 := by
    intro h
    exact (hprops.key e (by rw [hobj]; exact List.mem_cons_self)).2.1 (mem_cString h)
  rw [hobj, List.flatMap_cons, printEntry, List.append_assoc, List.cons_append] at hsep
  refine ⟨cString e.1 ++ 61 :: (urlencode (cString e.2) ++ es.flatMap (printEntry urlencode)),
    ?_, ?_⟩
  · rw [queryFrom, hobj, List.isEmpty_cons, if_neg Bool.false_ne_true, List.flatMap_cons,
      printEntry, List.append_assoc, List.cons_append]
  · rw [queryObject_single (by simp) hsep, queryEntry_key hkey]
    rfl

/-- An object that is like one of a single property has that one only: no second property, which
would be the first once more, no zero in the key, and no setter for it. -/
theorem single_of_same {e : Bytes × Bytes} {es : List (Bytes × Bytes)} {value : Bytes}
    (hobj : obj.props = e :: es)
    (hsame : (JSObject.new.setProperty (cString e.1) value).Same obj) :
    es = [] ∧ (0 : UInt8) ∉ e.1 ∧ e.1 ≠ protoKey := by
  have hfirst : e ∈ (JSObject.new.setProperty (cString e.1) value).props :=
    (hsame e).2 (by rw [hobj]; exact List.mem_cons_self)
  unfold JSObject.setProperty at hsame hfirst
  by_cases hproto : cString e.1 = protoKey
  · rw [if_pos hproto] at hfirst
    cases hfirst
  · rw [if_neg hproto] at hsame hfirst
    have heq := List.mem_singleton.1 hfirst
    have hkey : cString e.1 = e.1 := (congrArg Prod.fst heq).symm
    refine ⟨?_, ?_, hkey ▸ hproto⟩
    · cases es with
      | nil => rfl
      | cons e' es =>
        have hsecond := List.mem_singleton.1
          ((hsame e').2 (by rw [hobj]; exact List.mem_cons_of_mem _ List.mem_cons_self))
        have hnodup := obj.nodup
        rw [hobj, hsecond, ← heq] at hnodup
        exact absurd (by exact List.mem_cons_self) (List.nodup_cons.1 hnodup).1
    · intro hzero
      rw [← hkey] at hzero
      simpa using List.mem_takeWhile_imp hzero

/-- One property with an ordinary key is set as it was. -/
theorem same_of_single {key value : Bytes} (hobj : obj.props = [(key, value)])
    (hzero : (0 : UInt8) ∉ key) (hproto : key ≠ protoKey) :
    (JSObject.new.setProperty (cString key) value).Same obj := by
  rw [cString_of_not_mem hzero, JSObject.setProperty, if_neg hproto]
  intro e
  rw [hobj]
  rfl

/-- An object comes back exactly when it has one property, whose key is a C string and is not
set by a setter. -/
theorem query_round_trip_iff (hinv : ∀ s, (0 : UInt8) ∉ s → urldecode (urlencode s) = s)
    (hamp : ∀ s, (38 : UInt8) ∉ urlencode s) (hne : obj.props ≠ []) (hprops : QueryProps obj.props) :
    RoundTrips urlencode urldecode obj ↔
      ∃ key value, obj.props = [(key, value)] ∧ (0 : UInt8) ∉ key ∧ key ≠ protoKey := by
  obtain ⟨e, es, hobj⟩ := List.exists_cons_of_ne_nil hne
  obtain ⟨q, hq, hparsed⟩ := @queryObject_queryFrom urlencode urldecode obj hamp e es hobj hprops
  have hround : RoundTrips urlencode urldecode obj ↔ (queryObject urldecode q).Same obj := by
    refine ⟨?_, fun h => ⟨q, hq, h⟩⟩
    intro h
    obtain ⟨q', hq', hsame⟩ := h
    rw [hq] at hq'
    exact Option.some.inj hq' ▸ hsame
  rw [hround, hparsed]
  refine ⟨?_, ?_⟩
  · intro hsame
    obtain ⟨rfl, hzero, hproto⟩ := single_of_same hobj hsame
    exact ⟨e.1, e.2, hobj, hzero, hproto⟩
  · intro h
    obtain ⟨key, value, hsingle, hzero, hproto⟩ := h
    rw [hobj] at hsingle
    obtain ⟨rfl, rfl⟩ := List.cons.inj hsingle
    have hvalue : (0 : UInt8) ∉ value := by
      apply hprops.value (key, value)
      rw [hobj]
      exact List.mem_cons_self
    rw [cString_of_not_mem hvalue, List.flatMap_nil, List.append_nil, hinv value hvalue]
    exact same_of_single hobj hzero hproto

/-- `{ a: '1&' }` comes back. -/
theorem one_property_round_trips :
    RoundTrips percentEncode percentDecode ⟨[([97], [49, 38])], by decide⟩ :=
  (query_round_trip_iff (fun s _ => percentDecode_percentEncode s) amp_not_mem_percentEncode
    (by decide) ⟨by decide, by decide⟩).2 ⟨[97], [49, 38], rfl, by decide, by decide⟩

/-- `{ a: '1', b: '2' }` becomes `{ a: '1b=2' }`. -/
theorem two_properties_lost :
    queryFrom percentEncode ⟨[([97], [49]), ([98], [50])], by decide⟩
        = some [97, 61, 49, 98, 61, 50] ∧
      queryObject percentDecode [97, 61, 49, 98, 61, 50]
        = ⟨[([97], [49, 98, 61, 50])], by decide⟩ ∧
      ¬ RoundTrips percentEncode percentDecode ⟨[([97], [49]), ([98], [50])], by decide⟩ := by
  refine ⟨by decide, by decide, ?_⟩
  intro h
  obtain ⟨q, hq, hsame⟩ := h
  obtain rfl : [97, 61, 49, 98, 61, 50] = q := Option.some.inj hq
  have hmem : (([98], [50]) : Bytes × Bytes) ∈ [(([97] : Bytes), ([49, 98, 61, 50] : Bytes))] :=
    (hsame ([98], [50])).2 (by decide)
  exact absurd hmem (by decide)

end QjsNet
