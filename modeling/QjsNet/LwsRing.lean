import Mathlib.Algebra.Ring.Nat
import QjsNet.JSValue

/- The ring buffer of libwebsockets, as its documentation describes it.

   The library is not part of this repository. `LwsRing` has the functions that are called
   on a ring, and what is promised of them: elements are inserted at the head while there
   is room, every tail reads on from where it was taken, and what the oldest tail has passed
   is destroyed. `byteRing` is a ring that keeps the promises, with tails that are byte
   offsets into an array in which one slot stays free.

   Correspondence (C ↔ Lean):
     `lws_ring_create`, `lws_ring_destroy` ↔ `LwsRing.create`, `LwsRing.destroy`
     `lws_ring_get_oldest_tail`, `lws_ring_get_element`
       ↔ `LwsRing.oldestTail`, `LwsRing.getElement`
     `lws_ring_get_count_free_elements`, `lws_ring_get_count_waiting_elements`
       ↔ `LwsRing.countFree`, `LwsRing.countWaiting`
     `lws_ring_insert` of one element ↔ `LwsRing.insert`; `none` when nothing was inserted
     `lws_ring_consume_and_update_oldest_tail` of one element ↔ `LwsRing.consume` -/
namespace QjsNet

/-- What `lws_ring_consume_and_update_oldest_tail` leaves: the ring, the tail that has consumed, and
the elements that were destroyed. -/
structure Consumed (Ring : Type) where
  ring : Ring
  tail : UInt32
  destroyed : List Bytes

/-- The ring of libwebsockets, with elements that are destroyed when the oldest tail passes. -/
structure LwsRing where
  Ring : Type
  create : Nat → Ring
  oldestTail : Ring → UInt32
  getElement : Ring → UInt32 → Option Bytes
  countFree : Ring → Nat
  countWaiting : Ring → UInt32 → Nat
  insert : Ring → Bytes → Option Ring
  /-- The arguments are the ring, the tail that consumes one element and those of the other
  objects in the list. -/
  consume : Ring → UInt32 → List UInt32 → Consumed Ring
  destroy : Ring → List Bytes
  /-- The elements from the oldest tail on. -/
  held : Ring → List Bytes
  /-- A tail that was taken from the oldest tail and has only consumed since. -/
  Tail : Ring → UInt32 → Prop
  /-- How many elements there is room for. -/
  size : Ring → Nat
  size_create : ∀ count, size (create count) ≤ count
  held_create : ∀ count, held (create count) = []
  room : ∀ r, (held r).length + countFree r = size r
  tail_oldest : ∀ r, Tail r (oldestTail r)
  waiting_oldest : ∀ r, countWaiting r (oldestTail r) = (held r).length
  waiting_le : ∀ r t, Tail r t → countWaiting r t ≤ (held r).length
  element : ∀ r t, Tail r t → getElement r t = (held r)[(held r).length - countWaiting r t]?
  insert_none : ∀ r x, countFree r = 0 → insert r x = none
  insert_some : ∀ r x, countFree r ≠ 0 → ∃ r', insert r x = some r' ∧ held r' = held r ++ [x] ∧
    size r' = size r ∧ ∀ t, Tail r t → Tail r' t ∧ countWaiting r' t = countWaiting r t + 1
  /-- Only the consumer at the oldest tail moves it, to the tail with the most elements waiting. -/
  consumed : ∀ r t others, Tail r t → 0 < countWaiting r t → (∀ u ∈ others, Tail r u) →
    let c := consume r t others
    let most := others.foldr (fun u m => max (countWaiting r u) m) (countWaiting r t - 1)
    let keep := if countWaiting r t = (held r).length then most else (held r).length
    c.destroyed = (held r).take ((held r).length - keep) ∧
    held c.ring = (held r).drop ((held r).length - keep) ∧
    size c.ring = size r ∧ Tail c.ring c.tail ∧ countWaiting c.ring c.tail = countWaiting r t - 1 ∧
    ∀ u, Tail r u → countWaiting r u ≤ keep →
      Tail c.ring u ∧ countWaiting c.ring u = countWaiting r u
  destroyed : ∀ r, destroy r = held r

/-! ## A ring that keeps the promises -/

/-- A ring of `count` slots of sixteen bytes, of which one stays free: the slot of the oldest
element, and the elements from there on. Tails are byte offsets. -/
structure ByteRing where
  count : Nat
  oldest : Nat
  elements : List Bytes
  oldest_lt : oldest < count
  length_lt : elements.length < count
  count_lt : count < 2 ^ 28

/-- The slot `k` slots after the oldest one. -/
def ByteRing.slot (r : ByteRing) (k : Nat) : Nat :=
  if r.oldest + k < r.count then r.oldest + k else r.oldest + k - r.count

def offset (slot : Nat) : UInt32 := UInt32.ofNat (16 * slot)

def slotOf (tail : UInt32) : Nat := tail.toNat / 16

theorem slotOf_offset {slot : Nat} (h : slot < 2 ^ 28) : slotOf (offset slot) = slot := by
  unfold slotOf offset
  rw [UInt32.toNat_ofNat_of_lt' (by simp [UInt32.size]; omega)]
  omega

def ByteRing.create (count : Nat) : ByteRing :=
  if h : 0 < count ∧ count < 2 ^ 28 then
    ⟨count, 0, [], h.1, h.1, h.2⟩
  else ⟨1, 0, [], by decide, by decide, by decide⟩

/-- The elements from the tail to the head. -/
def ByteRing.waiting (r : ByteRing) (tail : UInt32) : Nat :=
  let head := r.slot r.elements.length
  if slotOf tail ≤ head then head - slotOf tail else head + r.count - slotOf tail

def ByteRing.get (r : ByteRing) (tail : UInt32) : Option Bytes :=
  r.elements[r.elements.length - r.waiting tail]?

def ByteRing.insert (r : ByteRing) (x : Bytes) : Option ByteRing :=
  if h : (r.elements ++ [x]).length < r.count then
    some ⟨r.count, r.oldest, r.elements ++ [x], r.oldest_lt, h, r.count_lt⟩
  else none

def ByteRing.trim (r : ByteRing) (k : Nat) : ByteRing :=
  if h : k ≤ r.elements.length then
    ⟨r.count, r.slot k, r.elements.drop k,
      by
        have hk := r.oldest_lt
        have hl := r.length_lt
        unfold slot
        split <;> omega,
      by
        have hl := r.length_lt
        rw [List.length_drop]
        omega,
      r.count_lt⟩
  else r

def ByteRing.next (r : ByteRing) (tail : UInt32) : UInt32 :=
  offset (if slotOf tail + 1 < r.count then slotOf tail + 1 else 0)

def ByteRing.consume (r : ByteRing) (tail : UInt32) (others : List UInt32) : Consumed ByteRing :=
  let most := others.foldr (fun u m => max (r.waiting u) m) (r.waiting tail - 1)
  let keep := if r.waiting tail = r.elements.length then most else r.elements.length
  let cut := r.elements.length - keep
  ⟨r.trim cut, r.next tail, r.elements.take cut⟩

/-- The tail is `k` elements behind the oldest one. -/
def ByteRing.TailAt (r : ByteRing) (tail : UInt32) (k : Nat) : Prop :=
  k ≤ r.elements.length ∧ tail = offset (r.slot k)

variable {r : ByteRing} {k j : Nat} {tail : UInt32}

theorem slot_lt (h : k < r.count) : r.slot k < r.count := by
  have ho := r.oldest_lt
  unfold ByteRing.slot
  split <;> omega

theorem slot_cases (r : ByteRing) (k : Nat) :
    r.oldest + k < r.count ∧ r.slot k = r.oldest + k ∨
      r.count ≤ r.oldest + k ∧ r.slot k + r.count = r.oldest + k := by
  unfold ByteRing.slot
  split <;> omega

theorem waiting_at (h : r.TailAt tail k) : r.waiting tail = r.elements.length - k := by
  obtain ⟨hk, rfl⟩ := h
  have ho := r.oldest_lt
  have hl := r.length_lt
  have hc := r.count_lt
  have hslot : slotOf (offset (r.slot k)) = r.slot k :=
    slotOf_offset (Nat.lt_trans (slot_lt (Nat.lt_of_le_of_lt hk hl)) hc)
  have hwaiting : r.waiting (offset (r.slot k)) =
      if r.slot k ≤ r.slot r.elements.length then r.slot r.elements.length - r.slot k
      else r.slot r.elements.length + r.count - r.slot k := by
    simp only [ByteRing.waiting, hslot]
  have htail := slot_cases r k
  have hhead := slot_cases r r.elements.length
  rw [hwaiting]
  split <;> omega

theorem next_at (h : r.TailAt tail k) (hlt : k < r.elements.length) :
    r.TailAt (r.next tail) (k + 1) := by
  obtain ⟨hk, rfl⟩ := h
  have ho := r.oldest_lt
  have hl := r.length_lt
  have hc := r.count_lt
  have hslot : slotOf (offset (r.slot k)) = r.slot k :=
    slotOf_offset (Nat.lt_trans (slot_lt (Nat.lt_of_le_of_lt hk hl)) hc)
  refine ⟨hlt, ?_⟩
  unfold ByteRing.next
  rw [hslot]
  congr 1
  have htail := slot_cases r k
  have hnext := slot_cases r (k + 1)
  split <;> omega

theorem trim_slot (hj : j ≤ r.elements.length) (hk : j + k ≤ r.elements.length) :
    (r.trim j).slot k = r.slot (j + k) := by
  have hl := r.length_lt
  have hlt : r.slot j < r.count := slot_lt (by omega)
  have htrim : (r.trim j).oldest = r.slot j ∧ (r.trim j).count = r.count := by
    simp [ByteRing.trim, hj]
  have hcut := slot_cases r j
  have hold := slot_cases r (j + k)
  have hnew := slot_cases (r.trim j) k
  have ho := r.oldest_lt
  rw [htrim.1, htrim.2] at hnew
  omega

theorem trim_elements (hj : j ≤ r.elements.length) : (r.trim j).elements = r.elements.drop j := by
  simp [ByteRing.trim, hj]

theorem trim_count : (r.trim j).count = r.count := by
  unfold ByteRing.trim
  split <;> rfl

theorem trim_at (h : r.TailAt tail k) (hj : j ≤ k) : (r.trim j).TailAt tail (k - j) := by
  obtain ⟨hk, rfl⟩ := h
  have hle : j ≤ r.elements.length := Nat.le_trans hj hk
  refine ⟨?_, ?_⟩
  · rw [trim_elements hle, List.length_drop]
    omega
  · rw [trim_slot hle (by omega), Nat.add_sub_cancel' hj]

theorem insert_at {x : Bytes} {r' : ByteRing} (h : r.TailAt tail k) (hr : r.insert x = some r') :
    r'.TailAt tail k := by
  obtain ⟨hk, rfl⟩ := h
  unfold ByteRing.insert at hr
  split at hr
  · cases hr
    refine ⟨?_, rfl⟩
    simp only [List.length_append]
    omega
  · cases hr

theorem foldr_max_le {f : UInt32 → Nat} {most n : Nat} {others : List UInt32} (hn : n ≤ most)
    (h : ∀ u ∈ others, f u ≤ most) : others.foldr (fun u m => max (f u) m) n ≤ most := by
  induction others with
  | nil => exact hn
  | cons u others ih =>
    exact Nat.max_le.2 ⟨h u List.mem_cons_self, ih fun v hv => h v (List.mem_cons_of_mem u hv)⟩

theorem le_foldr_max {f : UInt32 → Nat} {n : Nat} {others : List UInt32} :
    n ≤ others.foldr (fun u m => max (f u) m) n := by
  induction others with
  | nil => exact Nat.le_refl n
  | cons u others ih => exact Nat.le_trans ih (Nat.le_max_right _ _)

def byteRing : LwsRing where
  Ring := ByteRing
  create := ByteRing.create
  oldestTail r := offset (r.slot 0)
  getElement := ByteRing.get
  countFree r := r.count - 1 - r.elements.length
  countWaiting := ByteRing.waiting
  insert := ByteRing.insert
  consume := ByteRing.consume
  destroy := ByteRing.elements
  held := ByteRing.elements
  Tail r tail := ∃ k, r.TailAt tail k
  size r := r.count - 1
  size_create count := by
    unfold ByteRing.create
    split
    · exact Nat.sub_le count 1
    · exact Nat.zero_le count
  held_create count := by
    unfold ByteRing.create
    split <;> rfl
  room r := by
    have hl := r.length_lt
    omega
  tail_oldest r := ⟨0, Nat.zero_le _, rfl⟩
  waiting_oldest r := waiting_at ⟨Nat.zero_le _, rfl⟩
  waiting_le r tail h := by
    obtain ⟨k, hk⟩ := h
    rw [waiting_at hk]
    exact Nat.sub_le _ k
  element r tail _ := rfl
  insert_none r x h := by
    have hl := r.length_lt
    unfold ByteRing.insert
    rw [dif_neg]
    rw [List.length_append, List.length_singleton]
    omega
  insert_some r x h := by
    have hl := r.length_lt
    have hlen : (r.elements ++ [x]).length < r.count := by
      rw [List.length_append, List.length_singleton]
      omega
    have hsome : r.insert x =
        some ⟨r.count, r.oldest, r.elements ++ [x], r.oldest_lt, hlen, r.count_lt⟩ := dif_pos hlen
    refine ⟨_, hsome, rfl, rfl, ?_⟩
    intro tail htail
    obtain ⟨k, hk⟩ := htail
    have hk' := insert_at hk hsome
    refine ⟨⟨k, hk'⟩, ?_⟩
    have hle := hk.1
    rw [waiting_at hk, waiting_at hk']
    simp only [List.length_append, List.length_singleton]
    omega
  consumed r tail others htail hpos hothers := by
    obtain ⟨k, hk⟩ := htail
    have hw := waiting_at hk
    have hlt : k < r.elements.length := by omega
    have hmost : others.foldr (fun u m => max (r.waiting u) m) (r.waiting tail - 1) ≤
        r.elements.length := by
      refine foldr_max_le (by omega) fun u hu => ?_
      obtain ⟨i, hi⟩ := hothers u hu
      rw [waiting_at hi]
      exact Nat.sub_le _ i
    have hown : r.waiting tail - 1 ≤
        others.foldr (fun u m => max (r.waiting u) m) (r.waiting tail - 1) := le_foldr_max
    intro c most keep
    -- The cut is not past the tail that has consumed.
    have hkeep : keep ≤ r.elements.length ∧ r.elements.length - (k + 1) ≤ keep := by
      have heq : keep =
          if r.waiting tail = r.elements.length then most else r.elements.length := rfl
      rw [heq]
      split <;> omega
    obtain ⟨hkeep, hcut⟩ := hkeep
    have hle : r.elements.length - keep ≤ r.elements.length := Nat.sub_le _ _
    have hnext : c.ring.TailAt c.tail (k + 1 - (r.elements.length - keep)) :=
      trim_at (j := r.elements.length - keep) (next_at hk hlt) (by omega)
    have helems : c.ring.elements.length = keep := by
      have hdrop : c.ring.elements = r.elements.drop (r.elements.length - keep) := trim_elements hle
      rw [hdrop, List.length_drop]
      omega
    refine ⟨rfl, trim_elements hle, congrArg (· - 1) trim_count, ⟨_, hnext⟩, ?_, ?_⟩
    · rw [waiting_at hnext, helems, hw]
      omega
    · intro u hu hlow
      obtain ⟨i, hi⟩ := hu
      have hwu := waiting_at hi
      have hile := hi.1
      have hi' : c.ring.TailAt u (i - (r.elements.length - keep)) :=
        trim_at (j := r.elements.length - keep) hi (by omega)
      refine ⟨⟨_, hi'⟩, ?_⟩
      rw [waiting_at hi', helems, hwu]
      omega
  destroyed r := rfl

end QjsNet
