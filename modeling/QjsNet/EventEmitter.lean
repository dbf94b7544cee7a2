import Mathlib.Data.List.Basic

/- The listeners of an event while it is emitted (`event-emitter.js`).

   The listeners of an event are an array. `emit` goes over it by index, and the calls it
   makes may take listeners out of the same array; those behind them move up. The callback
   that `once` registers takes itself out before it calls the listener. So after such a call
   the loop leaves out the listener that has moved to the place it has just passed.
   `removeAllListeners`, and a removal that leaves the array empty, take the array itself from
   the emitter; the loop goes on over it.

   What a listener does is given by the calls made so far (`script`), and removals are all
   that counts: listeners of other events, what they return and the arguments of `emit` change
   nothing here. A function is told from others by its identity; the callbacks of two calls of
   `once` differ. In the model a registration has the number it was made with as its place.

   Correspondence (JS ↔ Lean):
     `on`, `once`                    ↔ `EventEmitter.push`
     `removeListener`, `removeAllListeners`
       ↔ `EventEmitter.removeListener`, `EventEmitter.removeAllListeners`
     the callback of `once`          ↔ `callHandler`
     `emit`                          ↔ `emitLoop`, `emit` -/
namespace QjsNet

/-- A call of `on` or of `once`, with the listener. -/
inductive Registration where
  | on (listener : Nat)
  | once (listener : Nat)
  deriving DecidableEq, Repr

structure Handler where
  place : Nat
  registration : Registration
  deriving DecidableEq, Repr

/-- What the array has for a registration: the listener, or the callback made for it. -/
inductive ListenerFn where
  | listener (f : Nat)
  | callback (place : Nat)
  deriving DecidableEq, Repr

def Handler.fn (h : Handler) : ListenerFn :=
  match h.registration with
  | .on f => .listener f
  | .once _ => .callback h.place

/-- `attached` says whether the array is still that of the event. -/
structure EventEmitter where
  handlers : List Handler
  attached : Bool
  deriving DecidableEq, Repr

namespace EventEmitter

def new : EventEmitter := ⟨[], false⟩

/-- The listeners that are registered. -/
def live (e : EventEmitter) : List Handler := if e.attached then e.handlers else []

def push (e : EventEmitter) (h : Handler) : EventEmitter := ⟨e.live ++ [h], true⟩

def removeListener (e : EventEmitter) (fn : ListenerFn) : EventEmitter :=
  if e.attached then
    match e.handlers.findIdx? fun h => decide (h.fn = fn) with
    | some idx => ⟨e.handlers.eraseIdx idx, !(e.handlers.eraseIdx idx).isEmpty⟩
    | none => e
  else e

def removeAllListeners (e : EventEmitter) : EventEmitter := { e with attached := false }

/-- The calls of `on` and `once` in their order. -/
def registerAll (regs : List Registration) : EventEmitter :=
  regs.zipIdx.foldl (fun e r => e.push ⟨r.2, r.1⟩) new

end EventEmitter

/-- What a listener does to the listeners of its event. -/
inductive Removal where
  | one (fn : ListenerFn)
  | all
  deriving DecidableEq, Repr

def EventEmitter.remove (e : EventEmitter) : Removal → EventEmitter
  | .one fn => e.removeListener fn
  | .all => e.removeAllListeners

/-- What the listeners remove, given the places of all that were called, the last call at the end.
-/
abbrev Script := List Nat → List Removal

/-- The call of `handler` in the loop: a callback of `once` takes itself out first. -/
def callHandler (script : Script) (trace : List Nat) (e : EventEmitter) (h : Handler) : EventEmitter :=
  let e := match h.registration with
    | .on _ => e
    | .once _ => e.removeListener (.callback h.place)
  (script (trace ++ [h.place])).foldl EventEmitter.remove e

/-- The loop of `emit`, whose iterator is at `index`, and the places it has called. -/
def emitLoop (script : Script) : Nat → Nat → List Nat → EventEmitter → List Nat × EventEmitter
  | 0, _, trace, e => (trace, e)
  | fuel + 1, index, trace, e =>
    match e.handlers[index]? with
    | none => (trace, e)
    | some h => emitLoop script fuel (index + 1) (trace ++ [h.place]) (callHandler script trace e h)

/-- The array does not get longer, so a turn for each of its handlers is enough. -/
def emit (script : Script) (e : EventEmitter) : List Nat × EventEmitter :=
  if e.attached then emitLoop script e.handlers.length 0 [] e else ([], e)

/-! ## What `emit` is for -/

/-- A removal takes out the first registration of a function. -/
def meantRemoval (live : List Handler) : Removal → List Handler
  | .one fn => live.eraseP fun h => decide (h.fn = fn)
  | .all => []

/-- A call of a registration, which is the only one if it is made by `once`. -/
def meantCall (script : Script) (trace : List Nat) (live : List Handler) (h : Handler) : List Handler :=
  let live := match h.registration with
    | .on _ => live
    | .once _ => live.erase h
  (script (trace ++ [h.place])).foldl meantRemoval live

/-- Each of the listeners in its turn, unless it is not registered any more. -/
def meantEmit (script : Script) : List Handler → List Nat → List Handler → List Nat × List Handler
  | [], trace, live => (trace, live)
  | h :: rest, trace, live =>
    if h ∈ live then meantEmit script rest (trace ++ [h.place]) (meantCall script trace live h)
    else meantEmit script rest trace live

/-- All are called that should be, and those are registered in the end that should be. -/
def EmitComplete (script : Script) (e : EventEmitter) : Prop :=
  (emit script e).1 = (meantEmit script e.handlers [] e.live).1
    ∧ (emit script e).2.live = (meantEmit script e.handlers [] e.live).2

/-- The call of `h` leaves those up to its own place registered, or leaves none behind it. When it
takes the array from the emitter, there are no more in it than were up to that place. -/
def Undisturbing (h : Handler) (e e' : EventEmitter) : Prop :=
  let passed := (e.handlers.filter (·.place ≤ h.place)).length
  if e'.attached then
    (e'.handlers.filter (·.place ≤ h.place)).length = passed ∨ ∀ g ∈ e'.handlers, g.place ≤ h.place
  else e'.handlers.length ≤ passed

instance (h : Handler) (e e' : EventEmitter) : Decidable (Undisturbing h e e') := by
  unfold Undisturbing
  infer_instance

/-- Every call that should be made is undisturbing. -/
def Undisturbed (script : Script) : List Handler → List Nat → EventEmitter → Prop
  | [], _, _ => True
  | h :: rest, trace, e =>
    if h ∈ e.live then
      Undisturbing h e (callHandler script trace e h)
        ∧ Undisturbed script rest (trace ++ [h.place]) (callHandler script trace e h)
    else Undisturbed script rest trace e

/-! ## Removals -/

variable {script : Script} {trace : List Nat} {e e' : EventEmitter} {h : Handler} {rest : List Handler}
variable {index : Nat}

theorem removeListener_live (e : EventEmitter) (fn : ListenerFn) :
    (e.removeListener fn).live = e.live.eraseP fun h => decide (h.fn = fn) := by
  rw [EventEmitter.removeListener]
  cases hattached : e.attached with
  | false =>
    rw [if_neg Bool.false_ne_true, EventEmitter.live, hattached]
    rfl
  | true =>
    rw [if_pos rfl, EventEmitter.live, EventEmitter.live, hattached, if_pos rfl,
      List.eraseP_eq_eraseIdx]
    cases e.handlers.findIdx? fun h => decide (h.fn = fn) with
    | none => rw [hattached, if_pos rfl]
    | some idx =>
      simp only
      cases hrest : e.handlers.eraseIdx idx with
      | nil => rfl
      | cons g gs => rfl

theorem remove_live (e : EventEmitter) (r : Removal) : (e.remove r).live = meantRemoval e.live r := by
  cases r with
  | one fn => exact removeListener_live e fn
  | all => rfl

theorem removals_live (rs : List Removal) : ∀ e : EventEmitter,
    (rs.foldl EventEmitter.remove e).live = rs.foldl meantRemoval e.live := by
  induction rs with
  | nil => exact fun _ => rfl
  | cons r rs ih =>
    intro e
    rw [List.foldl_cons, List.foldl_cons, ih, remove_live]

theorem removeListener_sublist (e : EventEmitter) (fn : ListenerFn) :
    (e.removeListener fn).handlers.Sublist e.handlers := by
  rw [EventEmitter.removeListener]
  split
  · split
    · exact List.eraseIdx_sublist _ _
    · exact List.Sublist.refl _
  · exact List.Sublist.refl _

theorem removals_sublist (rs : List Removal) : ∀ e : EventEmitter,
    (rs.foldl EventEmitter.remove e).handlers.Sublist e.handlers := by
  induction rs with
  | nil => exact fun _ => List.Sublist.refl _
  | cons r rs ih =>
    intro e
    refine (ih (e.remove r)).trans ?_
    cases r with
    | one fn => exact removeListener_sublist e fn
    | all => exact List.Sublist.refl _

theorem callHandler_sublist (script : Script) (trace : List Nat) (e : EventEmitter) (h : Handler) :
    (callHandler script trace e h).handlers.Sublist e.handlers := by
  rw [callHandler]
  refine (removals_sublist _ _).trans ?_
  cases h.registration with
  | on f => exact List.Sublist.refl _
  | once f => exact removeListener_sublist e _

/-! ## The loop and the turns that are left -/

/-- The loop has passed listeners that were registered before those of `rest`, and what it has not
passed are listeners of `rest`. -/
structure Aligned (e : EventEmitter) (index : Nat) (rest : List Handler) : Prop where
  attached : e.attached = true
  passed : ∀ g ∈ e.handlers.take index, ∀ r ∈ rest, g.place < r.place
  left : (e.handlers.drop index).Sublist rest

/-- The array is not that of the event any more, and the loop is at its end. -/
def AtEnd (e : EventEmitter) (index : Nat) : Prop := e.attached = false ∧ e.handlers.length ≤ index

/-- The listeners in the order of their registration. -/
def ByPlace (hs : List Handler) : Prop := hs.Pairwise fun g h => g.place < h.place

theorem Aligned.live (ha : Aligned e index rest) : e.live = e.handlers := by
  rw [EventEmitter.live, if_pos ha.attached]

theorem AtEnd.live (hs : AtEnd e index) : e.live = [] := by
  rw [EventEmitter.live, hs.1]
  rfl

theorem emitLoop_end (fuel : Nat) (hend : e.handlers.length ≤ index) :
    emitLoop script fuel index trace e = (trace, e) := by
  cases fuel with
  | zero => rfl
  | succ fuel => rw [emitLoop, List.getElem?_eq_none hend]

theorem emitLoop_trace (fuel : Nat) : ∀ index trace e, e.handlers.length ≤ index + fuel →
    ∃ tail, (emitLoop script fuel index trace e).1 = trace ++ tail
      ∧ tail.head? = e.handlers[index]?.map (·.place) := by
  induction fuel with
  | zero =>
    intro index trace e hfuel
    refine ⟨[], (List.append_nil trace).symm, ?_⟩
    rw [List.getElem?_eq_none (Nat.add_zero index ▸ hfuel)]
    rfl
  | succ fuel ih =>
    intro index trace e hfuel
    rw [emitLoop]
    cases hnext : e.handlers[index]? with
    | none => exact ⟨[], (List.append_nil trace).symm, rfl⟩
    | some h =>
      have hlen := (callHandler_sublist script trace e h).length_le
      obtain ⟨tail, htail, -⟩ := ih (index + 1) (trace ++ [h.place]) (callHandler script trace e h)
        (by omega)
      exact ⟨h.place :: tail, by simp [htail], rfl⟩

theorem meantEmit_trace (rest : List Handler) : ∀ trace live,
    ∃ tail, (meantEmit script rest trace live).1 = trace ++ tail
      ∧ tail.head? = (rest.find? fun h => decide (h ∈ live)).map (·.place) := by
  induction rest with
  | nil => exact fun trace live => ⟨[], (List.append_nil trace).symm, rfl⟩
  | cons h rest ih =>
    intro trace live
    rw [meantEmit, List.find?_cons]
    by_cases hlive : h ∈ live
    · obtain ⟨tail, htail, -⟩ := ih (trace ++ [h.place]) (meantCall script trace live h)
      refine ⟨h.place :: tail, ?_, ?_⟩
      · rw [if_pos hlive, htail, List.append_assoc]
        rfl
      · rw [decide_eq_true hlive]
        rfl
    · rw [if_neg hlive, decide_eq_false hlive]
      exact ih trace live

theorem emitLoop_ne {fuel : Nat} (hfuel : e.handlers.length ≤ index + fuel)
    (hdiffers : e.handlers[index]?.map (·.place)
      ≠ (rest.find? fun r => decide (r ∈ e.live)).map (·.place)) :
    (emitLoop script fuel index trace e).1 ≠ (meantEmit script rest trace e.live).1 := by
  obtain ⟨tail, htail, hhead⟩ := emitLoop_trace fuel index trace e hfuel
  obtain ⟨tail', htail', hhead'⟩ := meantEmit_trace rest trace e.live
  rw [htail, htail']
  intro htrace
  apply hdiffers
  rw [← hhead, ← hhead', List.append_cancel_left htrace]

/-- A listener whose turn it is is the next in the array, or is registered no more. -/
theorem Aligned.turn (ha : Aligned e index (h :: rest)) (horder : ByPlace (h :: rest)) :
    (h ∉ e.live ∧ Aligned e index rest)
      ∨ ∃ front back, e.handlers = front ++ h :: back ∧ front.length = index ∧ back.Sublist rest
        ∧ (∀ g ∈ front, g.place < h.place) ∧ ∀ g ∈ back, h.place < g.place := by
  obtain ⟨hlater, -⟩ := List.pairwise_cons.1 horder
  have hpassed : ∀ g ∈ e.handlers.take index, g.place < h.place :=
    fun g hg => ha.passed g hg h List.mem_cons_self
  rcases List.sublist_cons_iff.1 ha.left with hleft | ⟨back, hdrop, hback⟩
  · refine Or.inl ⟨?_, ha.attached, ?_, hleft⟩
    · rw [ha.live, ← List.take_append_drop index e.handlers, List.mem_append]
      rintro (hmem | hmem)
      · exact absurd (hpassed h hmem) (Nat.lt_irrefl _)
      · exact absurd (hlater h (hleft.subset hmem)) (Nat.lt_irrefl _)
    · exact fun g hg r hr => ha.passed g hg r (List.mem_cons_of_mem h hr)
  · have hindex : index < e.handlers.length := by
      by_contra hle
      rw [List.drop_eq_nil_of_le (Nat.le_of_not_lt hle)] at hdrop
      cases hdrop
    refine Or.inr ⟨e.handlers.take index, back, ?_, List.length_take_of_le (Nat.le_of_lt hindex),
      hback, hpassed, fun g hg => hlater g (hback.subset hg)⟩
    rw [← hdrop, List.take_append_drop]

section Call

variable {front back : List Handler}

/-- Only the callback itself is taken out, as no other registration has it. -/
theorem eraseP_callback {f : Nat} (hfront : ∀ g ∈ front, g.place < h.place)
    (honce : h.registration = .once f) :
    (front ++ h :: back).eraseP (fun g => decide (g.fn = .callback h.place))
      = (front ++ h :: back).erase h := by
  have hself : h.fn = .callback h.place := by rw [Handler.fn, honce]
  have hothers : ∀ g ∈ front, ¬ decide (g.fn = .callback h.place) = true := by
    intro g hg hfn
    have hlt := hfront g hg
    rw [decide_eq_true_eq, Handler.fn] at hfn
    cases hreg : g.registration with
    | on f =>
      rw [hreg] at hfn
      cases hfn
    | once f =>
      rw [hreg] at hfn
      have hplace : g.place = h.place := ListenerFn.callback.inj hfn
      omega
  have hnotMem : h ∉ front := fun hmem => absurd (hfront h hmem) (Nat.lt_irrefl _)
  rw [List.eraseP_append_right _ hothers, List.eraseP_cons_of_pos (by simpa using hself),
    List.erase_append_right _ hnotMem, List.erase_cons_head]

theorem callHandler_live (script : Script) (trace : List Nat) (hattached : e.attached = true)
    (hhandlers : e.handlers = front ++ h :: back) (hfront : ∀ g ∈ front, g.place < h.place) :
    (callHandler script trace e h).live = meantCall script trace e.live h := by
  have hlive : e.live = front ++ h :: back := by rw [EventEmitter.live, if_pos hattached, hhandlers]
  rw [callHandler, meantCall, removals_live]
  cases hreg : h.registration with
  | on f => rfl
  | once f => simp only [removeListener_live, hlive, eraseP_callback hfront hreg]

/-- What is left of the array is a part of what was passed and a part of what was not. -/
theorem callHandler_split (script : Script) (trace : List Nat)
    (hhandlers : e.handlers = front ++ h :: back) :
    ∃ passed left, (callHandler script trace e h).handlers = passed ++ left
      ∧ passed.Sublist (front ++ [h]) ∧ left.Sublist back := by
  have hsub := callHandler_sublist script trace e h
  rw [hhandlers, ← List.singleton_append, ← List.append_assoc] at hsub
  exact List.sublist_append_iff.1 hsub

variable {passed left : List Handler}

theorem undisturbing_iff (hhandlers : e.handlers = front ++ h :: back)
    (hfront : ∀ g ∈ front, g.place < h.place) (hback : ∀ g ∈ back, h.place < g.place)
    (hsplit : e'.handlers = passed ++ left) (hpassed : passed.Sublist (front ++ [h]))
    (hleft : left.Sublist back) :
    Undisturbing h e e' ↔ if e'.attached then passed.length = front.length + 1 ∨ left = []
      else passed.length + left.length ≤ front.length + 1 := by
  have hupto : ∀ g ∈ front ++ [h], g.place ≤ h.place := by
    intro g hg
    rcases List.mem_append.1 hg with hg | hg
    · exact Nat.le_of_lt (hfront g hg)
    · exact Nat.le_of_eq (congrArg _ (List.mem_singleton.1 hg))
  have hbehind : ∀ g ∈ left, ¬ g.place ≤ h.place := by
    intro g hg
    have hlt := hback g (hleft.subset hg)
    omega
  have hbefore : e.handlers.filter (·.place ≤ h.place) = front ++ [h] := by
    rw [hhandlers, ← List.singleton_append, ← List.append_assoc, List.filter_append,
      List.filter_eq_self.2 (by simpa using hupto), List.filter_eq_nil_iff.2, List.append_nil]
    intro g hg
    have hlt := hback g hg
    simpa using hlt
  have hafter : e'.handlers.filter (·.place ≤ h.place) = passed := by
    rw [hsplit, List.filter_append, List.filter_eq_self.2, List.filter_eq_nil_iff.2, List.append_nil]
    · simpa using hbehind
    · intro g hg
      simpa using hupto g (hpassed.subset hg)
  have hnone : (∀ g ∈ e'.handlers, g.place ≤ h.place) ↔ left = [] := by
    rw [hsplit]
    constructor
    · intro hall
      rw [List.eq_nil_iff_forall_not_mem]
      exact fun g hg => hbehind g hg (hall g (List.mem_append_right _ hg))
    · rintro rfl g hg
      rw [List.append_nil] at hg
      exact hupto g (hpassed.subset hg)
  simp only [Undisturbing]
  rw [hbefore, hafter, hnone, hsplit, List.length_append, List.length_append, List.length_singleton]

theorem upto_before (hfront : ∀ g ∈ front, g.place < h.place)
    (hlater : ∀ r ∈ rest, h.place < r.place) :
    ∀ g ∈ front ++ [h], ∀ r ∈ rest, g.place < r.place := by
  intro g hg r hr
  have hr' := hlater r hr
  rcases List.mem_append.1 hg with hg | hg
  · exact Nat.lt_trans (hfront g hg) hr'
  · rw [List.mem_singleton.1 hg]
    exact hr'

theorem next_aligned (hpassed : passed.Sublist (front ++ [h])) (hleft : left.Sublist rest)
    (hsplit : e'.handlers = passed ++ left)
    (horder : ∀ g ∈ front ++ [h], ∀ r ∈ rest, g.place < r.place)
    (hok : if e'.attached then passed.length = front.length + 1 ∨ left = []
      else passed.length + left.length ≤ front.length + 1) :
    Aligned e' (front.length + 1) rest ∨ AtEnd e' (front.length + 1) := by
  have hlen := hpassed.length_le
  rw [List.length_append, List.length_singleton] at hlen
  cases hattached : e'.attached with
  | false =>
    rw [hattached, if_neg Bool.false_ne_true] at hok
    exact Or.inr ⟨hattached, by rw [hsplit, List.length_append]; exact hok⟩
  | true =>
    rw [hattached, if_pos rfl] at hok
    have htake : e'.handlers.take (front.length + 1) = passed
        ∧ (e'.handlers.drop (front.length + 1)).Sublist rest := by
      rcases hok with hfull | rfl
      · rw [hsplit, ← hfull, List.take_left, List.drop_left]
        exact ⟨rfl, hleft⟩
      · rw [hsplit, List.append_nil, List.take_of_length_le hlen, List.drop_eq_nil_of_le hlen]
        exact ⟨rfl, List.nil_sublist rest⟩
    refine Or.inl ⟨hattached, ?_, htake.2⟩
    rw [htake.1]
    exact fun g hg => horder g (hpassed.subset hg)

theorem find_left {g : Handler} : ∀ rest : List Handler, ByPlace rest → (g :: left).Sublist rest →
    (∀ r ∈ rest, r ∉ passed) →
    (rest.find? fun r => decide (r ∈ passed ++ g :: left)) = some g
  | [], _, hleft, _ => absurd hleft (by simp)
  | r :: rest, horder, hleft, hpassed => by
    obtain ⟨hlater, horder'⟩ := List.pairwise_cons.1 horder
    rw [List.find?_cons]
    rcases List.sublist_cons_iff.1 hleft with hrest | ⟨_, heq, -⟩
    · have hr : r ∉ passed ++ g :: left := by
        rw [List.mem_append]
        rintro (hmem | hmem)
        · exact hpassed r List.mem_cons_self hmem
        · exact absurd (hlater r (hrest.subset hmem)) (Nat.lt_irrefl _)
      rw [decide_eq_false hr]
      exact find_left rest horder' hrest fun r' hr' => hpassed r' (List.mem_cons_of_mem r hr')
    · obtain ⟨rfl, -⟩ := List.cons.inj heq
      rw [decide_eq_true (List.mem_append_right _ List.mem_cons_self)]

/-- After a call that disturbs, another listener is called than should be. -/
theorem next_differs (hpassed : passed.Sublist (front ++ [h])) (hleft : left.Sublist rest)
    (hsplit : e'.handlers = passed ++ left) (horder : ByPlace rest)
    (hbefore : ∀ g ∈ front ++ [h], ∀ r ∈ rest, g.place < r.place)
    (hbad : ¬ if e'.attached then passed.length = front.length + 1 ∨ left = []
      else passed.length + left.length ≤ front.length + 1) :
    e'.handlers[front.length + 1]?.map (·.place)
      ≠ (rest.find? fun r => decide (r ∈ e'.live)).map (·.place) := by
  have hlen := hpassed.length_le
  rw [List.length_append, List.length_singleton] at hlen
  cases hattached : e'.attached with
  | false =>
    rw [hattached, if_neg Bool.false_ne_true, ← List.length_append, ← hsplit] at hbad
    have hnone : rest.find? (fun r => decide (r ∈ e'.live)) = none := by
      rw [EventEmitter.live, hattached]
      simp
    rw [hnone, List.getElem?_eq_getElem (Nat.lt_of_not_le hbad)]
    exact nofun
  | true =>
    rw [hattached, if_pos rfl, not_or] at hbad
    obtain ⟨hshort, hne⟩ := hbad
    obtain ⟨g, left', rfl⟩ := List.exists_cons_of_ne_nil hne
    have hfresh : ∀ r ∈ rest, r ∉ passed := fun r hr hmem =>
      absurd (hbefore r (hpassed.subset hmem) r hr) (Nat.lt_irrefl _)
    rw [EventEmitter.live, if_pos hattached, hsplit, find_left rest horder hleft hfresh,
      List.getElem?_append_right (by omega)]
    obtain ⟨k, hk⟩ : ∃ k, front.length + 1 - passed.length = k + 1 :=
      ⟨front.length - passed.length, by omega⟩
    rw [hk, List.getElem?_cons_succ]
    intro heq
    obtain ⟨r, hr, hsame⟩ := Option.map_eq_some_iff.1 heq
    have hplace : r.place = g.place := hsame
    have hlater := (List.pairwise_cons.1 (horder.sublist hleft)).1 r (List.mem_of_getElem? hr)
    omega

end Call

/-! ## The whole of it -/

theorem meantEmit_none (rest : List Handler) (trace : List Nat) :
    meantEmit script rest trace [] = (trace, []) := by
  induction rest with
  | nil => rfl
  | cons h rest ih => rw [meantEmit, if_neg List.not_mem_nil, ih]

theorem undisturbed_none (hlive : e.live = []) (rest : List Handler) (trace : List Nat) :
    Undisturbed script rest trace e := by
  induction rest with
  | nil => trivial
  | cons h rest ih =>
    rw [Undisturbed, if_neg (by rw [hlive]; exact List.not_mem_nil)]
    exact ih

/-- What the loop does from here on is what should be done, exactly if no call on the way
disturbs it. The induction is on the turns that are left. -/
theorem emitLoop_iff (rest : List Handler) : ∀ fuel index trace e, ByPlace rest →
    Aligned e index rest ∨ AtEnd e index → e.handlers.length ≤ index + fuel →
    ((emitLoop script fuel index trace e).1 = (meantEmit script rest trace e.live).1
        ∧ (emitLoop script fuel index trace e).2.live = (meantEmit script rest trace e.live).2
      ↔ Undisturbed script rest trace e) := by
  induction rest with
  | nil =>
    intro fuel index trace e _ hstate _
    have hend : e.handlers.length ≤ index := by
      rcases hstate with ha | hs
      · exact List.drop_eq_nil_iff.1 (List.sublist_nil.1 ha.left)
      · exact hs.2
    rw [emitLoop_end fuel hend]
    exact iff_of_true ⟨rfl, rfl⟩ trivial
  | cons h rest ih =>
    intro fuel index trace e horder hstate hfuel
    rcases hstate with ha | hs
    · have horder' := (List.pairwise_cons.1 horder).2
      rcases ha.turn horder with ⟨hgone, ha'⟩ | ⟨front, back, hhandlers, rfl, hback, hfront, hlater⟩
      · rw [meantEmit, if_neg hgone, Undisturbed, if_neg hgone]
        exact ih fuel index trace e horder' (Or.inl ha') hfuel
      · have hlive : h ∈ e.live := by
          rw [ha.live, hhandlers]
          exact List.mem_append_right _ List.mem_cons_self
        have hnext : e.handlers[front.length]? = some h := by
          rw [hhandlers, List.getElem?_append_right (Nat.le_refl _), Nat.sub_self]
          rfl
        obtain ⟨fuel, rfl⟩ : ∃ k, fuel = k + 1 := by
          have hlen := congrArg List.length hhandlers
          rw [List.length_append, List.length_cons] at hlen
          exact ⟨fuel - 1, by omega⟩
        have hfuel' : (callHandler script trace e h).handlers.length ≤ front.length + 1 + fuel := by
          have hlen := (callHandler_sublist script trace e h).length_le
          omega
        obtain ⟨passed, left, hsplit, hpassed, hleft⟩ := callHandler_split script trace hhandlers
        have hbefore := upto_before hfront (List.pairwise_cons.1 horder).1
        have hundisturbing := undisturbing_iff hhandlers hfront hlater hsplit hpassed hleft
        rw [emitLoop, hnext, meantEmit, if_pos hlive, Undisturbed, if_pos hlive,
          ← callHandler_live script trace ha.attached hhandlers hfront, hundisturbing]
        by_cases hok : if (callHandler script trace e h).attached = true then
            passed.length = front.length + 1 ∨ left = []
          else passed.length + left.length ≤ front.length + 1
        · rw [and_iff_right hok]
          have hnext' := next_aligned hpassed (hleft.trans hback) hsplit hbefore hok
          exact ih fuel _ _ _ horder' hnext' hfuel'
        · refine iff_of_false ?_ fun hall => hok hall.1
          have hdiffers := next_differs hpassed (hleft.trans hback) hsplit horder' hbefore hok
          exact fun hsame => emitLoop_ne hfuel' hdiffers hsame.1
    · rw [emitLoop_end fuel hs.2, hs.live, meantEmit_none]
      exact iff_of_true ⟨rfl, rfl⟩ (undisturbed_none hs.live _ _)

/-! ## Registered listeners -/

/-- The registrations with their places. -/
def numbered (regs : List Registration) : List Handler := regs.zipIdx.map fun r => ⟨r.2, r.1⟩

theorem push_all (rs : List (Registration × Nat)) : ∀ e : EventEmitter,
    rs.foldl (fun e r => e.push ⟨r.2, r.1⟩) e
      = if rs.isEmpty then e else ⟨e.live ++ rs.map fun r => ⟨r.2, r.1⟩, true⟩ := by
  induction rs with
  | nil => exact fun _ => rfl
  | cons r rs ih =>
    intro e
    rw [List.foldl_cons, ih]
    cases rs with
    | nil => rfl
    | cons r' rs => simp [EventEmitter.push, EventEmitter.live]

theorem registerAll_eq (regs : List Registration) :
    EventEmitter.registerAll regs = ⟨numbered regs, !regs.isEmpty⟩ := by
  rw [EventEmitter.registerAll, push_all]
  cases regs with
  | nil => rfl
  | cons r regs => rfl

theorem numbered_byPlace (regs : List Registration) : ByPlace (numbered regs) := by
  rw [ByPlace, List.pairwise_iff_getElem]
  intro i j hi hj hlt
  simpa [numbered] using hlt

/-- `emit` calls the listeners that it should, and leaves those registered that it should, exactly
if no call disturbs the loop. -/
theorem emit_complete_iff (script : Script) (regs : List Registration) :
    EmitComplete script (.registerAll regs)
      ↔ Undisturbed script (numbered regs) [] (.registerAll regs) := by
  rw [EmitComplete, registerAll_eq, emit]
  cases hempty : regs.isEmpty with
  | true =>
    obtain rfl := List.isEmpty_iff.1 hempty
    exact iff_of_true ⟨rfl, rfl⟩ trivial
  | false =>
    have haligned : Aligned ⟨numbered regs, !false⟩ 0 (numbered regs) :=
      ⟨rfl, fun _ hg => absurd hg List.not_mem_nil, List.Sublist.refl _⟩
    exact emitLoop_iff (numbered regs) _ 0 [] _ (numbered_byPlace regs) (Or.inl haligned)
      (Nat.le_add_left _ _)

/-- A listener that is called once hides the one behind it. -/
theorem once_hides_next :
    (emit (fun _ => []) (.registerAll [.once 0, .on 1])).1 = [0]
      ∧ ¬ EmitComplete (fun _ => []) (.registerAll [.once 0, .on 1]) := by
  refine ⟨rfl, ?_⟩
  intro h
  exact absurd h.1 (by decide)

end QjsNet
