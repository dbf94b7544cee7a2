import Mathlib.Data.List.TakeWhile
import Mathlib.Logic.Function.Basic
import QjsNet.Lib.PartialRun

/- Deferred calls (`deferred.c`): a function with words bound to it, shared by counting
   references, and chained to the call that is to follow when it goes away.

   A call writes its extra words behind the bound ones, up to the first that is zero or the
   sentinel, and leaves them there. All eight words are passed, so a later call with fewer
   words passes what is left over. `JS_Call` gets five words, and two more as its argument
   if there was an extra word.

   `deferred_free` runs the chain behind an object whenever a reference is dropped, and not
   only with the last one, and does not forget the chain. The chain is run to its end, also
   past an object that is still referenced. `lifecycle_iff` says which runs are safe.

   The objects of a chain are numbered in its order. The functions themselves are the log of
   their calls. `none` is the use of an object that has been freed, or a failed assertion.

   Correspondence (C ↔ Lean):
     `deferred_init`, `deferred_newv` ↔ `deferredNewv`
     `deferred_dup`          ↔ `DeferredHeap.dup`
     `deferred_call_x`       ↔ `Deferred.withExtras`, `Deferred.passed`, `DeferredHeap.call`
     `deferred_free`         ↔ `DeferredHeap.release`, `DeferredHeap.free`
     `deferred_destructor`   ↔ `DeferredHeap.destructor` -/
namespace QjsNet

/-- `DEFERRED_SENTINEL` -/
def deferredSentinel : Nat := 0xb222471f43df05

inductive DeferredFunction where
  /-- `&JS_Call` -/
  | jsCall
  | other (id : Nat)
  deriving DecidableEq, Repr

/-- A function and the words that are bound to it. -/
structure BoundCall where
  func : DeferredFunction
  args : List Nat
  args_le : args.length ≤ 8

structure Deferred where
  refCount : Nat
  numCalls : Nat
  onlyOnce : Bool
  func : DeferredFunction
  argc : Nat
  argv : List Nat
  /-- The next object of the chain. -/
  next : Option Nat
  deriving DecidableEq, Repr

def deferredNewv (b : BoundCall) (next : Option Nat) : Deferred where
  refCount := 1
  numCalls := 0
  onlyOnce := false
  func := b.func
  argc := b.args.length
  argv := b.args ++ List.replicate (8 - b.args.length) 0
  next := next

/-- The loop over the extra words stops at any other. -/
def isExtra (w : Nat) : Bool := w ≠ 0 && w ≠ deferredSentinel

namespace Deferred

/-- The extra words that are stored. -/
def stored (d : Deferred) (extras : List Nat) : List Nat :=
  (extras.take (8 - d.argc)).takeWhile isExtra

/-- The words behind the bound ones. -/
def behind (d : Deferred) : List Nat := d.argv.drop d.argc

/-- The object after a call. -/
def withExtras (d : Deferred) (extras : List Nat) : Deferred :=
  { d with
    argv := d.argv.take d.argc ++
      (d.stored extras ++ d.behind.drop (d.stored extras).length)
    numCalls := d.numCalls + 1 }

/-- The words that the function gets, and the words of the argument of `JS_Call`, of which there is
one if a word was stored. -/
def passed (d : Deferred) (extras : List Nat) : List Nat × List Nat :=
  match d.func with
  | .jsCall => ((d.withExtras extras).argv.take 5,
      ((d.withExtras extras).argv.drop d.argc).take (if d.stored extras = [] then 0 else 2))
  | .other _ => ((d.withExtras extras).argv, [])

end Deferred

/-- A list with zeros up to a length. -/
def padTo (n : Nat) (words : List Nat) : List Nat := words ++ List.replicate (n - words.length) 0

/-- The bound words followed by the extra ones, which for `JS_Call` are its argument. -/
def BoundCall.meant (b : BoundCall) (extras : List Nat) : List Nat × List Nat :=
  match b.func with
  | .jsCall => (padTo 5 b.args, extras)
  | .other _ => (padTo 8 (b.args ++ extras), [])

/-- A call with its extra words and what was passed. -/
structure DeferredCall where
  id : Nat
  extras : List Nat
  passed : List Nat × List Nat
  deriving DecidableEq, Repr

theorem forall_mem_of_eq {α : Type} {o : Option α} {a : α} {p : α → Prop} (h : o = some a) :
    (∀ x ∈ o, p x) ↔ p a := by
  subst h
  exact ⟨fun hall => hall a rfl, fun ha x hx => Option.some.inj hx ▸ ha⟩

/-! ## One call -/

/-- No extra word is lost, and none of an earlier call is among the first `m` words. -/
def Clean (d : Deferred) (extras : List Nat) (m : Nat) : Prop :=
  (∀ w ∈ extras.dropWhile isExtra, w = 0) ∧
    ∀ w ∈ (d.behind.take m).drop (extras.takeWhile isExtra).length, w = 0

/-- The words fit in, and the call is clean. The argument of `JS_Call` is one value of two words,
and the first of them is not zero. -/
def CallOk (d : Deferred) (extras : List Nat) : Prop :=
  match d.func with
  | .jsCall => (extras = [] ∧ d.argc ≤ 5 ∧ Clean d [] (5 - d.argc)) ∨
      (d.argc = 5 ∧ extras.length = 2 ∧ extras.takeWhile isExtra ≠ [] ∧ Clean d extras 2)
  | .other _ => d.argc + extras.length ≤ 8 ∧ Clean d extras (8 - d.argc)

/-- What holds of the object `k` of a chain of `n` objects, which was made of `b`. -/
structure Made (b : BoundCall) (k n : Nat) (d : Deferred) : Prop where
  func : d.func = b.func
  argc : d.argc = b.args.length
  bound : d.argv.take d.argc = b.args
  length : d.argv.length = 8
  /-- Extra words of earlier calls, and zeros behind them. -/
  behind : ∃ words m, d.behind = words ++ List.replicate m 0 ∧ ∀ w ∈ words, isExtra w = true
  refs : 0 < d.refCount
  once : d.onlyOnce = false
  next : ∀ j ∈ d.next, j = k + 1 ∧ j < n

variable {b : BoundCall} {k n m : Nat} {d : Deferred} {extras : List Nat}

theorem made_new (b : BoundCall) {next : Option Nat} (hnext : ∀ j ∈ next, j = k + 1 ∧ j < n) :
    Made b k n (deferredNewv b next) := by
  have hle := b.args_le
  refine ⟨rfl, rfl, List.take_left, ?_, ⟨[], 8 - b.args.length, ?_, ?_⟩, Nat.one_pos, rfl, hnext⟩
  · show (b.args ++ List.replicate (8 - b.args.length) 0).length = 8
    rw [List.length_append, List.length_replicate]
    omega
  · exact List.drop_left
  · exact fun w hw => absurd hw List.not_mem_nil

theorem Made.argc_le (h : Made b k n d) : d.argc ≤ 8 := h.argc ▸ b.args_le

theorem Made.length_behind (h : Made b k n d) : d.behind.length = 8 - d.argc := by
  unfold Deferred.behind
  rw [List.length_drop, h.length]

theorem Made.length_bound (h : Made b k n d) : (d.argv.take d.argc).length = d.argc := by
  rw [h.bound, h.argc]

theorem Made.behind_call (h : Made b k n d) (extras : List Nat) :
    (d.withExtras extras).behind = d.stored extras ++ d.behind.drop (d.stored extras).length :=
  List.drop_left' h.length_bound

theorem stored_le (d : Deferred) (extras : List Nat) : (d.stored extras).length ≤ 8 - d.argc := by
  have htake := (List.takeWhile_prefix isExtra (l := extras.take (8 - d.argc))).length_le
  rw [List.length_take] at htake
  exact Nat.le_trans htake (Nat.min_le_left _ _)

theorem isExtra_of_stored (d : Deferred) (extras : List Nat) :
    ∀ w ∈ d.stored extras, isExtra w = true := fun _ hw => List.mem_takeWhile_imp hw

/-- Words that fit in are stored up to the first that stops the loop. -/
theorem stored_eq (h : extras.length ≤ 8 - d.argc) :
    d.stored extras = extras.takeWhile isExtra := by
  unfold Deferred.stored
  rw [List.take_of_length_le h]

theorem Made.withExtras (h : Made b k n d) (extras : List Nat) :
    Made b k n (d.withExtras extras) := by
  have hstored := stored_le d extras
  obtain ⟨words, m, hbehind, hwords⟩ := h.behind
  refine ⟨h.func, h.argc, ?_, ?_, ?_, h.refs, h.once, h.next⟩
  · exact (List.take_left' h.length_bound).trans h.bound
  · show (d.argv.take d.argc ++ (d.stored extras ++ d.behind.drop (d.stored extras).length)).length = 8
    have hargc := h.argc_le
    rw [List.length_append, h.length_bound, List.length_append, List.length_drop, h.length_behind]
    omega
  · refine ⟨d.stored extras ++ words.drop (d.stored extras).length,
      m - ((d.stored extras).length - words.length), ?_, ?_⟩
    · rw [h.behind_call, hbehind, List.drop_append, List.drop_replicate, List.append_assoc]
    · intro w hw
      rcases List.mem_append.1 hw with hw | hw
      · exact isExtra_of_stored d extras w hw
      · exact hwords w (List.mem_of_mem_drop hw)

theorem zeros_behind {words : List Nat} (hwords : ∀ w ∈ words, isExtra w = true) {m w : Nat}
    {rest : List Nat} (h : words ++ List.replicate m 0 = w :: rest) (hw : isExtra w = false) :
    ∀ v ∈ w :: rest, v = 0 := by
  cases words with
  | nil =>
    intro v hv
    rw [← h, List.nil_append] at hv
    exact List.eq_of_mem_replicate hv
  | cons u words =>
    obtain ⟨rfl, -⟩ := List.cons_eq_cons.1 h
    rw [hwords u List.mem_cons_self] at hw
    cases hw

theorem padTo_eq_append (m : Nat) (first rest : List Nat) :
    padTo m (first ++ rest) = first ++ padTo (m - first.length) rest := by
  unfold padTo
  rw [List.append_assoc, List.length_append, Nat.sub_sub]

/-- Zeros are what is needed behind words that are zeros. -/
theorem eq_padTo_of_zeros {rest words : List Nat} (hrest : ∀ w ∈ rest, w = 0)
    (hwords : ∀ w ∈ words, w = 0) (hle : words.length ≤ rest.length) :
    rest = padTo rest.length words := by
  have hrest' := List.eq_replicate_of_mem hrest
  have hwords' := List.eq_replicate_of_mem hwords
  rw [padTo, hwords', List.length_replicate, List.replicate_append_replicate,
    Nat.add_sub_cancel' hle]
  exact hrest'

/-- **The words of a call.** What is stored and what is left over are the extra words and zeros
exactly when the call is clean. -/
theorem Made.words_iff (h : Made b k n d) (hlen : extras.length ≤ m) (hm : m ≤ 8 - d.argc) :
    ((d.withExtras extras).behind).take m = padTo m extras ↔ Clean d extras m := by
  obtain ⟨words, z, hbehind, hwords⟩ := h.behind
  have hst := stored_eq (Nat.le_trans hlen hm)
  have hsplit : extras.takeWhile isExtra ++ extras.dropWhile isExtra = extras :=
    List.takeWhile_append_dropWhile
  have hstop : ∀ w ∈ (extras.dropWhile isExtra).head?, isExtra w = false := by
    intro w hw
    have hnot := List.head?_dropWhile_not isExtra extras
    rw [Option.mem_def.1 hw] at hnot
    exact hnot
  unfold Clean
  generalize extras.takeWhile isExtra = st at hst hsplit
  generalize extras.dropWhile isExtra = unread at hsplit hstop
  subst hsplit
  rw [List.length_append] at hlen
  have hrest : ((d.behind.take m).drop st.length).length = m - st.length := by
    rw [List.length_drop, List.length_take, h.length_behind, Nat.min_eq_left hm]
  have htake : (st ++ d.behind.drop st.length).take m = st ++ (d.behind.take m).drop st.length := by
    rw [List.take_append, List.take_of_length_le (by omega), List.drop_take]
  rw [h.behind_call, hst, htake, padTo_eq_append, List.append_right_inj, ← hrest]
  refine ⟨?_, ?_⟩
  · intro heq
    cases unread with
    | nil =>
      refine ⟨fun w hw => absurd hw List.not_mem_nil, ?_⟩
      intro w hw
      rw [heq, padTo, List.nil_append] at hw
      exact List.eq_of_mem_replicate hw
    | cons w unread =>
      -- a word that stops the loop and is passed all the same is a zero of the array
      have hshape : (d.behind.take m).drop st.length = (words.take m).drop st.length ++
          List.replicate (min (m - words.length) z - (st.length - (words.take m).length)) 0 := by
        rw [hbehind, List.take_append, List.take_replicate, List.drop_append, List.drop_replicate]
      have hall := zeros_behind
        (fun v hv => hwords v (List.mem_of_mem_take (List.mem_of_mem_drop hv)))
        (hshape.symm.trans heq) (hstop w rfl)
      refine ⟨?_, ?_⟩
      · intro v hv
        exact hall v (List.mem_append_left _ hv)
      · intro v hv
        rw [heq] at hv
        exact hall v hv
  · rintro ⟨hunread, hleft⟩
    exact eq_padTo_of_zeros hleft hunread (by omega)

theorem Made.take_argv (h : Made b k n d) (hm : d.argc ≤ m) :
    (d.withExtras extras).argv.take m
      = b.args ++ (d.withExtras extras).behind.take (m - d.argc) := by
  rw [h.behind_call, Deferred.withExtras, List.take_append, h.length_bound,
    List.take_of_length_le (by rw [h.length_bound]; exact hm), h.bound]

theorem Made.argv_call (h : Made b k n d) :
    (d.withExtras extras).argv = b.args ++ (d.withExtras extras).behind.take (8 - d.argc) := by
  have hmade := h.withExtras extras
  rw [← h.take_argv h.argc_le, List.take_of_length_le (Nat.le_of_eq hmade.length)]

theorem Made.passed_other (h : Made b k n d) {f : Nat} (hf : d.func = .other f) :
    d.passed extras = b.meant extras ↔ d.argc + extras.length ≤ 8 ∧ Clean d extras (8 - d.argc) := by
  have hle := h.argc_le
  have hpassed : d.passed extras = ((d.withExtras extras).argv, []) := by
    unfold Deferred.passed
    rw [hf]
  have hmeant : b.meant extras = (padTo 8 (b.args ++ extras), []) := by
    unfold BoundCall.meant
    rw [← h.func, hf]
  rw [hpassed, hmeant, Prod.mk.injEq, and_iff_left rfl, h.argv_call, padTo_eq_append,
    List.append_right_inj, ← h.argc]
  by_cases hfit : d.argc + extras.length ≤ 8
  · rw [h.words_iff (by omega) (Nat.le_refl _), and_iff_right hfit]
  · refine iff_of_false ?_ fun hok => hfit hok.1
    intro heq
    have hlength := congrArg List.length heq
    have hbehind := (h.withExtras extras).length_behind
    have hargc : (d.withExtras extras).argc = d.argc := rfl
    rw [padTo, List.length_take, List.length_append, List.length_replicate, hbehind, hargc] at hlength
    omega

theorem Made.take_five (h : Made b k n d) : (d.withExtras extras).argv.take 5 = padTo 5 b.args ↔
    d.argc ≤ 5 ∧ (d.withExtras extras).behind.take (5 - d.argc) = padTo (5 - d.argc) [] := by
  by_cases hargc : d.argc ≤ 5
  · rw [h.take_argv hargc, ← List.append_nil b.args, padTo_eq_append, List.append_nil,
      List.append_right_inj, and_iff_right hargc, ← h.argc]
  · refine iff_of_false ?_ fun hok => hargc hok.1
    intro heq
    have hlength := congrArg List.length heq
    have hmade := h.withExtras extras
    rw [padTo, List.length_take, hmade.length, List.length_append, ← h.argc] at hlength
    omega

/-- A stored word is not zero, so it is none of the first five. -/
theorem Made.argc_of_stored (h : Made b k n d) (hargc : d.argc ≤ 5)
    (hzeros : (d.withExtras extras).behind.take (5 - d.argc) = padTo (5 - d.argc) [])
    (hsome : d.stored extras ≠ []) : d.argc = 5 := by
  obtain ⟨w, rest, hstored⟩ := List.exists_cons_of_ne_nil hsome
  have hw := isExtra_of_stored d extras w (hstored ▸ List.mem_cons_self)
  by_contra hne
  obtain ⟨m, hm⟩ : ∃ m, 5 - d.argc = m + 1 := ⟨4 - d.argc, by omega⟩
  rw [h.behind_call, hstored, hm, List.cons_append, List.take_succ_cons, padTo, List.nil_append,
    List.length_nil, Nat.sub_zero, List.replicate_succ] at hzeros
  obtain ⟨rfl, -⟩ := List.cons_eq_cons.1 hzeros
  cases hw

theorem Made.passed_jsCall (h : Made b k n d) (hf : d.func = .jsCall) :
    d.passed extras = b.meant extras ↔
      (extras = [] ∧ d.argc ≤ 5 ∧ Clean d [] (5 - d.argc)) ∨
      (d.argc = 5 ∧ extras.length = 2 ∧ extras.takeWhile isExtra ≠ [] ∧ Clean d extras 2) := by
  have hmeant : b.meant extras = (padTo 5 b.args, extras) := by
    unfold BoundCall.meant
    rw [← h.func, hf]
  have hpassed : d.passed extras = ((d.withExtras extras).argv.take 5,
      (d.withExtras extras).behind.take (if d.stored extras = [] then 0 else 2)) := by
    unfold Deferred.passed
    rw [hf]
    rfl
  rw [hpassed, hmeant, Prod.mk.injEq, h.take_five]
  by_cases hnone : d.stored extras = []
  · rw [if_pos hnone, List.take_zero]
    refine ⟨?_, ?_⟩
    · rintro ⟨⟨hargc, hzeros⟩, rfl⟩
      exact Or.inl ⟨rfl, hargc, (h.words_iff (Nat.zero_le _) (by omega)).1 hzeros⟩
    · rintro (⟨rfl, hargc, hclean⟩ | ⟨hargc, hlength, hsome, -⟩)
      · exact ⟨⟨hargc, (h.words_iff (Nat.zero_le _) (by omega)).2 hclean⟩, rfl⟩
      · rw [stored_eq (by omega)] at hnone
        exact absurd hnone hsome
  · rw [if_neg hnone]
    refine ⟨?_, ?_⟩
    · rintro ⟨⟨hargc, hzeros⟩, hextras⟩
      have hfive := h.argc_of_stored hargc hzeros hnone
      have hlength : extras.length = 2 := by
        have hbehind := (h.withExtras extras).length_behind
        have hsame : (d.withExtras extras).argc = d.argc := rfl
        rw [← hextras, List.length_take, hbehind, hsame, hfive]
        rfl
      have hpad : padTo 2 extras = extras := by
        rw [padTo, hlength]
        exact List.append_nil _
      refine Or.inr ⟨hfive, hlength, ?_, ?_⟩
      · rw [← @stored_eq d extras (by omega)]
        exact hnone
      · exact (h.words_iff (Nat.le_of_eq hlength) (by omega)).1 (hextras.trans hpad.symm)
    · rintro (⟨rfl, -, -⟩ | ⟨hargc, hlength, -, hclean⟩)
      · exact absurd (stored_eq (Nat.zero_le _)) hnone
      · have hwords := (h.words_iff (Nat.le_of_eq hlength) (by omega)).2 hclean
        refine ⟨⟨Nat.le_of_eq hargc, ?_⟩, ?_⟩
        · rw [hargc]
          rfl
        · rw [hwords, padTo, hlength, Nat.sub_self]
          exact List.append_nil _

/-- **What is passed is what is meant** exactly when the call is clean and its words fit in. -/
theorem Made.passed_iff (h : Made b k n d) (extras : List Nat) :
    d.passed extras = b.meant extras ↔ CallOk d extras := by
  unfold CallOk
  cases hf : d.func with
  | jsCall => exact h.passed_jsCall hf
  | other f => exact h.passed_other hf

/-! ## A chain of objects -/

/-- The objects that are not freed, the calls, and the objects that were run because they follow
another one. -/
structure DeferredHeap where
  objs : Nat → Option Deferred
  calls : List DeferredCall
  ran : List Nat

namespace DeferredHeap

/-- One object each, and each follows the one before it. -/
def chain (bs : List BoundCall) : DeferredHeap where
  objs := fun k => bs[k]?.map fun b => deferredNewv b (if k + 1 < bs.length then some (k + 1) else none)
  calls := []
  ran := []

def set (s : DeferredHeap) (k : Nat) (d : Option Deferred) : DeferredHeap :=
  { s with objs := Function.update s.objs k d }

def dup (s : DeferredHeap) (k : Nat) : Option DeferredHeap :=
  (s.objs k).map fun d => s.set k (some { d with refCount := d.refCount + 1 })

def call (s : DeferredHeap) (k : Nat) (extras : List Nat) : Option DeferredHeap :=
  (s.objs k).bind fun d =>
    if d.onlyOnce && decide (1 ≤ d.numCalls) then none
    else some { s.set k (some (d.withExtras extras)) with
      calls := s.calls ++ [⟨k, extras, d.passed extras⟩] }

/-- `if(--def->ref_count == 0) free(def);` -/
def release (s : DeferredHeap) (k : Nat) : Option DeferredHeap :=
  (s.objs k).map fun d =>
    s.set k (if d.refCount = 1 then none else some { d with refCount := d.refCount - 1 })

/-- The loop, with as much fuel as there are objects. The `deferred_free` in it finds no chain. -/
def destructor : Nat → DeferredHeap → Nat → Option DeferredHeap
  | 0, _, _ => none
  | fuel + 1, s, k => do
    let d ← s.objs k
    let s ← { s.set k (some { d with next := none }) with ran := s.ran ++ [k] }.call k []
    let s ← s.release k
    d.next.elim (some s) (destructor fuel s)

/-- `deferred_free`, for a chain of `n` objects. -/
def free (n : Nat) (s : DeferredHeap) (k : Nat) : Option DeferredHeap := do
  let d ← s.objs k
  let s ← d.next.elim (some s) (destructor n s)
  s.release k

end DeferredHeap

inductive DeferredOp where
  | dup (k : Nat)
  | free (k : Nat)
  | call (k : Nat) (extras : List Nat)
  deriving DecidableEq, Repr

/-- The object an operation is applied to. -/
def DeferredOp.id : DeferredOp → Nat
  | .dup k | .free k | .call k _ => k

def deferredStep (n : Nat) (s : DeferredHeap) : DeferredOp → Option DeferredHeap
  | .dup k => s.dup k
  | .free k => s.free n k
  | .call k extras => s.call k extras

/-- What every call should pass was passed, no object was run twice, and the one before an object
that was run is gone. -/
structure Lifecycle (bs : List BoundCall) (s : DeferredHeap) : Prop where
  calls : ∀ c ∈ s.calls, ∃ b, bs[c.id]? = some b ∧ c.passed = b.meant c.extras
  once : s.ran.Nodup
  last : ∀ j ∈ s.ran, ∃ p, j = p + 1 ∧ s.objs p = none

/-- The chain from `k` on can be run: no call has left words over, and no object that another one
follows has a second reference. -/
def ChainOk (s : DeferredHeap) : Nat → Nat → Prop
  | 0, _ => True
  | fuel + 1, k => ∀ d ∈ s.objs k, CallOk d [] ∧
      ∀ j ∈ d.next, d.refCount = 1 ∧ ChainOk s fuel j

/-- A call is right, and a reference of an object that another one follows is dropped only when it
is the last one and the chain can be run. -/
def OpOk (n : Nat) (s : DeferredHeap) : DeferredOp → Prop
  | .dup _ => True
  | .free k => ∀ d ∈ s.objs k, ∀ j ∈ d.next, d.refCount = 1 ∧ ChainOk s n j
  | .call k extras => ∀ d ∈ s.objs k, CallOk d extras

/-- The objects are made of the bound calls. -/
def Shaped (bs : List BoundCall) (s : DeferredHeap) : Prop :=
  ∀ k d, s.objs k = some d → ∃ b, bs[k]? = some b ∧ Made b k bs.length d

variable {bs : List BoundCall} {s s' t : DeferredHeap} {i j p fuel : Nat}

theorem chain_shaped (bs : List BoundCall) : Shaped bs (.chain bs) := by
  intro k d hd
  obtain ⟨b, hb, rfl⟩ := Option.map_eq_some_iff.1 hd
  refine ⟨b, hb, made_new b ?_⟩
  intro j hj
  split at hj
  · next hlt =>
    obtain rfl := Option.some.inj hj
    exact ⟨rfl, hlt⟩
  · cases hj

theorem chain_lifecycle (bs : List BoundCall) : Lifecycle bs (.chain bs) :=
  ⟨fun _ hc => absurd hc List.not_mem_nil, List.nodup_nil, fun _ hj => absurd hj List.not_mem_nil⟩

/-! ## What one operation does -/

@[simp] theorem set_objs (s : DeferredHeap) (k : Nat) (d : Option Deferred) :
    (s.set k d).objs k = d := Function.update_self ..

theorem set_objs_ne (s : DeferredHeap) {k i : Nat} (d : Option Deferred) (h : i ≠ k) :
    (s.set k d).objs i = s.objs i := Function.update_of_ne h ..

theorem Shaped.set (hs : Shaped bs s) {b : BoundCall} (hb : bs[k]? = some b) {o : Option Deferred}
    (ho : ∀ d ∈ o, Made b k bs.length d) : Shaped bs (s.set k o) := by
  intro i d hd
  by_cases hi : i = k
  · subst hi
    rw [set_objs] at hd
    exact ⟨b, hb, ho d hd⟩
  · rw [set_objs_ne s o hi] at hd
    exact hs i d hd

theorem Shaped.next (hs : Shaped bs s) (hd : s.objs k = some d) (hj : d.next = some j) :
    j = k + 1 ∧ j < bs.length := by
  obtain ⟨b, -, hmade⟩ := hs k d hd
  exact hmade.next j hj

theorem Shaped.call_eq (hs : Shaped bs s) (hd : s.objs k = some d) (extras : List Nat) :
    s.call k extras = some { s.set k (some (d.withExtras extras)) with
      calls := s.calls ++ [⟨k, extras, d.passed extras⟩] } := by
  obtain ⟨b, -, hmade⟩ := hs k d hd
  rw [DeferredHeap.call, hd, Option.bind_some, hmade.once]
  rfl

theorem release_eq (hd : s.objs k = some d) : s.release k =
    some (s.set k (if d.refCount = 1 then none else some { d with refCount := d.refCount - 1 })) := by
  rw [DeferredHeap.release, hd, Option.map_some]

/-- The object after its call and without one reference. -/
def Deferred.visited (d : Deferred) : Option Deferred :=
  if d.refCount = 1 then none
  else some { d.withExtras [] with next := none, refCount := d.refCount - 1 }

/-- The state after one turn of `deferred_destructor`. -/
def DeferredHeap.visit (s : DeferredHeap) (k : Nat) (d : Deferred) : DeferredHeap where
  objs := Function.update s.objs k d.visited
  calls := s.calls ++ [⟨k, [], d.passed []⟩]
  ran := s.ran ++ [k]

theorem destructor_succ (hs : Shaped bs s) (hd : s.objs k = some d) :
    s.destructor (fuel + 1) k = d.next.elim (some (s.visit k d)) ((s.visit k d).destructor fuel) := by
  obtain ⟨b, hb, hmade⟩ := hs k d hd
  let d₁ : Deferred := { d with next := none }
  let s₁ : DeferredHeap := { s.set k (some d₁) with ran := s.ran ++ [k] }
  let s₂ : DeferredHeap := { s₁.set k (some (d₁.withExtras [])) with
    calls := s.calls ++ [⟨k, [], d.passed []⟩] }
  have hmade₁ : Made b k bs.length d₁ := ⟨hmade.func, hmade.argc, hmade.bound, hmade.length,
    hmade.behind, hmade.refs, hmade.once, fun j hj => by cases hj⟩
  have hs₁ : Shaped bs s₁ := hs.set hb fun d' hd' => Option.some.inj hd' ▸ hmade₁
  have hcall : s₁.call k [] = some s₂ := hs₁.call_eq (set_objs s k (some d₁)) []
  have hrelease : s₂.release k = some (s.visit k d) := by
    have hd₂ : s₂.objs k = some (d₁.withExtras []) := set_objs s₁ k (some (d₁.withExtras []))
    rw [release_eq hd₂]
    refine congrArg some (DeferredHeap.mk.injEq .. ▸ ⟨?_, rfl, rfl⟩)
    exact (Function.update_idem ..).trans (Function.update_idem ..)
  simp only [DeferredHeap.destructor, hd, Option.bind_eq_bind, Option.bind_some]
  rw [hcall, Option.bind_some, hrelease, Option.bind_some]

theorem visit_objs_ne (h : i ≠ k) : (s.visit k d).objs i = s.objs i := Function.update_of_ne h ..

theorem visit_objs_eq_none (s : DeferredHeap) (k : Nat) (d : Deferred) :
    (s.visit k d).objs k = none ↔ d.refCount = 1 := by
  have hself : (s.visit k d).objs k = d.visited := Function.update_self ..
  rw [hself, Deferred.visited]
  split
  · next h => exact iff_of_true rfl h
  · next h => exact iff_of_false (fun hn => by cases hn) h

theorem Shaped.visit (hs : Shaped bs s) (hd : s.objs k = some d) : Shaped bs (s.visit k d) := by
  obtain ⟨b, hb, hmade⟩ := hs k d hd
  have hrefs := hmade.refs
  have hcalled := hmade.withExtras []
  refine Shaped.set (s := ⟨s.objs, _, _⟩) hs hb ?_
  intro d' hd'
  unfold Deferred.visited at hd'
  split at hd'
  · cases hd'
  · next hne =>
    obtain rfl := Option.some.inj hd'
    exact ⟨hcalled.func, hcalled.argc, hcalled.bound, hcalled.length, hcalled.behind,
      Nat.sub_pos_of_lt (by omega), hcalled.once, fun j hj => by cases hj⟩

/-! ## What a chain does -/

/-- What the loop from `k` on leaves as it was, and what it records. -/
structure Walked (bs : List BoundCall) (k : Nat) (s s' : DeferredHeap) : Prop where
  shaped : Shaped bs s'
  before : ∀ i < k, s'.objs i = s.objs i
  calls : s.calls <+: s'.calls
  ran : s.ran ++ [k] <+: s'.ran

theorem destructor_walked : ∀ (fuel : Nat) {s s' : DeferredHeap} {k : Nat}, Shaped bs s →
    s.destructor fuel k = some s' → Walked bs k s s' := by
  intro fuel
  induction fuel with
  | zero =>
    intro s s' k _ h
    cases h
  | succ fuel ih =>
    intro s s' k hs h
    cases hd : s.objs k with
    | none =>
      rw [DeferredHeap.destructor, hd] at h
      cases h
    | some d =>
      have hvisit := hs.visit hd
      rw [destructor_succ hs hd] at h
      cases hnext : d.next with
      | none =>
        rw [hnext] at h
        obtain rfl := Option.some.inj h
        exact ⟨hvisit, fun i hi => visit_objs_ne (Nat.ne_of_lt hi), List.prefix_append _ _,
          List.prefix_refl _⟩
      | some j =>
        rw [hnext] at h
        obtain ⟨rfl, -⟩ := hs.next hd hnext
        have hrest := ih hvisit h
        refine ⟨hrest.shaped, ?_, (List.prefix_append _ _).trans hrest.calls,
          (List.prefix_append _ _).trans hrest.ran⟩
        intro i hi
        rw [hrest.before i (by omega), visit_objs_ne (Nat.ne_of_lt hi)]

/-- Everything is right but for the object in front of `p`, whose reference is still to be dropped.
-/
structure ReleasePending (bs : List BoundCall) (p : Nat) (s : DeferredHeap) : Prop where
  calls : ∀ c ∈ s.calls, ∃ b, bs[c.id]? = some b ∧ c.passed = b.meant c.extras
  once : s.ran.Nodup
  last : ∀ j ∈ s.ran, j ≠ p → ∃ q, j = q + 1 ∧ s.objs q = none

theorem Lifecycle.pending (h : Lifecycle bs s) (p : Nat) : ReleasePending bs p s :=
  ⟨h.calls, h.once, fun j hj _ => h.last j hj⟩

/-- What follows a live object has not been run. -/
theorem ReleasePending.not_ran (h : ReleasePending bs p s) (hd : s.objs k = some d) (hp : k + 1 ≠ p) :
    k + 1 ∉ s.ran := by
  intro hmem
  obtain ⟨q, hq, hnone⟩ := h.last (k + 1) hmem hp
  obtain rfl := Nat.succ.inj hq
  rw [hd] at hnone
  cases hnone

/-- A recorded call that was right is one that may be made. -/
theorem Shaped.callOk (hs : Shaped bs s) (hd : s.objs k = some d) {calls : List DeferredCall}
    (hcalls : ∀ c ∈ calls, ∃ b, bs[c.id]? = some b ∧ c.passed = b.meant c.extras)
    (hmem : ⟨k, extras, d.passed extras⟩ ∈ calls) : CallOk d extras := by
  obtain ⟨b, hb, hmade⟩ := hs k d hd
  obtain ⟨b', hb', hpassed⟩ := hcalls _ hmem
  obtain rfl := Option.some.inj (hb.symm.trans hb')
  exact (hmade.passed_iff extras).1 hpassed

/-- The call of one turn decides whether everything is still right. -/
theorem visit_pending (hs : Shaped bs s) (h : ReleasePending bs p s) (hd : s.objs k = some d)
    (hk : k = p ∨ ∃ q, k = q + 1 ∧ s.objs q = none) (hran : k ∉ s.ran) :
    ReleasePending bs p (s.visit k d) ↔ CallOk d [] := by
  obtain ⟨b, hb, hmade⟩ := hs k d hd
  have hgone : ∀ q, s.objs q = none → (s.visit k d).objs q = none := by
    intro q hq
    have hne : q ≠ k := fun heq => by rw [heq, hd] at hq; cases hq
    rw [visit_objs_ne hne, hq]
  refine ⟨?_, ?_⟩
  · intro hpending
    exact hs.callOk hd hpending.calls (List.mem_append_right _ (List.mem_singleton.2 rfl))
  · intro hok
    refine ⟨?_, ?_, ?_⟩
    · intro c hc
      rcases List.mem_append.1 hc with hc | hc
      · exact h.calls c hc
      · obtain rfl := List.mem_singleton.1 hc
        exact ⟨b, hb, (hmade.passed_iff []).2 hok⟩
    · exact List.nodup_append.2 ⟨h.once, List.pairwise_singleton _ k, fun i hi j hj heq =>
        hran (List.mem_singleton.1 hj ▸ heq ▸ hi)⟩
    · intro j hj hne
      rcases List.mem_append.1 hj with hj | hj
      · obtain ⟨q, hq, hnone⟩ := h.last j hj hne
        exact ⟨q, hq, hgone q hnone⟩
      · obtain rfl := List.mem_singleton.1 hj
        obtain ⟨q, hq, hnone⟩ := hk.resolve_left hne
        exact ⟨q, hq, hgone q hnone⟩

theorem chainOk_congr : ∀ (fuel : Nat) {s t : DeferredHeap} {k : Nat}, Shaped bs s →
    (∀ i, k ≤ i → s.objs i = t.objs i) → (ChainOk s fuel k ↔ ChainOk t fuel k) := by
  intro fuel
  induction fuel with
  | zero =>
    intro s t k _ _
    exact Iff.rfl
  | succ fuel ih =>
    intro s t k hs heq
    unfold ChainOk
    rw [← heq k (Nat.le_refl k)]
    refine forall₂_congr fun d hd => and_congr_right fun _ => forall₂_congr fun j hj => ?_
    obtain ⟨rfl, -⟩ := hs.next hd hj
    exact and_congr_right fun _ => ih hs fun i hi => heq i (by omega)

/-- **A chain is run right** exactly when it can be. -/
theorem destructor_pending : ∀ (fuel : Nat) {s s' : DeferredHeap} {k : Nat}, Shaped bs s →
    ReleasePending bs p s → p ≤ k → (k = p ∨ ∃ q, k = q + 1 ∧ s.objs q = none) → k ∉ s.ran →
    s.destructor fuel k = some s' → (ReleasePending bs p s' ↔ ChainOk s fuel k) := by
  intro fuel
  induction fuel with
  | zero =>
    intro s s' k _ _ _ _ _ h
    cases h
  | succ fuel ih =>
    intro s s' k hs hpending hp hk hran h
    cases hd : s.objs k with
    | none =>
      rw [DeferredHeap.destructor, hd] at h
      cases h
    | some d =>
      have hvisit := hs.visit hd
      have hcall := visit_pending hs hpending hd hk hran
      have hok : ChainOk s (fuel + 1) k ↔ CallOk d [] ∧
          ∀ j ∈ d.next, d.refCount = 1 ∧ ChainOk s fuel j := by
        rw [ChainOk]
        exact forall_mem_of_eq hd
      rw [destructor_succ hs hd] at h
      rw [hok, ← hcall]
      cases hnext : d.next with
      | none =>
        rw [hnext] at h
        obtain rfl := Option.some.inj h
        exact (and_iff_left fun j hj => by cases hj).symm
      | some j =>
        rw [hnext] at h
        obtain ⟨rfl, -⟩ := hs.next hd hnext
        have hwalked := destructor_walked fuel hvisit h
        have hran' : k + 1 ∉ (s.visit k d).ran := by
          intro hmem
          rcases List.mem_append.1 hmem with hmem | hmem
          · exact hpending.not_ran hd (by omega) hmem
          · exact absurd (List.mem_singleton.1 hmem) (by omega)
        have hrest (hvisited : ReleasePending bs p (s.visit k d)) (hrefs : d.refCount = 1) :
            ReleasePending bs p s' ↔ ChainOk s fuel (k + 1) := by
          have hgone := (visit_objs_eq_none s k d).2 hrefs
          rw [ih hvisit hvisited (by omega) (Or.inr ⟨k, rfl, hgone⟩) hran' h]
          exact (chainOk_congr fuel hs fun i hi => (visit_objs_ne (by omega)).symm).symm
        rw [forall_mem_of_eq rfl]
        refine ⟨?_, ?_⟩
        · intro hpending'
          have hvisited : ReleasePending bs p (s.visit k d) := hcall.2 <| hs.callOk hd hpending'.calls <|
            hwalked.calls.subset (List.mem_append_right _ (List.mem_singleton.2 rfl))
          -- the object that was run next shows that nothing is left of this one
          have hmem : k + 1 ∈ s'.ran :=
            hwalked.ran.subset (List.mem_append_right _ (List.mem_singleton.2 rfl))
          obtain ⟨q, hq, hnone⟩ := hpending'.last (k + 1) hmem (by omega)
          obtain rfl := Nat.succ.inj hq
          rw [hwalked.before k (Nat.lt_succ_self k)] at hnone
          have hrefs := (visit_objs_eq_none s k d).1 hnone
          exact ⟨hvisited, hrefs, (hrest hvisited hrefs).1 hpending'⟩
        · rintro ⟨hvisited, hrefs, hchain⟩
          exact (hrest hvisited hrefs).2 hchain

/-! ## Steps -/

theorem free_eq (hd : s.objs k = some d) :
    s.free n k = (d.next.elim (some s) (s.destructor n)).bind fun t => t.release k := by
  rw [DeferredHeap.free, hd]
  rfl

/-- The object that a reference is taken of, when the chain behind it has been run. -/
theorem release_lifecycle (hs : Shaped bs s) (hd : s.objs k = some d) (hwalked : Walked bs j s t)
    (hnext : d.next = some j) (hstep : t.release k = some s') :
    Lifecycle bs s' ↔ d.refCount = 1 ∧ ReleasePending bs j t := by
  obtain ⟨rfl, -⟩ := hs.next hd hnext
  have hd' : t.objs k = some d := (hwalked.before k (Nat.lt_succ_self k)).trans hd
  rw [release_eq hd'] at hstep
  obtain rfl := Option.some.inj hstep
  have hmem : k + 1 ∈ t.ran :=
    hwalked.ran.subset (List.mem_append_right _ (List.mem_singleton.2 rfl))
  refine ⟨?_, ?_⟩
  · intro hlife
    refine ⟨?_, hlife.calls, hlife.once, ?_⟩
    · obtain ⟨q, hq, hnone⟩ := hlife.last (k + 1) hmem
      obtain rfl := Nat.succ.inj hq
      rw [set_objs] at hnone
      by_contra hne
      rw [if_neg hne] at hnone
      cases hnone
    · intro i hi hne
      obtain ⟨q, rfl, hnone⟩ := hlife.last i hi
      rw [set_objs_ne t _ (by omega)] at hnone
      exact ⟨q, rfl, hnone⟩
  · rintro ⟨hrefs, hpending⟩
    refine ⟨hpending.calls, hpending.once, ?_⟩
    intro i hi
    by_cases hne : i = k + 1
    · refine ⟨k, hne, ?_⟩
      rw [set_objs, if_pos hrefs]
    · obtain ⟨q, rfl, hnone⟩ := hpending.last i hi hne
      refine ⟨q, rfl, ?_⟩
      rw [set_objs_ne t _ (by omega), hnone]

theorem Lifecycle.set (h : Lifecycle bs s) (hd : s.objs k = some d) (o : Option Deferred) :
    Lifecycle bs (s.set k o) := by
  refine ⟨h.calls, h.once, ?_⟩
  intro i hi
  obtain ⟨q, rfl, hnone⟩ := h.last i hi
  refine ⟨q, rfl, ?_⟩
  by_cases hq : q = k
  · rw [hq, hd] at hnone
    cases hnone
  · rw [set_objs_ne s o hq, hnone]

theorem free_iff (hs : Shaped bs s) (h : Lifecycle bs s) (hstep : s.free bs.length k = some s') :
    Lifecycle bs s' ↔ OpOk bs.length s (.free k) := by
  cases hd : s.objs k with
  | none =>
    rw [DeferredHeap.free, hd] at hstep
    cases hstep
  | some d =>
    have hok : OpOk bs.length s (.free k) ↔
        ∀ j ∈ d.next, d.refCount = 1 ∧ ChainOk s bs.length j := forall_mem_of_eq hd
    rw [free_eq hd] at hstep
    rw [hok]
    cases hnext : d.next with
    | none =>
      rw [hnext] at hstep
      have hrelease : s.release k = some s' := hstep
      rw [release_eq hd] at hrelease
      obtain rfl := Option.some.inj hrelease
      exact iff_of_true (h.set hd _) fun j hj => by cases hj
    | some j =>
      rw [hnext] at hstep
      obtain ⟨t, hwalk, hrelease⟩ := Option.bind_eq_some_iff.1 hstep
      have hwalked := destructor_walked _ hs hwalk
      obtain ⟨rfl, -⟩ := hs.next hd hnext
      have hran : k + 1 ∉ s.ran := (h.pending 0).not_ran hd (Nat.succ_ne_zero k)
      rw [release_lifecycle hs hd hwalked hnext hrelease, forall_mem_of_eq rfl,
        destructor_pending bs.length hs (h.pending (k + 1)) (Nat.le_refl _) (Or.inl rfl) hran hwalk]

theorem call_iff (hs : Shaped bs s) (h : Lifecycle bs s) (hstep : s.call k extras = some s') :
    Lifecycle bs s' ↔ OpOk bs.length s (.call k extras) := by
  cases hd : s.objs k with
  | none =>
    rw [DeferredHeap.call, hd] at hstep
    cases hstep
  | some d =>
    have hok : OpOk bs.length s (.call k extras) ↔ CallOk d extras := forall_mem_of_eq hd
    obtain ⟨b, hb, hmade⟩ := hs k d hd
    rw [hs.call_eq hd] at hstep
    obtain rfl := Option.some.inj hstep
    have hset := h.set hd (some (d.withExtras extras))
    rw [hok]
    refine ⟨?_, ?_⟩
    · intro hlife
      exact hs.callOk hd hlife.calls (List.mem_append_right _ (List.mem_singleton.2 rfl))
    · intro hcall
      refine ⟨?_, hset.once, hset.last⟩
      intro c hc
      rcases List.mem_append.1 hc with hc | hc
      · exact h.calls c hc
      · obtain rfl := List.mem_singleton.1 hc
        exact ⟨b, hb, (hmade.passed_iff extras).2 hcall⟩

theorem Made.setRefs {b : BoundCall} (h : Made b k n d) {refs : Nat} (hrefs : 0 < refs) :
    Made b k n { d with refCount := refs } :=
  ⟨h.func, h.argc, h.bound, h.length, h.behind, hrefs, h.once, h.next⟩

theorem Shaped.release (hs : Shaped bs s) (hstep : s.release k = some s') : Shaped bs s' := by
  obtain ⟨d, hd, rfl⟩ := Option.map_eq_some_iff.1 hstep
  obtain ⟨b, hb, hmade⟩ := hs k d hd
  have hrefs := hmade.refs
  refine hs.set hb ?_
  intro d' hd'
  split at hd'
  · cases hd'
  · next hne =>
    obtain rfl := Option.some.inj hd'
    exact hmade.setRefs (by omega)

theorem deferredStep_shaped (s : DeferredHeap) (op : DeferredOp) (s' : DeferredHeap)
    (hs : Shaped bs s) (hstep : deferredStep bs.length s op = some s') : Shaped bs s' := by
  cases op with
  | dup k =>
    obtain ⟨d, hd, rfl⟩ := Option.map_eq_some_iff.1 hstep
    obtain ⟨b, hb, hmade⟩ := hs k d hd
    refine hs.set hb ?_
    intro d' hd'
    obtain rfl := Option.some.inj hd'
    exact hmade.setRefs (Nat.succ_pos _)
  | free k =>
    have hfree : s.free bs.length k = some s' := hstep
    cases hd : s.objs k with
    | none =>
      rw [DeferredHeap.free, hd] at hfree
      cases hfree
    | some d =>
      rw [free_eq hd] at hfree
      obtain ⟨t, hwalk, hrelease⟩ := Option.bind_eq_some_iff.1 hfree
      cases hnext : d.next with
      | none =>
        rw [hnext] at hwalk
        obtain rfl := Option.some.inj hwalk
        exact hs.release hrelease
      | some j =>
        rw [hnext] at hwalk
        exact (destructor_walked _ hs hwalk).shaped.release hrelease
  | call k extras =>
    have hcall : s.call k extras = some s' := hstep
    obtain ⟨d, hd, -⟩ := Option.bind_eq_some_iff.1 hcall
    obtain ⟨b, hb, hmade⟩ := hs k d hd
    rw [hs.call_eq hd] at hcall
    obtain rfl := Option.some.inj hcall
    refine hs.set hb ?_
    intro d' hd'
    obtain rfl := Option.some.inj hd'
    exact hmade.withExtras extras

theorem deferredStep_iff (s : DeferredHeap) (op : DeferredOp) (s' : DeferredHeap)
    (hs : Shaped bs s) (h : Lifecycle bs s) (hstep : deferredStep bs.length s op = some s') :
    Lifecycle bs s' ↔ OpOk bs.length s op := by
  cases op with
  | dup k =>
    obtain ⟨d, hd, rfl⟩ := Option.map_eq_some_iff.1 hstep
    exact iff_of_true (h.set hd _) trivial
  | free k => exact free_iff hs h hstep
  | call k extras => exact call_iff hs h hstep

/-! ## What can fail -/

/-- The loop comes to its end when no object from `k` on is gone. -/
theorem destructor_total : ∀ (fuel : Nat) {s : DeferredHeap} {k : Nat}, Shaped bs s →
    k < bs.length → bs.length ≤ k + fuel → (∀ i, k ≤ i → i < bs.length → s.objs i ≠ none) →
    ∃ s', s.destructor fuel k = some s' := by
  intro fuel
  induction fuel with
  | zero =>
    intro s k _ hk hfuel _
    omega
  | succ fuel ih =>
    intro s k hs hk hfuel hlive
    obtain ⟨d, hd⟩ := Option.ne_none_iff_exists'.1 (hlive k (Nat.le_refl k) hk)
    rw [destructor_succ hs hd]
    cases hnext : d.next with
    | none => exact ⟨_, rfl⟩
    | some j =>
      obtain ⟨rfl, hj⟩ := hs.next hd hnext
      refine ih (hs.visit hd) hj (by omega) ?_
      intro i hi hlt
      rw [visit_objs_ne (by omega)]
      exact hlive i (by omega) hlt

/-- A step fails only on an object that has been freed, be it the object of the operation or one
behind it. -/
theorem deferredStep_total (hs : Shaped bs s) (op : DeferredOp) (hop : op.id < bs.length)
    (hlive : ∀ i, op.id ≤ i → i < bs.length → s.objs i ≠ none) :
    ∃ s', deferredStep bs.length s op = some s' := by
  obtain ⟨d, hd⟩ := Option.ne_none_iff_exists'.1 (hlive op.id (Nat.le_refl _) hop)
  cases op with
  | dup k => exact ⟨_, congrArg (Option.map _) hd⟩
  | call k extras => exact ⟨_, hs.call_eq hd extras⟩
  | free k =>
    have hk : s.objs k = some d := hd
    show ∃ s', s.free bs.length k = some s'
    rw [free_eq hk]
    cases hnext : d.next with
    | none => exact ⟨_, release_eq hk⟩
    | some j =>
      obtain ⟨rfl, hj⟩ := hs.next hk hnext
      obtain ⟨t, hwalk⟩ := destructor_total bs.length hs hj (by omega)
        fun i hi hlt => hlive i (Nat.le_of_succ_le hi) hlt
      have hd' : t.objs k = some d :=
        ((destructor_walked _ hs hwalk).before k (Nat.lt_succ_self k)).trans hk
      exact ⟨_, Option.bind_eq_some_iff.2 ⟨t, hwalk, release_eq hd'⟩⟩

/-- **When the life of a chain is in order.** Throughout a run on a chain of deferred calls no
object is run twice, none is run while the one before it is still there, and every call passes the
bound words and its own extra words, if and only if every operation of the run is one that `OpOk`
admits. A step of a run fails only on an object that has been freed. -/
theorem lifecycle_iff (bs : List BoundCall) (ops : List DeferredOp) :
    (PartialRun.Throughout (deferredStep bs.length) (Lifecycle bs) (.chain bs) ops ↔
      PartialRun.Meets (deferredStep bs.length) (OpOk bs.length) (.chain bs) ops) ∧
    ∀ (s : DeferredHeap) (op : DeferredOp),
      PartialRun.run (deferredStep bs.length) (.chain bs) ops = some s → op.id < bs.length →
      (∀ i, op.id ≤ i → i < bs.length → s.objs i ≠ none) →
      ∃ s', deferredStep bs.length s op = some s' := by
  refine ⟨PartialRun.throughout_iff_meets deferredStep_shaped deferredStep_iff ops (chain_shaped bs)
    (chain_lifecycle bs), ?_⟩
  intro s op hrun hop hlive
  exact deferredStep_total (PartialRun.run_induct deferredStep_shaped ops (chain_shaped bs) hrun) op
    hop hlive

/-- Two chained calls with one bound word each. -/
def chainOfTwo : List BoundCall := [⟨.other 1, [7], by decide⟩, ⟨.other 2, [8], by decide⟩]

/-- The second reference of the first object is dropped, and the object behind it is run. A call
without extra words passes the one of the call before it. -/
theorem lifecycle_broken :
    ¬ PartialRun.Throughout (deferredStep 2) (Lifecycle chainOfTwo) (.chain chainOfTwo)
      [.dup 0, .free 0] ∧
    ¬ PartialRun.Throughout (deferredStep 2) (Lifecycle chainOfTwo) (.chain chainOfTwo)
      [.call 0 [5], .call 0 []] := by
  refine ⟨?_, ?_⟩
  · intro h
    obtain ⟨p, hp, hnone⟩ := (h _ (List.prefix_refl _) _ rfl).last 1 (by decide)
    obtain rfl := Nat.succ.inj hp
    exact absurd hnone (by decide)
  · intro h
    obtain ⟨b, hb, hpassed⟩ := (h _ (List.prefix_refl _) _ rfl).calls
      ⟨0, [], [7, 5, 0, 0, 0, 0, 0, 0], []⟩ (by decide)
    obtain rfl := Option.some.inj hb
    exact absurd hpassed (by decide)

end QjsNet
