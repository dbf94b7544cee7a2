import QjsNet.Lib.PartialRun
import QjsNet.Lib.SharedLog
import QjsNet.LwsRing

/- The broker, a protocol that passes each message of a publisher to all subscribers
   (`minnet-plugin-broker.c`).

   Messages wait in one ring of eight elements. Each subscriber has a tail of its own into
   it, and a message is freed when the oldest tail has passed it. `broker_refines`
   says that this is a log with several readers (`Lib.SharedLog`); what the plugin
   delivers, frees and keeps follows from there.

   The ring is part of libwebsockets (`LwsRing`). A connection is named by a number. The library
   reports nothing on a connection that is not
   there, and only its end after `broker_callback` has returned -1; other events are `none`.

   Correspondence (C ↔ Lean):
     `struct broker_msg`           ↔ the bytes of the payload
     `struct broker_session`       ↔ `BrokerSession`
     `struct broker_vhost`         ↔ `Broker.ring`, `Broker.pssList`
     `broker_destroy_message`      ↔ `Broker.freed`
     `lws_callback_on_writable`    ↔ `Broker.requested`
     `lws_write`                   ↔ `Broker.sent`, and its result as the argument `m`
     `broker_callback`             ↔ `brokerStep`, `brokerInit`, `brokerDestroy` -/
namespace QjsNet

structure BrokerSession where
  tail : UInt32
  publishing : Bool
  deriving DecidableEq, Repr

/-- The ring and the list of the virtual host, the session of each connection with whether a
writable callback was asked for and whether one has failed, every payload that was allocated, every
one that was freed, and what was written to each connection. -/
structure Broker (lib : LwsRing) where
  ring : lib.Ring
  pssList : List Nat
  pss : Nat → Option BrokerSession
  requested : Nat → Bool
  failed : Nat → Bool
  allocated : List Bytes
  freed : List Bytes
  sent : Nat → List Bytes

inductive BrokerEvent where
  | established (wsi : Nat) (uri : Option String)
  | closed (wsi : Nat)
  | writeable (wsi : Nat) (m : Int)
  | receive (wsi : Nat) (data : Bytes) (oom : Bool)
  deriving DecidableEq, Repr

variable {lib : LwsRing}

/-- `LWS_CALLBACK_PROTOCOL_INIT`. -/
def brokerInit (lib : LwsRing) : Broker lib :=
  ⟨lib.create 8, [], fun _ => none, fun _ => false, fun _ => false, [], [], fun _ => []⟩

/-- The payloads freed once `LWS_CALLBACK_PROTOCOL_DESTROY` is over. -/
def brokerDestroy (s : Broker lib) : List Bytes := s.freed ++ lib.destroy s.ring

def Broker.tailOf (s : Broker lib) (wsi : Nat) : UInt32 :=
  ((s.pss wsi).map BrokerSession.tail).getD 0

/-- `LWS_CALLBACK_ESTABLISHED`. The URI is there if `lws_hdr_copy` has copied it; the session was
zeroed by the library. -/
def Broker.established (s : Broker lib) (wsi : Nat) (uri : Option String) : Broker lib :=
  let publishing := decide (uri = some "/publisher")
  { s with
    pss := Function.update s.pss wsi (some ⟨lib.oldestTail s.ring, publishing⟩)
    pssList := if !publishing then wsi :: s.pssList else s.pssList
    requested := Function.update s.requested wsi false
    failed := Function.update s.failed wsi false
    sent := Function.update s.sent wsi [] }

/-- `LWS_CALLBACK_CLOSED`. -/
def Broker.closed (s : Broker lib) (wsi : Nat) : Broker lib :=
  { s with pss := Function.update s.pss wsi none, pssList := s.pssList.erase wsi }

/-- The end of `LWS_CALLBACK_SERVER_WRITEABLE`, when `pmsg` was written. -/
def Broker.consume (s : Broker lib) (wsi : Nat) (pss : BrokerSession) (pmsg : Bytes) : Broker lib :=
  let c := lib.consume s.ring pss.tail ((s.pssList.erase wsi).map s.tailOf)
  { s with
    ring := c.ring
    pss := Function.update s.pss wsi (some { pss with tail := c.tail })
    freed := s.freed ++ c.destroyed
    sent := Function.update s.sent wsi (s.sent wsi ++ [pmsg])
    requested := Function.update s.requested wsi (lib.getElement c.ring c.tail).isSome }

/-- `m < (int)pmsg->len`, for the result `m` of `lws_write`. -/
def shortWrite (m : Int) (pmsg : Bytes) : Bool := decide (m < Int.bmod pmsg.length 4294967296)

/-- `LWS_CALLBACK_SERVER_WRITEABLE`, where `m` is the result of `lws_write`. -/
def Broker.writeable (s : Broker lib) (wsi : Nat) (pss : BrokerSession) (m : Int) : Broker lib :=
  let s := { s with requested := Function.update s.requested wsi false }
  if pss.publishing then s
  else
    match lib.getElement s.ring pss.tail with
    | none => s
    | some pmsg =>
      if shortWrite m pmsg then { s with failed := Function.update s.failed wsi true }
      else s.consume wsi pss pmsg

/-- Every subscriber in the list is to be called when it is writable. -/
def Broker.wake (s : Broker lib) : Broker lib :=
  { s with
    requested := fun wsi =>
      s.requested wsi ||
        s.pssList.contains wsi && !((s.pss wsi).map BrokerSession.publishing).getD false }

/-- `LWS_CALLBACK_RECEIVE`; `oom` is a failed `malloc`. A payload that the ring does not take is
freed. -/
def Broker.receive (s : Broker lib) (pss : BrokerSession) (data : Bytes) (oom : Bool) :
    Broker lib :=
  if !pss.publishing then s
  else if s.pssList = [] then s
  else if lib.countFree s.ring = 0 then s
  else if oom then s
  else
    match lib.insert s.ring data with
    | none => { s with allocated := s.allocated ++ [data], freed := s.freed ++ [data] }
    | some ring => ({ s with ring, allocated := s.allocated ++ [data] } : Broker lib).wake

def brokerStep (s : Broker lib) : BrokerEvent → Option (Broker lib)
  | .established wsi uri => if (s.pss wsi).isSome then none else some (s.established wsi uri)
  | .closed wsi => (s.pss wsi).map fun _ => s.closed wsi
  | .writeable wsi m =>
    (s.pss wsi).bind fun pss => if s.failed wsi then none else some (s.writeable wsi pss m)
  | .receive wsi data oom =>
    (s.pss wsi).bind fun pss => if s.failed wsi then none else some (s.receive pss data oom)

def brokerRun (s : Broker lib) (es : List BrokerEvent) : Option (Broker lib) :=
  PartialRun.run brokerStep s es

/-! ## The broker as a log with several readers -/

open SharedLog (Op)

/-- Whether a message of the connection is put into the ring. -/
def Broker.takes (s : Broker lib) (wsi : Nat) (oom : Bool) : Bool :=
  ((s.pss wsi).map BrokerSession.publishing).getD false && !s.pssList.isEmpty &&
    decide (lib.countFree s.ring ≠ 0) && !oom

/-- What the subscriber reads when its connection is writable and `lws_write` returns `m`. -/
def Broker.reads (s : Broker lib) (wsi : Nat) (m : Int) : Option Bytes :=
  (s.pss wsi).bind fun pss =>
    if pss.publishing then none
    else (lib.getElement s.ring pss.tail).filter fun pmsg => !shortWrite m pmsg

def brokerOp (s : Broker lib) : BrokerEvent → Op Bytes Nat
  | .established wsi uri => if uri = some "/publisher" then .skip else .join wsi
  | .closed wsi => .leave wsi
  | .writeable wsi m => if (s.reads wsi m).isSome then .read wsi else .skip
  | .receive wsi data oom => if s.takes wsi oom then .append data else .skip

/-- The broker is the log `a`: the ring holds what was not trimmed, and the tail of a subscriber
is as far from the end as its position. -/
structure Refines (s : Broker lib) (a : SharedLog.Log Bytes Nat) : Prop where
  held : lib.held s.ring = a.log.drop a.trimmed
  allocated : s.allocated = a.log
  freed : s.freed = a.log.take a.trimmed
  list : s.pssList = a.readers
  session : ∀ wsi pss, s.pss wsi = some pss → (pss.publishing = false ↔ wsi ∈ a.readers)
  live : ∀ wsi ∈ a.readers, (s.pss wsi).isSome
  tail : ∀ wsi ∈ a.readers, lib.Tail s.ring (s.tailOf wsi)
  waiting : ∀ wsi ∈ a.readers, lib.countWaiting s.ring (s.tailOf wsi) + a.pos wsi = a.log.length
  sent : ∀ wsi ∈ a.readers, s.sent wsi = a.window wsi
  size : lib.size s.ring ≤ 8

variable {s t : Broker lib} {a : SharedLog.Log Bytes Nat} {wsi : Nat} {pss : BrokerSession}

theorem init_refines : Refines (brokerInit lib) .empty := by
  constructor <;> simp [brokerInit, SharedLog.Log.empty, lib.held_create, lib.size_create]

theorem Refines.length_held (h : Refines s a) :
    (lib.held s.ring).length = a.log.length - a.trimmed := by
  rw [h.held, List.length_drop]

theorem tailOf_of_some (h : s.pss wsi = some pss) : s.tailOf wsi = pss.tail := by
  simp [Broker.tailOf, h]

theorem Refines.element (h : Refines s a) (ha : SharedLog.Valid a) (hr : wsi ∈ a.readers) :
    lib.getElement s.ring (s.tailOf wsi) = a.log[a.pos wsi]? := by
  have hw := h.waiting wsi hr
  have hb := ha.behind wsi hr
  rw [lib.element _ _ (h.tail wsi hr), h.length_held, h.held, List.getElem?_drop]
  congr 1
  omega

theorem Refines.established (h : Refines s a) (ha : SharedLog.Valid a) (hnew : s.pss wsi = none)
    (uri : Option String) :
    Refines (s.established wsi uri) (a.apply (brokerOp s (.established wsi uri))) := by
  have hnot : wsi ∉ a.readers := by
    intro hr
    have hl := h.live wsi hr
    rw [hnew] at hl
    cases hl
  have hne : ∀ q ∈ a.readers, q ≠ wsi := by
    intro q hq heq
    exact hnot (heq ▸ hq)
  by_cases huri : uri = some "/publisher"
  · -- A publisher is in no list.
    simp only [brokerOp, huri, if_true, SharedLog.Log.apply]
    refine ⟨h.held, h.allocated, h.freed, by simpa [Broker.established] using h.list,
      ?_, ?_, ?_, ?_,
      ?_, h.size⟩
    · intro q p hq
      by_cases hqw : q = wsi
      · subst hqw
        simp only [Broker.established, Function.update_self, Option.some.injEq] at hq
        subst hq
        simp [hnot]
      · exact h.session q p (by simpa [Broker.established, hqw] using hq)
    all_goals
      intro q hq
      have hqw := hne q hq
    · simpa [Broker.established, hqw] using h.live q hq
    · simpa [Broker.established, Broker.tailOf, hqw] using h.tail q hq
    · simpa [Broker.established, Broker.tailOf, hqw] using h.waiting q hq
    · simpa [Broker.established, hqw] using h.sent q hq
  · simp only [brokerOp, huri, if_false]
    have hlen := h.length_held
    have hle := ha.trimmed_le
    refine ⟨h.held, h.allocated, h.freed, ?_, ?_, ?_, ?_, ?_, ?_, h.size⟩
    · simp [Broker.established, huri, SharedLog.Log.apply, h.list]
    · intro q p hq
      by_cases hqw : q = wsi
      · subst hqw
        simp only [Broker.established, Function.update_self, Option.some.injEq] at hq
        subst hq
        simp [SharedLog.Log.apply, huri]
      · have hs := h.session q p (by simpa [Broker.established, hqw] using hq)
        simpa [SharedLog.Log.apply, hqw] using hs
    all_goals
      intro q hq
      rcases List.mem_cons.1 hq with rfl | hq
    · simp [Broker.established]
    · simpa [Broker.established, hne q hq] using h.live q hq
    · simpa [Broker.established, Broker.tailOf] using lib.tail_oldest s.ring
    · simpa [Broker.established, Broker.tailOf, hne q hq] using h.tail q hq
    · simp only [Broker.established, Broker.tailOf, SharedLog.Log.apply, Function.update_self,
        Option.map_some, Option.getD_some, lib.waiting_oldest]
      omega
    · simpa [Broker.established, Broker.tailOf, SharedLog.Log.apply, hne q hq] using h.waiting q hq
    · rw [SharedLog.window_join]
      simp [Broker.established]
    · rw [SharedLog.window_join_of_ne (hne q hq)]
      simpa [Broker.established, hne q hq] using h.sent q hq

theorem Refines.closed (h : Refines s a) (ha : SharedLog.Valid a) (wsi : Nat) :
    Refines (s.closed wsi) (a.apply (.leave wsi)) := by
  have hmem : ∀ q, q ∈ a.readers.erase wsi ↔ q ≠ wsi ∧ q ∈ a.readers :=
    fun q => ha.nodup.mem_erase_iff
  refine ⟨h.held, h.allocated, h.freed, ?_, ?_, ?_, ?_, ?_, ?_, h.size⟩
  · simp [Broker.closed, SharedLog.Log.apply, h.list]
  · intro q p hq
    have hqw : q ≠ wsi := by
      rintro rfl
      simp [Broker.closed] at hq
    have hs := h.session q p (by simpa [Broker.closed, hqw] using hq)
    rw [hs]
    simp [SharedLog.Log.apply, hmem, hqw]
  all_goals
    intro q hq
    obtain ⟨hqw, hq⟩ := (hmem q).1 hq
  · simpa [Broker.closed, hqw] using h.live q hq
  · simpa [Broker.closed, Broker.tailOf, hqw] using h.tail q hq
  · simpa [Broker.closed, Broker.tailOf, SharedLog.Log.apply, hqw] using h.waiting q hq
  · exact h.sent q hq

theorem Refines.insert (h : Refines s a) (ha : SharedLog.Valid a) {data : Bytes} {ring : lib.Ring}
    (hfree : lib.countFree s.ring ≠ 0) (hring : lib.insert s.ring data = some ring) :
    Refines ({ s with ring, allocated := s.allocated ++ [data] } : Broker lib).wake
      (a.apply (.append data)) := by
  obtain ⟨r', hr', hheld, hsize, htails⟩ := lib.insert_some s.ring data hfree
  cases hring.symm.trans hr'
  refine ⟨?_, ?_, ?_, h.list, h.session, h.live, ?_, ?_, ?_, hsize ▸ h.size⟩
  · calc lib.held ring = lib.held s.ring ++ [data] := hheld
      _ = a.log.drop a.trimmed ++ [data] := by rw [h.held]
      _ = (a.log ++ [data]).drop a.trimmed := (List.drop_append_of_le_length ha.trimmed_le).symm
  · simp [Broker.wake, SharedLog.Log.apply, h.allocated]
  · simp only [Broker.wake, SharedLog.Log.apply]
    rw [List.take_append_of_le_length ha.trimmed_le, h.freed]
  all_goals intro q hq
  · exact (htails _ (h.tail q hq)).1
  · have hw := h.waiting q hq
    have hnew := (htails _ (h.tail q hq)).2
    simp only [SharedLog.Log.apply, List.length_append, List.length_singleton]
    change lib.countWaiting ring (s.tailOf q) + a.pos q = _
    omega
  · rw [ha.window_append hq]
    exact h.sent q hq

/-- How far the oldest tail moves when a subscriber consumes an element. -/
theorem Refines.keep (h : Refines s a) (ha : SharedLog.Valid a) (hr : wsi ∈ a.readers)
    (hlt : a.pos wsi < a.log.length) :
    (if lib.countWaiting s.ring (s.tailOf wsi) = (lib.held s.ring).length then
      ((s.pssList.erase wsi).map s.tailOf).foldr (fun u m => max (lib.countWaiting s.ring u) m)
        (lib.countWaiting s.ring (s.tailOf wsi) - 1)
      else (lib.held s.ring).length) = a.log.length - (a.advance wsi).trimmed := by
  have hw := h.waiting wsi hr
  have hb := ha.behind wsi hr
  have hlen := h.length_held
  by_cases hend : a.pos wsi = a.trimmed
  · have hcond : lib.countWaiting s.ring (s.tailOf wsi) = (lib.held s.ring).length := by omega
    have htrim : (a.advance wsi).trimmed =
        SharedLog.slowest (a.advance wsi).pos ((a.advance wsi).pos wsi) a.readers := by
      simp [SharedLog.Log.advance, hend]
    have hothers : ∀ q ∈ a.readers.erase wsi,
        lib.countWaiting s.ring (s.tailOf q) + (a.advance wsi).pos q = a.log.length := by
      intro q hq
      obtain ⟨hne, hq⟩ := ha.nodup.mem_erase_iff.1 hq
      rw [SharedLog.advance_pos_of_ne hne]
      exact h.waiting q hq
    have hown : (a.advance wsi).pos wsi + (lib.countWaiting s.ring (s.tailOf wsi) - 1) =
        a.log.length := by
      rw [SharedLog.advance_pos_self]
      omega
    have hsum := SharedLog.slowest_add_most hown hothers
    rw [SharedLog.slowest_erase (Nat.le_refl _), ← htrim] at hsum
    rw [if_pos hcond, h.list, List.foldr_map]
    omega
  · have hcond : lib.countWaiting s.ring (s.tailOf wsi) ≠ (lib.held s.ring).length := by omega
    have htrim : (a.advance wsi).trimmed = a.trimmed := by simp [SharedLog.Log.advance, hend]
    rw [if_neg hcond, htrim, hlen]

/-- The promise of the library for a subscriber that consumes an element, in terms of the log. -/
theorem Refines.library_consumed (h : Refines s a) (ha : SharedLog.Valid a) (hr : wsi ∈ a.readers)
    (hlt : a.pos wsi < a.log.length) :
    let c := lib.consume s.ring (s.tailOf wsi) ((s.pssList.erase wsi).map s.tailOf)
    let cut := (lib.held s.ring).length - (a.log.length - (a.advance wsi).trimmed)
    c.destroyed = (lib.held s.ring).take cut ∧ lib.held c.ring = (lib.held s.ring).drop cut ∧
    lib.size c.ring = lib.size s.ring ∧ lib.Tail c.ring c.tail ∧
    lib.countWaiting c.ring c.tail = lib.countWaiting s.ring (s.tailOf wsi) - 1 ∧
    ∀ u, lib.Tail s.ring u → lib.countWaiting s.ring u ≤ a.log.length - (a.advance wsi).trimmed →
      lib.Tail c.ring u ∧ lib.countWaiting c.ring u = lib.countWaiting s.ring u := by
  have hw := h.waiting wsi hr
  have hothers : ∀ u ∈ (s.pssList.erase wsi).map s.tailOf, lib.Tail s.ring u := by
    intro u hu
    obtain ⟨q, hq, rfl⟩ := List.mem_map.1 hu
    exact h.tail q (h.list ▸ List.mem_of_mem_erase hq)
  have hpromise := lib.consumed s.ring (s.tailOf wsi) _ (h.tail wsi hr) (by omega) hothers
  simp only [h.keep ha hr hlt] at hpromise
  exact hpromise

/-- The ring goes on from the trimmed end, and what was trimmed is freed. -/
theorem Refines.ring_consumed (h : Refines s a) (ha : SharedLog.Valid a) (hr : wsi ∈ a.readers)
    (hlt : a.pos wsi < a.log.length) :
    let c := lib.consume s.ring (s.tailOf wsi) ((s.pssList.erase wsi).map s.tailOf)
    lib.held c.ring = a.log.drop (a.advance wsi).trimmed ∧
      s.freed ++ c.destroyed = a.log.take (a.advance wsi).trimmed := by
  intro c
  obtain ⟨hfreed, hheld, -⟩ := h.library_consumed ha hr hlt
  have hlen := h.length_held
  have hup := (ha.trimmed_advance hr).1
  have hadm : SharedLog.Admissible a (.read wsi) := ⟨hr, hlt⟩
  have hlow : (a.advance wsi).trimmed ≤ a.log.length := (ha.apply hadm).trimmed_le
  have hcut : (lib.held s.ring).length - (a.log.length - (a.advance wsi).trimmed) =
      (a.advance wsi).trimmed - a.trimmed := by omega
  have hsplit : a.trimmed + ((a.advance wsi).trimmed - a.trimmed) = (a.advance wsi).trimmed := by
    omega
  rw [hcut, h.held] at hfreed hheld
  refine ⟨?_, ?_⟩
  · rw [hheld, List.drop_drop, hsplit]
  · rw [hfreed, h.freed, ← List.take_add, hsplit]

theorem consume_tailOf (hpss : s.pss wsi = some pss) (pmsg : Bytes) (q : Nat) :
    (s.consume wsi pss pmsg).tailOf q =
      if q = wsi then
        (lib.consume s.ring (s.tailOf wsi) ((s.pssList.erase wsi).map s.tailOf)).tail
      else s.tailOf q := by
  have htail := tailOf_of_some hpss
  by_cases hqw : q = wsi
  · subst hqw
    rw [if_pos rfl, htail]
    simp [Broker.consume, Broker.tailOf]
  · rw [if_neg hqw]
    simp [Broker.consume, Broker.tailOf, hqw]

/-- Every subscriber's tail is as far from the end as its position was, or its next one. -/
theorem Refines.tails_consumed (h : Refines s a) (ha : SharedLog.Valid a)
    (hpss : s.pss wsi = some pss) (hr : wsi ∈ a.readers) (hlt : a.pos wsi < a.log.length)
    (pmsg : Bytes) {q : Nat} (hq : q ∈ a.readers) :
    let c := lib.consume s.ring (s.tailOf wsi) ((s.pssList.erase wsi).map s.tailOf)
    let tail := (s.consume wsi pss pmsg).tailOf q
    lib.Tail c.ring tail ∧
      lib.countWaiting c.ring tail + (a.advance wsi).pos q = a.log.length := by
  intro c tail
  obtain ⟨-, -, -, hown, hcount, hkept⟩ := h.library_consumed ha hr hlt
  have hw := h.waiting q hq
  by_cases hqw : q = wsi
  · subst hqw
    have htail : tail = c.tail := (consume_tailOf hpss pmsg q).trans (if_pos rfl)
    rw [htail, SharedLog.advance_pos_self]
    refine ⟨hown, ?_⟩
    change lib.countWaiting c.ring c.tail = _ at hcount
    omega
  · have htail : tail = s.tailOf q := (consume_tailOf hpss pmsg q).trans (if_neg hqw)
    have hbehind := (ha.trimmed_advance hr).2 q hq
    rw [SharedLog.advance_pos_of_ne hqw] at hbehind
    obtain ⟨hsame, hwaiting⟩ := hkept _ (h.tail q hq) (by omega)
    rw [htail, SharedLog.advance_pos_of_ne hqw]
    refine ⟨hsame, ?_⟩
    change lib.countWaiting c.ring _ = _ at hwaiting
    omega

theorem Refines.consume (h : Refines s a) (ha : SharedLog.Valid a) (hpss : s.pss wsi = some pss)
    (hr : wsi ∈ a.readers) {pmsg : Bytes} (hmsg : a.log[a.pos wsi]? = some pmsg) :
    Refines (s.consume wsi pss pmsg) (a.apply (.read wsi)) := by
  have hlt : a.pos wsi < a.log.length := (List.getElem?_eq_some_iff.1 hmsg).1
  obtain ⟨hheld, hfreed⟩ := h.ring_consumed ha hr hlt
  obtain ⟨-, -, hsize, -⟩ := h.library_consumed ha hr hlt
  have htails := fun q (hq : q ∈ a.readers) => h.tails_consumed ha hpss hr hlt pmsg hq
  simp only [tailOf_of_some hpss] at hheld hfreed hsize htails
  refine ⟨hheld, h.allocated, hfreed, h.list, ?_, ?_, ?_, ?_, ?_, ?_⟩
  · intro q p hq
    by_cases hqw : q = wsi
    · subst hqw
      simp only [Broker.consume, Function.update_self, Option.some.injEq] at hq
      subst hq
      exact h.session q pss hpss
    · exact h.session q p (by simpa [Broker.consume, hqw] using hq)
  · intro q hq
    by_cases hqw : q = wsi
    · simp [Broker.consume, hqw]
    · simpa [Broker.consume, hqw] using h.live q hq
  · exact fun q hq => (htails q hq).1
  · exact fun q hq => (htails q hq).2
  · intro q hq
    by_cases hqw : q = wsi
    · subst hqw
      rw [ha.read_window hr hmsg, ← h.sent q hr]
      simp [Broker.consume]
    · rw [SharedLog.window_read_of_ne hqw]
      simpa [Broker.consume, hqw] using h.sent q hq
  · exact Nat.le_trans (Nat.le_of_eq hsize) h.size

theorem Refines.flags (h : Refines s a) (requested failed : Nat → Bool) :
    Refines { s with requested, failed } a :=
  ⟨h.held, h.allocated, h.freed, h.list, h.session, h.live, h.tail, h.waiting, h.sent, h.size⟩

theorem Refines.writeable (h : Refines s a) (ha : SharedLog.Valid a) (hpss : s.pss wsi = some pss)
    (m : Int) : SharedLog.Admissible a (brokerOp s (.writeable wsi m)) ∧
      Refines (s.writeable wsi pss m) (a.apply (brokerOp s (.writeable wsi m))) := by
  have hflags := h.flags (Function.update s.requested wsi false)
  cases hpub : pss.publishing with
  | true =>
    have hop : brokerOp s (.writeable wsi m) = .skip := by simp [brokerOp, Broker.reads, hpss, hpub]
    have hs : s.writeable wsi pss m =
        { s with requested := Function.update s.requested wsi false } := by
      simp [Broker.writeable, hpub]
    rw [hop, hs]
    exact ⟨trivial, hflags s.failed⟩
  | false =>
    have hr : wsi ∈ a.readers := (h.session wsi pss hpss).1 hpub
    cases helem : lib.getElement s.ring pss.tail with
    | none =>
      have hop : brokerOp s (.writeable wsi m) = .skip := by
        simp [brokerOp, Broker.reads, hpss, hpub, helem]
      have hs : s.writeable wsi pss m =
          { s with requested := Function.update s.requested wsi false } := by
        simp [Broker.writeable, hpub, helem]
      rw [hop, hs]
      exact ⟨trivial, hflags s.failed⟩
    | some pmsg =>
      have hmsg : a.log[a.pos wsi]? = some pmsg := by
        rw [← h.element ha hr, tailOf_of_some hpss, helem]
      have hreads : s.reads wsi m = if !shortWrite m pmsg then some pmsg else none := by
        simp only [Broker.reads, hpss, hpub, helem, Option.bind_some, Bool.false_eq_true, if_false]
        rw [Option.filter_some]
      cases hm : shortWrite m pmsg with
      | true =>
        have hnone : s.reads wsi m = none := by rw [hreads, hm]; rfl
        have hop : brokerOp s (.writeable wsi m) = .skip := by simp [brokerOp, hnone]
        rw [hop]
        refine ⟨trivial, ?_⟩
        simpa [Broker.writeable, hpub, helem, hm, SharedLog.Log.apply] using
          hflags (Function.update s.failed wsi true)
      | false =>
        have hsome : s.reads wsi m = some pmsg := by rw [hreads, hm]; rfl
        have hop : brokerOp s (.writeable wsi m) = .read wsi := by simp [brokerOp, hsome]
        rw [hop]
        refine ⟨⟨hr, (List.getElem?_eq_some_iff.1 hmsg).1⟩, ?_⟩
        have hs := (hflags s.failed).consume ha hpss hr hmsg
        simpa [Broker.writeable, hpub, helem, hm] using hs

theorem Refines.receive (h : Refines s a) (ha : SharedLog.Valid a) (hpss : s.pss wsi = some pss)
    (data : Bytes) (oom : Bool) :
    Refines (s.receive pss data oom) (a.apply (brokerOp s (.receive wsi data oom))) := by
  cases htakes : s.takes wsi oom with
  | false =>
    have hs : s.receive pss data oom = s := by
      simp only [Broker.takes, hpss, Option.map_some, Option.getD_some] at htakes
      unfold Broker.receive
      split_ifs <;> simp_all
    simpa [brokerOp, htakes, hs, SharedLog.Log.apply] using h
  | true =>
    simp only [Broker.takes, hpss, Option.map_some, Option.getD_some, Bool.and_eq_true,
      Bool.not_eq_true', List.isEmpty_eq_false_iff, decide_eq_true_eq] at htakes
    obtain ⟨⟨⟨hpub, hlist⟩, hfree⟩, hoom⟩ := htakes
    obtain ⟨ring, hring, -⟩ := lib.insert_some s.ring data hfree
    have hop : brokerOp s (.receive wsi data oom) = .append data := by
      simp [brokerOp, Broker.takes, hpss, hpub, hlist, hfree, hoom]
    have hs : s.receive pss data oom =
        ({ s with ring, allocated := s.allocated ++ [data] } : Broker lib).wake := by
      simp [Broker.receive, hpub, hlist, hfree, hoom, hring]
    rw [hop, hs]
    exact h.insert ha hfree hring

/-- **What the broker does is an operation of the log**, and one that the log admits. -/
theorem step_refines (h : Refines s a) (ha : SharedLog.Valid a) {e : BrokerEvent}
    (hstep : brokerStep s e = some t) :
    SharedLog.Admissible a (brokerOp s e) ∧ Refines t (a.apply (brokerOp s e)) := by
  cases e with
  | established wsi uri =>
    cases hpss : s.pss wsi with
    | some pss => simp [brokerStep, hpss] at hstep
    | none =>
      have hs : s.established wsi uri = t := by simpa [brokerStep, hpss] using hstep
      refine ⟨?_, hs ▸ h.established ha hpss uri⟩
      by_cases huri : uri = some "/publisher"
      · simp [brokerOp, huri, SharedLog.Admissible]
      · simp only [brokerOp, huri, if_false]
        intro hr
        have hl := h.live wsi hr
        rw [hpss] at hl
        cases hl
  | closed wsi =>
    obtain ⟨pss, -, hs⟩ := Option.map_eq_some_iff.1 hstep
    exact ⟨trivial, hs ▸ h.closed ha wsi⟩
  | writeable wsi m =>
    obtain ⟨pss, hpss, hs⟩ := Option.bind_eq_some_iff.1 hstep
    cases hf : s.failed wsi with
    | true => simp [hf] at hs
    | false =>
      have hs' : s.writeable wsi pss m = t := by simpa [hf] using hs
      exact hs' ▸ h.writeable ha hpss m
  | receive wsi data oom =>
    obtain ⟨pss, hpss, hs⟩ := Option.bind_eq_some_iff.1 hstep
    cases hf : s.failed wsi with
    | true => simp [hf] at hs
    | false =>
      have hs' : s.receive pss data oom = t := by simpa [hf] using hs
      refine ⟨?_, hs' ▸ h.receive ha hpss data oom⟩
      cases htakes : s.takes wsi oom <;> simp [brokerOp, htakes, SharedLog.Admissible]

/-- The broker is some log. -/
def Modelled (s : Broker lib) : Prop := ∃ a, SharedLog.Valid a ∧ Refines s a

theorem step_modelled (h : Modelled s) {e : BrokerEvent} (hstep : brokerStep s e = some t) :
    Modelled t := by
  obtain ⟨a, ha, hr⟩ := h
  obtain ⟨hadm, hr'⟩ := step_refines hr ha hstep
  exact ⟨_, ha.apply hadm, hr'⟩

theorem run_modelled {es : List BrokerEvent} (hrun : brokerRun (brokerInit lib) es = some t) :
    Modelled t :=
  PartialRun.run_induct (fun _ _ _ hs hstep => step_modelled hs hstep) es
    ⟨_, SharedLog.empty_valid, init_refines⟩ hrun

/-! ## What subscribers are sent -/

/-- The messages in the ring that were not written to the subscriber. -/
def Broker.unsent (s : Broker lib) (wsi : Nat) : List Bytes :=
  (lib.held s.ring).drop ((lib.held s.ring).length - lib.countWaiting s.ring (s.tailOf wsi))

theorem Refines.unsent (h : Refines s a) (ha : SharedLog.Valid a) (hr : wsi ∈ a.readers) :
    s.unsent wsi = a.log.drop (a.pos wsi) := by
  have hw := h.waiting wsi hr
  have hb := ha.behind wsi hr
  rw [Broker.unsent, h.length_held, h.held, List.drop_drop]
  congr 1
  omega

theorem Refines.freed_length (h : Refines s a) (ha : SharedLog.Valid a) :
    s.freed.length = a.trimmed := by
  rw [h.freed, List.length_take_of_le ha.trimmed_le]

theorem Refines.destroy (h : Refines s a) : brokerDestroy s = s.allocated := by
  rw [brokerDestroy, lib.destroyed, h.freed, h.held, h.allocated, List.take_append_drop]

/-- The subscriber is connected, and its messages start `n` messages into the log. -/
def Subscribed (wsi n : Nat) (s : Broker lib) : Prop :=
  ∃ a, SharedLog.Valid a ∧ Refines s a ∧ wsi ∈ a.readers ∧ a.since wsi = n

theorem step_subscribed {n : Nat} (h : Subscribed wsi n s) {e : BrokerEvent} (he : e ≠ .closed wsi)
    (hstep : brokerStep s e = some t) : Subscribed wsi n t := by
  obtain ⟨a, ha, href, hr, hsince⟩ := h
  obtain ⟨hadm, href'⟩ := step_refines href ha hstep
  have hleave : brokerOp s e ≠ .leave wsi := by
    cases e with
    | closed q =>
      intro heq
      cases heq
      exact he rfl
    | established q uri => simp only [brokerOp]; split <;> simp
    | writeable q m => simp only [brokerOp]; split <;> simp
    | receive q data oom => simp only [brokerOp]; split <;> simp
  obtain ⟨hr', hsince'⟩ := SharedLog.apply_since hr hadm hleave
  exact ⟨_, ha.apply hadm, href', hr', hsince'.trans hsince⟩

theorem run_subscribed {n : Nat} {es : List BrokerEvent} (hclosed : .closed wsi ∉ es) :
    ∀ {s t : Broker lib}, Subscribed wsi n s → brokerRun s es = some t → Subscribed wsi n t := by
  induction es with
  | nil =>
    intro s t h hrun
    cases hrun
    exact h
  | cons e es ih =>
    intro s t h hrun
    obtain ⟨s', hstep, hrest⟩ := PartialRun.run_cons_iff.1 hrun
    have he : e ≠ .closed wsi := by
      rintro rfl
      exact hclosed List.mem_cons_self
    exact ih (fun hmem => hclosed (List.mem_cons_of_mem e hmem)) (step_subscribed h he hstep) hrest

theorem established_subscribed (h : Modelled s) {uri : Option String}
    (huri : uri ≠ some "/publisher")
    (hstep : brokerStep s (.established wsi uri) = some t) : Subscribed wsi s.freed.length t := by
  obtain ⟨a, ha, href⟩ := h
  obtain ⟨hadm, href'⟩ := step_refines href ha hstep
  have hop : brokerOp s (.established wsi uri) = .join wsi := by simp [brokerOp, huri]
  rw [hop] at hadm href'
  refine ⟨_, ha.apply hadm, href', List.mem_cons_self, ?_⟩
  rw [href.freed_length ha]
  simp [SharedLog.Log.apply]

/-- **A subscriber is sent, in order and each one once, the messages from the oldest that is in the
ring when it connects**: what was written to it and what still waits for it are together all
messages accepted from there on. Every payload is freed exactly once, in order, the last ones with
the ring, and none that still waits for a subscriber. -/
theorem broker_delivers {pre post : List BrokerEvent} {uri : Option String}
    (hpre : brokerRun (brokerInit lib) pre = some s) (huri : uri ≠ some "/publisher")
    (hpost : brokerRun s (.established wsi uri :: post) = some t) (hopen : .closed wsi ∉ post) :
    t.sent wsi ++ t.unsent wsi = t.allocated.drop s.freed.length ∧
      t.freed ++ lib.held t.ring = t.allocated ∧ brokerDestroy t = t.allocated := by
  obtain ⟨s', hstep, hrest⟩ := PartialRun.run_cons_iff.1 hpost
  obtain ⟨a, ha, href, hr, hsince⟩ :=
    run_subscribed hopen (established_subscribed (run_modelled hpre) huri hstep) hrest
  refine ⟨?_, ?_, href.destroy⟩
  · rw [href.sent wsi hr, href.unsent ha hr, ha.window_rest hr, hsince, href.allocated]
  · rw [href.freed, href.held, List.take_append_drop, href.allocated]

/-- A subscriber and a publisher with one message. -/
def published : List BrokerEvent :=
  [.established 0 none, .established 1 (some "/publisher"), .receive 1 [7] false]

theorem broker_delivers_two : ∃ s t : Broker byteRing,
    brokerRun (brokerInit byteRing) published = some s ∧
    brokerRun s [.established 2 none, .writeable 2 1, .receive 1 [8] false] = some t ∧
    t.sent 2 = [[7]] ∧ t.unsent 2 = [[8]] ∧
    (t.sent 2 ++ t.unsent 2 = t.allocated.drop s.freed.length ∧
      t.freed ++ byteRing.held t.ring = t.allocated ∧ brokerDestroy t = t.allocated) :=
  ⟨_, _, rfl, rfl, rfl, rfl,
    @broker_delivers byteRing _ _ 2 published [.writeable 2 1, .receive 1 [8] false] none rfl
      (by decide) rfl (by decide)⟩

/-! ## Messages that stay in the ring -/

/-- Some subscriber has its tail at the oldest element, if the ring holds any. -/
def Broker.Drains (s : Broker lib) : Prop :=
  lib.held s.ring = [] ∨
    ∃ wsi ∈ s.pssList, lib.countWaiting s.ring (s.tailOf wsi) =
      lib.countWaiting s.ring (lib.oldestTail s.ring)

/-- The event is the end of a connection, and all subscribers that are left have read the oldest
element of the ring. -/
def Broker.Strands (s : Broker lib) : BrokerEvent → Prop
  | .closed wsi =>
    lib.held s.ring ≠ [] ∧
      ∀ q ∈ s.pssList.erase wsi, lib.countWaiting s.ring (s.tailOf q) ≠
        lib.countWaiting s.ring (lib.oldestTail s.ring)
  | _ => False

theorem Refines.oldest_iff (h : Refines s a) (ha : SharedLog.Valid a) (hr : wsi ∈ a.readers) :
    lib.countWaiting s.ring (s.tailOf wsi) = lib.countWaiting s.ring (lib.oldestTail s.ring) ↔
      a.pos wsi = a.trimmed := by
  have hw := h.waiting wsi hr
  have hb := ha.behind wsi hr
  have hlen := h.length_held
  have hle := ha.ahead wsi hr
  rw [lib.waiting_oldest]
  omega

theorem Refines.held_nil_iff (h : Refines s a) (ha : SharedLog.Valid a) :
    lib.held s.ring = [] ↔ a.trimmed = a.log.length := by
  have hlen := h.length_held
  have hle := ha.trimmed_le
  rw [← List.length_eq_zero_iff]
  omega

theorem Refines.drains_iff (h : Refines s a) (ha : SharedLog.Valid a) :
    s.Drains ↔ SharedLog.Anchored a := by
  unfold Broker.Drains SharedLog.Anchored
  rw [h.list]
  exact or_congr (h.held_nil_iff ha)
    (exists_congr fun q => and_congr_right fun hq => h.oldest_iff ha hq)

theorem takes_pssList {oom : Bool} (h : s.takes wsi oom = true) : s.pssList ≠ [] := by
  simp only [Broker.takes, Bool.and_eq_true, Bool.not_eq_true', List.isEmpty_eq_false_iff] at h
  exact h.1.1.2

theorem Refines.strands_iff (h : Refines s a) (ha : SharedLog.Valid a) (e : BrokerEvent) :
    s.Strands e ↔ SharedLog.Strands a (brokerOp s e) := by
  cases e with
  | closed wsi =>
    simp only [Broker.Strands, brokerOp, SharedLog.Strands, h.list]
    refine and_congr (not_congr (h.held_nil_iff ha)) (forall₂_congr fun q hq => ?_)
    exact not_congr (h.oldest_iff ha (List.mem_of_mem_erase hq))
  | receive q data oom =>
    refine iff_of_false id ?_
    simp only [brokerOp]
    split
    · next htakes =>
      intro hnil
      exact takes_pssList htakes (h.list.trans hnil)
    · exact id
  | established q uri => simp only [brokerOp]; split <;> simp [Broker.Strands, SharedLog.Strands]
  | writeable q m => simp only [brokerOp]; split <;> simp [Broker.Strands, SharedLog.Strands]

/-- **The oldest element is always some subscriber's to read, exactly in the runs in which no
subscriber leaves one that all others have read**, or that nobody else is there to read. `CLOSED`
does not look for the new oldest tail. -/
theorem broker_drains_iff (es : List BrokerEvent) :
    PartialRun.Throughout brokerStep Broker.Drains (brokerInit lib) es ↔
      PartialRun.Meets brokerStep (fun s e => ¬s.Strands e) (brokerInit lib) es := by
  refine PartialRun.throughout_iff_meets (I := Modelled)
    (fun _ _ _ h hs => step_modelled h hs) ?_ es
    ⟨_, SharedLog.empty_valid, init_refines⟩ (Or.inl (lib.held_create 8))
  intro s e s' hI hP hstep
  obtain ⟨a, ha, href⟩ := hI
  obtain ⟨hadm, href'⟩ := step_refines href ha hstep
  rw [href'.drains_iff (ha.apply hadm), href.strands_iff ha e]
  exact ha.anchored_iff ((href.drains_iff ha).1 hP) hadm

/-- The event is the arrival of a subscriber. -/
def BrokerEvent.subscribes : BrokerEvent → Bool
  | .established _ uri => decide (uri ≠ some "/publisher")
  | _ => false

/-- The broker has freed `freed`, and every subscriber has read the message that is next. -/
def StuckAt (freed : List Bytes) (s : Broker lib) : Prop :=
  ∃ a, SharedLog.Valid a ∧ Refines s a ∧ SharedLog.Stuck a ∧ s.freed = freed

theorem step_stuck {freed : List Bytes} (h : StuckAt freed s) {e : BrokerEvent}
    (he : e.subscribes = false) (hstep : brokerStep s e = some t) : StuckAt freed t := by
  obtain ⟨a, ha, href, hs, hf⟩ := h
  obtain ⟨hadm, href'⟩ := step_refines href ha hstep
  have hjoin : ∀ r, brokerOp s e ≠ .join r := by
    intro r
    cases e with
    | established q uri =>
      have huri : uri = some "/publisher" := by simpa [BrokerEvent.subscribes] using he
      simp [brokerOp, huri]
    | closed q => simp [brokerOp]
    | writeable q m => simp only [brokerOp]; split <;> simp
    | receive q data oom => simp only [brokerOp]; split <;> simp
  obtain ⟨hs', htrim⟩ := SharedLog.stuck_step hs hadm hjoin
  refine ⟨_, ha.apply hadm, href', hs', ?_⟩
  rw [href'.freed, htrim, ha.take_apply, ← href.freed, hf]

theorem run_stuck {freed : List Bytes} {es : List BrokerEvent}
    (hno : ∀ e ∈ es, e.subscribes = false) :
    ∀ {s t : Broker lib}, StuckAt freed s → brokerRun s es = some t → StuckAt freed t := by
  induction es with
  | nil =>
    intro s t h hrun
    cases hrun
    exact h
  | cons e es ih =>
    intro s t h hrun
    obtain ⟨s', hstep, hrest⟩ := PartialRun.run_cons_iff.1 hrun
    exact ih (fun e' he' => hno e' (List.mem_cons_of_mem e he'))
      (step_stuck h (hno e List.mem_cons_self) hstep) hrest

/-- There is room for eight messages beside those that were freed. -/
theorem Refines.length_allocated (h : Refines s a) : s.allocated.length ≤ s.freed.length + 8 := by
  have hroom := lib.room s.ring
  have hsize := h.size
  have hsplit : s.freed ++ lib.held s.ring = s.allocated := by
    rw [h.freed, h.held, List.take_append_drop, h.allocated]
  have hlen := congrArg List.length hsplit
  rw [List.length_append] at hlen
  omega

/-- **A subscriber that leaves the others ahead of the oldest element stops the broker**: until
somebody else subscribes nothing is freed any more, whatever the others read, and no more
messages are accepted than the ring has room for; the rest is dropped. -/
theorem broker_stops {pre post : List BrokerEvent}
    (hpre : brokerRun (brokerInit lib) pre = some s) (hs : s.Strands (.closed wsi))
    (hpost : brokerRun s (.closed wsi :: post) = some t) (hno : ∀ e ∈ post, e.subscribes = false) :
    t.freed = s.freed ∧ t.allocated.length ≤ s.freed.length + 8 := by
  obtain ⟨a, ha, href⟩ := run_modelled hpre
  obtain ⟨s', hstep, hrest⟩ := PartialRun.run_cons_iff.1 hpost
  obtain ⟨hadm, href'⟩ := step_refines href ha hstep
  have hfreed : s'.freed = s.freed := by
    rw [href'.freed, href.freed]
    rfl
  have hstuck : StuckAt s.freed s' :=
    ⟨_, ha.apply hadm, href', ha.stuck_of_strands ((href.strands_iff ha _).1 hs), hfreed⟩
  obtain ⟨b, -, hrefb, -, hf⟩ := run_stuck hno hstuck hrest
  exact ⟨hf, hf ▸ hrefb.length_allocated⟩

theorem broker_stops_early : ∃ s t : Broker byteRing,
    brokerRun (brokerInit byteRing) (published ++ [.established 2 none, .writeable 2 1]) = some s ∧
    brokerRun s [.closed 0, .receive 1 [8] false, .writeable 2 1] = some t ∧
    t.sent 2 = [[7], [8]] ∧ (t.freed = s.freed ∧ t.allocated.length ≤ s.freed.length + 8) :=
  ⟨_, _, rfl, rfl, rfl,
    @broker_stops byteRing _ _ 0 (published ++ [.established 2 none, .writeable 2 1])
      [.receive 1 [8] false, .writeable 2 1] rfl (by unfold Broker.Strands; decide) rfl (by decide)⟩

/-! ## Wakeups -/

/-- Every subscriber that has a message to be sent is called when it is writable, unless a write has
failed, after which the connection ends. -/
def Broker.Woken (s : Broker lib) : Prop :=
  ∀ wsi ∈ s.pssList, s.failed wsi = false → 0 < lib.countWaiting s.ring (s.tailOf wsi) →
    s.requested wsi = true

/-- The event is the arrival of a subscriber for whom there are messages in the ring. -/
def Broker.Late (s : Broker lib) (e : BrokerEvent) : Prop :=
  e.subscribes = true ∧ 0 < lib.countWaiting s.ring (lib.oldestTail s.ring)

theorem Refines.woken_established (h : Refines s a) (hP : s.Woken) (hnew : s.pss wsi = none)
    (uri : Option String) : (s.established wsi uri).Woken ↔ ¬s.Late (.established wsi uri) := by
  have hne : ∀ q ∈ s.pssList, q ≠ wsi := by
    rintro q hq rfl
    have hl := h.live q (h.list ▸ hq)
    rw [hnew] at hl
    cases hl
  have hold : ∀ q ∈ s.pssList, (s.established wsi uri).failed q = false →
      0 < lib.countWaiting s.ring ((s.established wsi uri).tailOf q) →
        (s.established wsi uri).requested q = true := by
    intro q hq hf hw
    have hP' := hP q hq
    simp only [Broker.established, Broker.tailOf, Function.update_of_ne (hne q hq)] at hf hw ⊢
    exact hP' hf hw
  by_cases huri : uri = some "/publisher"
  · have hlist : (s.established wsi uri).pssList = s.pssList := by simp [Broker.established, huri]
    refine iff_of_true ?_ (by simp [Broker.Late, BrokerEvent.subscribes, huri])
    intro q hq
    exact hold q (hlist ▸ hq)
  · have hlist : (s.established wsi uri).pssList = wsi :: s.pssList := by
      simp [Broker.established, huri]
    have htail : (s.established wsi uri).tailOf wsi = lib.oldestTail s.ring := by
      simp [Broker.established, Broker.tailOf]
    simp only [Broker.Late, BrokerEvent.subscribes, huri, ne_eq, not_false_eq_true, decide_true,
      true_and]
    constructor
    · intro hwoken hlate
      have hreq := hwoken wsi (hlist ▸ List.mem_cons_self) (by simp [Broker.established])
        (htail ▸ hlate)
      simp [Broker.established] at hreq
    · intro hlate q hq hf hw
      rcases List.mem_cons.1 (hlist ▸ hq) with rfl | hq
      · exact absurd (htail ▸ hw) hlate
      · exact hold q hq hf hw

theorem Refines.waiting_iff (h : Refines s a) (hr : wsi ∈ a.readers) :
    0 < lib.countWaiting s.ring (s.tailOf wsi) ↔ a.pos wsi < a.log.length := by
  have hw := h.waiting wsi hr
  omega

theorem Refines.woken_iff (h : Refines s a) :
    s.Woken ↔ ∀ wsi ∈ a.readers, s.failed wsi = false → a.pos wsi < a.log.length →
      s.requested wsi = true := by
  unfold Broker.Woken
  rw [h.list]
  refine forall_congr' fun q => forall_congr' fun hq => imp_congr_right fun _ => ?_
  rw [h.waiting_iff hq]

theorem writeable_of_ne {q : Nat} (hne : q ≠ wsi) (m : Int) :
    (s.writeable wsi pss m).failed q = s.failed q ∧
      (s.writeable wsi pss m).requested q = s.requested q := by
  cases hpub : pss.publishing with
  | true => simp [Broker.writeable, hpub, hne]
  | false =>
    cases hget : lib.getElement s.ring pss.tail with
    | none => simp [Broker.writeable, hpub, hget, hne]
    | some pmsg =>
      cases hm : shortWrite m pmsg <;> simp [Broker.writeable, hpub, hget, hm, Broker.consume, hne]

theorem Refines.woken_writeable (h : Refines s a) (ha : SharedLog.Valid a) (hP : s.Woken)
    (hpss : s.pss wsi = some pss) (m : Int) : (s.writeable wsi pss m).Woken := by
  obtain ⟨hadm, href⟩ := h.writeable ha hpss m
  rw [href.woken_iff]
  rw [h.woken_iff] at hP
  have hreaders : (a.apply (brokerOp s (.writeable wsi m))).readers = a.readers := by
    simp only [brokerOp]
    split <;> rfl
  have hlog : (a.apply (brokerOp s (.writeable wsi m))).log = a.log := by
    simp only [brokerOp]
    split <;> rfl
  intro q hq hf hlt
  rw [hreaders] at hq
  rw [hlog] at hlt
  by_cases hqw : q = wsi
  · subst hqw
    have hpub : pss.publishing = false := (h.session q pss hpss).2 hq
    have helem := h.element ha hq
    rw [tailOf_of_some hpss] at helem
    cases hget : lib.getElement s.ring pss.tail with
    | none =>
      -- There was nothing to send, and the log has not grown.
      have hend : a.log.length ≤ a.pos q := by
        rw [hget] at helem
        exact List.getElem?_eq_none_iff.1 helem.symm
      have hle : a.pos q ≤ (a.apply (brokerOp s (.writeable q m))).pos q := by
        simp only [brokerOp]
        split
        · exact SharedLog.advance_pos_le q
        · exact Nat.le_refl _
      omega
    | some pmsg =>
      cases hm : shortWrite m pmsg with
      | true => simp [Broker.writeable, hpub, hget, hm] at hf
      | false =>
        have hs : s.writeable q pss m =
            ({ s with requested := Function.update s.requested q false } : Broker lib).consume q pss
              pmsg := by
          simp [Broker.writeable, hpub, hget, hm]
        have hnext := href.element (ha.apply hadm) (hreaders.symm ▸ hq)
        have hsome : ((a.apply (brokerOp s (.writeable q m))).log[
            (a.apply (brokerOp s (.writeable q m))).pos q]?).isSome := by
          rw [hlog]
          simpa using hlt
        rw [← hnext, hs] at hsome
        rw [hs]
        simpa [Broker.consume, Broker.tailOf] using hsome
  · obtain ⟨hfq, hrq⟩ := @writeable_of_ne _ s _ pss _ hqw m
    have hpos : (a.apply (brokerOp s (.writeable wsi m))).pos q = a.pos q := by
      simp only [brokerOp]
      split
      · exact SharedLog.advance_pos_of_ne hqw
      · rfl
    rw [hrq]
    exact hP q hq (hfq ▸ hf) (hpos ▸ hlt)

theorem Refines.woken_receive (h : Refines s a) (hP : s.Woken) (data : Bytes) (oom : Bool) :
    (s.receive pss data oom).Woken := by
  unfold Broker.receive
  split_ifs with hpub hlist hfree hoom
  · exact hP
  · exact hP
  · exact hP
  · exact hP
  · obtain ⟨ring, hring, -⟩ := lib.insert_some s.ring data hfree
    rw [hring]
    intro q hq _ _
    have hq' : q ∈ s.pssList := hq
    have hr : q ∈ a.readers := h.list ▸ hq'
    obtain ⟨p, hp⟩ := Option.isSome_iff_exists.1 (h.live q hr)
    have hpub' : p.publishing = false := (h.session q p hp).2 hr
    simp [Broker.wake, hq', hp, hpub']

theorem step_woken_iff (h : Modelled s) (hP : s.Woken) {e : BrokerEvent}
    (hstep : brokerStep s e = some t) : t.Woken ↔ ¬s.Late e := by
  obtain ⟨a, ha, href⟩ := h
  cases e with
  | established wsi uri =>
    cases hpss : s.pss wsi with
    | some pss => simp [brokerStep, hpss] at hstep
    | none =>
      have hs : s.established wsi uri = t := by simpa [brokerStep, hpss] using hstep
      exact hs ▸ href.woken_established hP hpss uri
  | closed wsi =>
    obtain ⟨pss, -, rfl⟩ := Option.map_eq_some_iff.1 hstep
    refine iff_of_true ?_ (by simp [Broker.Late, BrokerEvent.subscribes])
    intro q hq hf hw
    have hq' : q ∈ a.readers.erase wsi := by simpa [Broker.closed, href.list] using hq
    obtain ⟨hne, hqr⟩ := ha.nodup.mem_erase_iff.1 hq'
    have htail : (s.closed wsi).tailOf q = s.tailOf q := by simp [Broker.closed, Broker.tailOf, hne]
    rw [htail] at hw
    exact hP q (href.list.symm ▸ hqr) hf hw
  | writeable wsi m =>
    obtain ⟨pss, hpss, hs⟩ := Option.bind_eq_some_iff.1 hstep
    cases hf : s.failed wsi with
    | true => simp [hf] at hs
    | false =>
      have hs' : s.writeable wsi pss m = t := by simpa [hf] using hs
      refine iff_of_true ?_ (by simp [Broker.Late, BrokerEvent.subscribes])
      exact hs' ▸ href.woken_writeable ha hP hpss m
  | receive wsi data oom =>
    obtain ⟨pss, hpss, hs⟩ := Option.bind_eq_some_iff.1 hstep
    cases hf : s.failed wsi with
    | true => simp [hf] at hs
    | false =>
      have hs' : s.receive pss data oom = t := by simpa [hf] using hs
      refine iff_of_true ?_ (by simp [Broker.Late, BrokerEvent.subscribes])
      exact hs' ▸ href.woken_receive hP data oom

/-- **No message waits for a subscriber that nobody will call, exactly in the runs in which nobody
subscribes while messages are in the ring**: `ESTABLISHED` starts at the oldest element and does not
ask for the writable callback. -/
theorem broker_wakes_iff (es : List BrokerEvent) :
    PartialRun.Throughout brokerStep Broker.Woken (brokerInit lib) es ↔
      PartialRun.Meets brokerStep (fun s e => ¬s.Late e) (brokerInit lib) es := by
  refine PartialRun.throughout_iff_meets (I := Modelled) (fun _ _ _ h hs => step_modelled h hs)
    (fun _ _ _ h hP hs => step_woken_iff h hP hs) es ⟨_, SharedLog.empty_valid, init_refines⟩ ?_
  intro q hq
  cases hq

end QjsNet
