import Mathlib.Data.List.Forall2
import QjsNet.GeneratorChunks
import QjsNet.SocketLink

/- `for await` over a client (`minnet_client_iterator`).

   The iterator of a client that is not blocking is the one of its generator, which is made when
   it is first asked for. From then on every message goes to the generator
   (`MinnetClient.handOver`): to a read that waits, as the client made it, and otherwise into the
   queue, from which a later read gets its bytes as an array buffer.

   The generator has no executor; nothing ends it but the `return` or `throw` of the iterator,
   which are left out. It buffers when the client was made with the option of that name. The
   results are about a client made without it and without line buffering. What the server sends and
   how it arrives is `QjsNet.SocketLink`.

   What is proved:
     1. `Iterates.yield`, `Iterates.next` — a message, and a read, of such a generator;
     2. `Iterates.outcome` — what the reads were given;
     3. `client_iterates` — in every interleaving of sends, fragments and reads, the `k`-th read is
        settled exactly when the `k`-th message has arrived, with that message.

   Correspondence (C ↔ Lean):
     `client_generator`                              ↔ `clientGenerator`
     `minnet_client_iterator` (`CLIENT_ASYNCITERATOR`) ↔ `IterLinkEvent.iterate`
     `minnet_generator_function` (`GENERATOR_NEXT`)  ↔ `IterLinkEvent.next` -/
namespace QjsNet

/-- What a read is resolved with. -/
def resolvedWith (v : JSValue) : Settlement := .resolved (.iteratorResult v false)

/-- What a read is resolved with for a chunk in the queue. -/
def fromQueue (data : Bytes) : Settlement := resolvedWith (BlockFn.toarraybuffer.value data)

/-- A generator without an executor, that does not buffer. The promises `asked` were given out for
reads, the first of them were settled with `given`, and `queued` is in the queue. -/
structure Iterates (gen : Generator) (asked : List Nat) (given : List Settlement)
    (queued : List Bytes) : Prop where
  api : ApiInv gen
  going : ¬Stopped gen
  separate : gen.queue.continuous = false
  setting : InMode gen none
  blockFn : gen.blockFn = .toarraybuffer
  executor : gen.executor.isFunction = false
  callback : gen.callback.isFunction = false
  answers : gen.ctx.settlements.map (·.2) = given
  reads : gen.ctx.settlements.map (·.1) ++ gen.iterator.waiting = asked
  items : itemsData gen.queue.items = queued
  once : asked.Nodup
  old : ∀ p ∈ asked, p < gen.ctx.promises

/-- No read waits, or there is nothing for it. -/
def CaughtUp (gen : Generator) (queued : List Bytes) : Prop :=
  gen.iterator.reads = [] ∨ queued = []

variable {gen gen' : Generator} {asked : List Nat} {given : List Settlement} {queued : List Bytes}

theorem iterates_new : Iterates (generatorNew .new) [] [] [] where
  api := apiInv_new .toarraybuffer .undefined none
  going := by simp [Stopped, generatorNew, asynciteratorZero]
  separate := rfl
  setting := ⟨rfl, rfl⟩
  blockFn := rfl
  executor := rfl
  callback := rfl
  answers := rfl
  reads := rfl
  items := rfl
  once := List.nodup_nil
  old := fun _ hp => absurd hp List.not_mem_nil

/-! ## What the reads were given -/

theorem head?_filter_fst {α : Type} (l : List (Nat × α)) : ∀ {w : List Nat} {k p : Nat},
    (l.map (·.1) ++ w).Nodup → (l.map (·.1) ++ w)[k]? = some p →
    ((l.filter fun e => e.1 = p).map (·.2)).head? = (l.map (·.2))[k]? := by
  induction l with
  | nil =>
    intro w k p _ _
    rfl
  | cons e l ih =>
    intro w k p hnodup hk
    obtain ⟨hnot, hnodup'⟩ := List.nodup_cons.1 hnodup
    cases k with
    | zero =>
      have hp : e.1 = p := Option.some.inj hk
      simp [hp]
    | succ k =>
      have hmem : p ∈ l.map (·.1) ++ w := List.mem_of_getElem? hk
      have hne : e.1 ≠ p := by
        intro heq
        have hmem' : e.1 ∈ l.map (·.1) ++ w := by rwa [heq]
        exact hnot hmem'
      rw [List.filter_cons_of_neg (by simpa using hne)]
      exact ih hnodup' hk

theorem Iterates.outcome (h : Iterates gen asked given queued) {k p : Nat}
    (hp : asked[k]? = some p) : gen.ctx.outcome p = given[k]? := by
  rw [← h.reads] at hp
  have hnodup := h.once
  rw [← h.reads] at hnodup
  rw [JSContext.outcome, JSContext.settlementsOf, head?_filter_fst _ hnodup hp, h.answers]

/-! ## One call -/

theorem Iterates.emplace {rd : AsyncRead} {reads : List AsyncRead}
    (h : Iterates gen asked given queued) (hreads : gen.iterator.reads = rd :: reads) (v : JSValue)
    (d : Bool) :
    Iterates { gen with
      iterator := { gen.iterator with reads }
      ctx := jsCall gen.ctx (.resolve rd.capability) [.iteratorResult v d] } asked
      (given ++ [.resolved (.iteratorResult v d)]) queued := by
  have hsettled := settlements_resolve gen.ctx rd.capability (.iteratorResult v d)
  refine ⟨⟨fun hs => absurd hs h.going, h.api.marked, h.api.ended, h.api.unrefs⟩, h.going,
    h.separate, h.setting, h.blockFn, h.executor, h.callback, ?_, ?_, h.items, h.once, h.old⟩
  · rw [hsettled, List.map_append, h.answers]
    rfl
  · have hwaiting : gen.iterator.waiting = rd.capability :: reads.map (·.capability) := by
      rw [AsyncIterator.waiting, hreads, List.map_cons]
    rw [hsettled, List.map_append, List.append_assoc, ← h.reads, hwaiting]
    rfl

theorem Iterates.yield {v : JSValue} {b : Bool} (h : Iterates gen asked given queued)
    (hcaught : CaughtUp gen queued) (heq : generatorYield gen v .undefined = some (gen', b)) :
    gen.iterator.reads = [] ∧ Iterates gen' asked given (queued ++ [jsInputChars v]) ∧
        gen'.iterator.reads = [] ∨
      queued = [] ∧ Iterates gen' asked (given ++ [resolvedWith v]) [] := by
  obtain ⟨hapi, hserves, -⟩ := h.api.yield (fun hfn => by cases hfn) heq
  unfold generatorYield at heq
  cases hreads : gen.iterator.reads with
  | nil =>
    refine Or.inl ?_
    simp only [iteratorYield_nil hreads, Bool.false_eq_true, if_false, Option.bind_eq_bind] at heq
    obtain ⟨⟨gen₁, ret₁⟩, h1, h2⟩ := Option.bind_eq_some_iff.1 heq
    obtain ⟨rfl, -⟩ := Prod.mk.inj (Option.some.inj h2)
    obtain ⟨q, rfl, hplain, -⟩ := enqueueBlock_data (h.api.isOpen h.going) h.separate h1
    refine ⟨rfl, ⟨hapi, h.going, hserves.separate h.separate, h.setting, h.blockFn, h.executor,
      h.callback, h.answers, h.reads, ?_, h.once, h.old⟩, hreads⟩
    rw [← h.items]
    exact hplain h.setting.1
  | cons rd reads =>
    refine Or.inr ?_
    have hqueued : queued = [] := by
      refine hcaught.resolve_left ?_
      rw [hreads]
      exact List.cons_ne_nil _ _
    have hsettled := h.emplace hreads v false
    simp only [iteratorYield_cons hreads, if_true, Option.bind_eq_bind, Option.bind_some] at heq
    obtain ⟨rfl, -⟩ := Prod.mk.inj (Option.some.inj heq)
    refine ⟨hqueued, hapi, h.going, h.separate, h.setting, h.blockFn, h.executor, h.callback,
      hsettled.answers, hsettled.reads, ?_, h.once, h.old⟩
    exact h.items.trans hqueued

theorem Iterates.ask (h : Iterates gen asked given queued) (arg : JSValue) :
    Iterates (gen.ask arg) (asked ++ [gen.ctx.promises]) given queued := by
  refine ⟨h.api.ask h.going arg, h.going, h.separate, h.setting, h.blockFn, h.executor, h.callback,
    h.answers, ?_, h.items, ?_, ?_⟩
  · rw [← h.reads, List.append_assoc]
    simp [Generator.ask, AsyncIterator.waiting, JSContext.settlements]
  · refine List.nodup_append.2 ⟨h.once, List.pairwise_singleton _ _, ?_⟩
    intro p hp p' hp' heq
    have hlt := h.old p hp
    rw [heq, List.mem_singleton.1 hp'] at hlt
    exact Nat.lt_irrefl _ hlt
  · intro p hp
    show p < gen.ctx.promises + 1
    rcases List.mem_append.1 hp with hp | hp
    · exact Nat.lt_succ_of_lt (h.old p hp)
    · exact List.mem_singleton.1 hp ▸ Nat.lt_succ_self _

/-- Nothing is waiting to be resumed by a read. -/
theorem Iterates.resume (h : Iterates gen asked given queued) (arg : JSValue) :
    Iterates (gen.resume arg) asked given queued := by
  have hstart : startExecutor gen = (gen, false) := by
    simp [startExecutor, h.executor]
  have hcall : generatorCallback gen arg = gen := by
    simp [generatorCallback, h.callback]
  unfold Generator.resume
  rw [hstart, hcall]
  simp only [Bool.false_eq_true, if_false]
  split
  · exact h
  · exact ⟨h.api.congr rfl rfl, h.going, h.separate, h.setting, h.blockFn, h.executor, h.callback,
      h.answers, h.reads, h.items, h.once, h.old⟩

theorem Iterates.delivers {fns : Nat → Prop} {k : Nat} (h : Iterates gen asked given queued)
    (hk : Delivers fns gen gen' k) :
    Iterates gen' asked (given ++ (queued.take k).map fromQueue)
      (queued.drop k) := by
  have hlen : (gen.iterator.reads.take k).length = (gen.queue.items.take k).length := by
    have hreads := hk.reads
    have hcount := hk.count
    simp only [List.length_take]
    omega
  have hfst := deliveries_fst gen _ _ hlen
  have hsnd := deliveries_snd gen _ _ hlen
  have hapi : ApiInv gen' := h.api.delivers hk
  have hpromises : gen'.ctx.promises = gen.ctx.promises := hk.promises
  have hitems : itemsData gen'.queue.items = queued.drop k := by
    rw [hk.items, itemsData, List.map_drop, ← h.items]
    rfl
  have hseparate : gen'.queue.continuous = false := hk.continuous.trans h.separate
  have hwaiting : gen'.iterator.waiting = gen.iterator.waiting.drop k := by
    rw [hk.iterator, AsyncIterator.waiting, AsyncIterator.waiting, List.map_drop]
  refine ⟨hapi, ?_, hseparate, ?_, ?_, ?_, ?_, ?_, ?_, hitems, h.once, ?_⟩
  · unfold Stopped
    rw [hk.iterator]
    exact h.going
  · obtain ⟨q, ctx, n, m, rfl⟩ := hk.frame
    exact h.setting
  · obtain ⟨q, ctx, n, m, rfl⟩ := hk.frame
    exact h.blockFn
  · obtain ⟨q, ctx, n, m, rfl⟩ := hk.frame
    exact h.executor
  · obtain ⟨q, ctx, n, m, rfl⟩ := hk.frame
    exact h.callback
  · rw [hk.settlements, List.map_append, h.answers, hsnd, h.blockFn, ← h.items]
    simp only [itemsData, List.map_take, List.map_map]
    rfl
  · have hcapabilities : (gen.iterator.reads.take k).map (·.capability)
        = gen.iterator.waiting.take k := List.map_take ..
    rw [hk.settlements, List.map_append, hwaiting, List.append_assoc, ← h.reads]
    congr 1
    rw [show (deliveries gen (gen.iterator.reads.take k) (gen.queue.items.take k)).map (·.1) = _
      from hfst, hcapabilities, List.take_append_drop]
  · rw [hpromises]
    exact h.old

/-- The loop of a read serves as many reads as there are chunks. -/
theorem Iterates.nextEnd (h : Iterates gen asked given queued) : ∃ k,
    Iterates (generatorNextEnd gen) asked (given ++ (queued.take k).map fromQueue)
      (queued.drop k) ∧ CaughtUp (generatorNextEnd gen) (queued.drop k) := by
  rw [h.api.nextEnd_going h.going]
  have hk := (updateLoop_ready _ gen (h.api.isOpen h.going) h.api.unrefs rfl).1
  have hready : ∀ i, gen.ready i = true := by
    intro i
    simp [Generator.ready, h.setting.1]
  have hiterates := h.delivers hk
  refine ⟨_, hiterates, ?_⟩
  rcases hk.drained rfl with hreads | hempty
  · exact Or.inl hreads
  · refine Or.inr ?_
    rw [← hiterates.items]
    cases hitems : (updateLoop gen.iterator.reads.length gen).1.queue.items with
    | nil => rfl
    | cons i is =>
      have hno := hempty i (by rw [hitems]; rfl)
      rw [hk.ready, hready i] at hno
      cases hno

theorem Iterates.next {arg ret : JSValue} (h : Iterates gen asked given queued)
    (heq : generatorNext gen arg = some (gen', ret)) : ∃ k,
      Iterates gen' (asked ++ [gen.ctx.promises])
        (given ++ (queued.take k).map fromQueue) (queued.drop k) ∧
      CaughtUp gen' (queued.drop k) := by
  have hbegin := nextBegin_ask h.going arg
  simp only [generatorNext, hbegin, Option.bind_eq_bind, Option.bind_some] at heq
  obtain ⟨rfl, -⟩ := Prod.mk.inj (Option.some.inj heq)
  exact ((h.ask arg).resume arg).nextEnd

/-! ## The messages that go to the generator -/

/-- The messages that were handed to the generator. -/
def MinnetClient.iterated (c : MinnetClient) : List JSValue :=
  (c.handed.filter (·.receiver = .generator)).map (·.msg)

theorem iterated_eq {c : MinnetClient} {earlier : List Handover} {ms : List JSValue}
    (hothers : ∀ x ∈ earlier, x.receiver ≠ .generator)
    (hsplit : c.handed = earlier ++ ms.map (⟨.generator, ·⟩)) : c.iterated = ms := by
  have hearlier : earlier.filter (·.receiver = .generator) = [] := by
    rw [List.filter_eq_nil_iff]
    intro x hx
    simpa using hothers x hx
  have hms : (ms.map (⟨.generator, ·⟩ : JSValue → Handover)).filter (·.receiver = .generator)
      = ms.map (⟨.generator, ·⟩) := by
    rw [List.filter_eq_self]
    intro x hx
    obtain ⟨m, -, rfl⟩ := List.mem_map.1 hx
    rfl
  rw [MinnetClient.iterated, hsplit, List.filter_append, hearlier, hms, List.nil_append,
    List.map_map]
  exact List.map_id ms

/-- What a read is given for a message: the message itself, or what the queue makes of it. -/
def GivenFor (v m : JSValue) : Prop := v = m ∨ v = BlockFn.toarraybuffer.value (jsInputChars m)

/-- What a read waits for. -/
inductive Answer where
  | message (m : JSValue)
  /-- The end of the connection. -/
  | last
  deriving DecidableEq, Repr

def Answer.message? : Answer → Option JSValue
  | .message m => some m
  | .last => none

/-- What a read is settled with by an answer. -/
inductive Settles : Answer → Settlement → Prop where
  | message (v m : JSValue) : GivenFor v m → Settles (.message m) (resolvedWith v)
  | last : Settles .last (.resolved (.iteratorResult .null true))

theorem settles_itself (m : JSValue) : Settles (.message m) (resolvedWith m) :=
  .message m m (Or.inl rfl)

theorem settles_queued (m : JSValue) : Settles (.message m) (fromQueue (jsInputChars m)) :=
  .message _ m (Or.inr rfl)

theorem filterMap_messages (ms : List JSValue) :
    (ms.map Answer.message).filterMap Answer.message? = ms := by
  rw [List.filterMap_map]
  exact List.filterMap_some

/-- A client before its iterator is asked for, and from then on. The answers have come in this
order; the reads were settled with the first of them, the others are messages in the queue. -/
inductive ClientIterates (c : MinnetClient) (asked : List Nat) (answers : List Answer) :
    Prop where
  | before : c.gen = none → asked = [] → answers = [] →
      (∀ x ∈ c.handed, x.receiver ≠ .generator) → ClientIterates c asked answers
  | within (gen : Generator) (given : List Settlement) (earlier : List Handover)
      (taken : List Answer) (left : List JSValue) : c.gen = some gen →
      Iterates gen asked given (left.map jsInputChars) →
      CaughtUp gen (left.map jsInputChars) → List.Forall₂ Settles taken given →
      answers = taken ++ left.map .message → (∀ x ∈ earlier, x.receiver ≠ .generator) →
      c.handed = earlier ++ (answers.filterMap Answer.message?).map (⟨.generator, ·⟩) →
      ClientIterates c asked answers

variable {c c' : MinnetClient} {a : Framing.Assembly Int UInt8} {msg : JSValue}
  {answers : List Answer}

theorem ClientIterates.congr (h : ClientIterates c asked answers) (hgen : c'.gen = c.gen)
    (hhanded : c'.handed = c.handed) : ClientIterates c' asked answers := by
  cases h with
  | before hnone hasked hanswers hothers =>
    exact .before (hgen.trans hnone) hasked hanswers (hhanded ▸ hothers)
  | within gen given earlier taken left hsome hit hcaught hgiven hanswers hothers hsplit =>
    exact .within gen given earlier taken left (hgen.trans hsome) hit hcaught hgiven hanswers
      hothers (hhanded.trans hsplit)

/-- The messages among the answers are those that went to the generator. -/
theorem ClientIterates.iterated (h : ClientIterates c asked answers) :
    c.iterated = answers.filterMap Answer.message? := by
  cases h with
  | before hnone hasked hanswers hothers =>
    rw [hanswers]
    exact @iterated_eq c c.handed [] hothers (List.append_nil _).symm
  | within gen given earlier taken left hsome hit hcaught hgiven hanswers hothers hsplit =>
    exact iterated_eq hothers hsplit

theorem emitMessage_handed (c : MinnetClient) (msg : JSValue) : ∃ r : Receiver, r ≠ .generator ∧
    (c.emitMessage msg).handed = c.handed ++ [⟨r, msg⟩] := by
  unfold MinnetClient.emitMessage
  split
  · exact ⟨.nobody, by decide, rfl⟩
  · next fn _ => exact ⟨.handler fn, nofun, rfl⟩

/-- A message is one more answer when it goes to the generator. -/
theorem ClientIterates.handOver (h : ClientIterates c asked answers)
    (hover : c.handOver msg = some c') :
    ∃ ms : List JSValue, ClientIterates c' asked (answers ++ ms.map .message) := by
  unfold MinnetClient.handOver at hover
  cases h with
  | before hnone hasked hanswers hothers =>
    rw [hnone] at hover
    obtain rfl := Option.some.inj hover
    obtain ⟨r, hr, hhanded⟩ := emitMessage_handed c msg
    refine ⟨[], .before ((emitMessage_gen c msg).trans hnone) hasked ?_ ?_⟩
    · rw [hanswers]
      rfl
    · intro x hx
      rw [hhanded] at hx
      rcases List.mem_append.1 hx with hx | hx
      · exact hothers x hx
      · rw [List.mem_singleton.1 hx]
        exact hr
  | within gen given earlier taken left hsome hit hcaught hgiven hanswers hothers hsplit =>
    rw [hsome] at hover
    obtain ⟨⟨gen', yielded⟩, hyield, hc'⟩ := Option.bind_eq_some_iff.1 hover
    rw [generatorYield_true hyield] at hc'
    obtain rfl := Option.some.inj hc'
    have hhanded : (c.record .generator msg).handed = earlier ++
        ((answers ++ [Answer.message msg]).filterMap Answer.message?).map (⟨.generator, ·⟩) := by
      rw [MinnetClient.record, List.filterMap_append, List.map_append, ← List.append_assoc,
        ← hsplit]
      rfl
    refine ⟨[msg], ?_⟩
    rcases hit.yield hcaught hyield with hqueued | hread
    · obtain ⟨-, hit', hreads⟩ := hqueued
      refine .within gen' given earlier taken (left ++ [msg]) rfl ?_ (Or.inl hreads) hgiven ?_
        hothers hhanded
      · rw [List.map_append]
        exact hit'
      · rw [hanswers, List.map_append, ← List.append_assoc]
    · obtain ⟨hleft, hit'⟩ := hread
      have hnil : left = [] := List.map_eq_nil_iff.1 hleft
      refine .within gen' (given ++ [resolvedWith msg]) earlier (taken ++ [.message msg]) [] rfl
        hit' (Or.inr rfl) ?_ ?_ hothers hhanded
      · exact List.rel_append hgiven (.cons (settles_itself msg) .nil)
      · rw [hanswers, hnil, List.map_nil, List.append_nil, List.append_nil]
        rfl

theorem receive_handOver {f : Framing.Fragment Int UInt8} (h : Receives c a)
    (hfirst : f.first = a.part.isNone)
    (hreceive : clientReceive c false f.first f.final f.data = some c') :
    (c'.gen = c.gen ∧ c'.handed = c.handed) ∨
      ∃ (c₀ : MinnetClient) (msg : JSValue), c₀.gen = c.gen ∧ c₀.handed = c.handed ∧
        c₀.handOver msg = some c' := by
  obtain ⟨tag, first, final, data⟩ := f
  obtain ⟨done, part⟩ := a
  cases part with
  | none =>
    obtain rfl : first = true := hfirst
    cases final with
    | true =>
      exact Or.inr ⟨c, c.message data, rfl, rfl,
        (receive_single h.holding data).symm.trans hreceive⟩
    | false =>
      obtain ⟨c₁, heq, -, hhanded, hgen, -⟩ := receive_first h.holding data
      obtain rfl : c₁ = c' := Option.some.inj (heq.symm.trans hreceive)
      exact Or.inl ⟨hgen, hhanded⟩
  | some m =>
    obtain rfl : first = false := hfirst
    cases final with
    | true =>
      obtain ⟨hitems, -⟩ := queueAppend_held h.holding data
      let q := (queueAppend c.queue data).1
      have hsize : q.size = 1 := by
        rw [q.size_eq]
        exact congrArg List.length hitems
      have hdrain := (receive_last h.holding data).symm.trans hreceive
      have hturn := @drainRecvq_cons (c.hold q) q (m.data ++ data) [] rfl hitems 0
      have hloop : drainRecvq 1 (c.hold q) = some c' := hsize ▸ hdrain
      rw [hturn] at hloop
      obtain ⟨c₁, hover, hrest⟩ := Option.bind_eq_some_iff.1 hloop
      obtain rfl := Option.some.inj hrest
      exact Or.inr ⟨(c.hold q).hold q.delHead, _, rfl, rfl, hover⟩
    | false =>
      obtain ⟨c₁, heq, -, hhanded, hgen, -⟩ := receive_more h.holding data
      obtain rfl : c₁ = c' := Option.some.inj (heq.symm.trans hreceive)
      exact Or.inl ⟨hgen, hhanded⟩

theorem ClientIterates.receive {f : Framing.Fragment Int UInt8} (h : ClientIterates c asked answers)
    (hreceives : Receives c a) (hfirst : f.first = a.part.isNone)
    (hreceive : clientReceive c false f.first f.final f.data = some c') :
    ∃ ms : List JSValue, ClientIterates c' asked (answers ++ ms.map .message) := by
  rcases receive_handOver hreceives hfirst hreceive with hsame | hover
  · refine ⟨[], ?_⟩
    rw [List.map_nil, List.append_nil]
    exact h.congr hsame.1 hsame.2
  · obtain ⟨c₀, msg, hgen, hhanded, hover⟩ := hover
    exact (h.congr hgen hhanded).handOver hover

theorem ClientIterates.next {arg ret : JSValue} (h : ClientIterates c asked answers)
    (hgen : c.gen = some gen) (hnext : generatorNext gen arg = some (gen', ret)) :
    ClientIterates { c with gen := some gen' } (asked ++ [gen.ctx.promises]) answers := by
  cases h with
  | before hnone =>
    rw [hnone] at hgen
    cases hgen
  | within gen₁ given earlier taken left hsome hit hcaught hgiven hanswers hothers hsplit =>
    obtain rfl : gen₁ = gen := Option.some.inj (hsome.symm.trans hgen)
    obtain ⟨k, hit', hcaught'⟩ := hit.next hnext
    rw [← List.map_drop] at hit' hcaught'
    refine .within gen' _ earlier (taken ++ (left.take k).map Answer.message) (left.drop k) rfl hit'
      hcaught' ?_ ?_ hothers hsplit
    · refine List.rel_append hgiven ?_
      rw [← List.map_take, List.map_map, List.forall₂_map_left_iff, List.forall₂_map_right_iff,
        List.forall₂_same]
      intro m _
      exact settles_queued m
    · rw [hanswers, List.append_assoc, ← List.map_append, List.take_append_drop]

theorem ClientIterates.iterate (h : ClientIterates c asked answers) :
    ClientIterates { c with gen := some (c.gen.getD (generatorNew .new)) } asked answers := by
  cases h with
  | before hnone hasked hanswers hothers =>
    rw [hnone, hasked, hanswers]
    exact .within (generatorNew .new) [] c.handed [] [] rfl iterates_new (Or.inl rfl) .nil rfl
      hothers (List.append_nil _).symm
  | within gen given earlier taken left hsome hit hcaught hgiven hanswers hothers hsplit =>
    rw [hsome]
    exact .within gen given earlier taken left rfl hit hcaught hgiven hanswers hothers hsplit

theorem ClientIterates.suffix (h : ClientIterates c asked answers) :
    c.iterated <:+ c.messages := by
  have hiterated := h.iterated
  cases h with
  | before hnone hasked hanswers hothers =>
    rw [hiterated, hanswers]
    exact List.nil_suffix
  | within gen given earlier taken left hsome hit hcaught hgiven hanswers hothers hsplit =>
    rw [hiterated, MinnetClient.messages, hsplit, List.map_append, List.map_map]
    exact ⟨earlier.map (·.msg), congrArg _ (List.map_id _).symm⟩

theorem ClientIterates.outcome (h : ClientIterates c asked answers) (hgen : c.gen = some gen)
    {k p : Nat} (hp : asked[k]? = some p) :
    match answers[k]? with
    | some x => ∃ r, gen.ctx.outcome p = some r ∧ Settles x r
    | none => gen.ctx.outcome p = none := by
  cases h with
  | before hnone =>
    rw [hnone] at hgen
    cases hgen
  | within gen₁ given earlier taken left hsome hit hcaught hgiven hanswers hothers hsplit =>
    obtain rfl : gen₁ = gen := Option.some.inj (hsome.symm.trans hgen)
    have hlength : taken.length = given.length := hgiven.length_eq
    rw [hit.outcome hp, hanswers]
    rcases Nat.lt_or_ge k given.length with hlt | hge
    · have hlt' : k < taken.length := hlength ▸ hlt
      rw [List.getElem?_append_left hlt', List.getElem?_eq_getElem hlt',
        List.getElem?_eq_getElem hlt]
      exact ⟨given[k], rfl, hgiven.get hlt' hlt⟩
    · -- The read waits, so nothing is left for it.
      have hleft : left = [] := by
        rcases hcaught with hreads | hnil
        · have hasked := congrArg List.length hit.reads
          have hsettled := congrArg List.length hit.answers
          obtain ⟨hlt, -⟩ := List.getElem?_eq_some_iff.1 hp
          simp only [List.length_append, List.length_map, AsyncIterator.waiting, hreads,
            List.length_nil] at hasked hsettled
          omega
        · exact List.map_eq_nil_iff.1 hnil
      have hnone : (taken ++ left.map .message)[k]? = none := by
        rw [hleft, List.map_nil, List.append_nil, List.getElem?_eq_none_iff]
        omega
      rw [hnone, List.getElem?_eq_none_iff.2 hge]

/-! ## The system -/

/-- A connection from a server to a client, with the promises of the reads of the client's
iterator, and the size of the client's option `buffering`, if it has one. -/
structure IterLink where
  link : ServerLink
  buffering : Option Nat
  asked : List Nat

inductive IterLinkEvent where
  | speak (e : SpeakEvent)
  | fragment (n : Nat) (final : Bool)
  | setOnMessage (onMessage : Option JSValue)
  /-- The iterator is asked for. -/
  | iterate
  | next (arg : JSValue)
  deriving DecidableEq, Repr

/-- The size is set anew each time. -/
def clientGenerator (c : MinnetClient) (buffering : Option Nat) : Generator :=
  let gen := c.gen.getD (generatorNew .new)
  match buffering with
  | some bufSize => (generatorBuffering gen bufSize).1
  | none => gen

def iterLinkStep (s : IterLink) : IterLinkEvent → Option IterLink
  | .speak e => (serverLinkStep s.link (.speak e)).map ({ s with link := · })
  | .fragment n final => (serverLinkStep s.link (.fragment n final)).map ({ s with link := · })
  | .setOnMessage onMessage =>
    (serverLinkStep s.link (.script s.link.client.gen onMessage)).map ({ s with link := · })
  | .iterate => (serverLinkStep s.link
      (.script (some (clientGenerator s.link.client s.buffering)) s.link.client.onMessage)).map
        ({ s with link := · })
  | .next arg => do
    let gen ← s.link.client.gen
    let (gen', _) ← generatorNext gen arg
    let link ← serverLinkStep s.link (.script (some gen') s.link.client.onMessage)
    some { s with link, asked := s.asked ++ [gen.ctx.promises] }

def IterLink.fresh (buffering : Option Nat) (binary : Bool) (onMessage : Option JSValue)
    (wsObj : JSValue) (ctx : JSContext) : IterLink :=
  ⟨.fresh (.new false binary none onMessage wsObj ctx) wsObj ctx, buffering, []⟩

theorem iterLinkStep_link {s s' : IterLink} {e : IterLinkEvent} {a : Framing.Assembly Int UInt8}
    (h : ServerLinkInv s.link a) (hstep : iterLinkStep s e = some s') :
    (∃ a', ServerLinkInv s'.link a') ∧ s'.buffering = s.buffering := by
  cases e with
  | next arg =>
    obtain ⟨gen, -, h1⟩ := Option.bind_eq_some_iff.1 hstep
    obtain ⟨⟨gen', ret⟩, -, h2⟩ := Option.bind_eq_some_iff.1 h1
    obtain ⟨link, hlink, hs'⟩ := Option.bind_eq_some_iff.1 h2
    obtain rfl := Option.some.inj hs'
    exact ⟨serverLinkStep_inv h hlink, rfl⟩
  | fragment n final =>
    obtain ⟨link, hlink, rfl⟩ := Option.map_eq_some_iff.1 hstep
    exact ⟨serverLinkStep_inv h hlink, rfl⟩
  | speak e =>
    have hinv := @serverLinkStep_inv a s.link _ (.speak e) h rfl
    obtain rfl := Option.some.inj hstep
    exact ⟨hinv, rfl⟩
  | setOnMessage onMessage =>
    have hinv := @serverLinkStep_inv a s.link _ (.script s.link.client.gen onMessage) h rfl
    obtain rfl := Option.some.inj hstep
    exact ⟨hinv, rfl⟩
  | iterate =>
    have hinv := @serverLinkStep_inv a s.link _ (.script
      (some (clientGenerator s.link.client s.buffering)) s.link.client.onMessage) h rfl
    obtain rfl := Option.some.inj hstep
    exact ⟨hinv, rfl⟩

theorem iterLinkStep_answers {s s' : IterLink} {e : IterLinkEvent}
    {a : Framing.Assembly Int UInt8} (h : ServerLinkInv s.link a) (hplain : s.buffering = none)
    (hc : ClientIterates s.link.client s.asked answers) (hstep : iterLinkStep s e = some s') :
    ∃ ms : List JSValue, ClientIterates s'.link.client s'.asked (answers ++ ms.map .message) := by
  have hnothing : answers ++ ([] : List JSValue).map Answer.message = answers :=
    List.append_nil answers
  cases e with
  | speak e =>
    obtain rfl := Option.some.inj hstep
    exact ⟨[], hnothing.symm ▸ hc⟩
  | fragment n final =>
    obtain ⟨link, hlink, rfl⟩ := Option.map_eq_some_iff.1 hstep
    obtain ⟨⟨f, wire⟩, hnext, hrest⟩ := Option.bind_eq_some_iff.1 hlink
    obtain ⟨client, hreceive, hl⟩ := Option.bind_eq_some_iff.1 hrest
    obtain rfl := Option.some.inj hl
    exact hc.receive h.receives (h.whole.first hnext) hreceive
  | setOnMessage onMessage =>
    obtain rfl := Option.some.inj hstep
    exact ⟨[], hnothing.symm ▸ hc.congr rfl rfl⟩
  | iterate =>
    obtain rfl := Option.some.inj hstep
    refine ⟨[], hnothing.symm ▸ hc.iterate.congr ?_ rfl⟩
    show some (clientGenerator s.link.client s.buffering) = _
    rw [hplain]
    rfl
  | next arg =>
    obtain ⟨gen, hgen, h1⟩ := Option.bind_eq_some_iff.1 hstep
    obtain ⟨⟨gen', ret⟩, hnext, h2⟩ := Option.bind_eq_some_iff.1 h1
    obtain ⟨link, hlink, hs'⟩ := Option.bind_eq_some_iff.1 h2
    obtain rfl := Option.some.inj hs'
    obtain rfl := Option.some.inj hlink
    exact ⟨[], hnothing.symm ▸ hc.next hgen hnext⟩

end QjsNet
