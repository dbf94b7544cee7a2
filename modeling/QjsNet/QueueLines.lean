import QjsNet.QueueStream
import QjsNet.Utils
import QjsNet.Lib.Lines

/- The lines of a queue (`queue_putline` in `queue.c`).

   A queue that holds the pieces of a stream, one item a line and one for the beginning of
   the last line, holds those of the longer stream after more data (`queuePutline_pieces`).
   So it does not matter how a stream is cut up on the way (`queuePutlines_lines`).

   Correspondence (C ↔ Lean):
     `queue_putline`, called for one fragment after the other ↔ `queuePutlines` -/
namespace QjsNet

variable {q : Queue} {u v : Bytes}

/-! ## The line splitter -/

theorem pieces_takeLine (hu : ∀ b ∈ u, isNewline b = false) (hne : u ++ v ≠ []) :
    Lines.pieces isNewline (u ++ v)
      = (u ++ v.take (lineLength v)) :: Lines.pieces isNewline (v.drop (lineLength v)) := by
  unfold lineLength
  cases hfind : v.findIdx? (· = 10) with
  | none =>
    have hv : ∀ b ∈ v, isNewline b = false := List.findIdx?_eq_none_iff.1 hfind
    have huv : ∀ b ∈ u ++ v, isNewline b = false := by
      intro b hb
      exact (List.mem_append.1 hb).elim (hu b) (hv b)
    simp only [List.take_length, List.drop_length]
    exact Lines.pieces_free huv hne
  | some n =>
    obtain ⟨hlt, hend, hbefore⟩ := List.findIdx?_eq_some_iff_getElem.1 hfind
    have hfree : ∀ b ∈ u ++ v.take n, isNewline b = false := by
      intro b hb
      rcases List.mem_append.1 hb with hb | hb
      · exact hu b hb
      · obtain ⟨j, hj, rfl⟩ := List.mem_take_iff_getElem.1 hb
        exact Bool.eq_false_iff.2 (hbefore j (lt_of_lt_of_le hj (Nat.min_le_left _ _)))
    have hsplit : u ++ v = (u ++ v.take n) ++ v[n] :: v.drop (n + 1) := by
      rw [← List.drop_eq_getElem_cons hlt, List.append_assoc, List.take_append_drop]
    simp only [hsplit]
    rw [Lines.pieces_line hfree hend, List.take_add_one, List.getElem?_eq_getElem hlt,
      List.append_assoc]
    rfl

/-- The items that `queue_putline` adds are the lines. -/
theorem putLines_pieces (fuel : Nat) {q : Queue} (x : Bytes) (i : Option Nat)
    (h : OpenItems q.items) (hfuel : x.length ≤ fuel) :
    (putLines fuel q x i).1.items = q.items ++ (Lines.pieces isNewline x).map chunkItem := by
  refine @putLines_induct
    (fun q x q' => q'.items = q.items ++ (Lines.pieces isNewline x).map chunkItem)
    ?_ ?_ fuel q x i h hfuel
  · intro q _
    exact (List.append_nil _).symm
  · intro q x q' hq hx hrest
    have hpieces := @pieces_takeLine [] x (by simp) hx
    rw [List.nil_append, List.nil_append] at hpieces
    rw [hrest, queueAdd_open hq, addTail_items, hpieces, List.append_assoc]
    rfl

theorem openLine_iff {b : UInt8} (init : Bytes) :
    ByteBlock.openLine (some (init ++ [b])) = true ↔ isNewline b = false := by
  simp [ByteBlock.openLine, ByteBlock.data, isNewline]

/-- The last piece is open exactly when the end of the last line is missing. -/
theorem openLine_last {init : List Bytes} {last : Bytes}
    (h : Lines.pieces isNewline u = init ++ [last]) :
    ByteBlock.openLine (some last) = true ↔ Lines.rest isNewline u ≠ [] := by
  have hflat : u = init.flatten ++ last := by
    rw [← @Lines.pieces_flatten _ isNewline u, h, List.flatten_append, List.flatten_singleton]
  by_cases hrest : Lines.rest isNewline u = []
  · refine iff_of_false ?_ (not_not_intro hrest)
    rcases List.eq_nil_or_concat' last with rfl | ⟨before, b, rfl⟩
    · exact Bool.false_ne_true
    · have hend := Lines.rest_eq_nil_iff.1 hrest b (by rw [hflat]; simp)
      rw [openLine_iff, hend]
      exact nofun
  · refine iff_of_true ?_ hrest
    have hfree := @Lines.rest_free _ isNewline u
    rw [(Lines.pieces_of_rest hrest h).2] at hfree hrest
    obtain ⟨before, b, rfl⟩ := (List.eq_nil_or_concat' last).resolve_left hrest
    exact (openLine_iff before).2 (hfree b (by simp))

theorem pieces_continue {init : List Bytes} {last : Bytes}
    (h : Lines.pieces isNewline u = init ++ [last]) (hrest : Lines.rest isNewline u ≠ []) (v : Bytes) :
    Lines.pieces isNewline (u ++ v) = init ++
      (last ++ v.take (lineLength v)) :: Lines.pieces isNewline (v.drop (lineLength v)) := by
  obtain ⟨hinit, hlast⟩ := Lines.pieces_of_rest hrest h
  have hne : Lines.rest isNewline u ++ v ≠ [] := List.append_ne_nil_of_left_ne_nil hrest v
  rw [Lines.pieces_append, pieces_takeLine Lines.rest_free hne, hinit, hlast]

/-- What a queue that holds the pieces of `u` holds after more data. -/
theorem queuePutline_pieces (h : q.items = (Lines.pieces isNewline u).map chunkItem) (v : Bytes) :
    (queuePutline q v).1.items = (Lines.pieces isNewline (u ++ v)).map chunkItem := by
  have hopen : OpenItems q.items := h ▸ chunkItems_open _
  have hadd (i : Option Nat) (hrest : Lines.rest isNewline u = []) :
      (putLines v.length q v i).1.items = (Lines.pieces isNewline (u ++ v)).map chunkItem := by
    rw [putLines_pieces _ _ _ hopen (Nat.le_refl _), h, ← List.map_append, Lines.pieces_append,
      hrest, Lines.pieces, hrest]
    simp
  rcases List.eq_nil_or_concat' (Lines.pieces isNewline u) with hnil | ⟨init, last, hsnoc⟩
  · have hlast : queueLastChunk q = none := by
      rw [queueLastChunk, h, hnil]
      rfl
    have hu : u = [] := by
      rw [← @Lines.pieces_flatten _ isNewline u, hnil]
      rfl
    rw [queuePutline, hlast]
    exact hadd none (by rw [hu]; rfl)
  · have hitems : q.items = init.map chunkItem ++ [chunkItem last] := by
      rw [h, hsnoc, List.map_append]
      rfl
    have hlast : queueLastChunk q = some (init.map chunkItem).length := by
      rw [queueLastChunk, hitems]
      exact lastIdx?_snoc (by simp [QueueItem.isChunk, chunkItem]) _
    have hblock : (q.items[(init.map chunkItem).length]?).elim none (·.block) = some last := by
      rw [hitems, List.getElem?_concat_length]
      rfl
    simp only [queuePutline, hlast, hblock]
    by_cases hrest : Lines.rest isNewline u = []
    · rw [if_neg fun hline => (openLine_last hsnoc).1 hline hrest]
      exact hadd _ hrest
    · have hopen' := (queueAppend_appends hopen (v.take (lineLength v))).isOpen
      rw [queueAppend, hlast] at hopen'
      have hput := putLines_pieces v.length (v.drop (lineLength v))
        (some (init.map chunkItem).length) hopen' (by rw [List.length_drop]; omega)
      rw [if_pos ((openLine_last hsnoc).2 hrest), queueAppend, hlast]
      rw [modify_items, hitems, modify_snoc] at hput
      refine hput.trans ?_
      rw [pieces_continue hsnoc hrest, List.map_append, List.append_assoc]
      rfl

/-! ## Fragments -/

/-- `queue_putline` for one fragment after the other. -/
def queuePutlines (q : Queue) : List Bytes → Queue
  | [] => q
  | x :: fragments => queuePutlines (queuePutline q x).1 fragments

/-- A line feed at its end, and no other. -/
def EndedLine (line : Bytes) : Prop := ∃ init, line = init ++ [10] ∧ (10 : UInt8) ∉ init

theorem isNewline_iff (b : UInt8) : isNewline b = true ↔ b = 10 := by
  unfold isNewline
  rw [decide_eq_true_iff]

theorem endedLine_of_mem {x line : Bytes} (h : line ∈ Lines.lines isNewline x) : EndedLine line := by
  obtain ⟨init, b, rfl, hb, hfree⟩ := Lines.shape_of_mem h
  rw [(isNewline_iff b).1 hb]
  refine ⟨init, rfl, ?_⟩
  intro hmem
  exact absurd ((isNewline_iff 10).2 rfl) (Bool.eq_false_iff.1 (hfree 10 hmem))

theorem rest_newline_free (x : Bytes) : (10 : UInt8) ∉ Lines.rest isNewline x := by
  intro hmem
  exact absurd ((isNewline_iff 10).2 rfl) (Bool.eq_false_iff.1 (Lines.rest_free 10 hmem))

theorem queuePutlines_pieces (fragments : List Bytes) : ∀ {q : Queue} {u : Bytes},
    q.items = (Lines.pieces isNewline u).map chunkItem →
    (queuePutlines q fragments).items
      = (Lines.pieces isNewline (u ++ fragments.flatten)).map chunkItem := by
  induction fragments with
  | nil =>
    intro q u h
    rw [queuePutlines, h, List.flatten_nil, List.append_nil]
  | cons x fragments ih =>
    intro q u h
    rw [queuePutlines, ih (queuePutline_pieces h x), List.flatten_cons, List.append_assoc]

/-! ## The mode of the queue stays -/

theorem queueAdd_continuous (q : Queue) (chunk : ByteBlock) :
    (queueAdd q chunk).1.continuous = q.continuous := by
  unfold queueAdd
  split <;> simp

theorem queueAppend_continuous (q : Queue) (data : Bytes) :
    (queueAppend q data).1.continuous = q.continuous := by
  unfold queueAppend
  split
  · simp
  · exact queueAdd_continuous q (blockCopy data)

theorem putLines_continuous : ∀ (fuel : Nat) (q : Queue) (x : Bytes) (i : Option Nat),
    (putLines fuel q x i).1.continuous = q.continuous := by
  intro fuel
  induction fuel with
  | zero =>
    intro q x i
    rfl
  | succ fuel ih =>
    intro q x i
    rw [putLines]
    split
    · rfl
    · exact (ih _ _ _).trans (queueAdd_continuous q _)

theorem queuePutline_continuous (q : Queue) (data : Bytes) :
    (queuePutline q data).1.continuous = q.continuous := by
  have happend := queueAppend_continuous q (data.take (lineLength data))
  unfold queuePutline
  split
  · exact putLines_continuous _ _ _ _
  · split
    · split
      · next q' heq =>
        rw [heq] at happend
        exact happend
      · next q' i heq =>
        rw [heq] at happend
        exact (putLines_continuous _ _ _ _).trans happend
    · exact putLines_continuous _ _ _ _

theorem queuePutlines_continuous (fragments : List Bytes) : ∀ q : Queue,
    (queuePutlines q fragments).continuous = q.continuous := by
  induction fragments with
  | nil =>
    intro q
    rfl
  | cons x fragments ih =>
    intro q
    exact (ih (queuePutline q x).1).trans (queuePutline_continuous q x)

/-! ## The lines of a stream -/

/-- **The items are the lines of the stream, however it was cut up.** Starting from an empty queue,
there is one item for each line of the stream and one for the tail behind the last line, if there is
one. Fragments of the same stream leave the same queue. -/
theorem queuePutlines_lines (hempty : q.items = []) (fragments : List Bytes) :
    (∃ (lines : List Bytes) (tail : Bytes),
      lines.flatten ++ tail = fragments.flatten ∧ (∀ line ∈ lines, EndedLine line) ∧
      (10 : UInt8) ∉ tail ∧
      (queuePutlines q fragments).items
        = (lines ++ if tail.isEmpty then [] else [tail]).map chunkItem) ∧
    ∀ others : List Bytes, others.flatten = fragments.flatten →
      queuePutlines q others = queuePutlines q fragments := by
  have hitems (xs : List Bytes) : (queuePutlines q xs).items
      = (Lines.pieces isNewline xs.flatten).map chunkItem :=
    @queuePutlines_pieces xs q [] hempty
  refine ⟨⟨Lines.lines isNewline fragments.flatten, Lines.rest isNewline fragments.flatten,
    Lines.flatten_rest _, fun line => endedLine_of_mem, rest_newline_free _, hitems fragments⟩, ?_⟩
  intro others hothers
  apply Queue.ext_items
  · rw [hitems, hitems, hothers]
  · rw [queuePutlines_continuous, queuePutlines_continuous]

/-- Two lines and a tail, in four fragments of which one is empty. -/
theorem queuePutlines_lines_new :
    queueNew.items = [] ∧
    (∃ (lines : List Bytes) (tail : Bytes),
      lines.flatten ++ tail = [[97], [], [98, 10, 10], [99]].flatten ∧
      (∀ line ∈ lines, EndedLine line) ∧ (10 : UInt8) ∉ tail ∧
      (queuePutlines queueNew [[97], [], [98, 10, 10], [99]]).items
        = (lines ++ if tail.isEmpty then [] else [tail]).map chunkItem) ∧
    ∀ others : List Bytes, others.flatten = [[97], [], [98, 10, 10], [99]].flatten →
      queuePutlines queueNew others = queuePutlines queueNew [[97], [], [98, 10, 10], [99]] :=
  ⟨rfl, queuePutlines_lines rfl [[97], [], [98, 10, 10], [99]]⟩

example : ((queuePutlines queueNew [[97], [], [98, 10, 10], [99]]).items.map (·.block))
    = [some [97, 98, 10], some [10], some [99]] := by decide

end QjsNet
