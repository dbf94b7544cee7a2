import Mathlib.Data.List.Basic
import Mathlib.Tactic.Ring

/- A sequence cut into pieces of one length, of which the last may be shorter.

   `Pieces c bs` says that every list of `bs` but the last has length `c` and none is
   longer. It is kept when pieces are taken away at the front (`Pieces.drop`), and
   pieces of full length may be put before it (`Pieces.cons`, `Pieces.append`). Full
   pieces of one sequence are determined by their number (`full_pieces_eq`), and the
   lengths of the pieces by the length of the sequence (`pieces_lengths`). -/
namespace Cut

variable {α : Type} {c : Nat} {b : List α} {bs cs : List (List α)}

structure Pieces (c : Nat) (bs : List (List α)) : Prop where
  full : ∀ b ∈ bs.dropLast, b.length = c
  le : ∀ b ∈ bs, b.length ≤ c

theorem pieces_nil : Pieces c ([] : List (List α)) :=
  ⟨fun _ hb => absurd hb List.not_mem_nil, fun _ hb => absurd hb List.not_mem_nil⟩

theorem pieces_singleton (hb : b.length ≤ c) : Pieces c [b] := by
  refine ⟨fun _ hb' => absurd hb' List.not_mem_nil, ?_⟩
  intro b' hb'
  obtain rfl := List.mem_singleton.1 hb'
  exact hb

theorem Pieces.cons (h : Pieces c bs) (hb : b.length = c) : Pieces c (b :: bs) := by
  refine ⟨?_, ?_⟩
  · intro b' hb'
    cases bs with
    | nil => cases hb'
    | cons d ds =>
      rw [List.dropLast_cons_cons] at hb'
      rcases List.mem_cons.1 hb' with rfl | hb'
      · exact hb
      · exact h.full b' hb'
  · intro b' hb'
    rcases List.mem_cons.1 hb' with rfl | hb'
    · exact Nat.le_of_eq hb
    · exact h.le b' hb'

theorem Pieces.append (h : Pieces c cs) (hbs : ∀ b ∈ bs, b.length = c) : Pieces c (bs ++ cs) := by
  induction bs with
  | nil => exact h
  | cons b bs ih =>
    rw [List.cons_append]
    exact (ih fun d hd => hbs d (List.mem_cons_of_mem b hd)).cons (hbs b (List.mem_cons_self ..))

theorem Pieces.init (h : Pieces c (bs ++ [b])) : ∀ d ∈ bs, d.length = c := by
  have hfull := h.full
  rwa [List.dropLast_concat] at hfull

theorem Pieces.drop (h : Pieces c bs) (k : Nat) : Pieces c (bs.drop k) := by
  refine ⟨?_, fun d hd => h.le d (List.mem_of_mem_drop hd)⟩
  intro d hd
  refine h.full d ?_
  rw [List.dropLast_eq_take, List.length_drop] at hd
  rw [List.dropLast_eq_take]
  -- What is taken of the rest is what is left of what is taken.
  have htake : (bs.drop k).take (bs.length - k - 1) = (bs.take (bs.length - 1)).drop k := by
    rw [List.drop_take]
    congr 1
    omega
  rw [htake] at hd
  exact List.mem_of_mem_drop hd

theorem Pieces.full_of_le (h : Pieces c bs) (hb : b ∈ bs) (hc : c ≤ b.length) : b.length = c :=
  Nat.le_antisymm (h.le b hb) hc

/-- Two cuts of a sequence into full pieces agree as far as both go. -/
theorem full_pieces_eq : ∀ (k : Nat) {bs cs : List (List α)} {xs ys : List α} {b d : List α},
    (∀ b ∈ bs, b.length = c) → (∀ d ∈ cs, d.length = c) → bs.flatten ++ xs = cs.flatten ++ ys →
    bs[k]? = some b → cs[k]? = some d → b = d := by
  intro k
  induction k with
  | zero =>
    intro bs cs xs ys b d hbs hcs heq hb hd
    obtain ⟨bs, rfl⟩ : ∃ bs', bs = b :: bs' := by
      cases bs with
      | nil => cases hb
      | cons b' bs' => exact ⟨bs', by rw [Option.some.inj hb]⟩
    obtain ⟨cs, rfl⟩ : ∃ cs', cs = d :: cs' := by
      cases cs with
      | nil => cases hd
      | cons d' cs' => exact ⟨cs', by rw [Option.some.inj hd]⟩
    rw [List.flatten_cons, List.flatten_cons, List.append_assoc, List.append_assoc] at heq
    have hlen : b.length = d.length :=
      (hbs b (List.mem_cons_self ..)).trans (hcs d (List.mem_cons_self ..)).symm
    exact List.append_inj_left heq hlen
  | succ k ih =>
    intro bs cs xs ys b d hbs hcs heq hb hd
    cases bs with
    | nil => cases hb
    | cons b' bs =>
      cases cs with
      | nil => cases hd
      | cons d' cs =>
        rw [List.flatten_cons, List.flatten_cons, List.append_assoc, List.append_assoc] at heq
        have hlen : b'.length = d'.length :=
          (hbs b' (List.mem_cons_self ..)).trans (hcs d' (List.mem_cons_self ..)).symm
        exact ih (fun b hb => hbs b (List.mem_cons_of_mem b' hb))
          (fun d hd => hcs d (List.mem_cons_of_mem d' hd)) (List.append_inj_right heq hlen)
          hb hd

/-- The lengths of `n` elements in pieces of `c`: full pieces, and what is left for the last. -/
def lengths (c n : Nat) : List Nat :=
  List.replicate ((n - 1) / c) c ++ [n - c * ((n - 1) / c)]

theorem lengths_of_le {n : Nat} (h : n ≤ c) : lengths c n = [n] := by
  have hfull : (n - 1) / c = 0 := by
    rcases Nat.eq_zero_or_pos c with rfl | hc
    · exact Nat.div_zero _
    · exact Nat.div_eq_of_lt (by omega)
  rw [lengths, hfull, Nat.mul_zero, Nat.sub_zero]
  rfl

theorem flatten_length_full (h : ∀ b ∈ bs, b.length = c) : bs.flatten.length = c * bs.length := by
  induction bs with
  | nil => rfl
  | cons b bs ih =>
    rw [List.flatten_cons, List.length_append, h b (List.mem_cons_self ..),
      ih fun d hd => h d (List.mem_cons_of_mem b hd), List.length_cons]
    ring

/-- Pieces with elements have the lengths that the whole determines. -/
theorem pieces_lengths (h : Pieces c bs) (hbs : bs ≠ []) (hne : ∀ b ∈ bs, b ≠ []) :
    bs.map List.length = lengths c bs.flatten.length := by
  rcases List.eq_nil_or_concat' bs with rfl | ⟨init, last, rfl⟩
  · exact absurd rfl hbs
  · have hinit := h.init
    have hle := h.le last (by simp)
    have hpos := List.length_pos_iff.2 (hne last (by simp))
    have hlen : (init ++ [last]).flatten.length = c * init.length + last.length := by
      rw [List.flatten_append, List.length_append, flatten_length_full hinit,
        List.flatten_singleton]
    -- The last piece is not empty and not longer than the others, so these are counted.
    have hcount : (c * init.length + last.length - 1) / c = init.length := by
      rw [Nat.add_sub_assoc hpos, Nat.mul_add_div (Nat.lt_of_lt_of_le hpos hle),
        Nat.div_eq_of_lt (by omega), Nat.add_zero]
    have hfull : init.map List.length = List.replicate init.length c :=
      List.eq_replicate_iff.2 ⟨List.length_map .., by simpa using hinit⟩
    rw [hlen, lengths, hcount, List.map_append, hfull, Nat.add_sub_cancel_left]
    rfl

end Cut
