import Mathlib.Data.List.Nodup
import Mathlib.Logic.Function.Basic

/- A list of entries that stands for a partial map.

   Every entry has a key and a value. The list represents a map when no key is in it twice and
   it has an entry for just the keys of the map, with their values (`Represents`). Wherever
   the list is cut, an entry may be taken out, put in under a new key, or replaced by one with
   the same key, and what is left represents the map that is updated likewise. -/
namespace Entries

variable {ε κ β : Type} {key : ε → κ} {val : ε → β} {m : κ → Option β} {k : κ}
variable {xs ys front back : List ε} {e e' : ε}

structure Represents (key : ε → κ) (val : ε → β) (xs : List ε) (m : κ → Option β) : Prop where
  distinct : (xs.map key).Nodup
  agree : ∀ k v, m k = some v ↔ ∃ e ∈ xs, key e = k ∧ val e = v

theorem represents_nil : Represents key val [] fun _ => none := by
  refine ⟨List.nodup_nil, ?_⟩
  intro k v
  simp

/-- Only the keys and the values count. -/
theorem Represents.congr (h : Represents key val xs m)
    (heq : ys.map (fun e => (key e, val e)) = xs.map fun e => (key e, val e)) :
    Represents key val ys m := by
  have hmem : ∀ k v, (∃ e ∈ ys, key e = k ∧ val e = v) ↔ ∃ e ∈ xs, key e = k ∧ val e = v := by
    intro k v
    have hpair := congrArg (fun l => (k, v) ∈ l) heq
    simpa only [List.mem_map, Prod.mk.injEq, eq_iff_iff] using hpair
  refine ⟨?_, ?_⟩
  · have hkeys := congrArg (List.map Prod.fst) heq
    rw [List.map_map, List.map_map] at hkeys
    exact hkeys ▸ h.distinct
  · intro k v
    rw [h.agree, hmem]

theorem Represents.eq_none_iff (h : Represents key val xs m) :
    m k = none ↔ ∀ e ∈ xs, key e ≠ k := by
  rw [Option.eq_none_iff_forall_ne_some]
  constructor
  · intro hnone e he hkey
    exact hnone (val e) ((h.agree k (val e)).2 ⟨e, he, hkey, rfl⟩)
  · intro hne v hsome
    obtain ⟨e, he, hkey, -⟩ := (h.agree k v).1 hsome
    exact hne e he hkey

theorem split_of_findIdx? [DecidableEq κ] {i : Nat}
    (h : xs.findIdx? (fun e => decide (key e = k)) = some i) :
    ∃ front e back, xs = front ++ e :: back ∧ front.length = i ∧ key e = k := by
  obtain ⟨hi, hkey, -⟩ := List.findIdx?_eq_some_iff_getElem.1 h
  refine ⟨xs.take i, xs[i], xs.drop (i + 1), ?_, List.length_take_of_le (Nat.le_of_lt hi),
    by simpa using hkey⟩
  rw [List.getElem_cons_drop, List.take_append_drop]

theorem Represents.unique {m' : κ → Option β} (h : Represents key val xs m)
    (h' : Represents key val xs m') : m = m' := by
  funext k
  apply Option.ext
  intro v
  exact (h.agree k v).trans (h'.agree k v).symm

theorem mem_middle {d : ε} : d ∈ front ++ e :: back ↔ d = e ∨ d ∈ front ++ back := by
  rw [List.mem_append, List.mem_cons, List.mem_append]
  exact or_left_comm

/-- An entry with another key is found with or without `e`. -/
theorem exists_middle {v : β} (hk : k ≠ key e) : (∃ d ∈ front ++ e :: back, key d = k ∧ val d = v)
    ↔ ∃ d ∈ front ++ back, key d = k ∧ val d = v := by
  constructor
  · rintro ⟨d, hd, hkey, hval⟩
    rcases mem_middle.1 hd with rfl | hd
    · exact absurd hkey.symm hk
    · exact ⟨d, hd, hkey, hval⟩
  · rintro ⟨d, hd, hkey, hval⟩
    exact ⟨d, mem_middle.2 (Or.inr hd), hkey, hval⟩

theorem nodup_middle_iff : ((front ++ e :: back).map key).Nodup
    ↔ (∀ d ∈ front ++ back, key d ≠ key e) ∧ ((front ++ back).map key).Nodup := by
  rw [List.map_append, List.map_cons, List.nodup_middle, List.nodup_cons, ← List.map_append]
  apply and_congr_left'
  rw [List.mem_map]
  constructor
  · exact fun hnone d hd hkey => hnone ⟨d, hd, hkey⟩
  · rintro hne ⟨d, hd, hkey⟩
    exact hne d hd hkey

section Update

variable [DecidableEq κ]

theorem Represents.erase (h : Represents key val (front ++ e :: back) m) :
    Represents key val (front ++ back) (Function.update m (key e) none) := by
  obtain ⟨hothers, hdistinct⟩ := nodup_middle_iff.1 h.distinct
  refine ⟨hdistinct, ?_⟩
  intro k v
  by_cases hk : k = key e
  · rw [hk, Function.update_self]
    refine iff_of_false nofun ?_
    rintro ⟨d, hd, hkey, -⟩
    exact hothers d hd hkey
  · rw [Function.update_of_ne hk, h.agree, exists_middle hk]

theorem Represents.insert (h : Represents key val (front ++ back) m) (hnew : m (key e) = none) :
    Represents key val (front ++ e :: back) (Function.update m (key e) (some (val e))) := by
  have hothers := h.eq_none_iff.1 hnew
  refine ⟨nodup_middle_iff.2 ⟨hothers, h.distinct⟩, ?_⟩
  intro k v
  by_cases hk : k = key e
  · rw [hk, Function.update_self, Option.some.injEq]
    constructor
    · rintro rfl
      exact ⟨e, mem_middle.2 (Or.inl rfl), rfl, rfl⟩
    · rintro ⟨d, hd, hkey, rfl⟩
      rcases mem_middle.1 hd with rfl | hd
      · rfl
      · exact absurd hkey (hothers d hd)
  · rw [Function.update_of_ne hk, h.agree, exists_middle hk]

theorem Represents.replace (h : Represents key val (front ++ e :: back) m) (hkey : key e' = key e) :
    Represents key val (front ++ e' :: back) (Function.update m (key e) (some (val e'))) := by
  have herased := h.erase
  rw [← hkey] at herased ⊢
  have hinserted := herased.insert (e := e') (Function.update_self ..)
  rwa [Function.update_idem] at hinserted

end Update

end Entries
