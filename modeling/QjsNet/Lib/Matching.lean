import Mathlib.Data.List.Basic

/- The first and the last element of a list with a property.

   A loop that stops at a match returns the first one (`List.find?`), a loop that goes on
   and remembers each match the last one (`foldl_last`). What such a loop returns is the
   same in every order of the list exactly when there is at most one match
   (`find?_order_iff`, `last_order_iff`). A list is split at its first match
   (`first_split`, `first_unique`). -/
namespace Matching

variable {α : Type} {p q : α → Bool} {l l' : List α}

/-- The elements with the property are one and the same. -/
def AtMostOne (p : α → Bool) (l : List α) : Prop :=
  ∀ a ∈ l, ∀ b ∈ l, p a = true → p b = true → a = b

/-- The last element with the property. -/
def last (p : α → Bool) (l : List α) : Option α := l.reverse.find? p

theorem AtMostOne.congr (h : ∀ a ∈ l, p a = q a) : AtMostOne p l ↔ AtMostOne q l := by
  refine forall₄_congr fun a ha b hb => ?_
  rw [h a ha, h b hb]

theorem foldl_last (p : α → Bool) (l : List α) : ∀ m : Option α,
    l.foldl (fun m a => if p a then some a else m) m = (last p l).or m := by
  induction l with
  | nil => exact fun m => rfl
  | cons a l ih =>
    intro m
    rw [List.foldl_cons, ih, last, last, List.reverse_cons, List.find?_append, Option.or_assoc]
    congr 1
    cases h : p a with
    | true => simp [h]
    | false => simp [h]

theorem AtMostOne.perm (h : AtMostOne p l) (hperm : l'.Perm l) : AtMostOne p l' :=
  fun a ha b hb => h a (hperm.subset ha) b (hperm.subset hb)

theorem AtMostOne.find? (h : AtMostOne p l) {a : α} (ha : a ∈ l) (hpa : p a = true) :
    l.find? p = some a := by
  cases hfound : l.find? p with
  | none => exact absurd hpa (List.find?_eq_none.1 hfound a ha)
  | some b => rw [h b (List.mem_of_find?_eq_some hfound) a ha (List.find?_some hfound) hpa]

theorem AtMostOne.find?_perm (h : AtMostOne p l) (hperm : l'.Perm l) :
    l'.find? p = l.find? p := by
  cases hfound : l.find? p with
  | none =>
    rw [List.find?_eq_none] at hfound ⊢
    exact fun a ha => hfound a (hperm.subset ha)
  | some a =>
    have ha := hperm.symm.subset (List.mem_of_find?_eq_some hfound)
    exact (h.perm hperm).find? ha (List.find?_some hfound)

theorem AtMostOne.last_eq (h : AtMostOne p l) : last p l = l.find? p :=
  h.find?_perm l.reverse_perm

theorem perm_front {a : α} (ha : a ∈ l) : ∃ rest, (a :: rest).Perm l := by
  obtain ⟨s, t, rfl⟩ := List.append_of_mem ha
  exact ⟨s ++ t, List.perm_middle.symm⟩

/-- Each match is the first one in some order. -/
theorem find?_order_iff (p : α → Bool) (l : List α) :
    (∀ l' : List α, l'.Perm l → l'.find? p = l.find? p) ↔ AtMostOne p l := by
  refine ⟨?_, fun h l' hperm => h.find?_perm hperm⟩
  intro h
  have hfirst : ∀ a ∈ l, p a = true → l.find? p = some a := by
    intro a ha hpa
    obtain ⟨rest, hperm⟩ := perm_front ha
    rw [← h _ hperm, List.find?_cons_of_pos hpa]
  intro a ha b hb hpa hpb
  exact Option.some.inj ((hfirst a ha hpa).symm.trans (hfirst b hb hpb))

theorem last_order_iff (p : α → Bool) (l : List α) :
    (∀ l' : List α, l'.Perm l → last p l' = last p l) ↔ AtMostOne p l := by
  rw [← find?_order_iff]
  refine ⟨?_, ?_⟩
  · intro h l' hperm
    have hlast : ∀ l' : List α, l'.Perm l → l'.find? p = last p l := by
      intro l' hperm
      have hrev := h l'.reverse (l'.reverse_perm.trans hperm)
      rwa [last, List.reverse_reverse] at hrev
    rw [hlast l' hperm, hlast l (List.Perm.refl l)]
  · intro h l' hperm
    have hone := (find?_order_iff p l).1 h
    rw [(hone.perm hperm).last_eq, hone.last_eq, h l' hperm]

/-! ## The first match -/

variable {pre post : List α} {a : α}

theorem find?_first (hpre : ∀ b ∈ pre, p b = false) (ha : p a = true) :
    (pre ++ a :: post).find? p = some a :=
  List.find?_eq_some_iff_append.2 ⟨ha, pre, post, rfl, fun b hb => by rw [hpre b hb]; rfl⟩

theorem findIdx?_first (hpre : ∀ b ∈ pre, p b = false) (ha : p a = true) :
    (pre ++ a :: post).findIdx? p = some pre.length := by
  rw [List.findIdx?_append, List.findIdx?_eq_none_iff.2 hpre, List.findIdx?_cons, ha]
  simp

theorem findIdx?_skip (hpre : ∀ b ∈ pre, p b = false) :
    (pre ++ post).findIdx? p = (post.findIdx? p).map (· + pre.length) := by
  rw [List.findIdx?_append, List.findIdx?_eq_none_iff.2 hpre, Option.none_or]

theorem first_split (p : α → Bool) (l : List α) :
    (∀ a ∈ l, p a = false) ∨
      ∃ pre a post, l = pre ++ a :: post ∧ (∀ b ∈ pre, p b = false) ∧ p a = true := by
  cases hfind : l.find? p with
  | none => exact Or.inl fun a ha => Bool.eq_false_iff.2 (List.find?_eq_none.1 hfind a ha)
  | some a =>
    obtain ⟨ha, pre, post, hl, hpre⟩ := List.find?_eq_some_iff_append.1 hfind
    exact Or.inr ⟨pre, a, post, hl, fun b hb => by simpa using hpre b hb, ha⟩

theorem findIdx?_split {i : Nat} (hidx : l.findIdx? p = some i) :
    ∃ pre a post, l = pre ++ a :: post ∧ pre.length = i ∧ p a = true ∧ ∀ b ∈ pre, p b = false := by
  obtain hnone | ⟨pre, a, post, rfl, hpre, ha⟩ := first_split p l
  · rw [List.findIdx?_eq_none_iff.2 hnone] at hidx
    cases hidx
  · rw [findIdx?_first hpre ha] at hidx
    exact ⟨pre, a, post, rfl, Option.some.inj hidx, ha, hpre⟩

/-- Two properties have the same first match when they agree on the first element that has one of
them. -/
theorem findIdx?_eq_iff (p q : α → Bool) (l : List α) : l.findIdx? p = l.findIdx? q ↔
    ∀ pre a post, l = pre ++ a :: post → (∀ b ∈ pre, p b = false ∧ q b = false) → p a = q a := by
  refine ⟨?_, fun h => ?_⟩
  · rintro heq pre a post rfl hpre
    rw [findIdx?_skip fun b hb => (hpre b hb).1, findIdx?_skip fun b hb => (hpre b hb).2,
      Option.map_inj_right fun i j hij => Nat.add_right_cancel hij] at heq
    rw [List.findIdx?_cons, List.findIdx?_cons] at heq
    cases hp : p a with
    | true =>
      cases hq : q a with
      | true => rfl
      | false => exact absurd heq.symm (by simp [hp, hq])
    | false =>
      cases hq : q a with
      | true => exact absurd heq (by simp [hp, hq])
      | false => rfl
  · obtain hnone | ⟨pre, a, post, rfl, hpre, ha⟩ := first_split (fun a => p a || q a) l
    · have hfalse : ∀ a ∈ l, p a = false ∧ q a = false :=
        fun a ha => Bool.or_eq_false_iff.1 (hnone a ha)
      rw [List.findIdx?_eq_none_iff.2 fun a ha => (hfalse a ha).1,
        List.findIdx?_eq_none_iff.2 fun a ha => (hfalse a ha).2]
    · have hfalse : ∀ b ∈ pre, p b = false ∧ q b = false :=
        fun b hb => Bool.or_eq_false_iff.1 (hpre b hb)
      have hsame := h pre a post rfl hfalse
      rw [← hsame, Bool.or_self] at ha
      rw [findIdx?_first (fun b hb => (hfalse b hb).1) ha,
        findIdx?_first (fun b hb => (hfalse b hb).2) (hsame ▸ ha)]

theorem first_unique {pre' post' : List α} {a' : α} (h : pre ++ a :: post = pre' ++ a' :: post')
    (hpre : ∀ b ∈ pre, p b = false) (ha : p a = true) (hpre' : ∀ b ∈ pre', p b = false)
    (ha' : p a' = true) : pre = pre' ∧ a = a' := by
  have hidx : (pre ++ a :: post).findIdx? p = some pre.length := findIdx?_first hpre ha
  rw [h, findIdx?_first hpre' ha'] at hidx
  obtain ⟨heq, hrest⟩ := List.append_inj h (Option.some.inj hidx).symm
  exact ⟨heq, (List.cons.inj hrest).1⟩

/-! ## The largest match -/

/-- One of the largest elements with the property, or none where there is none. -/
def Largest (q : α → Bool) (size : α → Nat) (l : List α) : Option α → Prop
  | none => ∀ a ∈ l, q a = false
  | some a => a ∈ l ∧ q a = true ∧ ∀ b ∈ l, q b = true → size b ≤ size a

end Matching
