import QjsNet.UrlPath

/- Where the scanners of a URL read (`url.c`).

   A path is a string in memory with a zero behind it, and a pointer is a place in it. A
   character can be read up to that zero (`cell`); a read behind it, or through a null
   pointer, is a `PathFault`. The scan steps over two characters at a backslash. At a
   backslash in front of the terminating zero it is behind the string then, and reads on
   there, unless it has found its mark before. `url_query` reads through what the scan
   returns, which is null for a path that is missing; the others hand it on.

   Correspondence (C ↔ Lean):
     `p` of `start_from` in its loop  ↔ `scanFrom`
     `start_from`                     ↔ `startFromPtr`
     `url_query`, `url_search`, `url_hash`
       ↔ `urlQueryPtr`, `urlSearchPtr`, `urlHashPtr` -/
namespace QjsNet

/-- A string in memory: its zero ends it. -/
structure CPath where
  str : Bytes
  no_zero : (0 : UInt8) ∉ str

/-- The character at a place of the string or its end. -/
def cell (s : Bytes) (p : Nat) : Option UInt8 := (s ++ [0])[p]?

theorem cell_le {s : Bytes} {p : Nat} {c : UInt8} (h : cell s p = some c) : p ≤ s.length := by
  obtain ⟨hp, -⟩ := List.getElem?_eq_some_iff.1 h
  rw [List.length_append, List.length_singleton] at hp
  omega

theorem cell_end (s : Bytes) : cell s s.length = some 0 := by
  rw [cell, List.getElem?_append_right (Nat.le_refl _), Nat.sub_self]
  rfl

/-- Up to the zero every character can be read, and a character that is not zero has one behind it.
-/
theorem cell_of_le {s : Bytes} {p : Nat} (h : p ≤ s.length) :
    ∃ c, cell s p = some c ∧ (c ≠ 0 → p < s.length) := by
  rcases Nat.lt_or_eq_of_le h with hlt | rfl
  · exact ⟨s[p], by rw [cell, List.getElem?_append_left hlt, List.getElem?_eq_getElem hlt],
      fun _ => hlt⟩
  · exact ⟨0, cell_end s, fun hne => absurd rfl hne⟩

/-- The loop of `start_from`, from `p` on. -/
def scanFrom (s : Bytes) (ch : UInt8) (p : Nat) : Except PathFault Nat :=
  match h : cell s p with
  | none => .error .overrun
  | some c =>
    if c = 0 then .ok p
    else if c = 92 then scanFrom s ch (p + 2)
    else if c = ch then .ok p
    else scanFrom s ch (p + 1)
termination_by s.length + 1 - p
decreasing_by
  all_goals
    have hle := cell_le h
    omega

/-- `none` is a null pointer. -/
def startFromPtr (ch : UInt8) : Option CPath → Except PathFault (Option Nat)
  | none => .ok none
  | some s => (scanFrom s.str ch 0).map some

/-- The character behind a pointer into the path. -/
def charAt (path : Option CPath) (p : Option Nat) : Except PathFault UInt8 :=
  match path, p with
  | some s, some p => (cell s.str p).elim (.error .overrun) .ok
  | _, _ => .error .absent

def urlQueryPtr (path : Option CPath) : Except PathFault (Option Nat) := do
  let p ← startFromPtr 63 path
  let c ← charAt path p
  return if c = 63 then p.map (· + 1) else none

/-- The pointer, and the length stored at `len_p`. -/
def urlSearchPtr (path : Option CPath) : Except PathFault (Option (Nat × Nat)) := do
  let s ← startFromPtr 63 path
  return s.map fun i => (i, byteChr ((path.elim [] CPath.str).drop i) 35)

def urlHashPtr (path : Option CPath) : Except PathFault (Option Nat) := startFromPtr 35 path

/-- Null, or a pointer into the string at or before its zero, without a read outside. -/
def Inside (path : Option CPath) (r : Except PathFault (Option Nat)) : Prop :=
  ∃ p, r = .ok p ∧ ∀ i ∈ p, ∃ s ∈ path, i ≤ s.str.length

/-- The last backslash escapes nothing but the end, and no mark is in front of it. -/
def EscapesEnd (ch : UInt8) (path : Option CPath) : Prop :=
  ∃ s ∈ path, ∃ front, s.str = front ++ [92] ∧ Unmarked ch front

/-! ## The scan by places -/

variable {s : Bytes} {ch c : UInt8} {p : Nat}

theorem scanFrom_outside (h : s.length < p) : scanFrom s ch p = .error .overrun := by
  have hcell : cell s p = none := by
    apply List.getElem?_eq_none
    rw [List.length_append, List.length_singleton]
    omega
  rw [scanFrom]
  split
  · rfl
  · next hc =>
    rw [hcell] at hc
    cases hc

theorem scanFrom_cell (h : cell s p = some c) :
    scanFrom s ch p = if c = 0 then .ok p else if c = 92 then scanFrom s ch (p + 2)
      else if c = ch then .ok p else scanFrom s ch (p + 1) := by
  rw [scanFrom]
  split
  · next hc =>
    rw [h] at hc
    cases hc
  · next hc =>
    rw [h] at hc
    cases hc
    rfl

theorem cell_append (front : Bytes) (c : UInt8) (rest : Bytes) :
    cell (front ++ c :: rest) front.length = some c := by
  rw [cell, List.append_assoc, List.getElem?_append_right (Nat.le_refl _), Nat.sub_self]
  rfl

/-- The place at which the scan stops is where the rest that it finds begins. -/
theorem scanFrom_append (ch : UInt8) : ∀ front rest : Bytes, (0 : UInt8) ∉ rest →
    scanFrom (front ++ rest) ch front.length
      = (startFrom ch rest).map fun r => (front ++ rest).length - r.length
  | front, [], _ => by
    have hcell := cell_end front
    rw [List.append_nil, scanFrom_cell hcell, if_pos rfl]
    rfl
  | front, [c], hzero => by
    have hne : c ≠ 0 := fun h => hzero (h ▸ List.mem_singleton_self c)
    rw [scanFrom_cell (cell_append front c []), if_neg hne, startFrom]
    by_cases hescape : c = 92
    · rw [if_pos hescape, if_pos hescape, scanFrom_outside (by simp)]
      rfl
    · rw [if_neg hescape, if_neg hescape]
      by_cases hmark : c = ch
      · rw [if_pos hmark, if_pos hmark]
        simp [Except.map]
      · have hend := scanFrom_append ch (front ++ [c]) [] List.not_mem_nil
        have hlen : (front ++ [c]).length = front.length + 1 := by simp
        rw [List.append_nil, hlen] at hend
        rw [if_neg hmark, if_neg hmark, hlen]
        exact hend
  | front, c :: d :: rest, hzero => by
    have hne : c ≠ 0 := fun h => hzero (h ▸ List.mem_cons_self)
    rw [scanFrom_cell (cell_append front c (d :: rest)), if_neg hne, startFrom]
    by_cases hescape : c = 92
    · have hrest := scanFrom_append ch (front ++ [c, d]) rest
        fun h => hzero (List.mem_cons_of_mem c (List.mem_cons_of_mem d h))
      rw [List.append_assoc, List.length_append] at hrest
      rw [if_pos hescape, if_pos hescape]
      exact hrest
    · rw [if_neg hescape, if_neg hescape]
      by_cases hmark : c = ch
      · rw [if_pos hmark, if_pos hmark]
        simp [Except.map]
      · have hrest := scanFrom_append ch (front ++ [c]) (d :: rest)
          fun h => hzero (List.mem_cons_of_mem c h)
        rw [List.append_assoc, List.length_append] at hrest
        rw [if_neg hmark, if_neg hmark]
        exact hrest

theorem scanFrom_zero (s : CPath) (ch : UInt8) :
    scanFrom s.str ch 0 = (startFrom ch s.str).map fun r => s.str.length - r.length :=
  scanFrom_append ch [] s.str s.no_zero

/-! ## When a scan overruns -/

theorem escapes_of_overrun : ∀ p : Bytes, startFrom ch p = .error .overrun →
    ∃ front, p = front ++ [92] ∧ Unmarked ch front
  | [], h => by cases h
  | [c], h => by
    by_cases hescape : c = 92
    · exact ⟨[], congrArg (fun c => [c]) hescape, .nil⟩
    · rw [startFrom, if_neg hescape] at h
      by_cases hmark : c = ch
      · rw [if_pos hmark] at h
        cases h
      · rw [if_neg hmark] at h
        cases h
  | c :: d :: p, h => by
    by_cases hescape : c = 92
    · rw [hescape, startFrom_escaped] at h
      obtain ⟨front, hp, hfront⟩ := escapes_of_overrun p h
      exact ⟨92 :: d :: front, by rw [hescape, hp]; rfl, .escaped d hfront⟩
    · by_cases hmark : c = ch
      · rw [startFrom, if_neg hescape, if_pos hmark] at h
        cases h
      · rw [startFrom_char hescape hmark] at h
        obtain ⟨front, hp, hfront⟩ := escapes_of_overrun (d :: p) h
        exact ⟨c :: front, by rw [hp]; rfl, .char hescape hmark hfront⟩

theorem startFrom_overrun_iff :
    startFrom ch s = .error .overrun ↔ ∃ front, s = front ++ [92] ∧ Unmarked ch front := by
  constructor
  · exact escapes_of_overrun s
  · rintro ⟨front, rfl, hfront⟩
    rw [hfront.startFrom_append]
    rfl

/-! ## The scanners -/

variable {path : Option CPath}

theorem escapesEnd_some (s : CPath) :
    EscapesEnd ch (some s) ↔ startFrom ch s.str = .error .overrun := by
  rw [startFrom_overrun_iff, EscapesEnd]
  constructor
  · rintro ⟨_, hs, hfront⟩
    cases hs
    exact hfront
  · exact fun hfront => ⟨s, rfl, hfront⟩

theorem not_inside_error (f : PathFault) : ¬ Inside path (.error f) := by
  rintro ⟨_, h, -⟩
  cases h

theorem inside_none : Inside path (.ok none) := ⟨none, rfl, nofun⟩

theorem inside_some (s : CPath) (p : Nat) : Inside (some s) (.ok (some p)) ↔ p ≤ s.str.length := by
  constructor
  · rintro ⟨_, h, hp⟩
    cases h
    obtain ⟨_, hs, hle⟩ := hp p rfl
    cases hs
    exact hle
  · intro hle
    refine ⟨some p, rfl, ?_⟩
    rintro _ ⟨⟩
    exact ⟨s, rfl, hle⟩

theorem startFromPtr_some (s : CPath) (ch : UInt8) :
    (EscapesEnd ch (some s) ∧ startFromPtr ch (some s) = .error .overrun)
      ∨ ¬ EscapesEnd ch (some s)
        ∧ ∃ p, p ≤ s.str.length ∧ startFromPtr ch (some s) = .ok (some p) := by
  rw [escapesEnd_some, startFromPtr, scanFrom_zero]
  cases hscan : startFrom ch s.str with
  | error f =>
    rw [startFrom_error hscan]
    exact Or.inl ⟨rfl, rfl⟩
  | ok r => exact Or.inr ⟨nofun, _, Nat.sub_le _ _, rfl⟩

theorem startFromPtr_inside_iff (ch : UInt8) :
    Inside path (startFromPtr ch path) ↔ ¬ EscapesEnd ch path := by
  cases path with
  | none => exact iff_of_true inside_none fun ⟨_, hs, _⟩ => nomatch hs
  | some s =>
    rcases startFromPtr_some s ch with ⟨hescape, hscan⟩ | ⟨hescape, p, hle, hscan⟩
    · rw [hscan]
      exact iff_of_false (not_inside_error _) fun h => h hescape
    · rw [hscan]
      exact iff_of_true ((inside_some s p).2 hle) hescape

theorem urlQueryPtr_inside_iff :
    Inside path (urlQueryPtr path) ↔ path ≠ none ∧ ¬ EscapesEnd 63 path := by
  cases path with
  | none => exact iff_of_false (not_inside_error .absent) fun h => h.1 rfl
  | some s =>
    rw [urlQueryPtr]
    rcases startFromPtr_some s 63 with ⟨hescape, hscan⟩ | ⟨hescape, p, hle, hscan⟩
    · rw [hscan]
      exact iff_of_false (not_inside_error .overrun) fun h => h.2 hescape
    · refine iff_of_true ?_ ⟨nofun, hescape⟩
      obtain ⟨c, hcell, hlt⟩ := cell_of_le hle
      have hread : charAt (some s) (some p) = .ok c := by rw [charAt, hcell, Option.elim_some]
      simp only [hscan, hread, bind, Except.bind, pure, Except.pure]
      by_cases hmark : c = 63
      · rw [if_pos hmark]
        -- A question mark is not the end, so there is a place behind it.
        exact (inside_some s (p + 1)).2 (hlt (hmark ▸ by decide))
      · rw [if_neg hmark]
        exact inside_none

theorem urlSearchPtr_inside_iff :
    Inside path ((urlSearchPtr path).map (Option.map (·.1))) ↔ ¬ EscapesEnd 63 path := by
  rw [← startFromPtr_inside_iff, urlSearchPtr]
  cases hscan : startFromPtr 63 path with
  | error f => rfl
  | ok p => cases p <;> rfl

/-- Where each scanner stays inside the string. -/
theorem url_scanners_inside_iff (path : Option CPath) :
    (∀ ch, Inside path (startFromPtr ch path) ↔ ¬ EscapesEnd ch path)
      ∧ (Inside path (urlQueryPtr path) ↔ path ≠ none ∧ ¬ EscapesEnd 63 path)
      ∧ (Inside path ((urlSearchPtr path).map (Option.map (·.1))) ↔ ¬ EscapesEnd 63 path)
      ∧ (Inside path (urlHashPtr path) ↔ ¬ EscapesEnd 35 path) :=
  ⟨startFromPtr_inside_iff, urlQueryPtr_inside_iff, urlSearchPtr_inside_iff,
    startFromPtr_inside_iff 35⟩

/-- A path that is one backslash, and no path. -/
theorem backslash_not_inside :
    ¬ Inside (some ⟨[92], by decide⟩) (urlHashPtr (some ⟨[92], by decide⟩))
      ∧ ¬ Inside none (urlQueryPtr none) := by
  constructor
  · rw [urlHashPtr, startFromPtr_inside_iff, not_not]
    exact ⟨_, rfl, [], rfl, .nil⟩
  · exact not_inside_error .absent

end QjsNet
