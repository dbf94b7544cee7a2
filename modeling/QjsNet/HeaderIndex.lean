import QjsNet.HeaderLookup
import QjsNet.HeaderMap
import QjsNet.Lib.Strides

/- The number of a line in a block of headers (`headers.c`).

   The loops of `headers_findb`, `headers_at` and `headers_size` go over a block in strides of
   `headers_next`. A stride is at least one byte, since a byte of the charset is skipped by
   one scan and any other by the scan before it, and it does not go beyond the block. So the
   three loops come past the same lines, and end where the block ends; the last one stops at
   that place only, and would run on behind it.

   The name of a line is what is in front of its first colon. `headers_findb` compares what a
   line begins with, up to its first character that is no letter, digit, `_` or `-` (and no
   zero byte, where the comparison ends): it finds the first line with the name when the first
   line that has the name or begins so does both (`header_loops_agree_iff`).

   Correspondence (C ↔ Lean):
     `headers_size`                 ↔ `headersSize`
     `x`, where the loops stand     ↔ `lineStart` -/
namespace QjsNet

/-- The loop of `headers_size`, whose pointer is `ptr` bytes behind `start`. -/
def sizeLoop (x itemdelim : Bytes) : Nat → Nat → Nat → Option Nat
  | 0, _, _ => none
  | fuel + 1, ptr, i =>
    if ptr = x.length then some i
    else sizeLoop x itemdelim fuel (ptr + headersNext (x.drop ptr) itemdelim) (i + 1)

/-- The number of lines. -/
def headersSize (b : ByteBuffer) (itemdelim : Bytes) : Option Nat :=
  sizeLoop b.content itemdelim (b.content.length + 1) 0 0

/-- Where a loop over the lines stands after `j` of them. -/
def lineStart (b : ByteBuffer) (itemdelim : Bytes) (j : Nat) : Nat :=
  Strides.place (headersNext · itemdelim) b.content j

/-- The lines of the block, each with what is behind it. -/
def blockLines (b : ByteBuffer) (itemdelim : Bytes) : List Bytes :=
  Strides.rests (headersNext · itemdelim) b.content

/-- What `headers_findb` asks of a line. -/
def begins (name itemdelim x : Bytes) : Bool := spells name (x.take (headersNext x itemdelim))

/-- The `l` bytes of a line that `headers_at` finds, in front of the first colon. -/
def lineName (x : Bytes) (l : Nat) : Bytes := (x.take l).takeWhile (· ≠ 58)

/-- The line has the name, in any case. -/
def lineNamed (name itemdelim x : Bytes) : Bool :=
  strcasecmp (lineName x (headersLength (x.take (headersNext x itemdelim)) itemdelim)) name

/-- Every stride is at least one byte and stays in the block, the loops end at the end of the
block, and the number that `headers_findb` gives is that of the first line of `headers_at`
with the name. -/
structure LoopsAgree (b : ByteBuffer) (itemdelim name : Bytes) : Prop where
  progress : ∀ x : Bytes, x ≠ [] → 1 ≤ headersNext x itemdelim ∧ headersNext x itemdelim ≤ x.length
  ends : ∀ fuel, b.content.length ≤ fuel → ∀ j : Nat,
    findLine name itemdelim fuel b.content 0 = headersFindb b name itemdelim
      ∧ lineAt itemdelim fuel b.content j = headersAt b j itemdelim
  agree : ∃ n, headersSize b itemdelim = some n
    ∧ (∀ j < n, lineStart b itemdelim j < b.content.length)
    ∧ lineStart b itemdelim n = b.content.length
    ∧ (∀ (j : Nat) (x : Bytes) (l : Nat), headersAt b j itemdelim = some (x, l)
      ↔ j < n ∧ x = b.content.drop (lineStart b itemdelim j)
        ∧ l = headersLength (x.take (headersNext x itemdelim)) itemdelim)
    ∧ ∀ i : Nat, headersFindb b name itemdelim = some i
      ↔ i < n
        ∧ (∃ x l, headersAt b i itemdelim = some (x, l) ∧ strcasecmp (lineName x l) name = true)
        ∧ ∀ j < i, ∀ x l, headersAt b j itemdelim = some (x, l) →
          strcasecmp (lineName x l) name = false

/-- The first line that has the name or begins with it does both. -/
def FirstNamed (b : ByteBuffer) (itemdelim name : Bytes) : Prop :=
  ∀ pre x post, blockLines b itemdelim = pre ++ x :: post →
    (∀ y ∈ pre, begins name itemdelim y = false ∧ lineNamed name itemdelim y = false) →
    begins name itemdelim x = lineNamed name itemdelim x

/-! ## Progress -/

theorem headersNext_pos {x : Bytes} (itemdelim : Bytes) (hx : x ≠ []) :
    0 < headersNext x itemdelim := by
  cases x with
  | nil => exact absurd rfl hx
  | cons c x =>
    unfold headersNext scanPast
    cases hc : inCharset itemdelim c with
    | true =>
      -- The first scan stops at once, and the second takes the byte.
      have hfirst : scanNoncharsetnskip (c :: x) itemdelim = 0 := by
        simp [scanNoncharsetnskip, hc]
      have hsecond : 0 < scanCharsetnskip (c :: x) itemdelim := by
        simp [scanCharsetnskip, hc]
      simpa [hfirst] using hsecond
    | false =>
      have hfirst : 0 < scanNoncharsetnskip (c :: x) itemdelim := by
        simp [scanNoncharsetnskip, hc]
      simp only
      split
      · exact Nat.add_pos_left hfirst _
      · exact hfirst

theorem headersNext_progress (itemdelim : Bytes) :
    Strides.Progress (headersNext · itemdelim) where
  pos _ hx := headersNext_pos itemdelim hx
  le x := headersNext_le x itemdelim

/-! ## The three loops -/

variable {itemdelim : Bytes}

theorem begins_eq (name x : Bytes) : begins name itemdelim x =
    (headersNamelen (x.take (headersNext x itemdelim)) = name.length
      && strncasecmp x name name.length) := by
  rw [begins, ← spells_append name _ (x.drop (headersNext x itemdelim)), List.take_append_drop]

theorem findLine_eq (name : Bytes) : ∀ fuel x, x.length ≤ fuel → ∀ ret,
    findLine name itemdelim fuel x ret
      = ((Strides.rests (headersNext · itemdelim) x).findIdx? (begins name itemdelim)).map
          (· + ret) := by
  have h := headersNext_progress itemdelim
  apply h.fuel_induct (motive := fun fuel x => ∀ ret, findLine name itemdelim fuel x ret
    = ((Strides.rests (headersNext · itemdelim) x).findIdx? (begins name itemdelim)).map (· + ret))
  · intro fuel ret
    cases fuel with
    | zero => rfl
    | succ fuel => rfl
  · intro fuel x hx _ ih ret
    have hempty : x.isEmpty = false := by simpa using hx
    rw [h.rests_cons hx, List.findIdx?_cons, findLine, hempty, if_neg Bool.false_ne_true]
    dsimp only
    rw [← begins_eq]
    cases begins name itemdelim x with
    | true => rw [if_pos rfl, if_pos rfl, Option.map_some, Nat.zero_add]
    | false =>
      rw [if_neg Bool.false_ne_true, if_neg Bool.false_ne_true, ih, Option.map_map]
      congr 1
      funext i
      simp only [Function.comp_apply]
      omega

theorem lineAt_eq : ∀ fuel x, x.length ≤ fuel → ∀ index,
    lineAt itemdelim fuel x index = (Strides.rests (headersNext · itemdelim) x)[index]?.map
      fun y => (y, headersLength (y.take (headersNext y itemdelim)) itemdelim) := by
  have h := headersNext_progress itemdelim
  apply h.fuel_induct (motive := fun fuel x => ∀ index, lineAt itemdelim fuel x index
    = (Strides.rests (headersNext · itemdelim) x)[index]?.map
        fun y => (y, headersLength (y.take (headersNext y itemdelim)) itemdelim))
  · intro fuel index
    cases fuel with
    | zero => rfl
    | succ fuel => rfl
  · intro fuel x hx _ ih index
    have hempty : x.isEmpty = false := by simpa using hx
    rw [h.rests_cons hx, lineAt, hempty, if_neg Bool.false_ne_true]
    cases index with
    | zero => rfl
    | succ index => exact ih index

theorem sizeLoop_eq (x : Bytes) : ∀ fuel y, y.length ≤ fuel → ∀ ptr i, ptr ≤ x.length →
    y = x.drop ptr → sizeLoop x itemdelim (fuel + 1) ptr i
      = some (i + (Strides.rests (headersNext · itemdelim) y).length) := by
  have h := headersNext_progress itemdelim
  apply h.fuel_induct (motive := fun fuel y => ∀ ptr i, ptr ≤ x.length →
    y = x.drop ptr → sizeLoop x itemdelim (fuel + 1) ptr i
      = some (i + (Strides.rests (headersNext · itemdelim) y).length))
  · intro fuel ptr i hptr hy
    have hend : ptr = x.length :=
      Nat.le_antisymm hptr (List.drop_eq_nil_iff.1 hy.symm)
    rw [sizeLoop, if_pos hend]
    rfl
  · intro fuel y hy _ ih ptr i hptr hdrop
    have hlen := congrArg List.length hdrop
    rw [List.length_drop] at hlen
    have hpos := List.length_pos_of_ne_nil hy
    have hle := h.le y
    have hrest : y.drop (headersNext y itemdelim)
        = x.drop (ptr + headersNext (x.drop ptr) itemdelim) := by
      rw [← hdrop, ← List.drop_drop, ← hdrop]
    rw [sizeLoop, if_neg (by omega), ih _ (i + 1) (by rw [← hdrop]; omega) hrest,
      h.rests_cons hy, List.length_cons]
    congr 1
    omega

/-! ## The lines of a block -/

section Block

variable (b : ByteBuffer)

theorem headersSize_eq : headersSize b itemdelim
    = some (Strides.rests (headersNext · itemdelim) b.content).length := by
  rw [headersSize, sizeLoop_eq b.content _ b.content (Nat.le_refl _) 0 0 (Nat.zero_le _)
    List.drop_zero.symm, Nat.zero_add]

theorem headersAt_eq (j : Nat) : headersAt b j itemdelim
    = (Strides.rests (headersNext · itemdelim) b.content)[j]?.map
        fun y => (y, headersLength (y.take (headersNext y itemdelim)) itemdelim) :=
  lineAt_eq _ b.content (Nat.le_refl _) j

theorem headersFindb_eq (name : Bytes) : headersFindb b name itemdelim
    = (blockLines b itemdelim).findIdx? (begins name itemdelim) := by
  rw [headersFindb, findLine_eq name _ b.content (Nat.le_refl _) 0]
  simp [blockLines]

/-- More turns than bytes change nothing: the loops end by themselves. -/
theorem loops_end {fuel : Nat} (hfuel : b.content.length ≤ fuel) (name : Bytes) (j : Nat) :
    findLine name itemdelim fuel b.content 0 = headersFindb b name itemdelim
      ∧ lineAt itemdelim fuel b.content j = headersAt b j itemdelim := by
  constructor
  · rw [headersFindb, findLine_eq name fuel b.content hfuel,
      findLine_eq name _ b.content (Nat.le_refl _)]
  · rw [headersAt, lineAt_eq fuel b.content hfuel, lineAt_eq _ b.content (Nat.le_refl _)]

theorem headersAt_iff (j : Nat) (x : Bytes) (l : Nat) : headersAt b j itemdelim = some (x, l)
    ↔ j < (Strides.rests (headersNext · itemdelim) b.content).length
      ∧ x = b.content.drop (lineStart b itemdelim j)
      ∧ l = headersLength (x.take (headersNext x itemdelim)) itemdelim := by
  have h := headersNext_progress itemdelim
  rw [headersAt_eq]
  by_cases hj : j < (Strides.rests (headersNext · itemdelim) b.content).length
  · rw [List.getElem?_eq_getElem hj, h.getElem_rests hj, Option.map_some, Option.some.injEq,
      Prod.mk.injEq, ← lineStart]
    constructor
    · rintro ⟨rfl, rfl⟩
      exact ⟨hj, rfl, rfl⟩
    · rintro ⟨-, rfl, rfl⟩
      exact ⟨rfl, rfl⟩
  · rw [List.getElem?_eq_none (Nat.le_of_not_lt hj), Option.map_none]
    exact iff_of_false nofun fun hall => hj hall.1

theorem lineAt_named (name : Bytes) (j : Nat) :
    (∃ x l, headersAt b j itemdelim = some (x, l) ∧ strcasecmp (lineName x l) name = true)
      ↔ ∃ x, (blockLines b itemdelim)[j]? = some x ∧ lineNamed name itemdelim x = true := by
  rw [headersAt_eq]
  constructor
  · rintro ⟨x, l, hat, hnamed⟩
    obtain ⟨y, hy, heq⟩ := Option.map_eq_some_iff.1 hat
    obtain ⟨rfl, rfl⟩ := Prod.mk.inj heq
    exact ⟨y, hy, hnamed⟩
  · rintro ⟨x, hx, hnamed⟩
    exact ⟨x, _, Option.map_eq_some_iff.2 ⟨x, hx, rfl⟩, hnamed⟩

/-- The first line that has the name, in the order of the numbers of `headers_at`. -/
theorem findIdx?_named (name : Bytes) (i : Nat) :
    (blockLines b itemdelim).findIdx? (lineNamed name itemdelim) = some i
      ↔ i < (blockLines b itemdelim).length
        ∧ (∃ x l, headersAt b i itemdelim = some (x, l) ∧ strcasecmp (lineName x l) name = true)
        ∧ ∀ j < i, ∀ x l, headersAt b j itemdelim = some (x, l) →
          strcasecmp (lineName x l) name = false := by
  rw [List.findIdx?_eq_some_iff_getElem, lineAt_named]
  constructor
  · rintro ⟨hi, hname, hbefore⟩
    refine ⟨hi, ⟨_, List.getElem?_eq_getElem hi, hname⟩, ?_⟩
    intro j hj x l hat
    refine Bool.eq_false_iff.2 fun hnamed => ?_
    obtain ⟨y, hy, hnamed⟩ := (lineAt_named b name j).1 ⟨x, l, hat, hnamed⟩
    rw [List.getElem?_eq_getElem (hj.trans hi), Option.some.injEq] at hy
    exact hbefore j hj (hy ▸ hnamed)
  · rintro ⟨hi, ⟨x, hx, hname⟩, hbefore⟩
    rw [List.getElem?_eq_getElem hi, Option.some.injEq] at hx
    refine ⟨hi, hx ▸ hname, ?_⟩
    intro j hj hnamed
    obtain ⟨x, l, hat, hname⟩ := (lineAt_named b name j).2
      ⟨_, List.getElem?_eq_getElem (hj.trans hi), hnamed⟩
    exact Bool.false_ne_true ((hbefore j hj x l hat).symm.trans hname)

end Block

/-- The loops always come past the same lines and end. `headers_findb` gives the number of the first
line with the name exactly when the first line that has it or begins with it does both. -/
theorem header_loops_agree_iff (b : ByteBuffer) (itemdelim name : Bytes) :
    LoopsAgree b itemdelim name ↔ FirstNamed b itemdelim name := by
  have h := headersNext_progress itemdelim
  have hfirst : FirstNamed b itemdelim name ↔ headersFindb b name itemdelim
      = (blockLines b itemdelim).findIdx? (lineNamed name itemdelim) := by
    rw [headersFindb_eq, Matching.findIdx?_eq_iff]
    rfl
  rw [hfirst]
  refine ⟨fun hagree => ?_, fun heq => ?_⟩
  · obtain ⟨n, hsize, -, -, -, hfind⟩ := hagree.agree
    obtain rfl := Option.some.inj ((headersSize_eq b).symm.trans hsize)
    apply Option.ext
    intro i
    exact (hfind i).trans (findIdx?_named b name i).symm
  · refine ⟨fun x hx => ⟨h.pos x hx, h.le x⟩, fun fuel hfuel j => loops_end b hfuel name j,
      _, headersSize_eq b, fun j hj => h.place_lt hj, h.place_end b.content, headersAt_iff b, ?_⟩
    intro i
    rw [heq]
    exact findIdx?_named b name i

/-- `a.b: 1` and `a: 2`: the first line is found for `a`. -/
theorem other_name_found :
    ¬ LoopsAgree ⟨[97, 46, 98, 58, 32, 49, 13, 10, 97, 58, 32, 50, 13, 10], 0, 14, by decide⟩
      crlf [97] := by
  rw [header_loops_agree_iff]
  intro h
  exact absurd (h [] [97, 46, 98, 58, 32, 49, 13, 10, 97, 58, 32, 50, 13, 10] _ rfl (by decide))
    (by decide)

/-- The name of a well-formed line is the one it was written with. -/
theorem FieldLine.lineName_eq (l : FieldLine) (rest : Bytes) :
    lineName (l.line ++ rest) l.text.length = l.name := by
  have htake : (l.line ++ rest).take l.text.length = l.text := by
    rw [FieldLine.line, List.append_assoc, List.take_left]
  rw [lineName, htake, FieldLine.text]
  refine takeWhile_all (fun c hc => ?_) fun c hc => ?_
  · exact decide_eq_true fun heq => l.name_ok.2.1 (heq ▸ hc)
  · exact Option.some.inj hc ▸ rfl

end QjsNet
