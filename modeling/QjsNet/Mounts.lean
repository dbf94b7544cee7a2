import Mathlib.Data.List.Find
import Mathlib.Data.List.Nodup
import QjsNet.Lib.Matching
import QjsNet.Utils

/- The mount of a request (`mount_find`, `mount_find_s` in `minnet-server-http.c`).

   A mountpoint begins with a slash, and `mountpoint_len` is its length as an unsigned char:
   no more than so many of its characters are compared, none of 256. `mount_find`
   compares without the slash when `n` is 0; `l`, which a mountpoint has to reach, is never
   raised, so that every mountpoint that is a prefix of the path is taken and the last one
   stays. `mount_find_s` stops at the first mountpoint that is the path or a prefix of it.

   Both results depend on the order of the list as soon as there are two such mounts
   (`mount_find_iff`, `mount_find_s_iff`). In the byte strings 47 is the slash and 63 the question
   mark.

   Correspondence (C ↔ Lean):
     `strncmp(a, b, n) == 0`        ↔ `strncmp`
     `enum lws_mount_protocols`     ↔ `MountProtocol`
     `lws.mountpoint_len`           ↔ `HttpMount.mountpointLen`
     `mount_find`, `mount_find_s`   ↔ `mountFind`, `mountFindS` -/
namespace QjsNet

inductive MountProtocol where
  | http
  | https
  | file
  | cgi
  | redirHttp
  | redirHttps
  | callback
  deriving DecidableEq, Repr

/-- The fields of a mount that a lookup reads. `mount_fromobj` puts the slash in front. -/
structure HttpMount where
  mountpoint : Bytes
  originProtocol : MountProtocol
  slash : mountpoint.head? = some 47
  deriving DecidableEq, Repr

/-- `m->lws.mountpoint_len = strlen(mnt)` -/
def HttpMount.mountpointLen (m : HttpMount) : UInt8 := UInt8.ofNat m.mountpoint.length

/-- The strings are equal, or their first `n` characters are. -/
def strncmp (a b : Bytes) (n : Nat) : Bool := a.take n = b.take n

/-- A segment of the path ends in front of the character. -/
def segmentEnd (x : Bytes) (k : Nat) : Bool := x[k]? = some 47 || x[k]? = some 63

def skipSlash (x : Bytes) : Bytes := if x.head? = some 47 then x.tail else x

/-- A turn of the loop of `mount_find`. -/
def mountFindTurn (callback : Bool) (x : Bytes) (n l : Nat) (m : Option HttpMount) (p : HttpMount) :
    Option HttpMount :=
  if !callback || p.originProtocol = .callback then
    let mnt := if callback then skipSlash p.mountpoint else p.mountpoint
    let len := p.mountpointLen.toUInt64
    let len := (if callback && p.mountpoint.head? = some 47 then len - 1 else len).toNat
    let m := if (len = n || (len < n && segmentEnd x len)) && strncmp x mnt n then some p else m
    if len ≤ n && l ≤ len && strncmp mnt x (min len n) then some p else m
  else m

def mountFind (mounts : List HttpMount) (x : Bytes) (n : Nat) : Option HttpMount :=
  let callback : Bool := n = 0
  let n := if callback then x.length else n
  let n := if callback && x.head? = some 47 then n - 1 else n
  let x := if callback then skipSlash x else x
  mounts.foldl (mountFindTurn callback x n 0) none

/-- The loop of `mount_find_s`, which has found `m`. -/
def mountFindLoop (x : Bytes) (m : Option HttpMount) : List HttpMount → Option HttpMount
  | [] => m
  | p :: mounts =>
    let mnt := p.mountpoint
    let len := p.mountpointLen.toNat
    if len = x.length && strncmp x mnt x.length then some p
    else
      let m := if len = 1 && mnt.head? = some 47 then some p else m
      if (len < x.length && segmentEnd x len) && (len = 0 || strncmp x mnt len) then some p
      else mountFindLoop x m mounts

def mountFindS (mounts : List HttpMount) (x : Bytes) : Option HttpMount :=
  mountFindLoop x none mounts

/-! ## What a lookup is for -/

/-- Callback mounts when `n` is 0, all mounts otherwise. -/
def HttpMount.eligible (n : Nat) (m : HttpMount) : Bool := n ≠ 0 || m.originProtocol = .callback

/-- `/` -/
def HttpMount.isRoot (m : HttpMount) : Bool := m.mountpoint = [47]

/-- The path of a request: all of `x`, or its first `n` characters. -/
def requestPath (x : Bytes) (n : Nat) : Bytes := if n = 0 then skipSlash x else x.take n

/-- The mountpoint as it is compared with the path. -/
def HttpMount.name (n : Nat) (m : HttpMount) : Bytes :=
  if n = 0 then skipSlash m.mountpoint else m.mountpoint

/-- How many of its characters are compared. A slash less than none is `SIZE_MAX`. -/
def HttpMount.compared (n : Nat) (m : HttpMount) : Nat :=
  if n = 0 then (m.mountpointLen.toUInt64 - 1).toNat else m.mountpointLen.toNat

/-- They are a prefix of the path. -/
def HttpMount.hasPrefix (x : Bytes) (n : Nat) (m : HttpMount) : Bool :=
  m.eligible n && (m.compared n ≤ (requestPath x n).length &&
    strncmp (m.name n) (requestPath x n) (m.compared n))

/-- The mountpoint is a prefix that ends where a segment of the path ends; the root is the mount of
every path. -/
def HttpMount.covers (x : Bytes) (n : Nat) (m : HttpMount) : Bool :=
  m.eligible n && (m.isRoot || ((m.name n).isPrefixOf (requestPath x n) &&
    ((m.name n).length = (requestPath x n).length ||
      segmentEnd (requestPath x n) (m.name n).length)))

/-- The mount with the longest mountpoint that covers the path, in whatever order the mounts were
registered. -/
def FindsLongest (mounts : List HttpMount) (x : Bytes) (n : Nat) : Prop :=
  Matching.Largest (HttpMount.covers x n) (·.mountpoint.length) mounts (mountFind mounts x n) ∧
    ∀ mounts', mounts'.Perm mounts → mountFind mounts' x n = mountFind mounts x n

/-- The mountpoint is the path. -/
def HttpMount.isPath (x : Bytes) (m : HttpMount) : Bool := m.mountpoint = x

/-- It is a prefix of the path in front of a slash or a question mark. -/
def HttpMount.isSegment (x : Bytes) (m : HttpMount) : Bool :=
  m.mountpoint.isPrefixOf x && segmentEnd x m.mountpoint.length

/-- The mount of the path itself, else the one of the most segments, else the root, else none. -/
structure BestMatch (mounts : List HttpMount) (x : Bytes) (r : Option HttpMount) : Prop where
  path : ∀ m ∈ mounts, m.isPath x = true → r = some m
  segments : (∀ m ∈ mounts, m.isPath x = false) → (∃ m ∈ mounts, m.isSegment x = true) →
    ∃ m ∈ mounts, r = some m ∧ m.isSegment x = true ∧
      ∀ m' ∈ mounts, m'.isSegment x = true → m'.mountpoint.length ≤ m.mountpoint.length
  root : (∀ m ∈ mounts, m.isPath x = false ∧ m.isSegment x = false) →
    ∀ m ∈ mounts, m.isRoot = true → r = some m
  nothing : (∀ m ∈ mounts, m.isPath x = false ∧ m.isSegment x = false ∧ m.isRoot = false) → r = none

def FindsBest (mounts : List HttpMount) (x : Bytes) : Prop :=
  BestMatch mounts x (mountFindS mounts x) ∧
    ∀ mounts', mounts'.Perm mounts → mountFindS mounts' x = mountFindS mounts x

variable {mounts : List HttpMount} {x : Bytes} {n : Nat}

/-! ## The last prefix -/

theorem strncmp_iff {a b : Bytes} : strncmp a b n = true ↔ a.take n = b.take n :=
  decide_eq_true_iff

theorem strncmp_mono {a b : Bytes} {k : Nat} (hle : k ≤ n) (h : strncmp a b n = true) :
    strncmp b a k = true := by
  rw [strncmp_iff] at h ⊢
  have htake := congrArg (List.take k) h
  rw [List.take_take, List.take_take, Nat.min_eq_left hle] at htake
  exact htake.symm

/-- What the first condition of a turn accepts, the second one accepts as well. -/
theorem findTurn_eq (callback : Bool) (x : Bytes) (n : Nat) (m : Option HttpMount) (p : HttpMount) :
    mountFindTurn callback x n 0 m p =
      let len := (if callback && p.mountpoint.head? = some 47 then p.mountpointLen.toUInt64 - 1
        else p.mountpointLen.toUInt64).toNat
      if (!callback || p.originProtocol = .callback) && (len ≤ n &&
          strncmp (if callback then skipSlash p.mountpoint else p.mountpoint) x len)
        then some p else m := by
  unfold mountFindTurn
  cases heligible : !callback || decide (p.originProtocol = .callback) with
  | false => simp
  | true =>
    simp only [if_true, Bool.true_and, Nat.zero_le, decide_true, Bool.and_true]
    generalize (if callback = true then skipSlash p.mountpoint else p.mountpoint) = mnt
    generalize UInt64.toNat _ = len
    by_cases hle : len ≤ n
    · simp only [hle, decide_true, Bool.true_and, Nat.min_eq_left hle]
      by_cases hcmp : strncmp mnt x len = true
      · rw [if_pos hcmp, if_pos hcmp]
      · rw [if_neg hcmp, if_neg hcmp, if_neg]
        intro hfirst
        rw [Bool.and_eq_true] at hfirst
        exact hcmp (strncmp_mono hle hfirst.2)
    · have hne : len ≠ n := by omega
      have hlt : ¬ len < n := by omega
      simp [hle, hne, hlt]

theorem mountpointLen_le (m : HttpMount) : m.mountpointLen.toNat ≤ m.mountpoint.length := by
  rw [HttpMount.mountpointLen, UInt8.toNat_ofNat']
  exact Nat.mod_le _ _

theorem mountpointLen_short {m : HttpMount} (h : m.mountpoint.length < 256) :
    m.mountpointLen.toNat = m.mountpoint.length := by
  rw [HttpMount.mountpointLen, UInt8.toNat_ofNat']
  exact Nat.mod_eq_of_lt h

theorem strncmp_take {a x : Bytes} {k : Nat} (hk : k ≤ a.length) :
    (k ≤ (x.take n).length && strncmp a (x.take n) k) = (k ≤ n && strncmp a x k) := by
  rw [Bool.eq_iff_iff, Bool.and_eq_true, Bool.and_eq_true, decide_eq_true_iff, decide_eq_true_iff,
    strncmp_iff, strncmp_iff, List.length_take, List.take_take]
  refine ⟨?_, ?_⟩
  · rintro ⟨hlen, htake⟩
    rw [Nat.min_eq_left (by omega)] at htake
    exact ⟨by omega, htake⟩
  · rintro ⟨hle, htake⟩
    have hlen := congrArg List.length htake
    rw [List.length_take, List.length_take, Nat.min_eq_left hk] at hlen
    rw [Nat.min_eq_left hle]
    exact ⟨by omega, htake⟩

theorem skipSlash_length (x : Bytes) :
    (if x.head? = some 47 then x.length - 1 else x.length) = (skipSlash x).length := by
  unfold skipSlash
  split
  · rw [List.length_tail]
  · rfl

/-- A turn takes the mount when the characters compared are a prefix of the path. -/
theorem findTurn_path (m : Option HttpMount) (p : HttpMount) :
    mountFindTurn (decide (n = 0)) (if n = 0 then skipSlash x else x)
        (if n = 0 then if x.head? = some 47 then x.length - 1 else x.length else n) 0 m p
      = if p.hasPrefix x n then some p else m := by
  rw [findTurn_eq, HttpMount.hasPrefix, HttpMount.eligible, HttpMount.name, HttpMount.compared,
    requestPath]
  by_cases hn : n = 0
  · simp only [hn, decide_true, Bool.not_true, if_true, skipSlash_length, ne_eq, not_true,
      decide_false, Bool.true_and, p.slash]
  · simp only [hn, decide_false, Bool.not_false, if_false, Bool.false_eq_true, ne_eq,
      not_false_eq_true, decide_true, Bool.false_and, UInt8.toNat_toUInt64,
      strncmp_take (mountpointLen_le p)]

/-- `mount_find` returns the last mount of which the characters compared are a prefix. -/
theorem mountFind_eq (mounts : List HttpMount) (x : Bytes) (n : Nat) :
    mountFind mounts x n = Matching.last (HttpMount.hasPrefix x n) mounts := by
  have hloop := Matching.foldl_last (HttpMount.hasPrefix x n) mounts none
  rw [Option.or_none] at hloop
  rw [← hloop, mountFind]
  congr 1
  funext m p
  rw [← findTurn_path]
  by_cases hn : n = 0 <;> simp [hn]

/-- A path that is covered otherwise than by the root begins with its slash. -/
theorem root_hasPrefix {m p : HttpMount} (hp : (p.name n).isPrefixOf (requestPath x n) = true)
    (heligible : m.eligible n = true) (hroot : m.isRoot = true) : m.hasPrefix x n = true := by
  have hmountpoint : m.mountpoint = [47] := of_decide_eq_true hroot
  have hlen : m.mountpointLen = 1 := by rw [HttpMount.mountpointLen, hmountpoint]; rfl
  rw [HttpMount.hasPrefix, heligible, Bool.true_and, HttpMount.name, HttpMount.compared, hlen,
    hmountpoint]
  split
  · rfl
  · next hn =>
    rw [HttpMount.name, if_neg hn] at hp
    obtain ⟨rest, hpath⟩ := List.isPrefixOf_iff_prefix.1 hp
    obtain ⟨cs, hcs⟩ := List.head?_eq_some_iff.1 p.slash
    rw [← hpath, hcs]
    rfl

/-- A mountpoint that is a prefix of the path is found to be one, unless its length is lost. -/
theorem prefix_hasPrefix {m : HttpMount} (hlen : m.mountpointLen ≠ 0)
    (heligible : m.eligible n = true) (hp : (m.name n).isPrefixOf (requestPath x n) = true) :
    m.hasPrefix x n = true := by
  obtain ⟨rest, hpath⟩ := List.isPrefixOf_iff_prefix.1 hp
  have hle := mountpointLen_le m
  have hcompared : m.compared n ≤ (m.name n).length := by
    rw [HttpMount.compared, HttpMount.name]
    split
    · have hpos : 1 ≤ m.mountpointLen.toUInt64 := by
        rw [UInt64.le_iff_toNat_le, UInt8.toNat_toUInt64]
        exact Nat.one_le_iff_ne_zero.2 fun h => hlen (UInt8.toNat_inj.1 h)
      rw [UInt64.toNat_sub_of_le _ _ hpos, UInt8.toNat_toUInt64, skipSlash, if_pos m.slash,
        List.length_tail]
      exact Nat.sub_le_sub_right hle 1
    · exact hle
  rw [HttpMount.hasPrefix, heligible, Bool.true_and, Bool.and_eq_true, decide_eq_true_iff,
    strncmp_iff, ← hpath, List.length_append, List.take_append_of_le_length hcompared]
  exact ⟨by omega, rfl⟩

theorem covers_cases {m : HttpMount} (h : m.covers x n = true) : m.eligible n = true ∧
    (m.isRoot = true ∨ (m.name n).isPrefixOf (requestPath x n) = true) := by
  simp only [HttpMount.covers, Bool.and_eq_true, Bool.or_eq_true] at h
  obtain ⟨heligible, hroot | ⟨hstart, -⟩⟩ := h
  · exact ⟨heligible, Or.inl hroot⟩
  · exact ⟨heligible, Or.inr hstart⟩

/-- The mounts that a lookup takes are those it is to take. A mountpoint of a multiple of 256
characters is not compared at all: it may be left out behind a longer one. -/
def TakesCovering (mounts : List HttpMount) (x : Bytes) (n : Nat) : Prop :=
  ∀ m ∈ mounts,
    (m.hasPrefix x n = true → m.covers x n = true) ∧
    (m.covers x n = true → m.hasPrefix x n = true ∨ (m.mountpointLen = 0 ∧
      ∃ m' ∈ mounts, m'.hasPrefix x n = true ∧ m.mountpoint.length ≤ m'.mountpoint.length))

/-- What covers the path is found, or something longer, where a right mount is found. -/
theorem covers_taken {m p : HttpMount} (hcovers : m.covers x n = true)
    (hp : p.hasPrefix x n = true) (hpcovers : p.covers x n = true) :
    m.hasPrefix x n = true ∨ m.mountpointLen = 0 := by
  obtain ⟨heligible, hroot | hprefix⟩ := covers_cases hcovers
  · refine Or.inl ?_
    obtain ⟨-, hproot | hpprefix⟩ := covers_cases hpcovers
    -- both are the root
    · have hsame : p.mountpoint = m.mountpoint :=
        (of_decide_eq_true hproot).trans (of_decide_eq_true hroot).symm
      rw [HttpMount.hasPrefix, Bool.and_eq_true] at hp ⊢
      rw [HttpMount.name, HttpMount.compared, HttpMount.mountpointLen, ← hsame]
      exact ⟨heligible, hp.2⟩
    · exact root_hasPrefix hpprefix heligible hroot
  · by_cases hlen : m.mountpointLen = 0
    · exact Or.inr hlen
    · exact Or.inl (prefix_hasPrefix hlen heligible hprefix)

/-- `mount_find` is right exactly when at most one mount is taken for a prefix of the path, and the
mounts that are taken are those that cover it. -/
theorem mount_find_iff (mounts : List HttpMount) (x : Bytes) (n : Nat) :
    FindsLongest mounts x n ↔
      Matching.AtMostOne (HttpMount.hasPrefix x n) mounts ∧ TakesCovering mounts x n := by
  have horder := Matching.last_order_iff (HttpMount.hasPrefix x n) mounts
  unfold FindsLongest
  simp only [mountFind_eq]
  rw [horder]
  refine ⟨?_, ?_⟩
  · rintro ⟨hlargest, hone⟩
    rw [hone.last_eq] at hlargest
    refine ⟨hone, fun m hm => ⟨fun hprefix => ?_, fun hcovers => ?_⟩⟩
    · rw [hone.find? hm hprefix] at hlargest
      exact hlargest.2.1
    · cases hfound : mounts.find? (HttpMount.hasPrefix x n) with
      | none =>
        rw [hfound] at hlargest
        exact absurd hcovers (by rw [hlargest m hm]; decide)
      | some p =>
        rw [hfound] at hlargest
        obtain ⟨hp, hpcovers, hmax⟩ := hlargest
        have hprefix := List.find?_some hfound
        refine (covers_taken hcovers hprefix hpcovers).imp_right fun hlen => ⟨hlen, ?_⟩
        exact ⟨p, hp, hprefix, hmax m hm hcovers⟩
  · rintro ⟨hone, htakes⟩
    refine ⟨?_, hone⟩
    rw [hone.last_eq]
    have hlonger : ∀ m ∈ mounts, m.covers x n = true → ∃ m' ∈ mounts,
        m'.hasPrefix x n = true ∧ m.mountpoint.length ≤ m'.mountpoint.length := by
      intro m hm hcovers
      obtain hprefix | ⟨-, h⟩ := (htakes m hm).2 hcovers
      · exact ⟨m, hm, hprefix, Nat.le_refl _⟩
      · exact h
    cases hfound : mounts.find? (HttpMount.hasPrefix x n) with
    | none =>
      intro m hm
      refine Bool.eq_false_iff.2 fun hcovers => ?_
      obtain ⟨m', hm', hprefix, -⟩ := hlonger m hm hcovers
      exact List.find?_eq_none.1 hfound m' hm' hprefix
    | some p =>
      have hp := List.mem_of_find?_eq_some hfound
      have hprefix := List.find?_some hfound
      refine ⟨hp, (htakes p hp).1 hprefix, fun m hm hcovers => ?_⟩
      obtain ⟨m', hm', hprefix', hle⟩ := hlonger m hm hcovers
      rwa [hone m' hm' p hp hprefix' hprefix] at hle

/-- `/foo` and `/`, registered in this order: the root gets `/foo/a`. -/
theorem shorter_mount_found :
    ¬ FindsLongest [⟨[47, 102, 111, 111], .callback, rfl⟩, ⟨[47], .callback, rfl⟩]
      [47, 102, 111, 111, 47, 97] 0 := by
  intro h
  have hroot := h.1.2.2 ⟨[47, 102, 111, 111], .callback, rfl⟩ (by decide) (by decide)
  exact absurd hroot (by decide)

/-! ## The first prefix -/

/-- A match the loop of `mount_find_s` stops at. -/
def HttpMount.stops (x : Bytes) (m : HttpMount) : Bool :=
  let len := m.mountpointLen.toNat
  (len = x.length && strncmp x m.mountpoint x.length) ||
    (segmentEnd x len && strncmp x m.mountpoint len)

/-- Of one character, as far as its length tells. -/
def HttpMount.looksRoot (m : HttpMount) : Bool := m.mountpointLen = 1

/-- What a lookup returns: a match, or a root where nothing matches. -/
def HttpMount.taken (mounts : List HttpMount) (x : Bytes) (m : HttpMount) : Bool :=
  m.stops x || (!mounts.any (HttpMount.stops x) && m.looksRoot)

/-- The path itself, or a prefix of it that ends a segment. -/
def HttpMount.isMatch (x : Bytes) (m : HttpMount) : Bool := m.isPath x || m.isSegment x

/-- A mountpoint of 256 characters or more is taken for no match that it is not, and where it is
one, something at least as long is taken. -/
def TakesLong (mounts : List HttpMount) (x : Bytes) : Prop :=
  ∀ m ∈ mounts, 256 ≤ m.mountpoint.length →
    (m.taken mounts x = true → m.isMatch x = true) ∧
    (m.isMatch x = true →
      ∃ m' ∈ mounts, m'.taken mounts x = true ∧ m.mountpoint.length ≤ m'.mountpoint.length)

theorem segmentEnd_lt {k : Nat} (h : segmentEnd x k = true) : k < x.length := by
  simp only [segmentEnd, Bool.or_eq_true, decide_eq_true_eq] at h
  obtain h | h := h <;> exact (List.getElem?_eq_some_iff.1 h).1

theorem strncmp_segment {a : Bytes} {k : Nat} :
    ((k < x.length && segmentEnd x k) && (k = 0 || strncmp x a k)) =
      (segmentEnd x k && strncmp x a k) := by
  cases hend : segmentEnd x k with
  | false => simp only [Bool.and_false, Bool.false_and]
  | true =>
    have hempty : (decide (k = 0) || strncmp x a k) = strncmp x a k := by
      cases k <;> simp [strncmp]
    simp only [segmentEnd_lt hend, decide_true, Bool.true_and, hempty]

/-- The first mount that stops the loop, else the last one that looks like the root. -/
theorem findLoop_eq (x : Bytes) (mounts : List HttpMount) : ∀ m,
    mountFindLoop x m mounts = ((mounts.find? (HttpMount.stops x)).or
      ((Matching.last HttpMount.looksRoot mounts).or m)) := by
  induction mounts with
  | nil => exact fun m => rfl
  | cons p mounts ih =>
    intro m
    have hlast : (Matching.last HttpMount.looksRoot (p :: mounts)).or m =
        (Matching.last HttpMount.looksRoot mounts).or (if p.looksRoot then some p else m) := by
      rw [← Matching.foldl_last, ← Matching.foldl_last]
      rfl
    have hroot : (decide (p.mountpointLen.toNat = 1) && decide (p.mountpoint.head? = some 47))
        = p.looksRoot := by
      have hlen : p.mountpointLen.toNat = 1 ↔ p.mountpointLen = 1 :=
        (@UInt8.toNat_inj p.mountpointLen 1)
      simp only [HttpMount.looksRoot, hlen, p.slash, decide_true, Bool.and_true]
    rw [mountFindLoop, hlast, List.find?_cons, HttpMount.stops]
    simp only [hroot, strncmp_segment]
    cases decide (p.mountpointLen.toNat = x.length) && strncmp x p.mountpoint x.length with
    | true => rfl
    | false =>
      cases segmentEnd x p.mountpointLen.toNat && strncmp x p.mountpoint p.mountpointLen.toNat with
      | true => rfl
      | false => exact ih _

theorem mountFindS_eq (mounts : List HttpMount) (x : Bytes) :
    mountFindS mounts x =
      (mounts.find? (HttpMount.stops x)).or (Matching.last HttpMount.looksRoot mounts) := by
  rw [mountFindS, findLoop_eq, Option.or_none]

/-- Nothing stops the loop: the mounts that look like the root are taken. -/
theorem taken_root {m : HttpMount} (hnone : mounts.any (HttpMount.stops x) = false)
    (hm : m ∈ mounts) : m.taken mounts x = m.looksRoot := by
  rw [HttpMount.taken, hnone, Bool.eq_false_iff.2 fun h => Bool.false_ne_true
    (hnone.symm.trans (List.any_eq_true.2 ⟨m, hm, h⟩))]
  rfl

theorem taken_stops {m : HttpMount} (hsome : mounts.any (HttpMount.stops x) = true) :
    m.taken mounts x = m.stops x := by
  rw [HttpMount.taken, hsome]
  simp

theorem mountFindS_order (mounts : List HttpMount) (x : Bytes) :
    (∀ mounts' : List HttpMount, mounts'.Perm mounts → mountFindS mounts' x = mountFindS mounts x) ↔
      Matching.AtMostOne (HttpMount.taken mounts x) mounts := by
  simp only [mountFindS_eq]
  cases hany : mounts.any (HttpMount.stops x) with
  | true =>
    rw [Matching.AtMostOne.congr fun m _ => taken_stops hany, ← Matching.find?_order_iff]
    have hfound : ∀ mounts' : List HttpMount, mounts'.Perm mounts → ∀ r,
        (mounts'.find? (HttpMount.stops x)).or r = mounts'.find? (HttpMount.stops x) := by
      intro mounts' hperm r
      obtain ⟨m, hm, hstops⟩ := List.any_eq_true.1 hany
      refine Option.or_of_isSome ?_
      rw [List.find?_isSome]
      exact ⟨m, hperm.symm.subset hm, hstops⟩
    refine forall₂_congr fun mounts' hperm => ?_
    rw [hfound _ hperm, hfound _ (List.Perm.refl _)]
  | false =>
    rw [Matching.AtMostOne.congr fun m hm => taken_root hany hm, ← Matching.last_order_iff]
    have hfound : ∀ mounts' : List HttpMount, mounts'.Perm mounts →
        mounts'.find? (HttpMount.stops x) = none := by
      intro mounts' hperm
      rw [List.find?_eq_none]
      exact fun m hm => List.any_eq_false.1 hany m (hperm.subset hm)
    refine forall₂_congr fun mounts' hperm => ?_
    rw [hfound _ hperm, hfound _ (List.Perm.refl _), Option.none_or, Option.none_or]

theorem mountFindS_taken (hone : Matching.AtMostOne (HttpMount.taken mounts x) mounts) :
    mountFindS mounts x = mounts.find? (HttpMount.taken mounts x) := by
  rw [mountFindS_eq]
  cases hany : mounts.any (HttpMount.stops x) with
  | true =>
    have htaken : HttpMount.taken mounts x = HttpMount.stops x := funext fun m => taken_stops hany
    rw [htaken, Option.or_of_isSome]
    rw [List.find?_isSome]
    obtain ⟨m, hm, hstops⟩ := List.any_eq_true.1 hany
    exact ⟨m, hm, hstops⟩
  | false =>
    have hroot := (Matching.AtMostOne.congr fun m hm => taken_root hany hm).1 hone
    rw [List.find?_eq_none.2 (List.any_eq_false.1 hany), Option.none_or, hroot.last_eq]
    exact List.find?_congr fun m hm => (taken_root hany hm).symm

/-! ### Mountpoints whose length is kept -/

theorem isPath_length {m : HttpMount} (h : m.isPath x = true) : m.mountpoint.length = x.length :=
  congrArg List.length (of_decide_eq_true h)

theorem isSegment_lt {m : HttpMount} (h : m.isSegment x = true) :
    m.mountpoint.length < x.length :=
  segmentEnd_lt (Bool.and_eq_true_iff.1 h).2

theorem stops_short {m : HttpMount} (hshort : m.mountpoint.length < 256) :
    m.stops x = m.isMatch x := by
  have hpath : (decide (m.mountpoint.length = x.length) && strncmp x m.mountpoint x.length)
      = m.isPath x := by
    rw [Bool.eq_iff_iff, Bool.and_eq_true, decide_eq_true_iff, strncmp_iff, HttpMount.isPath,
      decide_eq_true_iff, List.take_length]
    refine ⟨?_, ?_⟩
    · rintro ⟨hlen, hcmp⟩
      rw [hcmp, List.take_of_length_le (Nat.le_of_eq hlen)]
    · rintro rfl
      exact ⟨rfl, List.take_length.symm⟩
  have hsegment : strncmp x m.mountpoint m.mountpoint.length = m.mountpoint.isPrefixOf x := by
    rw [Bool.eq_iff_iff, strncmp_iff, List.take_length, List.isPrefixOf_iff_prefix,
      List.prefix_iff_eq_take]
    exact eq_comm
  rw [HttpMount.stops, mountpointLen_short hshort, hpath, hsegment, HttpMount.isMatch,
    HttpMount.isSegment, Bool.and_comm (segmentEnd _ _)]

theorem looksRoot_short {m : HttpMount} (hshort : m.mountpoint.length < 256) :
    m.looksRoot = m.isRoot := by
  rw [HttpMount.looksRoot, HttpMount.isRoot, Bool.eq_iff_iff, decide_eq_true_iff,
    decide_eq_true_iff, ← UInt8.toNat_inj, mountpointLen_short hshort]
  refine ⟨fun hlen => ?_, fun h => congrArg List.length h⟩
  obtain ⟨c, hc⟩ := List.length_eq_one_iff.1 hlen
  have hhead := m.slash
  rw [hc] at hhead ⊢
  exact congrArg (fun c => [c]) (Option.some.inj hhead)

theorem isRoot_short {m : HttpMount} (h : m.isRoot = true) : m.mountpoint.length = 1 :=
  congrArg List.length (of_decide_eq_true h)

/-! ### The best match -/

variable (hone : Matching.AtMostOne (HttpMount.taken mounts x) mounts)
include hone

/-- A lookup that is right takes long mountpoints for what they are. -/
theorem takesLong_of_best (h : BestMatch mounts x (mounts.find? (HttpMount.taken mounts x))) :
    TakesLong mounts x := by
  intro m hm hlong
  refine ⟨fun htaken => ?_, fun hmatch => ?_⟩
  · rw [hone.find? hm htaken] at h
    refine Bool.of_not_eq_false fun hnone => ?_
    by_cases hpath : ∃ m' ∈ mounts, m'.isPath x = true
    · obtain ⟨m', hm', hpath⟩ := hpath
      obtain rfl := Option.some.inj (h.path m' hm' hpath)
      simp [HttpMount.isMatch, hpath] at hnone
    have hpath : ∀ m' ∈ mounts, m'.isPath x = false :=
      fun m' hm' => Bool.eq_false_iff.2 fun h => hpath ⟨m', hm', h⟩
    by_cases hsegment : ∃ m' ∈ mounts, m'.isSegment x = true
    · obtain ⟨m', hm', heq, hsegment, -⟩ := h.segments hpath hsegment
      obtain rfl := Option.some.inj heq
      simp [HttpMount.isMatch, hsegment] at hnone
    have hsegment : ∀ m' ∈ mounts, m'.isPath x = false ∧ m'.isSegment x = false :=
      fun m' hm' => ⟨hpath m' hm', Bool.eq_false_iff.2 fun h => hsegment ⟨m', hm', h⟩⟩
    by_cases hroot : ∃ m' ∈ mounts, m'.isRoot = true
    · obtain ⟨m', hm', hroot⟩ := hroot
      obtain rfl := Option.some.inj (h.root hsegment m' hm' hroot)
      rw [isRoot_short hroot] at hlong
      omega
    · cases h.nothing fun m' hm' => ⟨(hsegment m' hm').1, (hsegment m' hm').2,
        Bool.eq_false_iff.2 fun h => hroot ⟨m', hm', h⟩⟩
  · have hfind : ∀ {p : HttpMount}, mounts.find? (HttpMount.taken mounts x) = some p →
        p ∈ mounts ∧ p.taken mounts x = true :=
      fun hp => ⟨List.mem_of_find?_eq_some hp, List.find?_some hp⟩
    by_cases hpath : ∃ m' ∈ mounts, m'.isPath x = true
    · obtain ⟨m', hm', hpath⟩ := hpath
      refine ⟨m', hm', (hfind (h.path m' hm' hpath)).2, ?_⟩
      rw [isPath_length hpath]
      rw [HttpMount.isMatch, Bool.or_eq_true] at hmatch
      obtain hmatch | hmatch := hmatch
      · exact Nat.le_of_eq (isPath_length hmatch)
      · exact Nat.le_of_lt (isSegment_lt hmatch)
    · have hpath : ∀ m' ∈ mounts, m'.isPath x = false :=
        fun m' hm' => Bool.eq_false_iff.2 fun h => hpath ⟨m', hm', h⟩
      rw [HttpMount.isMatch, hpath m hm, Bool.false_or] at hmatch
      obtain ⟨m', hm', heq, -, hmax⟩ := h.segments hpath ⟨m, hm, hmatch⟩
      exact ⟨m', hm', (hfind heq).2, hmax m hm hmatch⟩

omit hone in
theorem match_taken (hlong : TakesLong mounts x) {m : HttpMount} (hm : m ∈ mounts)
    (hmatch : m.isMatch x = true) :
    ∃ m' ∈ mounts, m'.taken mounts x = true ∧ m.mountpoint.length ≤ m'.mountpoint.length := by
  by_cases hshort : m.mountpoint.length < 256
  · rw [← stops_short hshort] at hmatch
    exact ⟨m, hm, by rw [HttpMount.taken, hmatch]; rfl, Nat.le_refl _⟩
  · exact (hlong m hm (Nat.le_of_not_lt hshort)).2 hmatch

/-- What is taken is a match, or the root where there is none. -/
theorem taken_cases (hlong : TakesLong mounts x) {m : HttpMount} (hm : m ∈ mounts)
    (htaken : m.taken mounts x = true) :
    m.isMatch x = true ∨ (m.isRoot = true ∧ ∀ m' ∈ mounts, m'.isMatch x = false) := by
  by_cases hshort : m.mountpoint.length < 256
  · cases hmatch : m.isMatch x with
    | true => exact Or.inl rfl
    | false =>
      have htaken' := htaken
      rw [HttpMount.taken, stops_short hshort, hmatch, Bool.false_or, Bool.and_eq_true,
        Bool.not_eq_true', looksRoot_short hshort] at htaken'
      obtain ⟨hnone, hroot⟩ := htaken'
      refine Or.inr ⟨hroot, fun m' hm' => Bool.eq_false_iff.2 fun hmatch' => ?_⟩
      by_cases hshort' : m'.mountpoint.length < 256
      · rw [← stops_short hshort'] at hmatch'
        exact List.any_eq_false.1 hnone m' hm' hmatch'
      · obtain ⟨p, hp, hptaken, hle⟩ := match_taken hlong hm' hmatch'
        rw [hone p hp m hm hptaken htaken, isRoot_short hroot] at hle
        omega
  · exact Or.inl ((hlong m hm (Nat.le_of_not_lt hshort)).1 htaken)

theorem best_of_takesLong (hdistinct : (mounts.map HttpMount.mountpoint).Nodup)
    (hlong : TakesLong mounts x) :
    BestMatch mounts x (mounts.find? (HttpMount.taken mounts x)) := by
  -- a match makes a match be taken, and it is no shorter
  have hfound : ∀ m ∈ mounts, m.isMatch x = true → ∃ m' ∈ mounts,
      mounts.find? (HttpMount.taken mounts x) = some m' ∧ m'.isMatch x = true ∧
        ∀ p ∈ mounts, p.isMatch x = true → p.mountpoint.length ≤ m'.mountpoint.length := by
    intro m hm hmatch
    obtain ⟨m', hm', htaken, -⟩ := match_taken hlong hm hmatch
    refine ⟨m', hm', hone.find? hm' htaken, ?_, fun p hp hpmatch => ?_⟩
    · refine (taken_cases hone hlong hm' htaken).resolve_right fun h => ?_
      exact Bool.false_ne_true ((h.2 m hm).symm.trans hmatch)
    · obtain ⟨q, hq, hqtaken, hle⟩ := match_taken hlong hp hpmatch
      rwa [hone q hq m' hm' hqtaken htaken] at hle
  have hnone : ∀ {m : HttpMount}, (m.isPath x = false ∧ m.isSegment x = false) →
      m.isMatch x = false := fun h => by rw [HttpMount.isMatch, h.1, h.2]; rfl
  refine ⟨?_, ?_, ?_, ?_⟩
  · intro m hm hpath
    have hmatch : m.isMatch x = true := by rw [HttpMount.isMatch, hpath]; rfl
    obtain ⟨m', hm', heq, hmatch', hmax⟩ := hfound m hm hmatch
    have hle := hmax m hm hmatch
    rw [isPath_length hpath] at hle
    rw [HttpMount.isMatch, Bool.or_eq_true] at hmatch'
    obtain hpath' | hsegment := hmatch'
    · have hsame : m' = m := List.inj_on_of_nodup_map hdistinct hm' hm
        ((of_decide_eq_true hpath').trans (of_decide_eq_true hpath).symm)
      rw [heq, hsame]
    · exact absurd (isSegment_lt hsegment) (Nat.not_lt.2 hle)
  · rintro hpath ⟨m, hm, hsegment⟩
    have hmatch : ∀ {p : HttpMount}, p.isSegment x = true → p.isMatch x = true :=
      fun h => by rw [HttpMount.isMatch, h, Bool.or_true]
    obtain ⟨m', hm', heq, hmatch', hmax⟩ := hfound m hm (hmatch hsegment)
    rw [HttpMount.isMatch, hpath m' hm', Bool.false_or] at hmatch'
    exact ⟨m', hm', heq, hmatch', fun p hp hp' => hmax p hp (hmatch hp')⟩
  · intro hnothing m hm hroot
    have hshort : m.mountpoint.length < 256 := by rw [isRoot_short hroot]; decide
    have hstops : mounts.any (HttpMount.stops x) = false := by
      refine List.any_eq_false.2 fun p hp hstops => ?_
      have hptaken : p.taken mounts x = true := by rw [HttpMount.taken, hstops]; rfl
      obtain hmatch | ⟨hproot, -⟩ := taken_cases hone hlong hp hptaken
      · exact Bool.false_ne_true ((hnone (hnothing p hp)).symm.trans hmatch)
      · have hpshort : p.mountpoint.length < 256 := by rw [isRoot_short hproot]; decide
        rw [stops_short hpshort, hnone (hnothing p hp)] at hstops
        cases hstops
    refine hone.find? hm ?_
    rw [taken_root hstops hm, looksRoot_short hshort, hroot]
  · intro hnothing
    refine List.find?_eq_none.2 fun m hm htaken => ?_
    obtain hmatch | ⟨hroot, -⟩ := taken_cases hone hlong hm htaken
    · exact Bool.false_ne_true
        ((hnone ⟨(hnothing m hm).1, (hnothing m hm).2.1⟩).symm.trans hmatch)
    · exact Bool.false_ne_true ((hnothing m hm).2.2.symm.trans hroot)

omit hone

/-- `mount_find_s` is right exactly when at most one mount is taken, and long mountpoints are taken
for what they are. -/
theorem mount_find_s_iff (mounts : List HttpMount) (x : Bytes)
    (hdistinct : (mounts.map HttpMount.mountpoint).Nodup) :
    FindsBest mounts x ↔
      Matching.AtMostOne (HttpMount.taken mounts x) mounts ∧ TakesLong mounts x := by
  unfold FindsBest
  rw [mountFindS_order]
  refine ⟨?_, ?_⟩
  · rintro ⟨hbest, hone⟩
    rw [mountFindS_taken hone] at hbest
    exact ⟨hone, takesLong_of_best hone hbest⟩
  · rintro ⟨hone, hlong⟩
    rw [mountFindS_taken hone]
    exact ⟨best_of_takesLong hone hdistinct hlong, hone⟩

theorem mount_find_s_one_mount :
    [(⟨[47, 97], .callback, rfl⟩ : HttpMount)].map HttpMount.mountpoint = [[47, 97]] ∧
      (FindsBest [⟨[47, 97], .callback, rfl⟩] [47, 97] ↔
        Matching.AtMostOne (HttpMount.taken [⟨[47, 97], .callback, rfl⟩] [47, 97])
            [⟨[47, 97], .callback, rfl⟩] ∧
          TakesLong [⟨[47, 97], .callback, rfl⟩] [47, 97]) :=
  ⟨rfl, mount_find_s_iff _ _ (by decide)⟩

/-- `/a` and `/a/b`, registered in this order: the path `/a/b` is found at `/a`. -/
theorem path_behind_prefix :
    ¬ FindsBest [⟨[47, 97], .callback, rfl⟩, ⟨[47, 97, 47, 98], .callback, rfl⟩]
      [47, 97, 47, 98] := by
  intro h
  exact absurd (h.1.path ⟨[47, 97, 47, 98], .callback, rfl⟩ (by decide) (by decide)) (by decide)

end QjsNet
