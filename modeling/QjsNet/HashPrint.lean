import QjsNet.InputBytes

/- How a hash prints its digest (`minnet-hash.c`).

   `toString(4)`, and `toString()` without an argument, print two hexadecimal digits for each
   byte. For 1, 2, 3 and 5 bits to a character `hash_tostring` goes over the bits of the
   digest and takes so many of them from each place, those of the next byte with them where a
   byte ends. It goes on by `base`, the number of the digits, and not by the number of bits,
   so that the bits in between are left out. No place that it comes to is so near to the end
   of a byte that the next byte is read.

   A read outside the digest or the table of digits is `none`. Memory does not run out.

   Correspondence (C ↔ Lean):
     `uint_pow`                       ↔ `uintPow`
     `hash_tostring`, one character of it ↔ `hashTostring`, `hashDigit`
     `HASH_TOSTRING`                  ↔ `methodTostring` -/
namespace QjsNet

/-- The digits and the letters of `hash_hexdigits`. -/
def hashHexdigits : Bytes :=
  (List.range 10).map (48 + UInt8.ofNat ·) ++ (List.range 26).map (97 + UInt8.ofNat ·)

def powLoop (result term : UInt32) (degree : Nat) : UInt32 :=
  if degree = 0 then result
  else powLoop (if degree % 2 = 1 then result * term else result) (term * term) (degree / 2)

def uintPow (base degree : UInt32) : UInt32 := powLoop 1 base degree.toNat

/-- The low bits of the next byte above the `remain` bits of `value`. -/
def carryNext (digest : Bytes) (bitsPerChar bitpos remain : Nat) (value : UInt8) : Option UInt8 :=
  if remain < bitsPerChar then
    (digest[(bitpos >>> 3) + 1]?).map fun next => value ||| UInt8.ofNat (next.toNat <<< remain)
  else some value

/-- The character for the bits at `bitpos`. -/
def hashDigit (digest : Bytes) (bitsPerChar : Nat) (mask : UInt32) (bitpos : Nat) : Option UInt8 := do
  let byte ← digest[bitpos >>> 3]?
  let shiftRight := bitpos &&& 7
  let value ← carryNext digest bitsPerChar bitpos (8 - shiftRight) (byte >>> UInt8.ofNat shiftRight)
  hashHexdigits[(value.toUInt32 &&& mask).toNat]?

/-- The loop of `hash_tostring`. Fuel for every bit is enough. -/
def tostringLoop (digest : Bytes) (bitsPerChar : Nat) (base : UInt32) : Nat → Nat → Option Bytes
  | 0, _ => none
  | fuel + 1, bitpos =>
    if bitpos < digest.length * 8 then do
      let c ← hashDigit digest bitsPerChar (base - 1) bitpos
      let rest ← tostringLoop digest bitsPerChar base fuel (bitpos + base.toNat)
      return c :: rest
    else some []

def hashTostring (digest : Bytes) (bitsPerChar : UInt32) : Option Bytes :=
  tostringLoop digest bitsPerChar.toNat (uintPow 2 bitsPerChar) (digest.length * 8 + 1) 0

/-- The two digits of a byte. -/
def hexPair (byte : UInt8) : Option Bytes := do
  let high ← hashHexdigits[(byte >>> 4).toNat]?
  let low ← hashHexdigits[(byte &&& 15).toNat]?
  return [high, low]

def hexString (digest : Bytes) : Option Bytes := (digest.mapM hexPair).map List.flatten

/-- `toString()`, with the argument as a number if there is one. -/
def methodTostring (h : Hash) (digest : Bytes) (bitsPerChar : Option UInt32) :
    Option (Except String JSValue) :=
  if !h.finalized then some (.error "Hash not finalized")
  else
    let bits := bitsPerChar.getD 4
    if bits = 4 then (hexString digest).map fun text => .ok (.string text)
    else if 0 < bits ∧ bits ≤ 5 then
      (hashTostring digest bits).map fun text => .ok (.string text)
    else some (.ok .undefined)

/-! ## Powers -/

theorem pow_square (term : UInt32) (k : Nat) : (term * term) ^ k = term ^ (2 * k) := by
  induction k with
  | zero => rfl
  | succ k ih =>
    calc (term * term) ^ (k + 1)
        = term ^ (2 * k) * (term * term) := by rw [UInt32.pow_succ, ih]
      _ = term ^ (2 * k) * term * term := (UInt32.mul_assoc _ _ _).symm
      _ = term ^ (2 * k + 1 + 1) := by rw [UInt32.pow_succ, UInt32.pow_succ]

theorem powLoop_eq (result term : UInt32) (degree : Nat) :
    powLoop result term degree = result * term ^ degree := by
  induction degree using Nat.strong_induction_on generalizing result term with
  | _ degree ih =>
    rw [powLoop]
    by_cases hzero : degree = 0
    · rw [if_pos hzero, hzero, UInt32.pow_zero, UInt32.mul_one]
    · rw [if_neg hzero, ih _ (by omega), pow_square]
      by_cases hodd : degree % 2 = 1
      · have hdegree : degree = 2 * (degree / 2) + 1 := by omega
        rw [if_pos hodd, UInt32.mul_assoc]
        congr 1
        conv => rhs; rw [hdegree, UInt32.pow_succ, UInt32.mul_comm]
      · have hdegree : 2 * (degree / 2) = degree := by omega
        rw [if_neg hodd, hdegree]

theorem uintPow_eq (base degree : UInt32) : uintPow base degree = base ^ degree.toNat := by
  rw [uintPow, powLoop_eq, UInt32.one_mul]

theorem hashHexdigits_inj : ∀ i < 36, ∀ j < 36, hashHexdigits[i]? = hashHexdigits[j]? → i = j := by
  decide +kernel

theorem hashHexdigits_some {i : Nat} (hi : i < 36) : ∃ c, hashHexdigits[i]? = some c :=
  ⟨_, List.getElem?_eq_getElem (show i < hashHexdigits.length from hi)⟩

/-! ## Two hexadecimal digits -/

theorem high_toNat (byte : UInt8) : (byte >>> 4).toNat = byte.toNat / 16 := by
  rw [UInt8.toNat_shiftRight, Nat.shiftRight_eq_div_pow]
  rfl

theorem low_toNat (byte : UInt8) : (byte &&& 15).toNat = byte.toNat % 16 := by
  rw [UInt8.toNat_and]
  exact Nat.and_two_pow_sub_one_eq_mod byte.toNat 4

theorem hexPair_eq (byte : UInt8) : ∃ c d, hexPair byte = some [c, d]
    ∧ hashHexdigits[byte.toNat / 16]? = some c ∧ hashHexdigits[byte.toNat % 16]? = some d := by
  have hbyte := byte.toNat_lt
  obtain ⟨c, hc⟩ := @hashHexdigits_some (byte.toNat / 16) (by omega)
  obtain ⟨d, hd⟩ := @hashHexdigits_some (byte.toNat % 16) (by omega)
  refine ⟨c, d, ?_, hc, hd⟩
  rw [hexPair, high_toNat, low_toNat, hc, hd]
  rfl

theorem hexPair_inj {byte byte' : UInt8} {text : Bytes} (h : hexPair byte = some text)
    (h' : hexPair byte' = some text) : byte = byte' := by
  obtain ⟨c, d, hpair, hc, hd⟩ := hexPair_eq byte
  obtain ⟨c', d', hpair', hc', hd'⟩ := hexPair_eq byte'
  rw [hpair, ← h', hpair'] at h
  cases h
  have hbyte := byte.toNat_lt
  have hbyte' := byte'.toNat_lt
  have hhigh := hashHexdigits_inj _ (by omega) _ (by omega) (hc.trans hc'.symm)
  have hlow := hashHexdigits_inj _ (by omega) _ (by omega) (hd.trans hd'.symm)
  apply UInt8.toNat_inj.1
  omega

theorem hexString_cons (byte : UInt8) (digest : Bytes) : hexString (byte :: digest)
    = (hexPair byte).bind fun pair => (hexString digest).map (pair ++ ·) := by
  rw [hexString, hexString, List.mapM_cons]
  cases hexPair byte with
  | none => rfl
  | some pair =>
    cases digest.mapM hexPair with
    | none => rfl
    | some pairs => rfl

theorem hexString_length (digest : Bytes) :
    ∃ text, hexString digest = some text ∧ text.length = 2 * digest.length := by
  induction digest with
  | nil => exact ⟨[], rfl, rfl⟩
  | cons byte digest ih =>
    obtain ⟨text, htext, hlen⟩ := ih
    obtain ⟨c, d, hpair, -⟩ := hexPair_eq byte
    refine ⟨c :: d :: text, ?_, ?_⟩
    · rw [hexString_cons, hpair, htext]
      rfl
    · rw [List.length_cons, List.length_cons, List.length_cons, hlen]
      omega

theorem hexString_inj : ∀ digest digest' : Bytes, digest.length = digest'.length →
    hexString digest = hexString digest' → digest = digest'
  | [], [], _, _ => rfl
  | byte :: digest, byte' :: digest', hlen, h => by
    obtain ⟨c, d, hpair, -⟩ := hexPair_eq byte
    obtain ⟨c', d', hpair', -⟩ := hexPair_eq byte'
    obtain ⟨text, htext, -⟩ := hexString_length digest
    obtain ⟨text', htext', -⟩ := hexString_length digest'
    rw [hexString_cons, hexString_cons, hpair, hpair', htext, htext'] at h
    cases h
    rw [hexPair_inj hpair hpair',
      hexString_inj digest digest' (Nat.succ_inj.1 hlen) (htext.trans htext'.symm)]

/-! ## One character of `hash_tostring` -/

variable {digest digest' : Bytes} {bits : UInt32} {bitpos : Nat}

theorem bits_cases (h : 1 ≤ bits) (h5 : bits ≤ 5) :
    bits = 1 ∨ bits = 2 ∨ bits = 3 ∨ bits = 4 ∨ bits = 5 := by
  rw [UInt32.le_iff_toNat_le] at h h5
  simp only [← UInt32.toNat_inj]
  have hone : (1 : UInt32).toNat = 1 := rfl
  have hfive : (5 : UInt32).toNat = 5 := rfl
  have htwo : (2 : UInt32).toNat = 2 := rfl
  have hthree : (3 : UInt32).toNat = 3 := rfl
  have hfour : (4 : UInt32).toNat = 4 := rfl
  omega

theorem stride_toNat (h : 1 ≤ bits) (h5 : bits ≤ 5) : (uintPow 2 bits).toNat = 2 ^ bits.toNat := by
  rw [uintPow_eq]
  rcases bits_cases h h5 with rfl | rfl | rfl | rfl | rfl
  all_goals rfl

theorem mask_lt (h : 1 ≤ bits) (h5 : bits ≤ 5) : (uintPow 2 bits - 1).toNat < 32 := by
  rw [uintPow_eq]
  rcases bits_cases h h5 with rfl | rfl | rfl | rfl | rfl
  all_goals decide

theorem place_eq (bitpos : Nat) : bitpos &&& 7 = bitpos % 8 :=
  Nat.and_two_pow_sub_one_eq_mod bitpos 3

/-- At a multiple of the stride the bits do not reach into the next byte. -/
theorem carryNext_eq (h : 1 ≤ bits) (h5 : bits ≤ 5) (hstride : 2 ^ bits.toNat ∣ bitpos)
    (value : UInt8) :
    carryNext digest bits.toNat bitpos (8 - (bitpos &&& 7)) value = some value := by
  have hroom : ¬ 8 - bitpos % 8 < bits.toNat := by
    rcases bits_cases h h5 with rfl | rfl | rfl | rfl | rfl
    all_goals
      simp at hstride ⊢
      omega
  rw [carryNext, place_eq, if_neg hroom]

theorem hashDigit_eq (h : 1 ≤ bits) (h5 : bits ≤ 5) (hstride : 2 ^ bits.toNat ∣ bitpos)
    (hlt : bitpos < digest.length * 8) :
    ∃ byte, digest[bitpos / 8]? = some byte
      ∧ hashDigit digest bits.toNat (uintPow 2 bits - 1) bitpos
        = hashHexdigits[((byte >>> UInt8.ofNat (bitpos % 8)).toUInt32
          &&& (uintPow 2 bits - 1)).toNat]? := by
  have hdiv : bitpos >>> 3 = bitpos / 8 := Nat.shiftRight_eq_div_pow bitpos 3
  have hbyte : digest[bitpos / 8]? = some digest[bitpos / 8] := List.getElem?_eq_getElem (by omega)
  refine ⟨_, hbyte, ?_⟩
  rw [hashDigit, hdiv, hbyte]
  simp only [Option.bind_eq_bind, Option.bind_some, carryNext_eq h h5 hstride]
  rw [place_eq]

theorem hashDigit_some (h : 1 ≤ bits) (h5 : bits ≤ 5) (hstride : 2 ^ bits.toNat ∣ bitpos)
    (hlt : bitpos < digest.length * 8) :
    ∃ c, hashDigit digest bits.toNat (uintPow 2 bits - 1) bitpos = some c := by
  obtain ⟨byte, -, hdigit⟩ := hashDigit_eq h h5 hstride hlt
  rw [hdigit]
  apply hashHexdigits_some
  have hmask := mask_lt h h5
  rw [UInt32.toNat_and]
  exact (Nat.and_le_right.trans_lt hmask).trans (by decide)

/-- The digit of a place in a byte has no part of the highest bit. -/
theorem mask_high (h : 1 ≤ bits) (h5 : bits ≤ 5) (h4 : bits ≠ 4) (hlt : bitpos < 8)
    (hstride : 2 ^ bits.toNat ∣ bitpos) :
    ((128 : UInt8) >>> UInt8.ofNat (bitpos % 8)).toUInt32 &&& (uintPow 2 bits - 1)
      = ((0 : UInt8) >>> UInt8.ofNat (bitpos % 8)).toUInt32 &&& (uintPow 2 bits - 1) := by
  rw [uintPow_eq]
  -- The places in a byte are at a stride from each other.
  rcases bits_cases h h5 with rfl | rfl | rfl | rfl | rfl
  · revert bitpos
    decide +kernel
  · revert bitpos
    decide +kernel
  · revert bitpos
    decide +kernel
  · exact absurd rfl h4
  · revert bitpos
    decide +kernel

/-- No character tells whether the highest bit of the first byte is set. -/
theorem hashDigit_high (h : 1 ≤ bits) (h5 : bits ≤ 5) (h4 : bits ≠ 4) (rest : Bytes)
    (hstride : 2 ^ bits.toNat ∣ bitpos) (hlt : bitpos < (rest.length + 1) * 8) :
    hashDigit (128 :: rest) bits.toNat (uintPow 2 bits - 1) bitpos
      = hashDigit (0 :: rest) bits.toNat (uintPow 2 bits - 1) bitpos := by
  obtain ⟨byte, hbyte, hdigit⟩ := @hashDigit_eq (128 :: rest) bits bitpos h h5 hstride hlt
  obtain ⟨byte', hbyte', hdigit'⟩ := @hashDigit_eq (0 :: rest) bits bitpos h h5 hstride hlt
  rw [hdigit, hdigit']
  by_cases hfirst : bitpos < 8
  · rw [Nat.div_eq_of_lt hfirst] at hbyte hbyte'
    cases hbyte
    cases hbyte'
    rw [mask_high h h5 h4 hfirst hstride]
  · obtain ⟨k, hk⟩ : ∃ k, bitpos / 8 = k + 1 := ⟨bitpos / 8 - 1, by omega⟩
    rw [hk, List.getElem?_cons_succ] at hbyte hbyte'
    rw [hbyte] at hbyte'
    cases hbyte'
    rfl

/-! ## The loop -/

theorem strides_succ {stride m : Nat} (hstride : 0 < stride) (hm : 0 < m) :
    (m - stride + stride - 1) / stride + 1 = (m + stride - 1) / stride := by
  have hall : m + stride - 1 = m - 1 + stride := by omega
  rw [hall, Nat.add_div_right _ hstride]
  rcases Nat.lt_or_ge m stride with hlt | hle
  · rw [Nat.div_eq_of_lt (by omega : m - stride + stride - 1 < stride),
      Nat.div_eq_of_lt (by omega : m - 1 < stride)]
  · rw [Nat.sub_add_cancel hle]

theorem tostringLoop_length (h : 1 ≤ bits) (h5 : bits ≤ 5) : ∀ fuel bitpos,
    2 ^ bits.toNat ∣ bitpos → digest.length * 8 - bitpos < fuel →
    ∃ text, tostringLoop digest bits.toNat (uintPow 2 bits) fuel bitpos = some text
      ∧ text.length = (digest.length * 8 - bitpos + 2 ^ bits.toNat - 1) / 2 ^ bits.toNat := by
  have hpos : 0 < 2 ^ bits.toNat := Nat.two_pow_pos bits.toNat
  intro fuel
  induction fuel with
  | zero => exact fun bitpos _ hfuel => absurd hfuel (Nat.not_lt_zero _)
  | succ fuel ih =>
    intro bitpos hstride hfuel
    rw [tostringLoop]
    by_cases hlt : bitpos < digest.length * 8
    · obtain ⟨c, hc⟩ := hashDigit_some h h5 hstride hlt
      obtain ⟨rest, hrest, hlen⟩ := ih (bitpos + 2 ^ bits.toNat)
        (Nat.dvd_add hstride (Nat.dvd_refl _)) (by omega)
      refine ⟨c :: rest, ?_, ?_⟩
      · rw [if_pos hlt, hc, stride_toNat h h5, hrest]
        rfl
      · rw [List.length_cons, hlen, ← Nat.sub_sub, strides_succ hpos (Nat.sub_pos_of_lt hlt)]
    · refine ⟨[], if_neg hlt, ?_⟩
      rw [Nat.sub_eq_zero_of_le (Nat.le_of_not_lt hlt), Nat.zero_add, List.length_nil,
        Nat.div_eq_of_lt (Nat.sub_one_lt_of_lt hpos)]

theorem tostringLoop_congr (h : 1 ≤ bits) (h5 : bits ≤ 5) (hlen : digest.length = digest'.length)
    (hdigit : ∀ bitpos, 2 ^ bits.toNat ∣ bitpos → bitpos < digest.length * 8 →
      hashDigit digest bits.toNat (uintPow 2 bits - 1) bitpos
        = hashDigit digest' bits.toNat (uintPow 2 bits - 1) bitpos) :
    ∀ fuel bitpos, 2 ^ bits.toNat ∣ bitpos →
      tostringLoop digest bits.toNat (uintPow 2 bits) fuel bitpos
        = tostringLoop digest' bits.toNat (uintPow 2 bits) fuel bitpos := by
  intro fuel
  induction fuel with
  | zero => exact fun _ _ => rfl
  | succ fuel ih =>
    intro bitpos hstride
    have hnext : 2 ^ bits.toNat ∣ bitpos + (uintPow 2 bits).toNat := by
      rw [stride_toNat h h5]
      exact Nat.dvd_add hstride (Nat.dvd_refl _)
    rw [tostringLoop, tostringLoop, ← hlen]
    by_cases hlt : bitpos < digest.length * 8
    · rw [if_pos hlt, if_pos hlt, hdigit bitpos hstride hlt, ih _ hnext]
    · rw [if_neg hlt, if_neg hlt]

theorem hashTostring_length (h : 1 ≤ bits) (h5 : bits ≤ 5) (digest : Bytes) :
    ∃ text, hashTostring digest bits = some text
      ∧ text.length = (digest.length * 8 + 2 ^ bits.toNat - 1) / 2 ^ bits.toNat :=
  tostringLoop_length h h5 _ 0 (Nat.dvd_zero _) (Nat.lt_succ_self _)

theorem hashTostring_collides (h : 1 ≤ bits) (h5 : bits ≤ 5) (h4 : bits ≠ 4) (rest : Bytes) :
    hashTostring (128 :: rest) bits = hashTostring (0 :: rest) bits := by
  have hlen : (128 :: rest).length = (0 :: rest).length := rfl
  apply tostringLoop_congr h h5 hlen
  · intro bitpos hstride hlt
    exact hashDigit_high h h5 h4 rest hstride hlt
  · exact Nat.dvd_zero _

/-! ## `toString()` -/

variable {h : Hash} {n : Nat}

theorem methodTostring_hex (hfinal : h.finalized = true) (digest : Bytes) :
    methodTostring h digest (some 4) = (hexString digest).map fun text => .ok (.string text) := by
  rw [methodTostring, hfinal]
  rfl

theorem methodTostring_bits (hfinal : h.finalized = true) (hle : 1 ≤ bits) (h5 : bits ≤ 5)
    (h4 : bits ≠ 4) (digest : Bytes) : methodTostring h digest (some bits)
      = (hashTostring digest bits).map fun text => .ok (.string text) := by
  have hpos : 0 < bits := by
    rw [UInt32.lt_iff_toNat_lt]
    exact UInt32.le_iff_toNat_le.1 hle
  rw [methodTostring, hfinal, Bool.not_true, if_neg Bool.false_ne_true, Option.getD_some,
    if_neg h4, if_pos ⟨hpos, h5⟩]

/-- No digest of `n` bytes is read outside, and each prints one character for every `bits` bits. -/
def PrintsAll (bits : UInt32) (n : Nat) : Prop :=
  ∀ (h : Hash) (digest : Bytes), h.finalized = true → digest.length = n →
    ∃ text, methodTostring h digest (some bits) = some (.ok (.string text))
      ∧ text.length = (8 * n + bits.toNat - 1) / bits.toNat

/-- Two digests of `n` bytes that print alike are the same. -/
def Determines (bits : UInt32) (n : Nat) : Prop :=
  ∀ (h : Hash) (digest digest' : Bytes), h.finalized = true → digest.length = n →
    digest'.length = n → methodTostring h digest (some bits) = methodTostring h digest' (some bits) →
    digest = digest'

/-- A hash that is finished. -/
def Hash.finished : Hash := ⟨true, []⟩

theorem hex_faithful (n : Nat) : PrintsAll 4 n ∧ Determines 4 n := by
  constructor
  · intro h digest hfinal hlen
    obtain ⟨text, htext, hlength⟩ := hexString_length digest
    refine ⟨text, ?_, ?_⟩
    · rw [methodTostring_hex hfinal, htext]
      rfl
    · have hfour : (4 : UInt32).toNat = 4 := rfl
      rw [hlength, hlen, hfour]
      omega
  · intro h digest digest' hfinal hlen hlen' heq
    obtain ⟨text, htext, -⟩ := hexString_length digest
    obtain ⟨text', htext', -⟩ := hexString_length digest'
    rw [methodTostring_hex hfinal, methodTostring_hex hfinal, htext, htext'] at heq
    cases heq
    exact hexString_inj digest digest' (hlen.trans hlen'.symm) (htext.trans htext'.symm)

theorem empty_faithful (hle : 1 ≤ bits) (h5 : bits ≤ 5) (h4 : bits ≠ 4) :
    PrintsAll bits 0 ∧ Determines bits 0 := by
  have hpos : 0 < bits.toNat := UInt32.le_iff_toNat_le.1 hle
  constructor
  · intro h digest hfinal hlen
    rw [List.length_eq_zero_iff.1 hlen]
    refine ⟨[], ?_, ?_⟩
    · rw [methodTostring_bits hfinal hle h5 h4]
      rfl
    · rw [Nat.mul_zero, Nat.zero_add, Nat.div_eq_of_lt (Nat.sub_one_lt_of_lt hpos)]
      rfl
  · intro h digest digest' _ hlen hlen' _
    rw [List.length_eq_zero_iff.1 hlen, List.length_eq_zero_iff.1 hlen']

theorem not_printsAll (hle : 1 ≤ bits) (h5 : bits ≤ 5) (h4 : bits ≠ 4) (hn : n ≠ 0) :
    ¬ PrintsAll bits n := by
  intro hall
  obtain ⟨text, htext, hlen⟩ := hall .finished (List.replicate n 0) rfl List.length_replicate
  obtain ⟨text', htext', hlen'⟩ := hashTostring_length hle h5 (List.replicate n 0)
  rw [methodTostring_bits rfl hle h5 h4, htext'] at htext
  cases htext
  rw [hlen', List.length_replicate] at hlen
  rcases bits_cases hle h5 with rfl | rfl | rfl | rfl | rfl
  all_goals first | exact h4 rfl | (simp at hlen; omega)

theorem not_determines (hle : 1 ≤ bits) (h5 : bits ≤ 5) (h4 : bits ≠ 4) (hn : n ≠ 0) :
    ¬ Determines bits n := by
  intro hall
  obtain ⟨k, rfl⟩ := Nat.exists_eq_succ_of_ne_zero hn
  have hlen : (List.replicate k (0 : UInt8)).length = k := List.length_replicate
  have hsame := hall .finished (128 :: List.replicate k 0) (0 :: List.replicate k 0) rfl
    (congrArg Nat.succ hlen) (congrArg Nat.succ hlen) (by
      rw [methodTostring_bits rfl hle h5 h4, methodTostring_bits rfl hle h5 h4,
        hashTostring_collides hle h5 h4])
  exact absurd (List.cons.inj hsame).1 (by decide)

/-- What is printed is complete, and tells digests apart, for four bits to a character only. -/
theorem hash_print_faithful_iff (bits : UInt32) (n : Nat) (hle : 1 ≤ bits) (h5 : bits ≤ 5) :
    (PrintsAll bits n ∧ Determines bits n ↔ bits = 4 ∨ n = 0)
      ∧ (PrintsAll bits n ↔ bits = 4 ∨ n = 0) ∧ (Determines bits n ↔ bits = 4 ∨ n = 0) := by
  by_cases h4 : bits = 4
  · obtain ⟨hprints, hdetermines⟩ := hex_faithful n
    rw [h4]
    simp [hprints, hdetermines]
  · by_cases hn : n = 0
    · obtain ⟨hprints, hdetermines⟩ := empty_faithful hle h5 h4
      rw [hn]
      simp [hprints, hdetermines]
    · simp [h4, hn, not_printsAll hle h5 h4 hn, not_determines hle h5 h4 hn]

theorem hash_print_faithful_iff_one : (1 : UInt32) ≤ 1 ∧ (1 : UInt32) ≤ 5
    ∧ ((PrintsAll 1 20 ∧ Determines 1 20 ↔ (1 : UInt32) = 4 ∨ 20 = 0)
      ∧ (PrintsAll 1 20 ↔ (1 : UInt32) = 4 ∨ 20 = 0) ∧ (Determines 1 20 ↔ (1 : UInt32) = 4 ∨ 20 = 0)) :=
  ⟨by decide, by decide, hash_print_faithful_iff 1 20 (by decide) (by decide)⟩

/-- Sixteen bytes print as 64 characters at one bit to a character, and the highest bit is in
none. -/
theorem high_bit_lost :
    methodTostring .finished (128 :: List.replicate 15 0) (some 1) =
        some (.ok (.string (List.replicate 64 48)))
      ∧ methodTostring .finished (0 :: List.replicate 15 0) (some 1) =
        some (.ok (.string (List.replicate 64 48)))
      ∧ ¬ (PrintsAll 1 16 ∧ Determines 1 16) := by
  have hone : (1 : UInt32) ≤ 1 ∧ (1 : UInt32) ≤ 5 ∧ (1 : UInt32) ≠ 4 := by decide
  obtain ⟨hle, h5, h4⟩ := hone
  refine ⟨?_, ?_, fun hall => not_printsAll hle h5 h4 (by decide) hall.1⟩
  · rw [methodTostring_bits rfl hle h5 h4, hashTostring, uintPow_eq]
    decide +kernel
  · rw [methodTostring_bits rfl hle h5 h4, hashTostring, uintPow_eq]
    decide +kernel

end QjsNet
