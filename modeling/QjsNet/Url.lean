import Mathlib.Data.Nat.Digits.Lemmas
import QjsNet.Utils

/- URLs (`url.c`): printing one and parsing it again.

   `urlFormat` computes the size of its allocation first; `none` is a write behind it,
   which happens when the host is missing. A port of -1 is "no port". In the byte strings
   58 is the colon, 47 the slash.

   Printing a complete URL and parsing it into a zeroed one gives the URL again
   (`url_round_trip`): the scheme ends at the first mark because it has no colon
   (`strstr_mark`), the host because it has no delimiter, and the port because the
   path begins with a slash (`strtoul_formatUnsigned`).

   Correspondence (C ↔ Lean):
     `protocol_names`, `protocol_number`, `protocol_default_port`
       ↔ `Protocol.name`, `protocolNumber`, `protocolDefaultPort`
     `url_parse`, `url_format` ↔ `urlParse`, `urlFormat` -/
namespace QjsNet

inductive Protocol where
  | ws
  | wss
  | http
  | https
  | raw
  | tls
  deriving DecidableEq, Repr

def Protocol.name : Protocol → Bytes
  | .ws => [119, 115]
  | .wss => [119, 115, 115]
  | .http => [104, 116, 116, 112]
  | .https => [104, 116, 116, 112, 115]
  | .raw => [114, 97, 119]
  | .tls => [116, 108, 115]

/-- `protocol_names`, in the order in which they are tried. -/
def protocolNames : List Protocol := [.tls, .raw, .https, .http, .wss, .ws]

def protocolNumber (protocol : Bytes) : Protocol :=
  (protocolNames.find? fun p => strcasecmp protocol p.name).getD .raw

def protocolDefaultPort : Protocol → Nat
  | .ws | .http => 80
  | .wss | .https => 443
  | .raw | .tls => 0

structure URL where
  protocol : Option Bytes
  host : Option Bytes
  path : Option Bytes
  port : Int
  deriving DecidableEq, Repr

def URL.zero : URL := ⟨none, none, none, 0⟩

/-- `://` -/
def schemeMark : Bytes := [58, 47, 47]

/-- Where the host ends. -/
def hostChar (c : UInt8) : Bool := c ≠ 58 && c ≠ 47

/-- The `int` that an `unsigned long` is converted to. -/
def intOfUlong (n : Nat) : Int := (BitVec.ofNat 32 n).toInt

/-- The part of `url_parse` behind the host: the port, and where it leaves `s`. -/
def parsePort (protocol : Option Bytes) (proto : Protocol) : Bytes → Int × Bytes
  | 58 :: s =>
    let (n, t) := strtoul s
    (if n ≠ ulongMax then intOfUlong n else 0, t)
  | s => (if protocol.isSome then protocolDefaultPort proto else -1, s)

def urlParse (url : URL) (u : Bytes) : URL :=
  let (protocol, proto, u) : Option Bytes × Protocol × Bytes :=
    match strstr schemeMark u with
    | some (name, rest) => (some name, protocolNumber name, rest)
    | none => (none, .ws, u)
  let host := u.takeWhile hostChar
  let (port, s) := parsePort protocol proto (u.dropWhile hostChar)
  { protocol
    host := if host.isEmpty then none else some host
    path := if s.isEmpty then url.path else some s
    port }

/-- `0.0.0.0` -/
def anyHost : Bytes := [48, 46, 48, 46, 48, 46, 48]

/-- The bytes `url_format` allocates. -/
def formatSize (url : URL) : Nat :=
  url.protocol.elim 0 (·.length + 3) + url.host.elim 0 (·.length + 1 + 5) +
    url.path.elim 0 (·.length) + 1

def urlFormat (url : URL) : Option Bytes :=
  let scheme := url.protocol.elim [] (· ++ schemeMark)
  let host? :=
    if url.host.isSome then url.host
    else if 0 < scheme.length ∨ 0 ≤ url.port then some anyHost else none
  let authority : Bytes :=
    match host?, url.protocol with
    | none, _ => []
    | some host, some protocol =>
      if url.port = protocolDefaultPort (protocolNumber protocol) ∨ url.port < 0 then host
      else host ++ 58 :: formatUnsigned (url.port % 2 ^ 32).toNat
    | some host, none => host ++ 58 :: formatUnsigned (url.port % 2 ^ 32).toNat
  let str := scheme ++ authority ++ url.path.getD []
  if str.length < formatSize url then some str else none

/-! ## Schemes -/

/-- The protocol is one of the library's, in any case. -/
def KnownProtocol (protocol : Bytes) : Prop := ∃ p : Protocol, strcasecmp protocol p.name = true

theorem colon_not_mem_name (p : Protocol) : (58 : UInt8) ∉ p.name := by
  cases p <;> decide

theorem KnownProtocol.no_colon {protocol : Bytes} (h : KnownProtocol protocol) :
    (58 : UInt8) ∉ protocol := by
  intro hmem
  obtain ⟨p, hp⟩ := h
  exact colon_not_mem_name p (mem_of_strcasecmp (by decide) (by decide) hp hmem)

/-- Without a colon in front, the first mark is found. -/
theorem strstr_mark (rest : Bytes) : ∀ {name : Bytes}, (58 : UInt8) ∉ name →
    strstr schemeMark (name ++ schemeMark ++ rest) = some (name, rest)
  | [], _ => by
    simp [strstr, schemeMark]
  | c :: name, h => by
    obtain ⟨hc, hname⟩ := not_or.1 (fun h' => h (List.mem_cons.2 h'))
    have hpre : schemeMark.isPrefixOf (c :: (name ++ schemeMark ++ rest)) = false := by
      simp [schemeMark, List.isPrefixOf, hc]
    rw [List.cons_append, List.cons_append, strstr, hpre, strstr_mark rest hname]
    rfl

/-! ## Ports -/

theorem isdigit_digit {d : Nat} (h : d < 10) : isdigit (48 + UInt8.ofNat d) = true := by
  have hall : ∀ d < 10, isdigit (48 + UInt8.ofNat d) = true := by decide
  exact hall d h

theorem toNat_digit {d : Nat} (h : d < 10) : (48 + UInt8.ofNat d).toNat - 48 = d := by
  have hall : ∀ d < 10, (48 + UInt8.ofNat d).toNat - 48 = d := by decide
  exact hall d h

theorem formatUnsigned_digits (n : Nat) : ∀ c ∈ formatUnsigned n, isdigit c = true := by
  intro c hc
  unfold formatUnsigned at hc
  split at hc
  · rw [List.mem_singleton.1 hc]
    decide
  · obtain ⟨d, hd, rfl⟩ := List.mem_map.1 hc
    exact isdigit_digit (Nat.digits_lt_base (by decide) (List.mem_reverse.1 hd))

theorem formatUnsigned_ne_nil (n : Nat) : formatUnsigned n ≠ [] := by
  unfold formatUnsigned
  split
  · exact List.cons_ne_nil _ _
  · next h => simpa [Nat.digits_eq_nil_iff_eq_zero] using h

theorem foldl_digits (ds : List Nat) (h : ∀ d ∈ ds, d < 10) :
    digitsValue (ds.reverse.map fun d => 48 + UInt8.ofNat d) = Nat.ofDigits 10 ds := by
  unfold digitsValue
  induction ds with
  | nil => rfl
  | cons d ds ih =>
    have hd : d < 10 := h d List.mem_cons_self
    rw [List.reverse_cons, List.map_append, List.foldl_append,
      ih fun d' hd' => h d' (List.mem_cons_of_mem _ hd'), Nat.ofDigits_cons]
    simp only [List.map_cons, List.map_nil, List.foldl_cons, List.foldl_nil, toNat_digit hd]
    omega

theorem digitsValue_formatUnsigned (n : Nat) : digitsValue (formatUnsigned n) = n := by
  unfold formatUnsigned
  split
  · next h =>
    rw [h]
    rfl
  · rw [foldl_digits _ fun d hd => Nat.digits_lt_base (by decide) hd, Nat.ofDigits_digits]

theorem formatUnsigned_length {n : Nat} (h : n < 10 ^ 5) : (formatUnsigned n).length ≤ 5 := by
  unfold formatUnsigned
  split
  · decide
  · rw [List.length_map, List.length_reverse, Nat.digits_length_le_iff (by decide)]
    exact h

theorem takeSign_other {c : UInt8} (hminus : c ≠ 45) (hplus : c ≠ 43) (x : Bytes) :
    takeSign (c :: x) = (false, c :: x) := by
  unfold takeSign
  split
  · next heq => exact absurd (List.cons.inj heq).1 hminus
  · next heq => exact absurd (List.cons.inj heq).1 hplus
  · rfl

theorem strtoul_formatUnsigned {n : Nat} (hn : n ≤ ulongMax) {rest : Bytes}
    (hrest : ∀ c ∈ rest.head?, isdigit c = false) :
    strtoul (formatUnsigned n ++ rest) = (n, rest) := by
  obtain ⟨c, cs, hcs⟩ := List.exists_cons_of_ne_nil (formatUnsigned_ne_nil n)
  have hdigits := formatUnsigned_digits n
  have hc : isdigit c = true := hdigits c (by rw [hcs]; exact List.mem_cons_self)
  -- No white space and no sign is in front of it.
  have hspace : isspace c = false := by
    revert hc
    unfold isdigit isspace
    simp only [Bool.and_eq_true, decide_eq_true_eq, Bool.or_eq_false_iff, decide_eq_false_iff_not,
      Bool.and_eq_false_iff, UInt8.le_iff_toNat_le, ← UInt8.toNat_inj, UInt8.reduceToNat]
    omega
  have hsign : c ≠ 45 ∧ c ≠ 43 := by
    refine ⟨?_, ?_⟩
    · rintro rfl
      cases hc
    · rintro rfl
      cases hc
  have hstart : (formatUnsigned n ++ rest).dropWhile isspace = formatUnsigned n ++ rest := by
    rw [hcs, List.cons_append, List.dropWhile_cons_of_neg (by rw [hspace]; decide)]
  have htake : (formatUnsigned n ++ rest).takeWhile isdigit = formatUnsigned n := by
    rw [List.takeWhile_append_of_pos hdigits]
    cases rest with
    | nil => rw [List.takeWhile_nil, List.append_nil]
    | cons r rest =>
      rw [List.takeWhile_cons_of_neg (by rw [hrest r rfl]; decide), List.append_nil]
  have hdrop : (formatUnsigned n ++ rest).dropWhile isdigit = rest := by
    rw [List.dropWhile_append_of_pos hdigits]
    cases rest with
    | nil => rfl
    | cons r rest => rw [List.dropWhile_cons_of_neg (by rw [hrest r rfl]; decide)]
  have hplain : takeSign (formatUnsigned n ++ rest) = (false, formatUnsigned n ++ rest) := by
    rw [hcs]
    exact takeSign_other hsign.1 hsign.2 _
  unfold strtoul
  rw [hstart, hplain]
  simp only [htake, hdrop, digitsValue_formatUnsigned]
  rw [if_neg (by simpa using formatUnsigned_ne_nil n), if_neg (Nat.not_lt.2 hn)]
  rfl

theorem intOfUlong_port {n : Nat} (h : n ≤ 65535) : intOfUlong n = n := by
  unfold intOfUlong
  rw [BitVec.toInt_eq_toNat_of_lt (by rw [BitVec.toNat_ofNat]; omega), BitVec.toNat_ofNat]
  omega

/-! ## Round trip -/

theorem span_host {host s : Bytes} (hcolon : (58 : UInt8) ∉ host) (hslash : (47 : UInt8) ∉ host)
    (hs : ∀ c ∈ s.head?, hostChar c = false) :
    (host ++ s).takeWhile hostChar = host ∧ (host ++ s).dropWhile hostChar = s := by
  have hall : ∀ c ∈ host, hostChar c = true := by
    intro c hc
    simp only [hostChar, Bool.and_eq_true, decide_eq_true_eq]
    exact ⟨fun heq => hcolon (heq ▸ hc), fun heq => hslash (heq ▸ hc)⟩
  rw [List.takeWhile_append_of_pos hall, List.dropWhile_append_of_pos hall]
  cases s with
  | nil => exact ⟨List.append_nil _, rfl⟩
  | cons c s =>
    have hc : ¬ hostChar c = true := by
      rw [hs c rfl]
      decide
    rw [List.takeWhile_cons_of_neg hc, List.dropWhile_cons_of_neg hc]
    exact ⟨List.append_nil _, rfl⟩

/-- A path that is absent or begins with a slash. -/
def PathFromRoot (path : Option Bytes) : Prop := ∀ p ∈ path, p.head? = some 47

theorem PathFromRoot.head {path : Option Bytes} (h : PathFromRoot path) :
    ∀ c ∈ (path.getD []).head?, c = 47 := by
  cases path with
  | none => exact fun c hc => nomatch hc
  | some p =>
    intro c hc
    rw [Option.getD_some, h p rfl] at hc
    exact (Option.some.inj hc).symm

theorem PathFromRoot.parsed {path : Option Bytes} (h : PathFromRoot path) :
    (if path.getD [] = [] then none else some (path.getD [])) = path := by
  cases path with
  | none => rfl
  | some p =>
    cases p with
    | nil => cases h [] rfl
    | cons c p => rfl

variable {protocol host : Bytes} {path : Option Bytes}

/-- A URL without a port gets that of its protocol. -/
theorem urlParse_default (hprotocol : (58 : UInt8) ∉ protocol) (hne : host ≠ [])
    (hcolon : (58 : UInt8) ∉ host) (hslash : (47 : UInt8) ∉ host) (hpath : PathFromRoot path) :
    urlParse .zero (protocol ++ schemeMark ++ (host ++ path.getD []))
      = ⟨some protocol, some host, path, protocolDefaultPort (protocolNumber protocol)⟩ := by
  have hdelim : ∀ c ∈ (path.getD []).head?, hostChar c = false := by
    intro c hc
    rw [hpath.head c hc]
    rfl
  obtain ⟨htake, hdrop⟩ := span_host hcolon hslash hdelim
  have hport : parsePort (some protocol) (protocolNumber protocol) (path.getD [])
      = ((protocolDefaultPort (protocolNumber protocol) : Int), path.getD []) := by
    unfold parsePort
    split
    · next heq => cases hpath.head 58 (by rw [heq]; rfl)
    · rfl
  unfold urlParse
  simp only [strstr_mark _ hprotocol, htake, hdrop, hport, URL.zero, List.isEmpty_iff, hne, if_false]
  rw [hpath.parsed]

theorem urlParse_port (hprotocol : (58 : UInt8) ∉ protocol) (hne : host ≠ [])
    (hcolon : (58 : UInt8) ∉ host) (hslash : (47 : UInt8) ∉ host) (hpath : PathFromRoot path)
    {n : Nat} (hn : n ≤ 65535) :
    urlParse .zero (protocol ++ schemeMark ++ (host ++ 58 :: (formatUnsigned n ++ path.getD [])))
      = ⟨some protocol, some host, path, n⟩ := by
  have hdigit : ∀ c ∈ (path.getD []).head?, isdigit c = false := by
    intro c hc
    rw [hpath.head c hc]
    rfl
  have hmax : n < ulongMax := Nat.lt_of_le_of_lt hn (by decide)
  obtain ⟨htake, hdrop⟩ := @span_host host (58 :: (formatUnsigned n ++ path.getD [])) hcolon hslash
    fun c hc => (Option.some.inj hc) ▸ rfl
  unfold urlParse
  simp only [strstr_mark _ hprotocol, htake, hdrop, parsePort,
    strtoul_formatUnsigned (Nat.le_of_lt hmax) hdigit, Nat.ne_of_lt hmax, ne_eq,
    not_false_eq_true, if_true, intOfUlong_port hn, URL.zero, List.isEmpty_iff, hne, if_false]
  rw [hpath.parsed]

/-- A printed URL is parsed into the same URL, and the printer stays in its allocation. -/
theorem url_round_trip {port : Int} (hprotocol : KnownProtocol protocol) (hne : host ≠ [])
    (hcolon : (58 : UInt8) ∉ host) (hslash : (47 : UInt8) ∉ host)
    (hport : 0 ≤ port ∧ port ≤ 65535) (hpath : PathFromRoot path) :
    (urlFormat ⟨some protocol, some host, path, port⟩).map (urlParse .zero)
      = some ⟨some protocol, some host, path, port⟩ := by
  obtain ⟨n, rfl⟩ := Int.eq_ofNat_of_zero_le hport.1
  have hn : n ≤ 65535 := Int.ofNat_le.1 hport.2
  have hneg : ¬ (n : Int) < 0 := by omega
  have hmod : (((n : Int) % 2 ^ 32).toNat) = n := by omega
  by_cases hdefault : (n : Int) = protocolDefaultPort (protocolNumber protocol)
  · have hformat : urlFormat ⟨some protocol, some host, path, n⟩
        = some (protocol ++ schemeMark ++ (host ++ path.getD [])) := by
      unfold urlFormat
      simp only [Option.isSome_some, if_true, Option.elim_some]
      rw [if_pos (Or.inl hdefault), List.append_assoc (protocol ++ schemeMark), if_pos]
      cases path <;> simp [formatSize, schemeMark] <;> omega
    rw [hformat, Option.map_some, urlParse_default hprotocol.no_colon hne hcolon hslash hpath,
      ← hdefault]
  · have hlen := formatUnsigned_length (show n < 10 ^ 5 by omega)
    have hformat : urlFormat ⟨some protocol, some host, path, n⟩
        = some (protocol ++ schemeMark ++ (host ++ 58 :: (formatUnsigned n ++ path.getD []))) := by
      unfold urlFormat
      simp only [Option.isSome_some, if_true, Option.elim_some]
      rw [if_neg (not_or.2 ⟨hdefault, hneg⟩), hmod, List.append_assoc (protocol ++ schemeMark),
        List.append_assoc host, List.cons_append, if_pos]
      cases path <;> simp [formatSize, schemeMark] <;> omega
    rw [hformat, Option.map_some, urlParse_port hprotocol.no_colon hne hcolon hslash hpath hn]

/-- `HTTPS://a:81/b://c`: another port than the default one, and the scheme mark in the path. -/
theorem url_round_trip_port :
    (urlFormat ⟨some [72, 84, 84, 80, 83], some [97], some [47, 98, 58, 47, 47, 99], 81⟩).map
        (urlParse .zero)
      = some ⟨some [72, 84, 84, 80, 83], some [97], some [47, 98, 58, 47, 47, 99], 81⟩ :=
  url_round_trip ⟨.https, by decide⟩ (by decide) (by decide) (by decide) (by decide)
    (fun p hp => Option.some.inj hp ▸ rfl)

end QjsNet
