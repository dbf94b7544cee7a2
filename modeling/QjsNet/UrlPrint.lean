import QjsNet.Lib.PartialRun
import QjsNet.UrlPath

/- The texts of a URL and their lengths (`url.c`).

   `url_format` adds up the bytes it allocates part by part, `url_print` counts or prints,
   and `url_length` counts with it in 8192 bytes. The three go through the same URL, but
   `url_format` has another host for a missing one, leaves out other ports and prints a
   port with as many digits as it has.

   Each of them is right exactly for the ports and parts that the others treat alike
   (`url_format_fits_iff`, `url_length_agrees_iff`), in every URL that a run of parsers
   and setters leads to. Memory does not run out.

   Correspondence (C ↔ Lean):
     `url_init`, `minnet_url_set`            ↔ `urlInit`, `urlStep`
     `url_print`, `url_length`, `url_format` ↔ `urlPrint`, `urlLength`, `formatText` -/
namespace QjsNet

/-! ## The URLs that are reached -/

/-- `URL_IS_VALID_PORT` -/
def urlIsValidPort (num : Int) : Bool := 0 ≤ num && num ≤ 65535

/-- A URL of its parts; without a protocol the default port is 0. -/
def urlInit (protocol host : Option Bytes) (port : Int) (path : Option Bytes) : URL :=
  { protocol := protocol.map fun s => (protocolNumber s).name
    host := some (match host with | some (c :: s) => c :: s | _ => anyHost)
    path := some (path.getD [])
    port :=
      if urlIsValidPort port then port
      else protocol.elim 0 fun s => protocolDefaultPort (protocolNumber s) }

/-- A parser or a setter, with the strings it is given; the protocol may be set to null. -/
inductive UrlOp where
  | parse (u : Bytes)
  | init (protocol host : Option Bytes) (port : Int) (path : Option Bytes)
  | setProtocol (value : Option Bytes)
  | setHostname (value : Bytes)
  | setPort (value : Int)
  | setPathname (value : Bytes)
  | setQuery (value : Bytes)
  | clearQuery

/-- `none` is a call that reads what it may not. -/
def urlStep (url : URL) : UrlOp → Option URL
  | .parse u => some (urlParse url (cString u))
  | .init protocol host port path =>
    some (urlInit (protocol.map cString) (host.map cString) port (path.map cString))
  | .setProtocol value =>
    some { url with protocol := value.map fun s => (protocolNumber (cString s)).name }
  | .setHostname value => some { url with host := some (cString value) }
  | .setPort value => some { url with port := if urlIsValidPort value then value else -1 }
  | .setPathname value => (urlSetPathLen url value).toOption.map Prod.fst
  | .setQuery value => some (urlSetQueryLen url value).1
  | .clearQuery => (urlClearQuery url).toOption

/-- The port is an `int`. -/
def IntPort (url : URL) : Prop := -2147483648 ≤ url.port ∧ url.port < 2147483648

variable {url url' : URL} {op : UrlOp} {ops : List UrlOp}

theorem intOfUlong_bounds (n : Nat) : -2147483648 ≤ intOfUlong n ∧ intOfUlong n < 2147483648 := by
  have hlow := BitVec.le_toInt (BitVec.ofNat 32 n)
  have hhigh := BitVec.toInt_lt (x := BitVec.ofNat 32 n)
  unfold intOfUlong
  constructor <;> omega

theorem protocolDefaultPort_le (p : Protocol) : protocolDefaultPort p ≤ 443 := by
  cases p <;> decide

theorem parsePort_bounds (protocol : Option Bytes) (proto : Protocol) (s : Bytes) :
    -2147483648 ≤ (parsePort protocol proto s).1 ∧ (parsePort protocol proto s).1 < 2147483648 := by
  have hdefault := protocolDefaultPort_le proto
  unfold parsePort
  split
  · dsimp only
    split
    · exact intOfUlong_bounds _
    · decide
  · dsimp only
    split <;> omega

theorem validPort_bounds (port : Int) {other : Int}
    (hother : -2147483648 ≤ other ∧ other < 2147483648) :
    -2147483648 ≤ (if urlIsValidPort port then port else other) ∧
      (if urlIsValidPort port then port else other) < 2147483648 := by
  split
  · next hvalid =>
    simp only [urlIsValidPort, Bool.and_eq_true, decide_eq_true_eq] at hvalid
    omega
  · exact hother

theorem urlSetPathLen_stores {path : Bytes} {r : URL × Bool}
    (h : urlSetPathLen url path = .ok r) : ∃ p, r.1 = { url with path := some (cString p) } := by
  unfold urlSetPathLen at h
  split at h
  · cases h
    exact ⟨path, rfl⟩
  · cases hold : urlQuery url with
    | error f =>
      rw [hold] at h
      cases h
    | ok oldquery =>
      rw [hold] at h
      cases h
      cases oldquery <;> exact ⟨_, rfl⟩

theorem urlSetPathLen_port {path : Bytes} {r : URL × Bool} (h : urlSetPathLen url path = .ok r) :
    r.1.port = url.port := by
  obtain ⟨p, hp⟩ := urlSetPathLen_stores h
  rw [hp]

theorem urlClearQuery_port (h : urlClearQuery url = .ok url') : url'.port = url.port := by
  unfold urlClearQuery at h
  split at h
  · cases h
  · cases h
    rfl

theorem urlStep_setPathname {value : Bytes} (h : urlStep url (.setPathname value) = some url') :
    ∃ b, urlSetPathLen url value = .ok (url', b) := by
  rw [urlStep] at h
  cases hset : urlSetPathLen url value with
  | error f =>
    rw [hset] at h
    cases h
  | ok r =>
    rw [hset] at h
    cases h
    exact ⟨r.2, rfl⟩

theorem urlStep_clearQuery (h : urlStep url .clearQuery = some url') :
    urlClearQuery url = .ok url' := by
  rw [urlStep] at h
  cases hclear : urlClearQuery url with
  | error f =>
    rw [hclear] at h
    cases h
  | ok cleared =>
    rw [hclear] at h
    cases h
    rfl

theorem urlStep_intPort (hport : IntPort url) (hstep : urlStep url op = some url') :
    IntPort url' := by
  cases op with
  | parse u =>
    cases hstep
    exact parsePort_bounds _ _ _
  | init protocol host port path =>
    cases hstep
    refine validPort_bounds port ?_
    cases protocol with
    | none => decide
    | some s =>
      have hdefault := protocolDefaultPort_le (protocolNumber (cString s))
      rw [Option.map_some, Option.elim_some]
      omega
  | setProtocol value =>
    cases hstep
    exact hport
  | setHostname value =>
    cases hstep
    exact hport
  | setPort value =>
    cases hstep
    exact validPort_bounds value (by decide)
  | setPathname value =>
    obtain ⟨b, hset⟩ := urlStep_setPathname hstep
    rw [IntPort, urlSetPathLen_port hset]
    exact hport
  | setQuery value =>
    cases hstep
    exact hport
  | clearQuery =>
    rw [IntPort, urlClearQuery_port (urlStep_clearQuery hstep)]
    exact hport

/-- The URL that a run of calls makes of a zeroed one. -/
def urlRun (ops : List UrlOp) : Option URL := PartialRun.run urlStep .zero ops

theorem urlRun_intPort (h : urlRun ops = some url) : IntPort url :=
  PartialRun.run_induct (fun _ _ _ hport hstep => urlStep_intPort hport hstep) ops ⟨by decide, by decide⟩ h

/-! ## `url_format` -/

/-- The host that is printed. -/
def formatHost (url : URL) : Option Bytes :=
  if url.host.isSome then url.host
  else if 0 < (url.protocol.elim [] (· ++ schemeMark)).length ∨ 0 ≤ url.port then some anyHost
  else none

/-- `:%u` -/
def portText (port : Int) : Bytes := 58 :: formatUnsigned (port % 2 ^ 32).toNat

/-- The host and the port, which is left out where it is the default one or none. -/
def formatAuthority (url : URL) : Bytes :=
  match formatHost url, url.protocol with
  | none, _ => []
  | some host, some protocol =>
    if url.port = protocolDefaultPort (protocolNumber protocol) ∨ url.port < 0 then host
    else host ++ portText url.port
  | some host, none => host ++ portText url.port

/-- What `url_format` writes in front of the terminating zero. -/
def formatText (url : URL) : Bytes :=
  url.protocol.elim [] (· ++ schemeMark) ++ formatAuthority url ++ url.path.getD []

/-- The bytes that are written, the terminating zero among them, are allocated. -/
def FormatFits (url : URL) : Prop := (formatText url).length + 1 ≤ formatSize url

/-! ### Digits -/

theorem formatUnsigned_length_le_iff {n k : Nat} (hk : 0 < k) :
    (formatUnsigned n).length ≤ k ↔ n < 10 ^ k := by
  unfold formatUnsigned
  split
  · next hn =>
    rw [hn, List.length_singleton]
    exact ⟨fun _ => Nat.pow_pos (by decide), fun _ => hk⟩
  · rw [List.length_map, List.length_reverse, Nat.digits_length_le_iff (by decide)]

theorem portText_length (port : Int) :
    (portText port).length = (formatUnsigned (port % 2 ^ 32).toNat).length + 1 :=
  List.length_cons

theorem portText_pos (port : Int) : 2 ≤ (portText port).length := by
  have hpos := List.length_pos_iff.2 (formatUnsigned_ne_nil (port % 2 ^ 32).toNat)
  rw [portText_length]
  omega

/-- A colon and five digits are enough for the ports below 100000, and for no negative one. -/
theorem portText_fits_iff (hport : IntPort url) :
    (portText url.port).length ≤ 6 ↔ 0 ≤ url.port ∧ url.port ≤ 99999 := by
  obtain ⟨hlow, hhigh⟩ := hport
  have hfive := @formatUnsigned_length_le_iff (url.port % 2 ^ 32).toNat 5 (by decide)
  rw [portText_length]
  omega

/-! ### The allocation -/

theorem formatText_length (url : URL) : (formatText url).length =
    url.protocol.elim 0 (·.length + 3) + (formatAuthority url).length +
      url.path.elim 0 (·.length) := by
  unfold formatText
  rw [List.length_append, List.length_append]
  cases url.protocol <;> cases url.path <;> simp [schemeMark]

theorem formatFits_authority_iff :
    FormatFits url ↔ (formatAuthority url).length ≤ url.host.elim 0 (·.length + 1 + 5) := by
  rw [FormatFits, formatText_length, formatSize]
  omega

/-- A missing host is printed as another one, but for a URL that is only a path. -/
theorem authority_missing (hhost : url.host = none) :
    formatAuthority url = [] ↔ url.protocol = none ∧ url.port < 0 := by
  unfold formatAuthority formatHost
  rw [hhost]
  cases url.protocol with
  | none =>
    by_cases hport : 0 ≤ url.port
    · simp [hport, anyHost]
    · simp [hport, Int.not_le.1 hport]
  | some p =>
    by_cases hport : url.port = protocolDefaultPort (protocolNumber p) ∨ url.port < 0 <;>
      simp [hport, anyHost, schemeMark]

theorem authority_no_protocol {host : Bytes} (hhost : url.host = some host)
    (hprotocol : url.protocol = none) : formatAuthority url = host ++ portText url.port := by
  unfold formatAuthority formatHost
  rw [hhost, hprotocol]
  rfl

theorem authority_protocol {host p : Bytes} (hhost : url.host = some host)
    (hprotocol : url.protocol = some p) : formatAuthority url =
      if url.port = protocolDefaultPort (protocolNumber p) ∨ url.port < 0 then host
      else host ++ portText url.port := by
  unfold formatAuthority formatHost
  rw [hhost, hprotocol]
  rfl

/-- `url_format` writes no more than it allocates exactly when the host is there and the port has
five digits or is left out, or when the URL is only a path. -/
theorem url_format_fits_iff {ops : List UrlOp} {url : URL} (hrun : urlRun ops = some url) :
    FormatFits url ↔
      (url.host = none ∧ url.protocol = none ∧ url.port < 0) ∨
        (url.host ≠ none ∧ url.port ≤ 99999 ∧ (url.protocol = none → 0 ≤ url.port)) := by
  have hdigits := portText_fits_iff (urlRun_intPort hrun)
  rw [formatFits_authority_iff]
  cases hhost : url.host with
  | none =>
    have hempty := authority_missing hhost
    rw [Option.elim_none, Nat.le_zero, List.length_eq_zero_iff, hempty]
    simp
  | some host =>
    cases hprotocol : url.protocol with
    | none =>
      rw [authority_no_protocol hhost hprotocol, Option.elim_some, List.length_append]
      have hroom : host.length + (portText url.port).length ≤ host.length + 1 + 5 ↔
          (portText url.port).length ≤ 6 := by omega
      rw [hroom, hdigits]
      simp only [reduceCtorEq, false_and, false_or, ne_eq, not_false_eq_true, true_and,
        forall_const]
      exact and_comm
    | some p =>
      have hdefault := protocolDefaultPort_le (protocolNumber p)
      rw [authority_protocol hhost hprotocol, Option.elim_some]
      simp only [reduceCtorEq, false_and, false_or, ne_eq, not_false_eq_true, true_and,
        false_implies, and_true]
      split
      · omega
      · rw [List.length_append]
        omega

/-- `a:8` -/
theorem url_format_fits_parsed : FormatFits ⟨none, some [97], none, 8⟩ :=
  (@url_format_fits_iff [.parse [97, 58, 56]] _ (by decide)).2 (Or.inr (by decide))

/-- `localhost` is parsed without a port, and printed with the port 4294967295. -/
theorem parsed_host_overflow :
    ¬ ∀ (ops : List UrlOp) (url : URL), urlRun ops = some url → FormatFits url := by
  intro h
  have hfits : FormatFits ⟨none, some [108, 111, 99, 97, 108, 104, 111, 115, 116], none, -1⟩ :=
    h [.parse [108, 111, 99, 97, 108, 104, 111, 115, 116]] _ (by decide)
  unfold FormatFits at hfits
  exact absurd hfits (by decide)

/-! ## `url_print` -/

/-- The text in the buffer, and `pos`, which counts without a buffer as well. -/
structure Printed where
  text : Bytes
  pos : Nat

/-- `strlcpy` into the room behind `pos`. -/
def printString (buf : Bool) (size : Nat) (s : Bytes) (p : Printed) : Printed :=
  ⟨if buf then p.text ++ s.take (size - p.pos - 1) else p.text, p.pos + s.length⟩

/-- The scheme of a protocol that is not empty; `error` is an early return. -/
def printScheme (buf : Bool) (size : Nat) (protocol : Bytes) (p : Printed) :
    Except Printed Printed :=
  if protocol.isEmpty then .ok p
  else
    let p := printString buf size protocol p
    if size < p.pos + 3 then .error p
    else
      let p := printString buf size schemeMark p
      if size ≤ p.pos then .error p else .ok p

/-- The host or the path. -/
def printPart (buf : Bool) (size : Nat) (part : Option Bytes) (p : Printed) :
    Except Printed Printed :=
  match part with
  | none => .ok p
  | some s =>
    let p := printString buf size s p
    if size ≤ p.pos then .error p else .ok p

/-- The digits that are counted. -/
def countDigits (port : Int) : Nat :=
  if 9999 < port then 5 else if 999 < port then 4 else if 99 < port then 3
  else if 9 < port then 2 else 1

/-- The port, which is printed with as many digits as it has. -/
def printPort (buf : Bool) (size : Nat) (port : Int) (p : Printed) : Except Printed Printed :=
  if port = 0 then .ok p
  else if size - p.pos < 7 then .error p
  else if buf then .ok ⟨p.text ++ portText port, p.pos + (portText port).length⟩
  else .ok ⟨p.text, p.pos + (1 + countDigits port)⟩

/-- What is returned, early or at the end. -/
def returned : Except Printed Printed → Printed
  | .ok p => p
  | .error p => p

def urlPrint (buf : Bool) (size : Nat) (url : URL) : Printed :=
  returned do
    let p ← printScheme buf size (url.protocol.getD []) ⟨[], 0⟩
    let p ← printPart buf size url.host p
    let p ← printPort buf size url.port p
    printPart buf size url.path p

def urlLength (url : URL) : Nat := (urlPrint false 8192 url).pos

/-- The length is that of both texts, of `url_print` in any buffer that is large enough. -/
def LengthAgrees (url : URL) : Prop :=
  urlLength url = (formatText url).length ∧
    ∃ enough, ∀ size, enough ≤ size → (urlPrint true size url).text.length = urlLength url

/-! ### In enough room -/

/-- The scheme as `url_print` prints it. -/
def schemeText (protocol : Bytes) : Bytes :=
  if protocol.isEmpty then [] else protocol ++ schemeMark

theorem printString_room {buf : Bool} {size : Nat} {s : Bytes} {p : Printed}
    (h : p.pos + s.length < size) :
    printString buf size s p = ⟨if buf then p.text ++ s else p.text, p.pos + s.length⟩ := by
  rw [printString, List.take_of_length_le (by omega)]

theorem printScheme_room {buf : Bool} {size : Nat} {protocol : Bytes} {p : Printed}
    (h : p.pos + (schemeText protocol).length < size) :
    printScheme buf size protocol p =
      .ok ⟨if buf then p.text ++ schemeText protocol else p.text,
        p.pos + (schemeText protocol).length⟩ := by
  unfold schemeText at h ⊢
  unfold printScheme
  cases hempty : protocol.isEmpty with
  | true => simp
  | false =>
    have hmark : schemeMark.length = 3 := rfl
    rw [hempty, if_neg Bool.false_ne_true, List.length_append, hmark] at h
    simp only [Bool.false_eq_true, if_false]
    rw [printString_room (by omega), if_neg (by dsimp only; omega),
      printString_room (by dsimp only; omega), if_neg (by dsimp only; omega)]
    cases buf <;> simp [Nat.add_assoc]

theorem printPart_room {buf : Bool} {size : Nat} {part : Option Bytes} {p : Printed}
    (h : p.pos + (part.getD []).length < size) :
    printPart buf size part p =
      .ok ⟨if buf then p.text ++ part.getD [] else p.text, p.pos + (part.getD []).length⟩ := by
  unfold printPart
  cases part with
  | none => simp
  | some s =>
    rw [Option.getD_some] at h ⊢
    dsimp only
    rw [printString_room h, if_neg (by dsimp only; omega)]

theorem returned_printPart (buf : Bool) (size : Nat) (part : Option Bytes) (p : Printed) :
    (returned (printPart buf size part p)).pos = p.pos + (part.getD []).length := by
  unfold printPart
  cases part with
  | none => rfl
  | some s =>
    dsimp only
    split <;> rfl

/-- What is in front of the port. -/
def frontText (url : URL) : Bytes := schemeText (url.protocol.getD []) ++ url.host.getD []

/-- All that `url_print` prints. -/
def printText (url : URL) : Bytes :=
  frontText url ++ (if url.port = 0 then [] else portText url.port) ++ url.path.getD []

theorem urlPrint_front {buf : Bool} {size : Nat} (h : (frontText url).length < size) :
    urlPrint buf size url = returned ((printPort buf size url.port
      ⟨if buf then frontText url else [], (frontText url).length⟩).bind
        (printPart buf size url.path)) := by
  have hlen : (frontText url).length =
      (schemeText (url.protocol.getD [])).length + (url.host.getD []).length := List.length_append
  unfold urlPrint
  rw [printScheme_room (by dsimp only; omega)]
  change returned ((printPart buf size url.host _).bind _) = _
  rw [printPart_room (by dsimp only; omega)]
  dsimp only
  rw [Nat.zero_add, ← hlen]
  cases buf <;> rfl

theorem urlPrint_text {size : Nat} (h : (printText url).length + 7 ≤ size) :
    (urlPrint true size url).text = printText url := by
  have hlen : (printText url).length = (frontText url).length +
      (if url.port = 0 then [] else portText url.port).length + (url.path.getD []).length := by
    rw [printText, List.length_append, List.length_append]
  rw [urlPrint_front (by omega), printPort, printText]
  by_cases hport : url.port = 0
  · rw [if_pos hport] at hlen ⊢
    rw [if_pos hport]
    change (returned (printPart true size url.path _)).text = _
    rw [printPart_room (by dsimp only; rw [List.length_nil] at hlen; omega), List.append_nil]
    rfl
  · rw [if_neg hport] at hlen ⊢
    rw [if_neg hport, if_neg (by dsimp only; omega)]
    change (returned (printPart true size url.path _)).text = _
    rw [printPart_room (by dsimp only; omega)]
    rfl

/-- The length that is counted, of a front part that does not take all of the 8192 bytes: a port
needs seven of them. -/
theorem urlLength_eq (h : (frontText url).length < 8192) : urlLength url =
    if url.port = 0 then (frontText url).length + (url.path.getD []).length
    else if 8185 < (frontText url).length then (frontText url).length
    else (frontText url).length + (1 + countDigits url.port) + (url.path.getD []).length := by
  rw [urlLength, urlPrint_front h, printPort]
  by_cases hport : url.port = 0
  · rw [if_pos hport, if_pos hport]
    exact returned_printPart false 8192 url.path _
  · rw [if_neg hport, if_neg hport]
    by_cases hroom : 8185 < (frontText url).length
    · rw [if_pos hroom, if_pos (by dsimp only; omega)]
      rfl
    · rw [if_neg hroom, if_neg (by dsimp only; omega)]
      exact returned_printPart false 8192 url.path _

/-! ### The lengths -/

theorem countDigits_iff (hport : IntPort url) :
    1 + countDigits url.port = (portText url.port).length ↔ 0 ≤ url.port ∧ url.port ≤ 99999 := by
  obtain ⟨hlow, hhigh⟩ := hport
  have hone := @formatUnsigned_length_le_iff (url.port % 2 ^ 32).toNat 1 (by decide)
  have htwo := @formatUnsigned_length_le_iff (url.port % 2 ^ 32).toNat 2 (by decide)
  have hthree := @formatUnsigned_length_le_iff (url.port % 2 ^ 32).toNat 3 (by decide)
  have hfour := @formatUnsigned_length_le_iff (url.port % 2 ^ 32).toNat 4 (by decide)
  have hfive := @formatUnsigned_length_le_iff (url.port % 2 ^ 32).toNat 5 (by decide)
  have hpos := List.length_pos_iff.2 (formatUnsigned_ne_nil (url.port % 2 ^ 32).toNat)
  rw [portText_length]
  unfold countDigits
  split_ifs <;> omega

theorem printText_length (url : URL) : (printText url).length = (frontText url).length +
    (if url.port = 0 then 0 else (portText url.port).length) + (url.path.getD []).length := by
  rw [printText, List.length_append, List.length_append]
  split <;> rfl

/-- What is counted is what `url_print` prints. -/
theorem urlLength_print_iff (hport : IntPort url) (h : (frontText url).length < 8192) :
    urlLength url = (printText url).length ↔
      0 ≤ url.port ∧ url.port ≤ 99999 ∧ (url.port ≠ 0 → (frontText url).length ≤ 8185) := by
  have hpos := portText_pos url.port
  rw [urlLength_eq h, printText_length]
  by_cases hzero : url.port = 0
  · rw [if_pos hzero, if_pos hzero]
    omega
  · have hcount := countDigits_iff hport
    rw [if_neg hzero, if_neg hzero]
    split
    · omega
    · omega

theorem frontText_length (url : URL) : (frontText url).length =
    (schemeText (url.protocol.getD [])).length + url.host.elim 0 (·.length) := by
  rw [frontText, List.length_append]
  cases url.host <;> rfl

theorem schemeText_length (protocol : Bytes) :
    (schemeText protocol).length = if protocol = [] then 0 else protocol.length + 3 := by
  unfold schemeText
  cases protocol with
  | nil => rfl
  | cons c cs => exact List.length_append

theorem authority_missing_length (hhost : url.host = none) (hport : 0 ≤ url.port) :
    7 ≤ (formatAuthority url).length := by
  unfold formatAuthority formatHost
  rw [hhost]
  cases url.protocol with
  | none => simp [hport, anyHost]
  | some p =>
    by_cases homits : url.port = protocolDefaultPort (protocolNumber p) ∨ url.port < 0 <;>
      simp [homits, anyHost, schemeMark]

/-- The characters of the port in `url_print`. -/
def portLength (url : URL) : Nat := if url.port = 0 then 0 else (portText url.port).length

theorem portLength_bounds (hport : IntPort url) (hlow : 0 ≤ url.port) (hhigh : url.port ≤ 99999) :
    portLength url ≤ 6 ∧ (portLength url = 0 ↔ url.port = 0) ∧
      (portLength url = (portText url.port).length ↔ url.port ≠ 0) := by
  have hpos := portText_pos url.port
  have hdigits := (portText_fits_iff hport).2 ⟨hlow, hhigh⟩
  unfold portLength
  split <;> omega

/-- The printers agree where the scheme, the host and the port have the same length in both. -/
theorem print_lengths_iff (url : URL) : (printText url).length = (formatText url).length ↔
    (schemeText (url.protocol.getD [])).length + url.host.elim 0 (·.length) + portLength url =
      url.protocol.elim 0 (·.length + 3) + (formatAuthority url).length := by
  have hpath : (url.path.getD []).length = url.path.elim 0 (·.length) := by
    cases url.path <;> rfl
  rw [printText_length, frontText_length, formatText_length, hpath, portLength]
  omega

theorem schemeText_le (protocol : Option Bytes) :
    (schemeText (protocol.getD [])).length ≤ protocol.elim 0 (·.length + 3) := by
  cases protocol with
  | none => exact Nat.le_refl 0
  | some p =>
    rw [Option.getD_some, Option.elim_some, schemeText_length]
    split <;> omega

theorem formatText_print_iff (hport : IntPort url) (hlow : 0 ≤ url.port) (hhigh : url.port ≤ 99999) :
    (printText url).length = (formatText url).length ↔
      url.host ≠ none ∧ (url.protocol = none → url.port ≠ 0) ∧
        ∀ p ∈ url.protocol, p ≠ [] ∧
          (url.port = 0 ↔ url.port = protocolDefaultPort (protocolNumber p)) := by
  have hneg : ¬ url.port < 0 := Int.not_lt.2 hlow
  have htext := portText_pos url.port
  obtain ⟨hsix, hnone, hsome⟩ := portLength_bounds hport hlow hhigh
  rw [print_lengths_iff]
  cases hhost : url.host with
  | none =>
    have hmissing := authority_missing_length hhost hlow
    have hscheme := schemeText_le url.protocol
    rw [Option.elim_none]
    refine ⟨fun heq => ?_, fun h => absurd rfl h.1⟩
    omega
  | some host =>
    cases hprotocol : url.protocol with
    | none =>
      have hempty : (schemeText []).length = 0 := rfl
      rw [authority_no_protocol hhost hprotocol, List.length_append, Option.getD_none,
        Option.elim_none, Option.elim_some, hempty]
      have hlengths : 0 + host.length + portLength url =
          0 + (host.length + (portText url.port).length) ↔
            portLength url = (portText url.port).length := by omega
      rw [hlengths, hsome]
      simp
    | some p =>
      have hrest : (some host ≠ none ∧ (some p = none → url.port ≠ 0) ∧ ∀ p' ∈ some p, p' ≠ [] ∧
          (url.port = 0 ↔ url.port = protocolDefaultPort (protocolNumber p'))) ↔
            p ≠ [] ∧ (url.port = 0 ↔ url.port = protocolDefaultPort (protocolNumber p)) := by
        simp
      rw [hrest, authority_protocol hhost hprotocol, Option.getD_some, Option.elim_some,
        Option.elim_some, schemeText_length]
      by_cases hempty : p = []
      · have hraw : protocolDefaultPort (protocolNumber p) = 0 := by
          rw [hempty]
          decide
        rw [if_pos hempty, hraw]
        refine ⟨fun heq => ?_, fun h => absurd hempty h.1⟩
        split at heq
        · omega
        · rw [List.length_append] at heq
          omega
      · rw [if_neg hempty]
        refine Iff.trans ?_ (and_iff_right hempty).symm
        split
        · omega
        · rw [List.length_append]
          omega

theorem front_le_format (url : URL) : (frontText url).length ≤ (formatText url).length := by
  have hscheme := schemeText_le url.protocol
  have hhost : url.host.elim 0 (·.length) ≤ (formatAuthority url).length := by
    cases hhost : url.host with
    | none => exact Nat.zero_le _
    | some host =>
      rw [Option.elim_some]
      cases hprotocol : url.protocol with
      | none =>
        rw [authority_no_protocol hhost hprotocol, List.length_append]
        exact Nat.le_add_right _ _
      | some p =>
        rw [authority_protocol hhost hprotocol]
        split
        · exact Nat.le_refl _
        · rw [List.length_append]
          exact Nat.le_add_right _ _
  rw [frontText_length, formatText_length]
  omega

/-- `url_length` agrees with the printers exactly when the host is there, the protocol is absent
or not empty, the port has at most five digits, it is 0 exactly when it is the default one, and
there are seven characters left for it in 8192. -/
theorem url_length_agrees_iff {ops : List UrlOp} {url : URL} (hrun : urlRun ops = some url)
    (hshort : (formatText url).length < 8192 ∨ (printText url).length < 8192) :
    LengthAgrees url ↔
      (url.host ≠ none ∧ (url.protocol = none → url.port ≠ 0) ∧
        ∀ p ∈ url.protocol, p ≠ [] ∧
          (url.port = 0 ↔ url.port = protocolDefaultPort (protocolNumber p))) ∧
      0 ≤ url.port ∧ url.port ≤ 99999 ∧ (url.port ≠ 0 → (frontText url).length ≤ 8185) := by
  have hport := urlRun_intPort hrun
  have hfront : (frontText url).length < 8192 := by
    have hformat := front_le_format url
    have hprint := printText_length url
    omega
  have htexts : LengthAgrees url ↔ urlLength url = (printText url).length ∧
      (printText url).length = (formatText url).length := by
    unfold LengthAgrees
    refine ⟨?_, ?_⟩
    · rintro ⟨hformat, enough, hprint⟩
      have hlarge := hprint (max enough ((printText url).length + 7)) (Nat.le_max_left _ _)
      rw [urlPrint_text (Nat.le_max_right _ _)] at hlarge
      exact ⟨hlarge.symm, hlarge.trans hformat⟩
    · rintro ⟨hprint, hformat⟩
      refine ⟨hprint.trans hformat, (printText url).length + 7, fun size hsize => ?_⟩
      rw [urlPrint_text hsize, hprint]
  rw [htexts, urlLength_print_iff hport hfront]
  refine ⟨?_, ?_⟩
  · rintro ⟨⟨hlow, hhigh, hroom⟩, hlengths⟩
    exact ⟨(formatText_print_iff hport hlow hhigh).1 hlengths, hlow, hhigh, hroom⟩
  · rintro ⟨hparts, hlow, hhigh, hroom⟩
    exact ⟨⟨hlow, hhigh, hroom⟩, (formatText_print_iff hport hlow hhigh).2 hparts⟩

/-- `wss://a:80/` -/
theorem url_length_agrees_parsed :
    LengthAgrees ⟨some [119, 115, 115], some [97], some [47], 80⟩ :=
  (@url_length_agrees_iff [.parse [119, 115, 115, 58, 47, 47, 97, 58, 56, 48, 47]] _ (by decide)
    (Or.inl (by decide))).2 (by decide)

/-- `http://a/`: the default port is counted, but left out by `url_format`. -/
theorem default_port_counted :
    ¬ ∀ (ops : List UrlOp) (url : URL), urlRun ops = some url → (formatText url).length < 8192 →
      LengthAgrees url := by
  intro h
  have hagrees : LengthAgrees ⟨some [104, 116, 116, 112], some [97], some [47], 80⟩ :=
    h [.parse [104, 116, 116, 112, 58, 47, 47, 97, 47]] _ (by decide) (by decide)
  exact absurd hagrees.1 (by decide)

end QjsNet
