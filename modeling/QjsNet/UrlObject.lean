import QjsNet.UrlPrint

/- URLs and JavaScript objects (`url.c`, `minnet-url.c`).

   `toObject()` makes a plain object of a URL, with the properties of the parts that are
   there, the search and the hash among them. `url_fromobj` reads a URL from the protocol,
   the host, the port and the pathname of any object: of one that `toObject()` has made, of
   an instance of the class, whose accessors answer for parts that are missing as well, or
   of the options of a script.

   What is proved, for every URL that a run of parsers and setters leads to:
     1. `fromObj_object`, `fromObj_instance` — the URL that is read back;
     2. `object_round_trip_iff`, `instance_round_trip_iff` — when it is the same: never
        with a query or a hash, which neither reading keeps.

   A string is the bytes it is decoded from. Memory does not run out.

   Correspondence (C ↔ Lean):
     `url_object`             ↔ `urlObject`
     `minnet_url_get`, `url_host` ↔ `urlGet`, `urlHost`
     `url_fromobj`            ↔ `urlFromObj`
     `js_get_propertystr_cstring`, `js_get_propertystr_uint32`
       ↔ `JSConversions.cstring`, `JSConversions.uint32` -/
namespace QjsNet

/-- The properties that are written or read. -/
inductive UrlProperty where
  | protocol
  | hostname
  | host
  | port
  | pathname
  | path
  | search
  | hash
  deriving DecidableEq, Repr

/-- `"null"` -/
def nullText : Bytes := [110, 117, 108, 108]

/-- `JS_ToCString` and `JS_ToUint32`. -/
structure JSConversions where
  toString : JSValue → Bytes
  toUint32 : JSValue → Nat
  string : ∀ s, toString (.string s) = s
  null : toString .null = nullText
  int : ∀ n : Nat, n < 2 ^ 32 → toUint32 (.int n) = n
  undefined : toUint32 .undefined = 0

/-- The properties an object has, with their values. -/
abbrev UrlProperties := UrlProperty → Option JSValue

def JSConversions.cstring (js : JSConversions) (obj : UrlProperties) (prop : UrlProperty) :
    Option Bytes :=
  (obj prop).map fun value => cString (js.toString value)

def JSConversions.uint32 (js : JSConversions) (obj : UrlProperties) (prop : UrlProperty) : Nat :=
  js.toUint32 ((obj prop).getD .undefined)

def urlFromObj (js : JSConversions) (obj : UrlProperties) : URL :=
  let protocol := js.cstring obj .protocol
  let host := (js.cstring obj .hostname).or (js.cstring obj .host)
  let port := if (obj .port).isSome then intOfUlong (js.uint32 obj .port) else -1
  let path := (js.cstring obj .pathname).or (js.cstring obj .path)
  urlInit protocol host port path

/-- The parts of the path in `url_object`. -/
def pathProperties (url : URL) (path : Bytes) : Except PathFault (List (UrlProperty × JSValue)) := do
  let search ← urlSearch url
  let hash ← urlHash url
  return (.pathname, .string (path.take (byteChrs path [63, 35]))) ::
    (search.toList.map fun s => (.search, .string s)) ++
      hash.toList.map fun s => (.hash, .string s)

def urlObject (url : URL) : Except PathFault (List (UrlProperty × JSValue)) := do
  let parts ← url.path.elim (.ok []) (pathProperties url)
  return (url.protocol.toList.map fun s => (.protocol, .string s)) ++
    (url.host.toList.map fun s => (.hostname, .string s)) ++
      (if urlIsValidPort url.port then [(.port, .int url.port)] else []) ++ parts

/-- A plain object. -/
def plainObject (props : List (UrlProperty × JSValue)) : UrlProperties :=
  fun prop => (props.find? fun e => e.1 = prop).map (·.2)

/-- The host and the port. -/
def urlHostText (url : URL) : Bytes :=
  match if url.host.isSome then url.host else if 0 ≤ url.port then some anyHost else none with
  | none => []
  | some host =>
    if url.port < 0 then host else host ++ 58 :: formatUnsigned (url.port % 2 ^ 32).toNat

/-- An overrun is a text longer than what is allocated for it. -/
def urlHost (url : URL) : Except PathFault Bytes :=
  if (urlHostText url).length ≤ url.host.elim 0 (·.length + 1 + 5) then .ok (urlHostText url)
  else .error .overrun

/-- What the accessors of an instance answer. -/
def urlGet (url : URL) : UrlProperty → Except PathFault JSValue
  | .protocol => .ok (url.protocol.elim .null .string)
  | .hostname => .ok (url.host.elim .null .string)
  | .host => (urlHost url).map .string
  | .port => .ok (if urlIsValidPort url.port then .int url.port else .undefined)
  | .pathname | .path => .ok (.string (urlPathname url))
  | .search => (urlSearch url).map fun s => s.elim .undefined .string
  | .hash => (urlHash url).map fun s => s.elim .undefined .string

/-- An instance of the class. An accessor that fails has no value. -/
def urlInstance (url : URL) : UrlProperties := fun prop => (urlGet url prop).toOption

/-! ## The strings of a URL -/

/-- No string of the URL has a zero byte. -/
structure ZeroFree (url : URL) : Prop where
  protocol : ∀ s ∈ url.protocol, (0 : UInt8) ∉ s
  host : ∀ s ∈ url.host, (0 : UInt8) ∉ s
  path : ∀ s ∈ url.path, (0 : UInt8) ∉ s

variable {url url' : URL} {op : UrlOp} {s : Bytes}

theorem zero_not_mem_cString (s : Bytes) : (0 : UInt8) ∉ cString s :=
  fun hmem => absurd (List.mem_takeWhile_imp hmem) (by decide)

theorem strstr_parts {needle name rest : Bytes} : ∀ {s : Bytes},
    strstr needle s = some (name, rest) → name <+: s ∧ rest <:+ s := by
  intro s
  induction s generalizing name with
  | nil =>
    intro h
    unfold strstr at h
    obtain ⟨-, hpair⟩ := Option.ite_none_right_eq_some.1 h
    obtain ⟨rfl, rfl⟩ := Prod.mk.inj (Option.some.inj hpair)
    exact ⟨List.nil_prefix, List.nil_suffix⟩
  | cons c s ih =>
    intro h
    unfold strstr at h
    split at h
    · obtain ⟨rfl, rfl⟩ := Prod.mk.inj (Option.some.inj h)
      exact ⟨List.nil_prefix, List.drop_suffix _ _⟩
    · obtain ⟨⟨before, after⟩, hfind, hpair⟩ := Option.map_eq_some_iff.1 h
      obtain ⟨rfl, rfl⟩ := Prod.mk.inj hpair
      obtain ⟨hname, hrest⟩ := ih hfind
      exact ⟨List.cons_prefix_cons.2 ⟨rfl, hname⟩, hrest.trans (List.suffix_cons c s)⟩

theorem takeSign_suffix (x : Bytes) : (takeSign x).2 <:+ x := by
  unfold takeSign
  split
  · exact List.suffix_cons _ _
  · exact List.suffix_cons _ _
  · exact List.suffix_refl _

theorem strtoul_suffix (x : Bytes) : (strtoul x).2 <:+ x := by
  unfold strtoul
  simp only
  split
  · exact List.suffix_refl _
  · exact (List.dropWhile_suffix _).trans ((takeSign_suffix _).trans (List.dropWhile_suffix _))

theorem parsePort_suffix (protocol : Option Bytes) (proto : Protocol) (x : Bytes) :
    (parsePort protocol proto x).2 <:+ x := by
  unfold parsePort
  split
  · exact (strtoul_suffix _).trans (List.suffix_cons _ _)
  · exact List.suffix_refl _

theorem zeroFree_zero : ZeroFree .zero := ⟨nofun, nofun, nofun⟩

theorem urlParse_zeroFree (h : ZeroFree url) (hs : (0 : UInt8) ∉ s) : ZeroFree (urlParse url s) := by
  have hparts : ∃ protocol proto u, urlParse url s = { url with
        protocol
        host := if (u.takeWhile hostChar).isEmpty then none else some (u.takeWhile hostChar)
        path := if (parsePort protocol proto (u.dropWhile hostChar)).2.isEmpty then url.path
          else some (parsePort protocol proto (u.dropWhile hostChar)).2
        port := (parsePort protocol proto (u.dropWhile hostChar)).1 } ∧
      (∀ name ∈ protocol, name <+: s) ∧ u <:+ s := by
    unfold urlParse
    cases hmark : strstr schemeMark s with
    | none => exact ⟨none, .ws, s, rfl, nofun, List.suffix_refl _⟩
    | some parts =>
      obtain ⟨name, rest⟩ := parts
      obtain ⟨hname, hrest⟩ := strstr_parts hmark
      refine ⟨some name, _, rest, rfl, ?_, hrest⟩
      intro name' heq
      exact Option.some.inj heq ▸ hname
  obtain ⟨protocol, proto, u, heq, hprotocol, hu⟩ := hparts
  rw [heq]
  refine ⟨?_, ?_, ?_⟩
  · intro name hname hmem
    exact hs ((hprotocol name hname).subset hmem)
  · intro host hhost hmem
    obtain ⟨-, hhost⟩ := Option.ite_none_left_eq_some.1 hhost
    rw [← Option.some.inj hhost] at hmem
    exact hs (hu.subset ((List.takeWhile_prefix _).subset hmem))
  · intro path hpath hmem
    dsimp only at hpath
    split at hpath
    · exact h.path path hpath hmem
    · rw [← Option.some.inj hpath] at hmem
      have hsuffix := (parsePort_suffix protocol proto (u.dropWhile hostChar)).trans
        ((List.dropWhile_suffix _).trans hu)
      exact hs (hsuffix.subset hmem)

theorem anyHost_zeroFree : (0 : UInt8) ∉ anyHost := by decide

theorem protocol_name_zeroFree (p : Protocol) : (0 : UInt8) ∉ p.name := by cases p <;> decide

theorem urlInit_zeroFree {protocol host path : Option Bytes} (port : Int)
    (hhost : ∀ s ∈ host, (0 : UInt8) ∉ s) (hpath : ∀ s ∈ path, (0 : UInt8) ∉ s) :
    ZeroFree (urlInit protocol host port path) := by
  refine ⟨?_, ?_, ?_⟩
  · intro s hs
    obtain ⟨name, -, rfl⟩ := Option.map_eq_some_iff.1 hs
    exact protocol_name_zeroFree _
  · intro s hs
    obtain rfl := Option.some.inj hs
    split
    · next c cs => exact hhost _ rfl
    · exact anyHost_zeroFree
  · intro s hs
    obtain rfl := Option.some.inj hs
    cases path with
    | none => exact List.not_mem_nil
    | some p => exact hpath p rfl

theorem map_cString_zeroFree (o : Option Bytes) : ∀ s ∈ o.map cString, (0 : UInt8) ∉ s := by
  intro s hs
  obtain ⟨t, -, rfl⟩ := Option.map_eq_some_iff.1 hs
  exact zero_not_mem_cString t

theorem ZeroFree.withPath {path : Bytes} (h : ZeroFree url) (hpath : (0 : UInt8) ∉ path) :
    ZeroFree { url with path := some path } := by
  refine ⟨h.protocol, h.host, ?_⟩
  intro s hs
  exact Option.some.inj hs ▸ hpath

theorem urlSetPathLen_zeroFree {path : Bytes} {b : Bool} (h : ZeroFree url)
    (hset : urlSetPathLen url path = .ok (url', b)) : ZeroFree url' := by
  obtain ⟨p, hp⟩ := urlSetPathLen_stores hset
  obtain rfl : url' = _ := hp
  exact h.withPath (zero_not_mem_cString p)

theorem ZeroFree.pathname (h : ZeroFree url) (n : Nat) :
    (0 : UInt8) ∉ (url.path.getD []).take n := by
  intro hmem
  have hpath := (List.take_prefix _ _).subset hmem
  cases hurl : url.path with
  | none =>
    rw [hurl] at hpath
    exact List.not_mem_nil hpath
  | some path =>
    rw [hurl] at hpath
    exact h.path path hurl hpath

theorem urlSetQueryLen_zeroFree (h : ZeroFree url) (query : Bytes) :
    ZeroFree (urlSetQueryLen url query).1 := by
  refine h.withPath ?_
  intro hmem
  rcases List.mem_append.1 hmem with hfront | hbehind
  · exact h.pathname _ hfront
  · rcases List.mem_cons.1 hbehind with hmark | hquery
    · exact absurd hmark (by decide)
    · exact zero_not_mem_cString query hquery

theorem urlClearQuery_zeroFree (h : ZeroFree url) (hclear : urlClearQuery url = .ok url') :
    ZeroFree url' := by
  have hname := h.pathname
  rw [urlClearQuery] at hclear
  split at hclear
  · cases hclear
  · next path hpath =>
    cases hclear
    rw [hpath] at hname
    exact h.withPath (hname _)

theorem urlStep_zeroFree (h : ZeroFree url) (hstep : urlStep url op = some url') :
    ZeroFree url' := by
  cases op with
  | parse u =>
    cases hstep
    exact urlParse_zeroFree h (zero_not_mem_cString u)
  | init protocol host port path =>
    cases hstep
    exact urlInit_zeroFree port (map_cString_zeroFree host) (map_cString_zeroFree path)
  | setProtocol value =>
    cases hstep
    refine ⟨?_, h.host, h.path⟩
    intro s hs
    obtain ⟨name, -, rfl⟩ := Option.map_eq_some_iff.1 hs
    exact protocol_name_zeroFree _
  | setHostname value =>
    cases hstep
    refine ⟨h.protocol, ?_, h.path⟩
    intro s hs
    exact Option.some.inj hs ▸ zero_not_mem_cString value
  | setPort value =>
    cases hstep
    exact ⟨h.protocol, h.host, h.path⟩
  | setPathname value =>
    obtain ⟨b, hset⟩ := urlStep_setPathname hstep
    exact urlSetPathLen_zeroFree h hset
  | setQuery value =>
    cases hstep
    exact urlSetQueryLen_zeroFree h value
  | clearQuery =>
    exact urlClearQuery_zeroFree h (urlStep_clearQuery hstep)

theorem urlRun_zeroFree {ops : List UrlOp} (h : urlRun ops = some url) : ZeroFree url :=
  PartialRun.run_induct (fun _ _ _ hfree hstep => urlStep_zeroFree hfree hstep) ops zeroFree_zero h

/-! ## What is read back -/

variable {js : JSConversions} {props : List (UrlProperty × JSValue)}

/-- The properties of the object that are read back. -/
def readProperties (url : URL) : List (UrlProperty × JSValue) :=
  (url.protocol.toList.map fun s => (.protocol, .string s)) ++
    (url.host.toList.map fun s => (.hostname, .string s)) ++
      (if urlIsValidPort url.port then [(.port, .int url.port)] else []) ++
        url.path.toList.map fun _ => (.pathname, .string (urlPathname url))

theorem urlObject_props (h : urlObject url = .ok props) : ∃ search hash : List Bytes,
    props = readProperties url ++ ((search.map fun s => (.search, .string s)) ++
      hash.map fun s => (.hash, .string s)) := by
  unfold urlObject at h
  cases hurl : url.path with
  | none =>
    rw [hurl] at h
    refine ⟨[], [], ?_⟩
    rw [readProperties, hurl]
    exact (Except.ok.inj h).symm.trans (List.append_nil _).symm
  | some path =>
    rw [hurl, Option.elim_some, pathProperties] at h
    cases hsearch : urlSearch url with
    | error f =>
      rw [hsearch] at h
      cases h
    | ok search =>
      cases hhash : urlHash url with
      | error f =>
        rw [hsearch, hhash] at h
        cases h
      | ok hash =>
        rw [hsearch, hhash] at h
        refine ⟨search.toList, hash.toList, ?_⟩
        have hname : urlPathname url = path.take (byteChrs path [63, 35]) := by
          rw [urlPathname, hurl, Option.elim_some]
        rw [readProperties, hurl, hname, List.append_assoc _ _ (_ ++ _)]
        exact (Except.ok.inj h).symm

theorem find?_prop {prop prop' : UrlProperty} (hne : prop ≠ prop') (ss : List Bytes) :
    (ss.map fun s => (prop, JSValue.string s)).find? (fun e => e.1 = prop') = none := by
  rw [List.find?_eq_none]
  intro e he
  obtain ⟨s, -, rfl⟩ := List.mem_map.1 he
  simpa using hne

theorem plainObject_read (h : urlObject url = .ok props) {prop : UrlProperty}
    (hsearch : UrlProperty.search ≠ prop) (hhash : UrlProperty.hash ≠ prop) :
    plainObject props prop = plainObject (readProperties url) prop := by
  obtain ⟨search, hash, rfl⟩ := urlObject_props h
  rw [plainObject, List.find?_append, List.find?_append, find?_prop hsearch, find?_prop hhash,
    Option.or_none, Option.or_none, plainObject]

theorem plainObject_get (h : urlObject url = .ok props) :
    plainObject props .protocol = url.protocol.map .string ∧
      plainObject props .hostname = url.host.map .string ∧ plainObject props .host = none ∧
      plainObject props .port = (if urlIsValidPort url.port then some (.int url.port) else none) ∧
      plainObject props .pathname = url.path.map (fun _ => .string (urlPathname url)) ∧
      plainObject props .path = none := by
  refine ⟨?_, ?_, ?_, ?_, ?_, ?_⟩
  all_goals
    rw [plainObject_read h (by decide) (by decide), readProperties]
    cases url.protocol <;> cases url.host <;> cases url.path <;> cases urlIsValidPort url.port <;>
      rfl

theorem validPort_nat {port : Int} (h : urlIsValidPort port = true) :
    ∃ n : Nat, port = n ∧ n ≤ 65535 := by
  simp only [urlIsValidPort, Bool.and_eq_true, decide_eq_true_eq] at h
  exact ⟨port.toNat, by omega, by omega⟩

theorem urlInit_port (protocol host path : Option Bytes) (port : Int) :
    urlInit protocol host (if urlIsValidPort port then port else -1) path
      = urlInit protocol host port path := by
  cases hvalid : urlIsValidPort port with
  | true => rw [if_pos rfl]
  | false =>
    have hnone : urlIsValidPort (-1) = false := rfl
    simp only [urlInit, hvalid, hnone, Bool.false_eq_true, if_false]

theorem cstring_some {obj : UrlProperties} {prop : UrlProperty} {s : Bytes}
    (hobj : obj prop = some (.string s)) (hs : (0 : UInt8) ∉ s) : js.cstring obj prop = some s := by
  rw [JSConversions.cstring, hobj, Option.map_some, js.string, cString_of_not_mem hs]

theorem cstring_map {obj : UrlProperties} {prop : UrlProperty} {o : Option Bytes}
    (hobj : obj prop = o.map .string) (ho : ∀ s ∈ o, (0 : UInt8) ∉ s) : js.cstring obj prop = o := by
  cases o with
  | none => rw [JSConversions.cstring, hobj, Option.map_none, Option.map_none]
  | some s => exact cstring_some hobj (ho s rfl)

theorem urlPathname_zeroFree (h : ZeroFree url) : (0 : UInt8) ∉ urlPathname url := by
  intro hmem
  unfold urlPathname at hmem
  cases hurl : url.path with
  | none =>
    rw [hurl] at hmem
    exact List.not_mem_nil hmem
  | some path =>
    rw [hurl] at hmem
    exact h.path path hurl ((List.take_prefix _ _).subset hmem)

/-- The URL that is read from what `toObject()` makes. -/
theorem fromObj_object (hfree : ZeroFree url) (h : urlObject url = .ok props) :
    urlFromObj js (plainObject props)
      = urlInit url.protocol url.host url.port (some (urlPathname url)) := by
  obtain ⟨hprotocol, hhostname, hhost, hport, hpathname, hpath⟩ := plainObject_get h
  have hp : js.cstring (plainObject props) .protocol = url.protocol :=
    cstring_map hprotocol hfree.protocol
  have hh : (js.cstring (plainObject props) .hostname).or (js.cstring (plainObject props) .host)
      = url.host := by
    rw [cstring_map hhostname hfree.host, JSConversions.cstring, hhost, Option.map_none,
      Option.or_none]
  have hn : (if (plainObject props .port).isSome then intOfUlong (js.uint32 (plainObject props) .port)
      else -1) = if urlIsValidPort url.port then url.port else -1 := by
    cases hvalid : urlIsValidPort url.port with
    | false =>
      rw [hport, hvalid, if_neg Bool.false_ne_true, Option.isSome_none,
        if_neg Bool.false_ne_true, if_neg Bool.false_ne_true]
    | true =>
      obtain ⟨n, hn, hle⟩ := validPort_nat hvalid
      rw [JSConversions.uint32, hport, hvalid, if_pos rfl, if_pos rfl, Option.getD_some, hn,
        js.int n (by omega), Option.isSome_some, if_pos rfl, intOfUlong_port hle]
  have hpaths : ∀ o, (js.cstring (plainObject props) .pathname).or
      (js.cstring (plainObject props) .path) = o → (urlInit url.protocol url.host url.port o)
        = urlInit url.protocol url.host url.port (some (urlPathname url)) := by
    intro o ho
    cases hurl : url.path with
    | none =>
      rw [JSConversions.cstring, JSConversions.cstring, hpathname, hpath, hurl] at ho
      rw [← ho, urlPathname, hurl]
      rfl
    | some path =>
      rw [hurl, Option.map_some] at hpathname
      rw [cstring_some hpathname (urlPathname_zeroFree hfree), Option.some_or] at ho
      rw [ho]
  unfold urlFromObj
  simp only [hp, hh, hn, urlInit_port]
  exact hpaths _ rfl

/-- The URL that is read from an instance: a part that is missing reads as `null`, and a port as
0. -/
theorem fromObj_instance (hfree : ZeroFree url) :
    urlFromObj js (urlInstance url) = urlInit (some (url.protocol.getD nullText))
      (some (url.host.getD nullText)) (if urlIsValidPort url.port then url.port else 0)
      (some (urlPathname url)) := by
  have hcstring : ∀ (prop : UrlProperty) (o : Option Bytes), (∀ s ∈ o, (0 : UInt8) ∉ s) →
      urlGet url prop = .ok (o.elim .null .string) →
      js.cstring (urlInstance url) prop = some (o.getD nullText) := by
    intro prop o ho hget
    rw [JSConversions.cstring, urlInstance, hget]
    cases o with
    | none => exact congrArg (some <| cString ·) js.null
    | some s => exact congrArg some ((congrArg cString (js.string s)).trans
        (cString_of_not_mem (ho s rfl)))
  have hp := hcstring .protocol url.protocol hfree.protocol rfl
  have hh := hcstring .hostname url.host hfree.host rfl
  have hpath : js.cstring (urlInstance url) .pathname = some (urlPathname url) :=
    cstring_some rfl (urlPathname_zeroFree hfree)
  have hn : intOfUlong (js.uint32 (urlInstance url) .port)
      = if urlIsValidPort url.port then url.port else 0 := by
    have hget : urlInstance url .port
        = some (if urlIsValidPort url.port then .int url.port else .undefined) := rfl
    rw [JSConversions.uint32, hget, Option.getD_some]
    cases hvalid : urlIsValidPort url.port with
    | false =>
      rw [if_neg Bool.false_ne_true, if_neg Bool.false_ne_true, js.undefined]
      rfl
    | true =>
      obtain ⟨n, hn, hle⟩ := validPort_nat hvalid
      rw [if_pos rfl, if_pos rfl, hn, js.int n (by omega), intOfUlong_port hle]
  unfold urlFromObj
  simp only [hp, hh, hpath, Option.some_or]
  rw [if_pos (by rfl), hn]

/-! ## Round trips -/

/-- A URL that has all that `url_init` makes, in the same spelling, and no query and no hash. -/
structure PlainURL (url : URL) : Prop where
  protocol : ∀ s ∈ url.protocol, (protocolNumber s).name = s
  host : ∃ c cs, url.host = some (c :: cs)
  port : urlIsValidPort url.port = true
  path : ∃ p, url.path = some p ∧ ∀ c ∈ p, pathChar c = true

theorem pathname_iff : some (urlPathname url) = url.path ↔
    ∃ p, url.path = some p ∧ ∀ c ∈ p, pathChar c = true := by
  rw [urlPathname_eq]
  cases url.path with
  | none => exact iff_of_false nofun nofun
  | some path =>
    constructor
    · intro h
      exact ⟨path, rfl, List.takeWhile_eq_self_iff.1 (Option.some.inj h)⟩
    · intro h
      obtain ⟨p, hp, hall⟩ := h
      obtain rfl := Option.some.inj hp
      exact congrArg some (List.takeWhile_eq_self_iff.2 hall)

theorem defaultPort_valid (protocol : Option Bytes) : urlIsValidPort
    ((protocol.elim 0 fun s => protocolDefaultPort (protocolNumber s) : Nat) : Int) = true := by
  cases protocol with
  | none => rfl
  | some s =>
    have hdefault := protocolDefaultPort_le (protocolNumber s)
    rw [Option.elim_some, urlIsValidPort, Bool.and_eq_true, decide_eq_true_iff, decide_eq_true_iff]
    omega

/-- What `url_init` makes of the parts of a URL is the URL itself. -/
theorem urlInit_eq_iff :
    urlInit url.protocol url.host url.port (some (urlPathname url)) = url ↔ PlainURL url := by
  constructor
  · intro h
    have hprotocol := congrArg URL.protocol h
    have hhost := congrArg URL.host h
    have hport := congrArg URL.port h
    refine ⟨?_, ?_, ?_, pathname_iff.1 (congrArg URL.path h)⟩
    · intro s hs
      rw [hs] at hprotocol
      exact Option.some.inj hprotocol
    · cases hurl : url.host with
      | none =>
        rw [hurl] at hhost
        cases hhost
      | some host =>
        cases host with
        | nil =>
          rw [hurl] at hhost
          cases hhost
        | cons c cs => exact ⟨c, cs, rfl⟩
    · by_contra hinvalid
      have hdefault : ((url.protocol.elim 0 fun s => protocolDefaultPort (protocolNumber s) : Nat)
          : Int) = url.port := by
        rw [← hport]
        simp only [urlInit]
        rw [if_neg hinvalid]
        cases url.protocol <;> rfl
      rw [← hdefault] at hinvalid
      exact hinvalid (defaultPort_valid url.protocol)
  · intro h
    obtain ⟨c, cs, hhost⟩ := h.host
    have hprotocol : url.protocol.map (fun s => (protocolNumber s).name) = url.protocol := by
      cases hurl : url.protocol with
      | none => rfl
      | some s => exact congrArg some (h.protocol s hurl)
    obtain ⟨protocol, host, path, port⟩ := url
    simp only at hhost hprotocol
    have hpath : some (urlPathname ⟨protocol, host, path, port⟩) = path := pathname_iff.2 h.path
    have hport : urlIsValidPort port = true := h.port
    rw [hpath]
    simp only [urlInit, hprotocol, hhost, hport, if_true]
    rw [← hpath]
    rfl

/-- **A URL and the object made of it.** For every URL that a run of parsers and setters leads to,
reading what `toObject()` makes of it gives the URL again exactly if its protocol is spelled as the
table has it, it has a host and a valid port, and its path has neither a query nor a hash: these are
in the object, and are not read back. -/
theorem object_round_trip_iff (js : JSConversions) {ops : List UrlOp} (h : urlRun ops = some url)
    (hobj : urlObject url = .ok props) :
    urlFromObj js (plainObject props) = url ↔ PlainURL url := by
  rw [fromObj_object (urlRun_zeroFree h) hobj]
  exact urlInit_eq_iff

/-- The conversions of the values that the URLs here have. -/
def urlConversions : JSConversions where
  toString
    | .string s => s
    | .int n => formatUnsigned n.toNat
    | _ => nullText
  toUint32
    | .int n => (n % 2 ^ 32).toNat
    | _ => 0
  string _ := rfl
  null := rfl
  int n hn := by
    show ((n : Int) % 2 ^ 32).toNat = n
    omega
  undefined := rfl

/-- `http://h/p?q` -/
def queryURL : List UrlOp := [.parse [104, 116, 116, 112, 58, 47, 47, 104, 47, 112, 63, 113]]

theorem object_round_trip_query : ∃ url props, urlRun queryURL = some url ∧
    urlObject url = .ok props ∧
    (urlFromObj urlConversions (plainObject props) = url ↔ PlainURL url) :=
  ⟨_, _, rfl, rfl, @object_round_trip_iff _ _ urlConversions queryURL rfl rfl⟩

/-- **A URL read from an instance.** As an argument (`fetch(url)`, `new Request(url)`) an instance
is read through its accessors. It is the same URL exactly under the same conditions, when there is a
protocol too; and its path is never more than the pathname. -/
theorem instance_round_trip_iff (js : JSConversions) {ops : List UrlOp} (h : urlRun ops = some url) :
    (urlFromObj js (urlInstance url)).path = some (urlPathname url) ∧
      (urlFromObj js (urlInstance url) = url ↔ url.protocol.isSome = true ∧ PlainURL url) := by
  rw [fromObj_instance (urlRun_zeroFree h)]
  refine ⟨rfl, ?_⟩
  cases hprotocol : url.protocol with
  | none =>
    refine iff_of_false ?_ fun hplain => Bool.false_ne_true hplain.1
    intro heq
    exact nomatch (congrArg URL.protocol heq).trans hprotocol
  | some s =>
    cases hhost : url.host with
    | none =>
      refine iff_of_false ?_ ?_
      · intro heq
        exact nomatch (congrArg URL.host heq).trans hhost
      · intro hplain
        obtain ⟨c, cs, hsome⟩ := hplain.2.host
        exact nomatch hhost.symm.trans hsome
    | some host =>
      rw [and_iff_right (by rfl), Option.getD_some, Option.getD_some]
      cases hvalid : urlIsValidPort url.port with
      | true =>
        rw [if_pos rfl, ← hprotocol, ← hhost]
        exact urlInit_eq_iff
      | false =>
        refine iff_of_false ?_ fun hplain => Bool.false_ne_true (hvalid.symm.trans hplain.port)
        intro heq
        have hport : (0 : Int) = url.port := congrArg URL.port heq
        rw [← hport] at hvalid
        exact nomatch hvalid

theorem instance_round_trip_query : ∃ url, urlRun queryURL = some url ∧
    (urlFromObj urlConversions (urlInstance url)).path = some [47, 112] :=
  ⟨_, rfl, (@instance_round_trip_iff _ urlConversions queryURL rfl).1⟩

end QjsNet
