import QjsNet.JSValue
import QjsNet.Lib.PartialRun

/- The callbacks of a `FormParser` (`lib/formparser.c`).

   The library under it takes a form apart and reports each part as it goes; the parser
   keeps the name and the file of the current part, and calls the script's functions.

   What the calls are to look like is said by two monitors that see the calls of one event
   after the other: `seeEvent` has the file that is announced and not yet reported, and
   `callPart` the part whose field name a call is to have for its first argument.
   `form_protocol_iff` says which sequences of events keep to both.

   The result of a call and the exception it may leave are not modelled: nothing in the
   parser depends on them.

   Correspondence (C ↔ Lean):
     `enum lws_spa_fileupload_states`, with the arguments a state uses ↔ `FormEvent`
     `FormParser`              ↔ `FormParser`; `cb` says which callbacks have a context
     `formparser_init`         ↔ `FormParser.init`
     `formparser_callback`     ↔ `formparserCallback`
     `callback_emit(cb, 2, args)` ↔ a `FormCall` -/
namespace QjsNet

inductive FormCallback where
  | content
  | open
  | close
  deriving DecidableEq, Repr

inductive FormEvent where
  | open (name filename : Option Bytes)
  | content (buf : Bytes)
  | finalContent (buf : Bytes)
  | close
  deriving DecidableEq, Repr

/-- A call and its two arguments. The second is `none` when it is a value that was freed. -/
structure FormCall where
  callback : FormCallback
  first : JSValue
  second : Option JSValue
  deriving DecidableEq, Repr

structure FormParser where
  cb : FormCallback → Bool
  name : JSValue
  file : JSValue

/-- A parser with these callbacks, when it is new. -/
def FormParser.init (cb : FormCallback → Bool) : FormParser := ⟨cb, .undefined, .undefined⟩

/-- `JS_NewString` of a string that is there. -/
def stringArg : Option Bytes → JSValue
  | none => .undefined
  | some s => .string s

/-- `args[0]` when it is `JS_NULL` and then set from `fp->name`. -/
def firstArg (name : JSValue) : JSValue := if name = .undefined then name else .null

/-- The call behind the `switch`. -/
def FormParser.emit (fp : FormParser) (callback : FormCallback) (second : Option JSValue) :
    List FormCall :=
  if fp.cb callback then [⟨callback, firstArg fp.name, second⟩] else []

def FormParser.onContent (fp : FormParser) (buf : Bytes) : FormParser × List FormCall :=
  (fp, fp.emit .content (some (if buf = [] then .null else .arrayBuffer buf)))

/-- The call of the close callback for a file that is still there. -/
def FormParser.closing (fp : FormParser) : List FormCall :=
  if fp.file ≠ .undefined ∧ fp.cb .close = true then [⟨.close, .null, some fp.file⟩] else []

def FormParser.onOpen (fp : FormParser) (name filename : Option Bytes) :
    FormParser × List FormCall :=
  if fp.cb .open then
    let second : Option JSValue :=
      match filename with
      | some s => some (.string s)
      -- `args[1]` is still the file that was closed, which has been freed since
      | none => if fp.closing = [] then some .null else none
    let opened := { fp with name := stringArg name, file := stringArg filename }
    (opened, fp.closing ++ opened.emit .open second)
  else (fp, [])

def FormParser.onClose (fp : FormParser) : FormParser × List FormCall :=
  if fp.cb .close then
    let second : JSValue := if fp.file = .undefined then .null else fp.file
    ({ fp with file := .undefined }, fp.emit .close (some second))
  else (fp, [])

def formparserCallback (fp : FormParser) : FormEvent → FormParser × List FormCall
  | .content buf | .finalContent buf => fp.onContent buf
  | .open name filename => fp.onOpen name filename
  | .close => fp.onClose

/-! ## What the calls are to look like -/

/-- The file a second argument is; `none` for what is neither a file nor nothing. -/
def fileArg : Option JSValue → Option (Option Bytes)
  | some (.string f) => some (some f)
  | some .null | some .undefined => some none
  | _ => none

/-- A file is announced when none is waiting to be reported. -/
def announce (announced : Option Bytes) : Option Bytes → Option (Option Bytes)
  | none => some announced
  | some f => if announced = none then some (some f) else none

/-- The file that is reported is the one that was announced. -/
def report (announced : Option Bytes) : Option Bytes → Option (Option Bytes)
  | none => some announced
  | some f => if announced = some f then some none else none

def seeCall (announced : Option Bytes) (c : FormCall) : Option (Option Bytes) :=
  match c.callback with
  | .content => some announced
  | .open => (fileArg c.second).bind (announce announced)
  | .close => (fileArg c.second).bind (report announced)

/-- The file that is announced and not yet reported after the calls of an event; `none` when they
break the protocol. Behind a close event there is no such file. -/
def seeEvent (announced : Option Bytes) (e : FormEvent) (calls : List FormCall) :
    Option (Option Bytes) :=
  (calls.foldlM seeCall announced).bind fun announced =>
    if e = .close ∧ announced ≠ none then none else some announced

/-- The field name of the part that an event belongs to. -/
def FormEvent.part (part : Option Bytes) : FormEvent → Option Bytes
  | .open name _ => name
  | _ => part

/-- The field name of the part that a call is about: the open callback is called for the part
that begins, the others for the one that was there. -/
def callPart (part : Option Bytes) (e : FormEvent) (c : FormCall) : Option Bytes :=
  if c.callback = .open then e.part part else part

/-- A first argument is the field name, and nothing when the part has none. -/
def isNameOf : Option Bytes → JSValue → Bool
  | some name, v => decide (v = .string name)
  | none, v => v.isNullish

/-- A parser with the field name of the current part, what the calls so far say of the files, and
whether all of them had the field name for their first argument. -/
structure FormState where
  fp : FormParser
  part : Option Bytes
  files : Option (Option Bytes)
  named : Bool

def FormState.init : FormState := ⟨.init fun _ => true, none, some none, true⟩

/-- The state after an event. -/
def formNext (s : FormState) (e : FormEvent) : FormState :=
  let (fp, calls) := formparserCallback s.fp e
  { fp
    part := e.part s.part
    files := s.files.bind fun announced => seeEvent announced e calls
    named := s.named && calls.all fun c => isNameOf (callPart s.part e c) c.first }

def formStep (s : FormState) (e : FormEvent) : Option FormState := some (formNext s e)

/-- The calls kept to the protocol. -/
def FollowsProtocol (s : FormState) : Prop := s.files.isSome = true ∧ s.named = true

/-- No file is open where a part without a file name begins. -/
def KeepsFile (s : FormState) : FormEvent → Prop
  | .open _ filename => filename = none → s.fp.file = .undefined
  | _ => True

/-- A part that begins has no field name. -/
def Unnamed : FormEvent → Prop
  | .open name _ => name = none
  | _ => True

/-! ## One event -/

/-- What holds after every event: the parser has the current part, and the file that is
announced. -/
structure FormInv (s : FormState) : Prop where
  set : s.fp.cb = fun _ => true
  name : s.fp.name = stringArg s.part
  file : ∃ held : Option Bytes, s.fp.file = stringArg held ∧ ∀ announced : Option Bytes,
    s.files = some announced → announced = held
  /-- A part with a field name has had a call already. -/
  unnamed : s.named = true → s.part = none

theorem formInv_init : FormInv .init where
  set := rfl
  name := rfl
  file := by
    refine ⟨none, rfl, ?_⟩
    rintro announced ⟨⟩
    rfl
  unnamed := fun _ => rfl

variable {s s' : FormState} {e : FormEvent}

@[simp] theorem stringArg_eq_undefined {v : Option Bytes} : stringArg v = .undefined ↔ v = none := by
  cases v <;> simp [stringArg]

/-- The first argument is the field name only where there is none. -/
theorem isNameOf_firstArg (part : Option Bytes) :
    isNameOf part (firstArg (stringArg part)) = true ↔ part = none := by
  cases part <;> simp [isNameOf, firstArg, stringArg, JSValue.isNullish]

theorem isNameOf_null (part : Option Bytes) : isNameOf part .null = true ↔ part = none := by
  cases part <;> simp [isNameOf, JSValue.isNullish]

/-! The calls of each event, when all three callbacks are set. -/

variable {fp : FormParser} {announced part : Option Bytes} {buf : Bytes}

theorem content_calls (hset : fp.cb = fun _ => true) (buf : Bytes) :
    (fp.onContent buf).2 = [⟨.content, firstArg fp.name,
      some (if buf = [] then .null else .arrayBuffer buf)⟩] := by
  simp [FormParser.onContent, FormParser.emit, hset]

theorem close_calls (hset : fp.cb = fun _ => true) :
    fp.onClose = ({ fp with file := .undefined },
      [⟨.close, firstArg fp.name, some (if fp.file = .undefined then .null else fp.file)⟩]) := by
  simp [FormParser.onClose, FormParser.emit, hset]

theorem open_calls_none (hset : fp.cb = fun _ => true) (hfile : fp.file = .undefined)
    (name filename : Option Bytes) :
    fp.onOpen name filename = (⟨fp.cb, stringArg name, stringArg filename⟩,
      [⟨.open, firstArg (stringArg name), some (filename.elim .null .string)⟩]) := by
  cases filename <;> simp [FormParser.onOpen, FormParser.emit, FormParser.closing, hset, hfile]

/-- A file is there: it is reported first, and passed again when the part has none. -/
theorem open_calls_some (hset : fp.cb = fun _ => true) {f : Bytes} (hfile : fp.file = .string f)
    (name filename : Option Bytes) :
    fp.onOpen name filename = (⟨fp.cb, stringArg name, stringArg filename⟩,
      [⟨.close, .null, some (.string f)⟩,
        ⟨.open, firstArg (stringArg name), filename.map .string⟩]) := by
  cases filename <;> simp [FormParser.onOpen, FormParser.emit, FormParser.closing, hset, hfile]

/-! The files, and the field names, in the calls of an event. -/

theorem seeEvent_content (c : FormCall) (hc : c.callback = .content) (e : FormEvent)
    (he : e ≠ .close) : seeEvent announced e [c] = some announced := by
  simp [seeEvent, seeCall, hc, he]

theorem seeEvent_close (hset : fp.cb = fun _ => true) (hfile : fp.file = stringArg announced) :
    seeEvent announced .close fp.onClose.2 = some none := by
  rw [close_calls hset]
  cases announced with
  | none =>
    have hnone : fp.file = .undefined := hfile
    simp [seeEvent, seeCall, hnone, fileArg, report]
  | some f =>
    have hsome : fp.file = .string f := hfile
    simp [seeEvent, seeCall, hsome, fileArg, report]

/-- A part that begins has its file announced, unless an open file is announced again. -/
theorem seeEvent_open (hset : fp.cb = fun _ => true) (hfile : fp.file = stringArg announced)
    (name filename : Option Bytes) :
    seeEvent announced (.open name filename) (fp.onOpen name filename).2
      = if filename = none ∧ announced ≠ none then none else some filename := by
  cases announced with
  | none =>
    rw [open_calls_none hset hfile]
    cases filename <;> simp [seeEvent, seeCall, fileArg, announce]
  | some f =>
    rw [open_calls_some hset hfile]
    cases filename <;> simp [seeEvent, seeCall, fileArg, announce, report]

theorem names_open (hset : fp.cb = fun _ => true) {held : Option Bytes}
    (hfile : fp.file = stringArg held) (name filename : Option Bytes) :
    ((fp.onOpen name filename).2.all fun c =>
        isNameOf (callPart part (.open name filename) c) c.first) = true ↔
      (held ≠ none → part = none) ∧ name = none := by
  cases held with
  | none =>
    rw [open_calls_none hset hfile]
    simp [callPart, FormEvent.part, isNameOf_firstArg]
  | some f =>
    rw [open_calls_some hset hfile]
    simp [callPart, FormEvent.part, isNameOf_firstArg, isNameOf_null]

theorem names_other {c : FormCall} (hc : c.callback ≠ .open) (hfirst : c.first = firstArg fp.name)
    (hname : fp.name = stringArg part) (e : FormEvent) :
    ([c].all fun c => isNameOf (callPart part e c) c.first) = decide (part = none) := by
  rw [List.all_cons, List.all_nil, Bool.and_true, Bool.eq_iff_iff, decide_eq_true_iff, callPart,
    if_neg hc, hfirst, hname, isNameOf_firstArg]

/-! The invariant, and what an event does to the protocol. -/

/-- A content event changes no file, and its call is about the current part. -/
theorem formNext_content (h : FormInv s) (he : e = .content buf ∨ e = .finalContent buf) :
    formNext s e = { s with named := s.named && decide (s.part = none) } := by
  have hcalls : formparserCallback s.fp e = s.fp.onContent buf := by
    rcases he with rfl | rfl <;> rfl
  have hpart : e.part s.part = s.part := by
    rcases he with rfl | rfl <;> rfl
  have hclose : e ≠ .close := by
    rcases he with rfl | rfl <;> simp
  have hsee : (fun announced => seeEvent announced e (s.fp.onContent buf).2) = some := by
    funext announced
    rw [content_calls h.set]
    exact seeEvent_content _ rfl e hclose
  have hnames : ((s.fp.onContent buf).2.all fun c => isNameOf (callPart s.part e c) c.first)
      = decide (s.part = none) := by
    rw [content_calls h.set, names_other (by simp) rfl h.name]
  simp only [formNext, hcalls, hpart, hsee, hnames, Option.bind_fun_some]
  rfl

theorem formNext_close (h : FormInv s) :
    formNext s .close = { s with
      fp := { s.fp with file := .undefined }
      files := s.files.map fun _ => none
      named := s.named && decide (s.part = none) } := by
  obtain ⟨held, hfile, hheld⟩ := h.file
  have hsee : (s.files.bind fun announced => seeEvent announced .close s.fp.onClose.2)
      = s.files.map fun _ => none := by
    cases hfiles : s.files with
    | none => rfl
    | some announced =>
      rw [Option.bind_some, seeEvent_close h.set (hheld announced hfiles ▸ hfile), Option.map_some]
  have hnames : (s.fp.onClose.2.all fun c => isNameOf (callPart s.part .close c) c.first)
      = decide (s.part = none) := by
    rw [close_calls h.set, names_other (by simp) rfl h.name]
  simp only [formNext, formparserCallback, hsee, hnames, FormEvent.part]
  rw [close_calls h.set]

theorem formNext_open (h : FormInv s) {held : Option Bytes} (hfile : s.fp.file = stringArg held)
    (hheld : ∀ announced : Option Bytes, s.files = some announced → announced = held)
    (name filename : Option Bytes) :
    formNext s (.open name filename) = {
      fp := ⟨s.fp.cb, stringArg name, stringArg filename⟩
      part := name
      files := s.files.bind fun _ => if filename = none ∧ held ≠ none then none else some filename
      named := s.named && decide ((held ≠ none → s.part = none) ∧ name = none) } := by
  have hfp : (s.fp.onOpen name filename).1 = ⟨s.fp.cb, stringArg name, stringArg filename⟩ := by
    simp [FormParser.onOpen, h.set]
  have hsee : (s.files.bind fun announced =>
        seeEvent announced (.open name filename) (s.fp.onOpen name filename).2)
      = s.files.bind fun _ => if filename = none ∧ held ≠ none then none else some filename := by
    cases hfiles : s.files with
    | none => rfl
    | some announced =>
      obtain rfl := hheld announced hfiles
      rw [Option.bind_some, Option.bind_some, seeEvent_open h.set hfile]
  have hnames : ((s.fp.onOpen name filename).2.all fun c =>
        isNameOf (callPart s.part (.open name filename) c) c.first)
      = decide ((held ≠ none → s.part = none) ∧ name = none) := by
    rw [Bool.eq_iff_iff, names_open h.set hfile, decide_eq_true_iff]
  simp only [formNext, formparserCallback, hfp, hsee, hnames, FormEvent.part]

theorem formNext_inv (h : FormInv s) (e : FormEvent) : FormInv (formNext s e) := by
  obtain ⟨held, hfile, hheld⟩ := h.file
  have hcontent : ∀ buf : Bytes, e = .content buf ∨ e = .finalContent buf →
      FormInv (formNext s e) := by
    intro buf he
    rw [formNext_content h he]
    exact ⟨h.set, h.name, h.file, fun hnamed => h.unnamed (Bool.and_eq_true_iff.1 hnamed).1⟩
  cases e with
  | content buf => exact hcontent buf (Or.inl rfl)
  | finalContent buf => exact hcontent buf (Or.inr rfl)
  | close =>
    rw [formNext_close h]
    refine ⟨h.set, h.name, ⟨none, rfl, ?_⟩, ?_⟩
    · intro announced hfiles
      obtain ⟨_, -, hnone⟩ := Option.map_eq_some_iff.1 hfiles
      exact hnone.symm
    · intro hnamed
      exact h.unnamed (Bool.and_eq_true_iff.1 hnamed).1
  | «open» name filename =>
    rw [formNext_open h hfile hheld]
    refine ⟨h.set, rfl, ⟨filename, rfl, ?_⟩, ?_⟩
    · intro announced hfiles
      obtain ⟨_, -, hsome⟩ := Option.bind_eq_some_iff.1 hfiles
      split at hsome
      · cases hsome
      · exact (Option.some.inj hsome).symm
    · intro hnamed
      exact (of_decide_eq_true (Bool.and_eq_true_iff.1 hnamed).2).2

/-- An event keeps the files in order when it does not lose the one that is open. -/
theorem formNext_files (h : FormInv s) (hfiles : s.files.isSome = true) (e : FormEvent) :
    (formNext s e).files.isSome = true ↔ KeepsFile s e := by
  obtain ⟨held, hfile, hheld⟩ := h.file
  cases e with
  | content buf =>
    rw [formNext_content h (Or.inl rfl)]
    exact iff_of_true hfiles trivial
  | finalContent buf =>
    rw [formNext_content h (Or.inr rfl)]
    exact iff_of_true hfiles trivial
  | close =>
    rw [formNext_close h]
    exact iff_of_true (by simpa using hfiles) trivial
  | «open» name filename =>
    obtain ⟨announced, hsome⟩ := Option.isSome_iff_exists.1 hfiles
    rw [formNext_open h hfile hheld, hsome, Option.bind_some, KeepsFile, hfile,
      stringArg_eq_undefined]
    by_cases hlost : filename = none ∧ held ≠ none
    · rw [if_pos hlost]
      refine iff_of_false (by simp) ?_
      intro hkeep
      exact hlost.2 (hkeep hlost.1)
    · rw [if_neg hlost]
      refine iff_of_true rfl ?_
      intro hnone
      by_contra hne
      exact hlost ⟨hnone, hne⟩

theorem formNext_named (h : FormInv s) (hnamed : s.named = true) (e : FormEvent) :
    (formNext s e).named = true ↔ Unnamed e := by
  obtain ⟨held, hfile, hheld⟩ := h.file
  have hpart : s.part = none := h.unnamed hnamed
  cases e with
  | content buf =>
    rw [formNext_content h (Or.inl rfl)]
    simp [hnamed, hpart, Unnamed]
  | finalContent buf =>
    rw [formNext_content h (Or.inr rfl)]
    simp [hnamed, hpart, Unnamed]
  | close =>
    rw [formNext_close h]
    simp [hnamed, hpart, Unnamed]
  | «open» name filename =>
    rw [formNext_open h hfile hheld]
    simp [hnamed, hpart, Unnamed]

/-! ## All events -/

theorem formStep_inv (h : FormInv s) (hstep : formStep s e = some s') : FormInv s' := by
  obtain rfl := Option.some.inj hstep
  exact formNext_inv h e

/-- **The files.** Every file that is announced is reported once, before the next one and by its
close event, exactly when no part without a file begins while a file is open. -/
theorem files_reported_iff (events : List FormEvent) :
    PartialRun.Throughout formStep (fun s => s.files.isSome = true) .init events ↔
      PartialRun.Meets formStep KeepsFile .init events := by
  refine PartialRun.throughout_iff_meets (I := FormInv) ?_ ?_ events formInv_init rfl
  · intro s e s' h hstep
    exact formStep_inv h hstep
  · intro s e s' h hfiles hstep
    obtain rfl := Option.some.inj hstep
    exact formNext_files h hfiles e

/-- **The protocol.** All calls keep to it exactly when besides no part has a field name. -/
theorem form_protocol_iff (events : List FormEvent) :
    PartialRun.Throughout formStep FollowsProtocol .init events ↔
      PartialRun.Meets formStep (fun s e => KeepsFile s e ∧ Unnamed e) .init events := by
  refine PartialRun.throughout_iff_meets (I := FormInv) ?_ ?_ events formInv_init ⟨rfl, rfl⟩
  · intro s e s' h hstep
    exact formStep_inv h hstep
  · intro s e s' h hP hstep
    obtain rfl := Option.some.inj hstep
    rw [FollowsProtocol, formNext_files h hP.1 e, formNext_named h hP.2 e]

/-- The open callback of a part named `a` gets null for its first argument. -/
theorem form_name_lost :
    ¬ PartialRun.Throughout formStep FollowsProtocol .init [.open (some [97]) (some [98])] := by
  intro h
  have hnamed := (h _ (List.prefix_refl _) _ rfl).2
  exact absurd hnamed (by decide)

end QjsNet
