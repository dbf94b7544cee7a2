import QjsNet.JSValue

/- Bound functions (`js_function_bound` in `js-utils.c`).

   The numbers of functions and of bound arguments, and whether `this` or a return value
   is bound, are packed into one `int`. QuickJS keeps its low 16 bits as the magic of the
   function, with the data: the functions, the return value, `this` and the arguments.

   `JS_BOUND_MASK` leaves the bits of `JS_BIND_THIS` and of the returned argument out, but
   not that of `JS_BIND_RETVAL`, so only a number below 1024 comes back as it was put in.
   The binders of `this` count it as a bound argument, but unpacking takes it off before
   the arguments, which then end behind the data. The number of functions stands above the
   16 bits and is lost.

   Correspondence (C ↔ Lean):
     `JS_BIND_THIS`, `JS_BOUND_MASK`, .. in `js-utils.h` ↔ `jsBindThis`, `jsBoundMask`, ..
     `JS_NUM_FUNCTIONS`, `JS_BIND_MAGIC` ↔ `jsNumFunctions`, `jsBindMagic`
     `js_function_bound`           ↔ `jsFunctionBound`, `none` for a read behind the data
     `js_function_bind_argv`, `_functions`, `_this`, `_this_1`
       ↔ `jsFunctionBindArgv`, `jsFunctionBindFunctions`, `jsFunctionBindThis`,
         `jsFunctionBindThis1`
     `JS_NewCFunctionData`         ↔ `newCFunctionData` -/
namespace QjsNet

def jsBindThis : Nat := 0x8000

def jsBindRetval : Nat := 0x4000

def jsReturnShift : Nat := 10

def jsReturnMask : Nat := 0xf <<< jsReturnShift

/-- `~(JS_BIND_THIS | JS_RETURN_MASK)`, an `int`. -/
def jsBoundMask : Nat := 0xffffffff ^^^ (jsBindThis ||| jsReturnMask)

def jsNumShift : Nat := 16

def jsNumFunctions (flags : Nat) : Nat := (flags >>> jsNumShift) + 1

/-- `JS_BIND_MAGIC(num, 0)` -/
def jsBindMagic (num : Nat) : Int := ((num : Int) - 1) <<< jsNumShift

/-- A function made by `JS_NewCFunctionData` of `js_function_bound`. -/
structure BoundFunction where
  magic : Nat
  data : List JSValue
  deriving DecidableEq, Repr

/-- The magic is kept in 16 bits. -/
def newCFunctionData (magic : Int) (data : List JSValue) : BoundFunction :=
  ⟨(magic % 65536).toNat, data⟩

/-- The `n` values from `i` on. -/
def readValues (values : List JSValue) (i n : Nat) : Option (List JSValue) :=
  if n = 0 then some []
  else if i + n ≤ values.length then some ((values.drop i).take n) else none

def jsFunctionBindArgv (func : JSValue) (flags : Nat) (argv : List JSValue) : Option BoundFunction :=
  (readValues argv 0 (flags &&& jsBoundMask)).map fun bound =>
    newCFunctionData flags (func :: bound)

def jsFunctionBindFunctions (funcs : List JSValue) : BoundFunction :=
  newCFunctionData (jsBindMagic funcs.length) funcs

def jsFunctionBindThis (func thisVal : JSValue) : Option BoundFunction :=
  jsFunctionBindArgv func (1 ||| jsBindThis) [thisVal]

def jsFunctionBindThis1 (func thisVal arg : JSValue) : Option BoundFunction :=
  jsFunctionBindArgv func (2 ||| jsBindThis) [thisVal, arg]

structure FunctionCall where
  func : JSValue
  thisVal : JSValue
  args : List JSValue
  deriving DecidableEq, Repr

/-- What a bound function returns: what the last function did, or a value. -/
inductive Returned where
  | last
  | value (v : JSValue)
  deriving DecidableEq, Repr

/-- `return_val`, and the index behind it. -/
def returnVal (argv : List JSValue) (magic : Nat) (data : List JSValue) (i : Nat) :
    Option (JSValue × Nat) :=
  if magic &&& jsReturnMask ≠ 0 then
    some (argv.getD (((magic &&& jsReturnMask) >>> jsReturnShift) - 1) .undefined, i)
  else if magic &&& jsBindRetval ≠ 0 then data[i]?.map fun v => (v, i + 1)
  else some (.undefined, i)

/-- `this_val`, and the index behind it. -/
def boundThis (thisVal : JSValue) (magic : Nat) (data : List JSValue) (i : Nat) :
    Option (JSValue × Nat) :=
  if magic &&& jsBindThis ≠ 0 then data[i]?.map fun v => (v, i + 1) else some (thisVal, i)

/-- The calls in order, and what is returned. -/
def jsFunctionBound (thisVal : JSValue) (argv : List JSValue) (magic : Nat) (data : List JSValue) :
    Option (List FunctionCall × Returned) := do
  let (ret, i) ← returnVal argv magic data (jsNumFunctions magic)
  let (thisVal, i) ← boundThis thisVal magic data i
  let bound ← readValues data i (magic &&& jsBoundMask)
  let funcs ← readValues data 0 (jsNumFunctions magic)
  return (funcs.map fun func => ⟨func, thisVal, bound ++ argv⟩,
    if magic &&& jsReturnMask ≠ 0 then .value ret else .last)

def BoundFunction.call (f : BoundFunction) (thisVal : JSValue) (argv : List JSValue) :
    Option (List FunctionCall × Returned) := jsFunctionBound thisVal argv f.magic f.data

/-! ## What binding is for -/

/-- The function is called once, behind the bound arguments. -/
def BindsArgv (func : JSValue) (bound : List JSValue) (thisVal : JSValue) (argv : List JSValue) :
    Prop :=
  ∃ f calls ret t, jsFunctionBindArgv func bound.length bound = some f ∧
    f.call thisVal argv = some (calls, ret) ∧ calls = [⟨func, t, bound ++ argv⟩]

/-- The function is called once with the bound `this`. -/
def BindsThis (func this thisVal : JSValue) (argv : List JSValue) : Prop :=
  ∃ f calls ret, jsFunctionBindThis func this = some f ∧
    f.call thisVal argv = some (calls, ret) ∧ calls = [⟨func, this, argv⟩]

/-- The same with one argument in front. -/
def BindsThis1 (func this arg thisVal : JSValue) (argv : List JSValue) : Prop :=
  ∃ f calls ret, jsFunctionBindThis1 func this arg = some f ∧
    f.call thisVal argv = some (calls, ret) ∧ calls = [⟨func, this, arg :: argv⟩]

/-- Every function is called once, in order. -/
def BindsFunctions (funcs : List JSValue) (thisVal : JSValue) (argv : List JSValue) : Prop :=
  ∃ calls ret, (jsFunctionBindFunctions funcs).call thisVal argv = some (calls, ret) ∧
    calls.map (fun c => (c.func, c.args)) = funcs.map fun func => (func, argv)

variable {func this thisVal arg : JSValue} {bound argv data funcs : List JSValue} {n magic : Nat}

/-! ## Packing -/

theorem readValues_all (values : List JSValue) : readValues values 0 values.length = some values := by
  unfold readValues
  split
  · next h => rw [List.length_eq_zero_iff.1 h]
  · rw [if_pos (by omega), List.drop_zero, List.take_length]

theorem readValues_length {values read : List JSValue} {i : Nat} (h : readValues values i n = some read) :
    read.length = n ∧ (0 < n → i + n ≤ values.length) := by
  unfold readValues at h
  split at h
  · next hzero =>
    obtain rfl := Option.some.inj h
    exact ⟨hzero.symm, fun hpos => absurd hzero (Nat.ne_of_gt hpos)⟩
  · split at h
    · next hle =>
      obtain rfl := Option.some.inj h
      refine ⟨?_, fun _ => hle⟩
      rw [List.length_take, List.length_drop]
      omega
    · cases h

theorem small_masks (h : n < 1024) : n &&& jsBoundMask = n ∧ n &&& jsReturnMask = 0 ∧
    n &&& jsBindRetval = 0 ∧ n &&& jsBindThis = 0 ∧ jsNumFunctions n = 1 := by
  have hlow : n &&& 1023 = n := @Nat.and_two_pow_sub_one_of_lt_two_pow 10 n h
  have hmask (m : Nat) : n &&& m = n &&& (1023 &&& m) := by
    rw [← Nat.and_assoc, hlow]
  refine ⟨?_, ?_, ?_, ?_, ?_⟩
  · rw [hmask]
    exact hlow
  · rw [hmask]
    exact Nat.and_zero n
  · rw [hmask]
    exact Nat.and_zero n
  · rw [hmask]
    exact Nat.and_zero n
  · have hshift : n >>> 16 = 0 := by
      rw [Nat.shiftRight_eq_div_pow]
      exact Nat.div_eq_of_lt (by omega)
    show n >>> 16 + 1 = 1
    rw [hshift]

/-- A number that the mask of the bound arguments leaves alone is small, or has the bit of the
return value. -/
theorem mask_fixed (h : n &&& jsBoundMask = n) (hlt : n < 65536) :
    n &&& jsReturnMask = 0 ∧ n &&& jsBindThis = 0 ∧ (n < 1024 ∨ n &&& jsBindRetval ≠ 0) := by
  have hmask (m : Nat) : n &&& m = n &&& (jsBoundMask &&& m) := by
    rw [← Nat.and_assoc, h]
  refine ⟨?_, ?_, ?_⟩
  · rw [hmask]
    exact Nat.and_zero n
  · rw [hmask]
    exact Nat.and_zero n
  · by_cases hret : n &&& jsBindRetval = 0
    · refine Or.inl ?_
      have hlow : n &&& 65535 = n := @Nat.and_two_pow_sub_one_of_lt_two_pow 16 n hlt
      calc n = n &&& (jsBoundMask &&& 65535) := by rw [← Nat.and_assoc, h, hlow]
        _ = n &&& (jsBindRetval ||| 1023) := rfl
        _ = n &&& 1023 := by rw [Nat.and_or_distrib_left, hret, Nat.zero_or]
        _ = n % 1024 := Nat.and_two_pow_sub_one_eq_mod n 10
        _ < 1024 := Nat.mod_lt n (by decide)
    · exact Or.inr hret

/-! ## Unpacking -/

theorem jsFunctionBound_some {calls : List FunctionCall} {ret : Returned}
    (h : jsFunctionBound thisVal argv magic data = some (calls, ret)) :
    ∃ i t bound funcs, readValues data i (magic &&& jsBoundMask) = some bound ∧
      readValues data 0 (jsNumFunctions magic) = some funcs ∧
      calls = (funcs.map fun func => ⟨func, t, bound ++ argv⟩) ∧
      (magic &&& jsReturnMask = 0 → magic &&& jsBindRetval ≠ 0 → magic &&& jsBindThis = 0 →
        i = jsNumFunctions magic + 1) := by
  unfold jsFunctionBound at h
  obtain ⟨⟨v, i⟩, hret, h⟩ := Option.bind_eq_some_iff.1 h
  obtain ⟨⟨t, i'⟩, hthis, h⟩ := Option.bind_eq_some_iff.1 h
  obtain ⟨bound, hbound, h⟩ := Option.bind_eq_some_iff.1 h
  obtain ⟨funcs, hfuncs, h⟩ := Option.bind_eq_some_iff.1 h
  cases h
  refine ⟨i', t, bound, funcs, hbound, hfuncs, rfl, ?_⟩
  intro hreturn hretval hnothis
  rw [returnVal, if_neg (not_not_intro hreturn), if_pos hretval] at hret
  rw [boundThis, if_neg (not_not_intro hnothis)] at hthis
  obtain ⟨w, -, hw⟩ := Option.map_eq_some_iff.1 hret
  cases hw
  cases hthis
  rfl

/-- Up to 1023 arguments come back, whatever is behind them. -/
theorem bound_small (h : bound.length < 1024) (func thisVal : JSValue) (argv more : List JSValue) :
    jsFunctionBound thisVal argv bound.length (func :: (bound ++ more))
      = some ([⟨func, thisVal, bound ++ argv⟩], .last) := by
  obtain ⟨hcount, hreturn, hretval, hthis, hfuncs⟩ := small_masks h
  have hbound : readValues (func :: (bound ++ more)) 1 bound.length = some bound := by
    unfold readValues
    split
    · next hzero => rw [List.length_eq_zero_iff.1 hzero]
    · rw [if_pos (by rw [List.length_cons, List.length_append]; omega), List.drop_succ_cons,
        List.drop_zero, List.take_left]
  have hfirst : readValues (func :: (bound ++ more)) 0 1 = some [func] := by
    rw [readValues, if_neg Nat.one_ne_zero, if_pos (by rw [List.length_cons]; omega)]
    rfl
  unfold jsFunctionBound returnVal boundThis
  rw [hcount, hreturn, hretval, hthis, hfuncs]
  simp only [ne_eq, not_true_eq_false, if_false, Option.bind_eq_bind, Option.bind_some]
  rw [hbound, hfirst]
  rfl

/-! ## The four binders -/

theorem bound_of_calls {args : List JSValue} {t t' : JSValue}
    (h : funcs.map (fun f => FunctionCall.mk f t' (args ++ argv)) = [⟨func, t, bound ++ argv⟩]) :
    args = bound := by
  cases funcs with
  | nil => cases h
  | cons f funcs =>
    obtain ⟨hhead, -⟩ := List.cons_eq_cons.1 h
    exact List.append_cancel_right (congrArg FunctionCall.args hhead)

theorem bindsArgv_iff (func : JSValue) (bound : List JSValue) (thisVal : JSValue)
    (argv : List JSValue) : BindsArgv func bound thisVal argv ↔ bound.length < 1024 := by
  refine ⟨?_, ?_⟩
  · intro h
    obtain ⟨f, calls, ret, t, hbind, hcall, hcalls⟩ := h
    obtain ⟨kept, hkept, rfl⟩ := Option.map_eq_some_iff.1 hbind
    have hmagic : (newCFunctionData bound.length (func :: kept)).magic = bound.length % 65536 := by
      show (((bound.length : Nat) : Int) % 65536).toNat = _
      omega
    rw [BoundFunction.call, hmagic] at hcall
    obtain ⟨i, t', args, funcs, hargs, hfuncs, hmap, hindex⟩ := jsFunctionBound_some hcall
    have hargsEq : args = bound := bound_of_calls (hmap.symm.trans hcalls)
    obtain ⟨hcount, hroom⟩ := readValues_length hargs
    obtain ⟨hkeptLength, -⟩ := readValues_length hkept
    rw [hargsEq] at hcount
    -- the count that is unpacked is no larger than the magic, which is no larger than the number
    have hle : bound.length % 65536 &&& jsBoundMask ≤ bound.length % 65536 := Nat.and_le_left
    have hmod : bound.length % 65536 = bound.length := by omega
    rw [hmod] at hcount hroom hindex
    obtain ⟨hreturn, hthis, hsmall⟩ := mask_fixed hcount.symm (by omega)
    refine hsmall.elim id fun hretval => ?_
    have hi := hindex hreturn hretval hthis
    have hpos : 0 < bound.length := by
      by_contra hzero
      rw [Nat.eq_zero_of_not_pos hzero] at hretval
      exact hretval (Nat.zero_and _)
    have hend := hroom (by omega)
    have hdata : (newCFunctionData bound.length (func :: kept)).data.length = kept.length + 1 := rfl
    have hkeptAll : kept.length = bound.length := hkeptLength.trans hcount.symm
    have hfirst : 1 ≤ jsNumFunctions bound.length := Nat.succ_pos _
    omega
  · intro h
    have hcount := (small_masks h).1
    have hcall := bound_small h func thisVal argv []
    rw [List.append_nil] at hcall
    refine ⟨⟨bound.length, func :: bound⟩, _, _, thisVal, ?_, hcall, rfl⟩
    rw [jsFunctionBindArgv, hcount, readValues_all, Option.map_some]
    have hmagic : (((bound.length : Nat) : Int) % 65536).toNat = bound.length := by omega
    rw [newCFunctionData, hmagic]

theorem not_called {b : Option BoundFunction} {f : BoundFunction} {want : List FunctionCall}
    (hb : b = some f) (hnone : f.call thisVal argv = none) :
    ¬ ∃ f calls ret, b = some f ∧ f.call thisVal argv = some (calls, ret) ∧ calls = want := by
  rintro ⟨g, calls, ret, hbind, hcall, -⟩
  obtain rfl := Option.some.inj (hb.symm.trans hbind)
  cases hnone.symm.trans hcall

/-- The argument after `this` is behind the data. -/
theorem not_bindsThis (func this thisVal : JSValue) (argv : List JSValue) :
    ¬ BindsThis func this thisVal argv := by
  have hf : jsFunctionBindThis func this = some ⟨0x8001, [func, this]⟩ := rfl
  have hnone : jsFunctionBound thisVal argv 0x8001 [func, this] = none := rfl
  exact not_called hf hnone

theorem not_bindsThis1 (func this arg thisVal : JSValue) (argv : List JSValue) :
    ¬ BindsThis1 func this arg thisVal argv := by
  have hf : jsFunctionBindThis1 func this arg = some ⟨0x8002, [func, this, arg]⟩ := rfl
  have hnone : jsFunctionBound thisVal argv 0x8002 [func, this, arg] = none := rfl
  exact not_called hf hnone

/-- The number of functions does not reach the magic. -/
theorem bindFunctions_magic (funcs : List JSValue) :
    jsFunctionBindFunctions funcs = ⟨0, funcs⟩ := by
  have hshift : jsBindMagic funcs.length = ((funcs.length : Int) - 1) * 65536 := Int.shiftLeft_eq ..
  have hmagic : (jsBindMagic funcs.length % 65536).toNat = 0 := by
    rw [hshift]
    omega
  rw [jsFunctionBindFunctions, newCFunctionData, hmagic]

/-- Only the first function is called. -/
theorem bindsFunctions_iff (funcs : List JSValue) (thisVal : JSValue) (argv : List JSValue) :
    BindsFunctions funcs thisVal argv ↔ funcs.length = 1 := by
  unfold BindsFunctions
  rw [bindFunctions_magic]
  cases funcs with
  | nil =>
    refine iff_of_false ?_ Nat.zero_ne_one
    rintro ⟨calls, ret, hcall, -⟩
    cases hcall
  | cons func funcs =>
    have hfirst : BoundFunction.call ⟨0, func :: funcs⟩ thisVal argv =
        some ([⟨func, thisVal, argv⟩], .last) := @bound_small [] (by decide) func thisVal argv funcs
    refine ⟨?_, ?_⟩
    · rintro ⟨calls, ret, hcall, hcalls⟩
      cases hfirst.symm.trans hcall
      have hlength := congrArg List.length hcalls
      rw [List.length_map, List.length_map] at hlength
      exact hlength.symm
    · intro hone
      refine ⟨_, _, hfirst, ?_⟩
      rw [List.length_cons] at hone
      obtain rfl := List.length_eq_zero_iff.1 (Nat.succ.inj hone)
      rfl

/-- **When a bound function does what binding is for**, in every call. Bound arguments come back if
there are fewer than 1024 of them, and functions if there is one; a bound `this` never leads to a
call. -/
theorem function_binding_iff (func this arg : JSValue) (bound funcs : List JSValue)
    (thisVal : JSValue) (argv : List JSValue) :
    (BindsArgv func bound thisVal argv ↔ bound.length < 1024) ∧
      ¬ BindsThis func this thisVal argv ∧ ¬ BindsThis1 func this arg thisVal argv ∧
      (BindsFunctions funcs thisVal argv ↔ funcs.length = 1) :=
  ⟨bindsArgv_iff func bound thisVal argv, not_bindsThis func this thisVal argv,
    not_bindsThis1 func this arg thisVal argv, bindsFunctions_iff funcs thisVal argv⟩

/-- The `next` function that the iterators of the server are bound to. -/
theorem next_not_bound : ¬ BindsThis (.function 1) (.object 2) .undefined [] ∧
    ¬ BindsFunctions [.function 1, .function 2] .undefined [] := by
  refine ⟨?_, ?_⟩
  · rintro ⟨f, calls, ret, hbind, hcall, -⟩
    cases hbind
    cases hcall
  · rintro ⟨calls, ret, hcall, hcalls⟩
    cases hcall
    exact absurd hcalls (by decide)

end QjsNet
