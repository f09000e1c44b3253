import LispBM.EvalCps

/-!
# LispBM — the explicit-control evaluator (`src/ec_eval.c`, `src/exp_kind.c`)

The second evaluator is a register machine: the continuation is a number in the register `cont`,
and what a continuation needs later, the old `cont` included, is on the stack `S`. The loop of
`ec_eval` is in one of three states. It looks at the expression in `exp` (`EVAL_DISPATCH`), hands
the value in `val` to the continuation (`EVAL_CONTINUATION`), or applies `fun` to `argl`
(`EVAL_APPLY_DISPATCH`).

What is on the stack while a continuation waits, bottom first:

```
DEFINE              unev cont
SETUP_NO_ARG_APPLY  cont
EVAL_ARGS           cont env  unev
ACCUMULATE_ARG      cont fun  argl env unev
ACCUMULATE_LAST_ARG cont fun  argl
BRANCH, SEQUENCE    cont env  unev
BIND_VAR            cont env  body env unev
END_LET             cont env
AND, OR             cont env  unev
```

An allocation that fails is tried once more after a collection, within the same step. The
results of the pushes are dropped by the source; `pushLost` keeps them for the statements about
runs. `none` is a step that does not return, or behaviour that C leaves undefined. What is
printed is left out.
-/

namespace LispBM

namespace EcEval

/-! ## Kinds of expressions -/

/-- `exp_kind`. -/
inductive ExpKind where
  | expKindError
  | expSelfEvaluating
  | expVariable
  | expQuoted
  | expDefine
  | expLambda
  | expIf
  | expProgn
  | expNoArgs
  | expApplication
  | expLet
  | expAnd
  | expOr
deriving DecidableEq, Repr

/-- The `PTR_TYPE_CONS` case of `exp_kind_of`. -/
def expKindOfCons (h : HeapState) (exp : VALUE) : ExpKind :=
  let head := car h exp
  if typeOf head == valTypeSymbol then
    let symId := decSym head
    if symId == symreprAnd then .expAnd
    else if symId == symreprOr then .expOr
    else if symId == symreprQuote then .expQuoted
    else if symId == symreprDefine then .expDefine
    else if symId == symreprProgn then .expProgn
    else if symId == symreprLambda then .expLambda
    else if symId == symreprIf then .expIf
    else if symId == symreprLet then .expLet
    else if typeOf (cdr h exp) == valTypeSymbol && decSym (cdr h exp) == symreprNil then .expNoArgs
    else .expApplication
  else .expApplication

def expKindOf (h : HeapState) (exp : VALUE) : ExpKind :=
  let t := typeOf exp
  if t == valTypeSymbol && !isSpecial exp then .expVariable
  else if t == valTypeSymbol || t == ptrTypeBoxedF || t == ptrTypeBoxedU || t == ptrTypeBoxedI
      || t == valTypeI || t == valTypeU || t == valTypeChar || t == ptrTypeArray then
    .expSelfEvaluating
  else if t == ptrTypeCons then expKindOfCons h exp
  else .expKindError

/-! ## The machine -/

/-- `continuation`. -/
inductive Continuation where
  | contDone
  | contError
  | contDefine
  | contSetupNoArgApply
  | contEvalArgs
  | contAccumulateArg
  | contAccumulateLastArg
  | contBranch
  | contBindVar
  | contEndLet
  | contSequence
  | contAnd
  | contOr
deriving DecidableEq, Repr

/-- The numbers that C gives to the enumeration. -/
def Continuation.toUINT (k : Continuation) : UINT := BitVec.ofNat 32 k.ctorIdx

/-- The continuation as a register value. -/
def Continuation.enc (k : Continuation) : VALUE := encU k.toUINT

/-- `eval_state`. -/
inductive EvalState where
  | evalDispatch
  | evalContinuation
  | evalApplyDispatch
deriving DecidableEq, Repr

/-- `register_machine_t`. -/
structure RegisterMachine where
  cont : VALUE
  env : VALUE
  unev : VALUE
  prg : VALUE
  exp : VALUE
  argl : VALUE
  val : VALUE
  fun' : VALUE
  S : Stack
deriving DecidableEq

/-- The machine, the two locals of `ec_eval`, and the globals. -/
structure State extends RegisterMachine where
  es : EvalState
  done : Bool
  store : Store
  /-- A push has failed. -/
  pushLost : Bool
deriving DecidableEq

/-- `push_u32`, `push_u32_2` and `push_u32_3`. -/
def State.push (m : Malloc) (s : State) (ws : List UINT) : State :=
  { s with S := (pushAll m s.S ws).2, pushLost := s.pushLost || !(pushAll m s.S ws).1 }

/-- The marking calls of `gc(env, rm)`. -/
def gcCalls (s : State) : List MarkCall :=
  [.phase s.store.envGlobal, .phase s.env, .phase s.unev, .phase s.prg, .phase s.exp,
    .phase s.argl, .phase s.val, .phase s.fun', .aux s.S.contents]

/-- `gc`. Its result is dropped. -/
def gc (s : State) : Option State :=
  (collect (gcCalls s) s.store.heap).map fun (_, h) =>
    { s with store := { s.store with heap := h } }

/-- An allocation, tried once more after a collection if its result is `out_of_memory`. -/
def allocWithGc (s : State) (alloc : Store → Option (VALUE × Store)) : Option (VALUE × State) := do
  let (v, st) ← alloc s.store
  let s := { s with store := st }
  if isSymbolMerror v then
    let s ← gc s
    let (v, st) ← alloc s.store
    some (v, { s with store := st })
  else some (v, s)

/-- An allocation that works on the heap only. -/
def onHeap (alloc : HeapState → Option (VALUE × HeapState)) (st : Store) :
    Option (VALUE × Store) :=
  (alloc st.heap).map fun (v, h) => (v, { st with heap := h })

/-- What is done when an allocation fails again after the collection. -/
def merrorStop (s : State) : State :=
  { s with
    cont := Continuation.contError.enc
    val := encSym symreprMerror
    es := .evalContinuation }

/-! ## Expressions -/

def evalSelfEvaluating (s : State) : State := { s with val := s.exp, es := .evalContinuation }

def isExtension (pf : Platform) (exp : VALUE) : Bool :=
  typeOf exp == valTypeSymbol && (pf.extensionsLookup (decSym exp)).isSome

def isNotFound (v : VALUE) : Bool := typeOf v == valTypeSymbol && decSym v == symreprNotFound

/-- The value of the symbol in `exp`, without the global environment. -/
def localValue (pf : Platform) (s : State) : Option VALUE :=
  if isSpecial s.exp then some s.exp
  else if isExtension pf s.exp then some s.exp
  else envLookup s.store.heap s.exp s.env

def evalVariable (pf : Platform) (s : State) : Option State := do
  let val ← localValue pf s
  let val ← (if isNotFound val then envLookup s.store.heap s.exp s.store.envGlobal else some val)
  let s := { s with val := val, es := .evalContinuation }
  some (if isNotFound val then { s with cont := Continuation.contError.enc } else s)

def evalQuoted (s : State) : State :=
  let h := s.store.heap
  { s with val := car h (cdr h s.exp), es := .evalContinuation }

def evalDefine (m : Malloc) (s : State) : State :=
  let h := s.store.heap
  let s := { s with unev := car h (cdr h s.exp), exp := car h (cdr h (cdr h s.exp)) }
  let s := s.push m [s.unev, s.cont]
  { s with cont := Continuation.contDefine.enc, es := .evalDispatch }

def contDefineCase (s : State) : Option State := do
  let (cont, S) ← popU32 s.S
  let (unev, S) ← popU32 S
  let s := { s with cont := cont, unev := unev, S := S }
  let (newEnv, s) ← allocWithGc s fun st =>
    onHeap (envSet st.envGlobal s.unev s.val) st
  if isSymbolMerror newEnv then some (merrorStop s)
  else
    some { s with
      store := { s.store with envGlobal := newEnv }
      val := s.unev
      es := .evalContinuation }

def evalLambda (s : State) : Option State := do
  let (closure, s) ← allocWithGc s (onHeap fun h =>
    let ((closure, _), h) := consClosure s.env s.exp h
    some (closure, h))
  if isSymbolMerror closure then some (merrorStop s)
  else some { s with val := closure, es := .evalContinuation }

def evalNoArgs (m : Malloc) (s : State) : State :=
  let s := { s with exp := car s.store.heap s.exp }
  let s := s.push m [s.cont]
  { s with cont := Continuation.contSetupNoArgApply.enc, es := .evalDispatch }

def contSetupNoArgApplyCase (s : State) : State :=
  { s with fun' := s.val, argl := encSym symreprNil, es := .evalApplyDispatch }

def evalApplication (m : Malloc) (s : State) : State :=
  let h := s.store.heap
  let s := { s with unev := cdr h s.exp, exp := car h s.exp }
  let s := s.push m [s.cont, s.env, s.unev]
  { s with cont := Continuation.contEvalArgs.enc, es := .evalDispatch }

def lastOperand (h : HeapState) (exp : VALUE) : Bool := isSymbolNil (cdr h exp)

def evalLastArg (s : State) : State :=
  { s with cont := Continuation.contAccumulateLastArg.enc, es := .evalDispatch }

def evalArgLoop (m : Malloc) (s : State) : State :=
  let s := s.push m [s.argl]
  let s := { s with exp := car s.store.heap s.unev }
  if lastOperand s.store.heap s.unev then evalLastArg s
  else
    let s := s.push m [s.env, s.unev]
    { s with cont := Continuation.contAccumulateArg.enc, es := .evalDispatch }

def contEvalArgsCase (m : Malloc) (s : State) : Option State := do
  let (unev, S) ← popU32 s.S
  let (env, S) ← popU32 S
  let s := { s with unev := unev, env := env, S := S, fun' := s.val }
  let s := s.push m [s.fun']
  some (evalArgLoop m { s with argl := encSym symreprNil })

def contAccumulateArgCase (m : Malloc) (s : State) : Option State := do
  let (unev, S) ← popU32 s.S
  let (env, S) ← popU32 S
  let (argl, S) ← popU32 S
  let s := { s with unev := unev, env := env, argl := argl, S := S }
  let (argl, s) ← allocWithGc s (onHeap fun h => some (cons s.val s.argl h))
  if isSymbolMerror argl then some (merrorStop s)
  else
    some (evalArgLoop m { s with argl := argl, unev := cdr s.store.heap s.unev })

/-- `cont_accumulate_last_arg`. When the arguments cannot be reversed, the error continuation is
stored without its encoding, and the function is applied all the same. -/
def contAccumulateLastArgCase (s : State) : Option State := do
  let (argl, S) ← popU32 s.S
  let s := { s with argl := argl, S := S }
  let (argl, s) ← allocWithGc s (onHeap fun h => some (cons s.val s.argl h))
  if isSymbolMerror argl then some (merrorStop s)
  else
    let s := { s with argl := argl }
    let (revArgs, s) ← allocWithGc s (onHeap (reverse s.argl))
    let s :=
      if isSymbolMerror revArgs then
        { s with cont := Continuation.contError.toUINT, val := encSym symreprMerror }
      else s
    let (f, S) ← popU32 s.S
    some { s with argl := revArgs, fun' := f, S := S, es := .evalApplyDispatch }

/-! ## Application -/

/-- The elements of an argument list, in the order in which they are pushed. -/
def argWords (h : HeapState) : Nat → VALUE → Option (List VALUE)
  | 0, _ => none
  | n + 1, args =>
      if typeOf args == ptrTypeCons then (argWords h n (cdr h args)).map (car h args :: ·)
      else some []

def evalApplyFundamental (pf : Platform) (m : Malloc) (s : State) : Option State := do
  let args ← argWords s.store.heap (walkFuel s.store.heap) s.argl
  let s := s.push m args
  let base ← stackPtr s.S args.length
  let funArgs := s.S.data.drop base
  let (val, s) ← allocWithGc s fun st =>
    (fundamentalExec pf.floats funArgs (BitVec.ofNat 32 args.length) s.fun' st.symbols st.heap).map
      fun (v, h, symbols) => (v, { st with heap := h, symbols := symbols })
  if isSymbolMerror val then some (merrorStop s)
  else
    let (cont, S) ← popU32 (stackDrop s.S args.length)
    some { s with val := val, cont := cont, S := S, es := .evalContinuation }

def evalApplyClosure (s : State) : Option State := do
  let (localEnv, s) ← allocWithGc s (onHeap fun h =>
    envBuildParamsArgs (car h (cdr h s.fun')) s.argl (car h (cdr h (cdr h (cdr h s.fun')))) h)
  if isSymbolMerror localEnv then some (merrorStop s)
  else
    let h := s.store.heap
    let (cont, S) ← popU32 s.S
    some { s with
      env := localEnv
      exp := car h (cdr h (cdr h s.fun'))
      cont := cont
      S := S
      es := .evalDispatch }

def evalApplyExtension (pf : Platform) (m : Malloc) (s : State) : Option State :=
  match pf.extensionsLookup (decSym s.fun') with
  | none => some { s with cont := Continuation.contError.enc, es := .evalContinuation }
  | some f => do
      let args ← argWords s.store.heap (walkFuel s.store.heap) s.argl
      -- the pointer is taken before the arguments are pushed
      let base ← stackPtr s.S 0
      let s := s.push m args
      let (val, st) := f (s.S.data.drop base) (BitVec.ofNat 32 args.length) s.store
      let (cont, S) ← popU32 (stackDrop s.S args.length)
      some { s with val := val, store := st, cont := cont, S := S, es := .evalContinuation }

def evalEval (s : State) : Option State := do
  let (cont, S) ← popU32 s.S
  some { s with exp := car s.store.heap s.argl, cont := cont, S := S, es := .evalDispatch }

def isClosure (h : HeapState) (exp : VALUE) : Bool :=
  typeOf exp == ptrTypeCons && typeOf (car h exp) == valTypeSymbol
    && decSym (car h exp) == symreprClosure

def evalApplyDispatch (pf : Platform) (m : Malloc) (s : State) : Option State :=
  if isSymbolEval s.fun' then evalEval s
  else if isFundamental s.fun' then evalApplyFundamental pf m s
  else if isClosure s.store.heap s.fun' then evalApplyClosure s
  else if isExtension pf s.fun' then evalApplyExtension pf m s
  else
    some { s with
      cont := Continuation.contError.enc
      val := encSym symreprEerror
      es := .evalContinuation }

/-! ## Sequences, branches and bindings -/

def evalSequence (m : Malloc) (s : State) : Option State := do
  let h := s.store.heap
  let (env, S) ← popU32 s.S
  let s := { s with exp := car h s.unev, env := env, S := S }
  let tmp := cdr h s.unev
  if typeOf tmp == valTypeSymbol && decSym tmp == symreprNil then
    let (cont, S) ← popU32 s.S
    some { s with cont := cont, S := S, es := .evalDispatch }
  else
    let s := s.push m [s.env, s.unev]
    some { s with cont := Continuation.contSequence.enc, es := .evalDispatch }

def contSequenceCase (m : Malloc) (s : State) : Option State := do
  let (unev, S) ← popU32 s.S
  evalSequence m { s with unev := cdr s.store.heap unev, S := S }

def evalProgn (m : Malloc) (s : State) : Option State :=
  let s := s.push m [s.cont, s.env]
  evalSequence m { s with unev := cdr s.store.heap s.exp }

def evalIf (m : Malloc) (s : State) : State :=
  let h := s.store.heap
  let s := { s with unev := cdr h (cdr h s.exp), exp := car h (cdr h s.exp) }
  let s := s.push m [s.cont, s.env, s.unev]
  { s with cont := Continuation.contBranch.enc, es := .evalDispatch }

def contBranchCase (s : State) : Option State := do
  let (unev, S) ← popU32 s.S
  let (env, S) ← popU32 S
  let (cont, S) ← popU32 S
  let h := s.store.heap
  let exp := if isSymbolNil s.val then car h (cdr h unev) else car h unev
  some { s with unev := unev, env := env, cont := cont, S := S, exp := exp, es := .evalDispatch }

def evalLetLoop (m : Malloc) (s : State) : Option State :=
  if isSymbolNil s.unev then do
    let (exp, S) ← popU32 s.S
    some { s with exp := exp, S := S, cont := Continuation.contEndLet.enc, es := .evalDispatch }
  else
    let h := s.store.heap
    let s := { s with exp := car h (cdr h (car h s.unev)) }
    let s := s.push m [s.env, s.unev]
    some { s with cont := Continuation.contBindVar.enc, es := .evalDispatch }

/-- The two allocations for one binding of `let`: the binding and the environment with it. -/
def consBinding (key newEnv : VALUE) (h : HeapState) : (VALUE × VALUE) × HeapState :=
  let (binding, h) := cons key (encU symreprNil) h
  let (tmpEnv, h) := cons binding newEnv h
  ((binding, tmpEnv), h)

/-- The loop of `eval_let` that preallocates the bindings; the flag tells whether it went through.
It tests `new_env` where the result of the second allocation is in `tmp_env`, and a collection in
the middle of the loop does not mark what `new_env` has so far. -/
def preallocLoop : Nat → VALUE → VALUE → State → Option (Bool × VALUE × State)
  | 0, _, _, _ => none
  | n + 1, curr, newEnv, s =>
      if isSymbolNil curr then some (true, newEnv, s)
      else
        let key := car s.store.heap (car s.store.heap curr)
        let ((binding, tmpEnv), h) := consBinding key newEnv s.store.heap
        let s := { s with store := { s.store with heap := h } }
        if isSymbolMerror binding || isSymbolMerror newEnv then do
          let s ← gc s
          let ((binding, tmpEnv), h) := consBinding key newEnv s.store.heap
          let s := { s with store := { s.store with heap := h } }
          if isSymbolMerror binding || isSymbolMerror newEnv then some (false, newEnv, s)
          else preallocLoop n (cdr h curr) tmpEnv s
        else preallocLoop n (cdr h curr) tmpEnv s

/-- Iterations after which the loop is over, if it ever is: on a list without end the second
collection gives back the cells that the first one gave, and so does every other. -/
def preallocFuel (h : HeapState) : Nat := 4 * walkFuel h

def evalLet (m : Malloc) (s : State) : Option State := do
  let h := s.store.heap
  let s := { s with unev := car h (cdr h (cdr h s.exp)) }
  let s := s.push m [s.cont, s.env, s.unev]
  let s := { s with unev := car h (cdr h s.exp) }
  let (ok, newEnv, s) ← preallocLoop (preallocFuel h) s.unev s.env s
  if ok then evalLetLoop m { s with env := newEnv } else some (merrorStop s)

def contBindVarCase (m : Malloc) (s : State) : Option State := do
  let (unev, S) ← popU32 s.S
  let (env, S) ← popU32 S
  let h := s.store.heap
  let (_, h) ← envModifyBinding env (car h (car h unev)) s.val h
  evalLetLoop m
    { s with env := env, unev := cdr h unev, S := S, store := { s.store with heap := h } }

def contEndLetCase (s : State) : Option State := do
  let (env, S) ← popU32 s.S
  let (cont, S) ← popU32 S
  some { s with env := env, cont := cont, S := S, es := .evalContinuation }

/-- `eval_and` and `eval_or`. Without operands they set a value but do not return, so they go on
like all others with `nil` as the first operand. -/
def evalShortCircuit (k : Continuation) (noOperands : VALUE) (m : Malloc) (s : State) : State :=
  let h := s.store.heap
  let s := if isSymbolNil (cdr h s.exp) then { s with val := noOperands } else s
  let s := { s with unev := cdr h (cdr h s.exp) }
  let s := s.push m [s.cont, s.env, s.unev]
  { s with exp := car h (cdr h s.exp), cont := k.enc, es := .evalDispatch }

def evalAnd : Malloc → State → State := evalShortCircuit .contAnd (encSym symreprTrue)
def evalOr : Malloc → State → State := evalShortCircuit .contOr (encSym symreprNil)

/-- `cont_and` and `cont_or`; `stops` tells whether a value decides the form. -/
def contShortCircuitCase (k : Continuation) (stops : VALUE → Bool) (m : Malloc) (s : State) :
    Option State := do
  let (unev, S) ← popU32 s.S
  let (env, S) ← popU32 S
  let s := { s with unev := unev, env := env, S := S }
  if stops s.val || isSymbolNil s.unev then
    let (cont, S) ← popU32 s.S
    some { s with cont := cont, S := S, es := .evalContinuation }
  else
    let h := s.store.heap
    let s := { s with exp := car h s.unev, unev := cdr h s.unev }
    let s := s.push m [s.env, s.unev]
    some { s with cont := k.enc, es := .evalDispatch }

def contAndCase : Malloc → State → Option State := contShortCircuitCase .contAnd isSymbolNil
def contOrCase : Malloc → State → Option State :=
  contShortCircuitCase .contOr fun v => !isSymbolNil v

/-! ## The loop -/

def contDoneCase (s : State) : State :=
  if typeOf s.prg != ptrTypeCons then { s with done := true }
  else
    let h := s.store.heap
    { s with
      exp := car h s.prg
      prg := cdr h s.prg
      cont := Continuation.contDone.enc
      env := encSym symreprNil
      argl := encSym symreprNil
      val := encSym symreprNil
      fun' := encSym symreprNil
      S := stackClear s.S
      done := false
      es := .evalDispatch }

def contErrorCase (s : State) : State :=
  { s with
    exp := encSym symreprNil
    prg := encSym symreprNil
    cont := encSym symreprNil
    env := encSym symreprNil
    argl := encSym symreprNil
    val := encSym symreprEerror
    fun' := encSym symreprNil
    S := stackClear s.S
    done := true
    es := .evalDispatch }

/-- `EVAL_DISPATCH`. -/
def dispatchSwitch (pf : Platform) (m : Malloc) (s : State) : Option State :=
  match expKindOf s.store.heap s.exp with
  | .expSelfEvaluating => some (evalSelfEvaluating s)
  | .expVariable => evalVariable pf s
  | .expQuoted => some (evalQuoted s)
  | .expDefine => some (evalDefine m s)
  | .expNoArgs => some (evalNoArgs m s)
  | .expApplication => some (evalApplication m s)
  | .expLambda => evalLambda s
  | .expProgn => evalProgn m s
  | .expIf => some (evalIf m s)
  | .expLet => evalLet m s
  | .expAnd => some (evalAnd m s)
  | .expOr => some (evalOr m s)
  | .expKindError => some { s with done := true }

def continuationCase (m : Malloc) (s : State) : Continuation → Option State
  | .contDone => some (contDoneCase s)
  | .contError => some (contErrorCase s)
  | .contDefine => contDefineCase s
  | .contSetupNoArgApply => some (contSetupNoArgApplyCase s)
  | .contEvalArgs => contEvalArgsCase m s
  | .contAccumulateArg => contAccumulateArgCase m s
  | .contAccumulateLastArg => contAccumulateLastArgCase s
  | .contBranch => contBranchCase s
  | .contBindVar => contBindVarCase m s
  | .contEndLet => contEndLetCase s
  | .contSequence => contSequenceCase m s
  | .contAnd => contAndCase m s
  | .contOr => contOrCase m s

def continuations : List Continuation :=
  [.contDone, .contError, .contDefine, .contSetupNoArgApply, .contEvalArgs, .contAccumulateArg,
    .contAccumulateLastArg, .contBranch, .contBindVar, .contEndLet, .contSequence, .contAnd,
    .contOr]

/-- `EVAL_CONTINUATION`. Without a case for the number nothing happens, for ever. -/
def continuationSwitch (m : Malloc) (s : State) : Option State :=
  match continuations.find? (·.toUINT == decU s.cont) with
  | some k => continuationCase m s k
  | none => some s

/-- One iteration of the loop of `ec_eval`. -/
def ecEvalIteration (pf : Platform) (m : Malloc) (s : State) : Option State :=
  match s.es with
  | .evalDispatch => dispatchSwitch pf m s
  | .evalContinuation => continuationSwitch m s
  | .evalApplyDispatch => evalApplyDispatch pf m s

/-- `ec_eval`; `none` if the loop is not over after `n` iterations. -/
def ecEval (pf : Platform) (m : Malloc) : Nat → State → Option State
  | 0, s => if s.done then some s else none
  | n + 1, s =>
      if s.done then some s
      else
        match ecEvalIteration pf m s with
        | none => none
        | some s => ecEval pf m n s

/-- The state in which `ec_eval_program` calls `ec_eval`. The register `unev` still holds what the
program before left there. -/
def startProgram (m : Malloc) (prg unev : VALUE) (st : Store) : Option State :=
  (stackAllocate m 256 false).map fun S =>
    { cont := Continuation.contDone.enc
      env := encSym symreprNil
      unev := unev
      prg := cdr st.heap prg
      exp := car st.heap prg
      argl := encSym symreprNil
      val := encSym symreprNil
      fun' := encSym symreprNil
      S := S
      es := .evalDispatch
      done := false
      store := st
      pushLost := false }

/-- `ec_eval_program`, if its loop is over after `n` iterations. -/
def ecEvalProgram (pf : Platform) (m : Malloc) (n : Nat) (prg unev : VALUE) (st : Store) :
    Option (VALUE × Store) := do
  let s ← startProgram m prg unev st
  let s ← ecEval pf m n s
  some (s.val, s.store)

end EcEval

end LispBM
