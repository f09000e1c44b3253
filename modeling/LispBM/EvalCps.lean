import LispBM.Stack
import LispBM.Env
import LispBM.Fundamental
import LispBM.Heap.Gc

/-!
# LispBM — the concurrent evaluator (`src/eval_cps.c`)

A context evaluates an expression with an explicit continuation stack `K` of words. A step of
the evaluator works on the running context: either it looks at the expression (`evaluationStep`,
`evalExp`), or it delivers the value in `r` to the continuation on top of the stack
(`applyContinuation`). A step that runs out of cells puts the context back as it was and sets
`perform_gc`; the next step collects and tries again.

A frame is a group of words with its tag on top; the words are pushed in the order of the
`push_u32_n` calls:

```
DONE             tag
SET_GLOBAL_ENV   key                         tag
BIND_TO_KEY_REST exp     rest   env    key   tag
IF               else    then                tag
PROGN_REST       env     rest                tag
APPLICATION      fun arg ... arg       count tag
APPLICATION_ARGS fun arg ... env count rest  tag
AND, OR          env     rest                tag
WAIT             cid                         tag
SPAWN_ALL        env     rest                tag
```

`none` is a step that does not return, or behaviour that C leaves undefined. The
`ctx_done_callback` and what is printed are left out.
-/

namespace LispBM

/-! ## Contexts -/

/-- `eval_context_t`, without the links of the queues it is in. -/
structure EvalContext where
  program : VALUE
  currExp : VALUE
  currEnv : VALUE
  r : VALUE
  done : Bool
  appCont : Bool
  K : Stack
  timestamp : UINT
  sleepUs : UINT
  id : CID
deriving DecidableEq

/-- The globals apart from the running context. The queues are the lists their links spell. -/
structure Store where
  heap : HeapState
  envGlobal : VALUE
  symbols : SymbolTable
  ctxQueue : List EvalContext
  ctxDone : List EvalContext
  nextCtxId : UINT
deriving DecidableEq

structure EvalState extends Store where
  ctxRunning : Option EvalContext
deriving DecidableEq

/-- What the target provides once and for all: floating point, and the registered extension
functions by symbol id. -/
structure Platform where
  floats : FloatOps
  extensionsLookup : UINT → Option (List VALUE → UINT → Store → VALUE × Store)

/-- What the target contributes to one step: `malloc` (for stacks, and for the context record,
whose field `r` is not initialised) and the time, if a timestamp callback is registered. -/
structure Outside where
  malloc : Malloc
  mallocCtx : Bool
  uninitR : VALUE
  timestampUs : Option UINT

/-- What became of the context that made a step. -/
inductive Outcome where
  | running (ctx : EvalContext)
  /-- `fatal_error` was put in `r` but `finish_ctx` was not called: it is still the running one. -/
  | fatal (ctx : EvalContext)
  /-- `finish_ctx` put it on the done list. -/
  | finished (ctx : EvalContext)
  /-- `yield_ctx` put it back on the queue. -/
  | yielded (ctx : EvalContext)

/-- The outcome, the globals, and whether `perform_gc` was set. -/
abbrev StepResult := Outcome × Store × Bool

/-! ## Continuation tags -/

def contDone : UINT := 1#32
def contSetGlobalEnv : UINT := 2#32
def contBindToKeyRest : UINT := 3#32
def contIf : UINT := 4#32
def contPrognRest : UINT := 5#32
def contApplication : UINT := 6#32
def contApplicationArgs : UINT := 7#32
def contAnd : UINT := 8#32
def contOr : UINT := 9#32
def contWait : UINT := 10#32
def contSpawnAll : UINT := 11#32

/-! ## Errors, queues and new contexts -/

/-- `error_ctx`. -/
def errorCtx (ctx : EvalContext) (errVal : VALUE) : Outcome := .finished { ctx with r := errVal }

/-- What `FATAL_ON_FAIL` does after a failed push. -/
def fatalOnFail (ctx : EvalContext) : Outcome :=
  .fatal { ctx with done := true, r := encSym symreprFatalError }

/-- What `FOF` does after a failed push. -/
def fof (ctx : EvalContext) : Outcome :=
  errorCtx { ctx with done := true } (encSym symreprFatalError)

/-- `eval_cps_remove_done_ctx`: the result of the first done context with the id, and the done
list without it. -/
def removeDoneCtx (cid : CID) : List EvalContext → Option (VALUE × List EvalContext)
  | [] => none
  | c :: cs =>
      if c.id = cid then some (c.r, cs)
      else (removeDoneCtx cid cs).map fun (v, cs) => (v, c :: cs)

/-- `dequeue_ctx`: the first context whose sleep is over, and the queue without it. After the
clock wrapped, the elapsed time comes out one too small. -/
def dequeueCtx (tNow : UINT) : List EvalContext → Option (EvalContext × List EvalContext)
  | [] => none
  | c :: cs =>
      let tDiff := if tNow < c.timestamp then 0xFFFFFFFF#32 - c.timestamp + tNow
        else tNow - c.timestamp
      if c.sleepUs ≤ tDiff then some (c, cs)
      else (dequeueCtx tNow cs).map fun (r, cs) => (r, c :: cs)

/-- `yield_ctx`. -/
def yieldCtx (io : Outside) (ctx : EvalContext) (sleepUs : UINT) : Outcome :=
  let ctx :=
    match io.timestampUs with
    | some t => { ctx with timestamp := t, sleepUs := sleepUs }
    | none => { ctx with timestamp := 0#32, sleepUs := 0#32 }
  .yielded { ctx with r := encSym symreprTrue, appCont := true }

/-- `create_ctx`: the id of the new context, or 0. An id is used up even when the stack could
not be allocated. -/
def createCtx (io : Outside) (program env : VALUE) (stackSize : StackSize) (growStack : Bool)
    (st : Store) : CID × Store :=
  if st.nextCtxId = 0#32 then (0#16, st)
  else if typeOf program != ptrTypeCons then (0#16, st)
  else if !io.mallocCtx then (0#16, st)
  else
    let id := st.nextCtxId.setWidth 16
    let st := { st with nextCtxId := st.nextCtxId + 1#32 }
    match stackAllocate io.malloc stackSize growStack with
    | none => (0#16, st)
    | some K =>
        match pushU32 io.malloc K (encU contDone) with
        | (false, _) => (0#16, st)
        | (true, K) =>
            let ctx : EvalContext :=
              { program := cdr st.heap program
                currExp := car st.heap program
                currEnv := env
                r := io.uninitR
                done := false
                appCont := false
                K := K
                timestamp := 0#32
                sleepUs := 0#32
                id := id }
            (id, { st with ctxQueue := st.ctxQueue ++ [ctx] })

def evalCpsDefaultStackSize : StackSize := 256
def evalCpsDefaultStackGrowPolicy : Bool := false

/-! ## Continuations

Each function gets the context with the tag already popped and `app_cont` cleared. -/

/-- `advance_ctx`. The push takes the place of the tag just popped; its result is ignored. -/
def advanceCtx (io : Outside) (ctx : EvalContext) (st : Store) : StepResult :=
  if typeOf ctx.program == ptrTypeCons then
    (.running
      { ctx with
        K := (pushU32 io.malloc ctx.K (encU contDone)).2
        currExp := car st.heap ctx.program
        program := cdr st.heap ctx.program
        r := NIL
        appCont := false },
      st, false)
  else (.finished { ctx with done := true }, st, false)

/-- `cont_set_global_env`, and the assignment to `app_cont` that follows it. -/
def contSetGlobalEnvCase (io : Outside) (ctx : EvalContext) (st : Store) : Option StepResult := do
  let (key, K) ← popU32 ctx.K
  let ctx := { ctx with K := K }
  let (newEnv, h) ← envSet st.envGlobal key ctx.r st.heap
  let st := { st with heap := h }
  if typeOf newEnv == valTypeSymbol && decSym newEnv == symreprMerror then
    match pushAll io.malloc K [key, encU contSetGlobalEnv] with
    | (false, K) => some (fatalOnFail { ctx with K := K }, st, false)
    | (true, K) => some (.running { ctx with K := K, appCont := !ctx.done }, st, true)
  else if typeOf newEnv == valTypeSymbol && decSym newEnv == symreprFatalError then
    some (errorCtx { ctx with appCont := !ctx.done } newEnv, st, false)
  else
    some (.running { ctx with r := key, appCont := !ctx.done }, { st with envGlobal := newEnv },
      false)

def contPrognRestCase (io : Outside) (ctx : EvalContext) (st : Store) : Option StepResult := do
  let (rest, K) ← popU32 ctx.K
  let (env, K) ← popU32 K
  let ctx := { ctx with K := K }
  if typeOf rest == valTypeSymbol && rest == NIL then
    some (.running { ctx with appCont := true }, st, false)
  else if symreprIsError rest then some (errorCtx ctx rest, st, false)
  -- allow for tail recursion
  else if typeOf (cdr st.heap rest) == valTypeSymbol && cdr st.heap rest == NIL then
    some (.running { ctx with currExp := car st.heap rest }, st, false)
  else
    match pushAll io.malloc K [env, cdr st.heap rest, encU contPrognRest] with
    | (false, K) => some (fatalOnFail { ctx with K := K }, st, false)
    | (true, K) =>
        some (.running { ctx with K := K, currExp := car st.heap rest, currEnv := env }, st, false)

/-- `SPAWN_ALL` with a cell for the new context's id: the context is created (the list gets the
next id even if that fails), and the frame goes back with the other programs. -/
def spawnFirst (io : Outside) (ctx : EvalContext) (env rest cidList : VALUE) (st : Store) :
    StepResult :=
  let (_, st) := createCtx io (car st.heap rest) env evalCpsDefaultStackSize
    evalCpsDefaultStackGrowPolicy st
  match pushAll io.malloc ctx.K [env, cdr st.heap rest, encU contSpawnAll] with
  | (false, K) => (fatalOnFail { ctx with K := K }, st, false)
  | (true, K) => (.running { ctx with K := K, r := cidList, appCont := true }, st, false)

def contSpawnAllCase (io : Outside) (ctx : EvalContext) (st : Store) : Option StepResult := do
  let (rest, K) ← popU32 ctx.K
  let (env, K) ← popU32 K
  let ctx := { ctx with K := K }
  if typeOf rest == valTypeSymbol && rest == NIL then
    some (.running { ctx with appCont := true }, st, false)
  else
    let (cidList, h) := cons (encI st.nextCtxId) ctx.r st.heap
    let st := { st with heap := h }
    if typeOf cidList == valTypeSymbol then
      match pushAll io.malloc K [env, rest, encU contSpawnAll] with
      | (false, K) => some (fatalOnFail { ctx with K := K }, st, false)
      | (true, K) => some (.running { ctx with K := K, appCont := true }, st, true)
    else some (spawnFirst io ctx env rest cidList st)

/-- Wait for context `cid`, or for the next time the context is scheduled. -/
def waitYield (io : Outside) (ctx : EvalContext) (cid : CID) (st : Store) : StepResult :=
  match pushAll io.malloc ctx.K [encU (cid.setWidth 32), encU contWait] with
  | (false, K) => (fof { ctx with K := K }, st, false)
  | (true, K) =>
      (yieldCtx io { ctx with K := K, r := encSym symreprTrue, appCont := true } 50000#32,
        st, false)

def contWaitCase (io : Outside) (ctx : EvalContext) (st : Store) : Option StepResult := do
  let (cidVal, K) ← popU32 ctx.K
  let ctx := { ctx with K := K }
  let cid : CID := (decU cidVal).setWidth 16
  match removeDoneCtx cid st.ctxDone with
  | some (r, ctxDone) =>
      some (.running { ctx with r := r, appCont := true }, { st with ctxDone := ctxDone }, false)
  | none => some (waitYield io ctx cid st)

/-- The end of an application that needs a collection: the popped words go back, and `r` is
overwritten. -/
def retryApplication (io : Outside) (ctx : EvalContext) (count funWord : VALUE) (st : Store) :
    StepResult :=
  match pushAll io.malloc ctx.K [count, encU contApplication] with
  | (false, K) => (fatalOnFail { ctx with K := K }, st, false)
  | (true, K) => (.running { ctx with K := K, appCont := true, r := funWord }, st, true)

/-- The closure part of `APPLICATION`; `argWords` are the argument words `fun_args[1 .. n]`. -/
def applyClosure (io : Outside) (ctx : EvalContext) (count funWord : VALUE) (argWords : List VALUE)
    (st : Store) : Option StepResult := do
  let (args, h) := consAll argWords.reverse NIL st.heap
  let st := { st with heap := h }
  -- the source tests for a symbol only after a `cons`
  if argWords.length != 0 && typeOf args == valTypeSymbol then
    some (retryApplication io ctx count funWord st)
  else
    let params := car h (cdr h funWord)
    let exp := car h (cdr h (cdr h funWord))
    let cloEnv := car h (cdr h (cdr h (cdr h funWord)))
    let np ← length h params
    let na ← length h args
    if np != na then some (errorCtx ctx (encSym symreprEerror), st, false)
    else
      let (localEnv, h) ← envBuildParamsArgs params args cloEnv h
      let st := { st with heap := h }
      if typeOf localEnv == valTypeSymbol && decSym localEnv == symreprMerror then
        some (retryApplication io ctx count funWord st)
      else if typeOf localEnv == valTypeSymbol && decSym localEnv == symreprFatalError then
        some (.fatal { ctx with r := localEnv }, st, false)
      else
        some (.running
          { ctx with
            K := stackDrop ctx.K (argWords.length + 1), currExp := exp, currEnv := localEnv },
          st, false)

/-- The part of `APPLICATION` for a fundamental operation. -/
def applyFundamental (pf : Platform) (io : Outside) (ctx : EvalContext) (count funWord : VALUE)
    (args : List VALUE) (st : Store) : Option StepResult := do
  let n := (decU count).toNat
  let (res, h, symbols) ← fundamentalExec pf.floats args (decU count) funWord st.symbols st.heap
  let st := { st with heap := h, symbols := symbols }
  if typeOf res == valTypeSymbol && decSym res == symreprEerror then
    some (errorCtx ctx res, st, false)
  else if typeOf res == valTypeSymbol && decSym res == symreprMerror then
    some (retryApplication io ctx count funWord st)
  else
    some (.running { ctx with K := stackDrop ctx.K (n + 1), appCont := true, r := res }, st, false)

/-- The part of `APPLICATION` for an extension. -/
def applyExtension (pf : Platform) (io : Outside) (ctx : EvalContext) (count funWord : VALUE)
    (args : List VALUE) (st : Store) : StepResult :=
  let n := (decU count).toNat
  match pf.extensionsLookup (decSym funWord) with
  | none => (errorCtx ctx (encSym symreprEerror), st, false)
  | some f =>
      let (extRes, st) := f args (decU count) st
      if typeOf extRes == valTypeSymbol && decSym extRes == symreprMerror then
        retryApplication io ctx count funWord st
      else
        (.running { ctx with K := stackDrop ctx.K (n + 1), appCont := true, r := extRes },
          st, false)

def contApplicationCase (pf : Platform) (io : Outside) (ctx : EvalContext) (st : Store) :
    Option StepResult := do
  let (count, K) ← popU32 ctx.K
  let ctx := { ctx with K := K }
  let n := (decU count).toNat
  let base ← stackPtr K (n + 1)
  let funWord := K.data.getD base 0#32
  -- `&fun_args[1]`: the arguments, and above them what earlier pops left behind
  let args := K.data.drop (base + 1)
  if typeOf funWord == ptrTypeCons then applyClosure io ctx count funWord (args.take n) st
  else if typeOf funWord == valTypeSymbol && decSym funWord == symreprYield then
    if typeOf (args.getD 0 0#32) == valTypeI then
      some (yieldCtx io { ctx with K := stackDrop K (n + 1) } (decI (args.getD 0 0#32)), st, false)
    else some (errorCtx ctx (encSym symreprEerror), st, false)
  else if typeOf funWord == valTypeSymbol && decSym funWord == symreprWait then
    if typeOf (args.getD 0 0#32) == valTypeI then
      some (waitYield io { ctx with K := stackDrop K (n + 1) }
        ((decI (args.getD 0 0#32)).setWidth 16) st)
    else some (errorCtx ctx (encSym symreprEerror), st, false)
  else if typeOf funWord == valTypeSymbol && decSym funWord == symreprEval then
    some (.running { ctx with currExp := args.getD 0 0#32, K := stackDrop K (n + 1) }, st, false)
  else if typeOf funWord == valTypeSymbol && isFundamental funWord then
    applyFundamental pf io ctx count funWord args st
  else some (applyExtension pf io ctx count funWord args st)

/-- Evaluate the first of `rest` with a frame for the others: `and`, `or` and their first
operand. -/
def evalOperand (io : Outside) (ctx : EvalContext) (tag : UINT) (env rest : VALUE) (st : Store) :
    StepResult :=
  match pushAll io.malloc ctx.K [env, cdr st.heap rest, encU tag] with
  | (false, K) => (fatalOnFail { ctx with K := K }, st, false)
  | (true, K) =>
      (.running { ctx with K := K, currExp := car st.heap rest, currEnv := env }, st, false)

def contAndCase (io : Outside) (ctx : EvalContext) (st : Store) : Option StepResult := do
  let arg := ctx.r
  let (rest, K) ← popU32 ctx.K
  let (env, K) ← popU32 K
  let ctx := { ctx with K := K }
  if typeOf arg == valTypeSymbol && decSym arg == symreprNil then
    some (.running { ctx with appCont := true, r := encSym symreprNil }, st, false)
  else if typeOf rest == valTypeSymbol && rest == NIL then
    some (.running { ctx with appCont := true }, st, false)
  else some (evalOperand io ctx contAnd env rest st)

def contOrCase (io : Outside) (ctx : EvalContext) (st : Store) : Option StepResult := do
  let arg := ctx.r
  let (rest, K) ← popU32 ctx.K
  let (env, K) ← popU32 K
  let ctx := { ctx with K := K }
  if typeOf arg != valTypeSymbol || decSym arg != symreprNil then
    some (.running { ctx with appCont := true }, st, false)
  else if typeOf rest == valTypeSymbol && rest == NIL then
    some (.running { ctx with appCont := true, r := encSym symreprNil }, st, false)
  else some (evalOperand io ctx contOr env rest st)

/-- `APPLICATION_ARGS`, once it is known that the operator is neither `and` nor `or`. -/
def applicationArg (io : Outside) (ctx : EvalContext) (arg env count rest : VALUE) (st : Store) :
    StepResult :=
  match pushU32 io.malloc ctx.K arg with
  | (false, K) => (fatalOnFail { ctx with K := K }, st, false)
  | (true, K) =>
      if typeOf rest == valTypeSymbol && rest == NIL then
        match pushAll io.malloc K [count, encU contApplication] with
        | (false, K) => (fatalOnFail { ctx with K := K }, st, false)
        | (true, K) => (.running { ctx with K := K, appCont := true }, st, false)
      else
        match pushAll io.malloc K
            [env, encU (decU count + 1#32), cdr st.heap rest, encU contApplicationArgs] with
        | (false, K) => (fatalOnFail { ctx with K := K }, st, false)
        | (true, K) =>
            (.running { ctx with K := K, currExp := car st.heap rest, currEnv := env }, st, false)

def contApplicationArgsCase (io : Outside) (ctx : EvalContext) (st : Store) :
    Option StepResult := do
  let arg := ctx.r
  let (rest, K) ← popU32 ctx.K
  let (count, K) ← popU32 K
  let (env, K) ← popU32 K
  let ctx := { ctx with K := K }
  -- deal with short-circuiting operators
  if typeOf arg == valTypeSymbol && decSym arg == symreprAnd then
    if typeOf rest == valTypeSymbol && rest == NIL then
      some (.running { ctx with appCont := true, r := encSym symreprTrue }, st, false)
    else some (evalOperand io ctx contAnd env rest st)
  else if typeOf arg == valTypeSymbol && decSym arg == symreprOr then
    if typeOf rest == valTypeSymbol && rest == NIL then
      some (.running { ctx with appCont := true, r := encSym symreprNil }, st, false)
    else some (evalOperand io ctx contOr env rest st)
  else some (applicationArg io ctx arg env count rest st)

def contBindToKeyRestCase (io : Outside) (ctx : EvalContext) (st : Store) :
    Option StepResult := do
  let arg := ctx.r
  let (key, K) ← popU32 ctx.K
  let (env, K) ← popU32 K
  let (rest, K) ← popU32 K
  let ctx := { ctx with K := K }
  let (_, h) ← envModifyBinding env key arg st.heap
  let st := { st with heap := h }
  if typeOf rest == ptrTypeCons then
    let keyn := car h (car h rest)
    let valnExp := car h (cdr h (car h rest))
    match pushAll io.malloc K [cdr h rest, env, keyn, encU contBindToKeyRest] with
    | (false, K) => some (fatalOnFail { ctx with K := K }, st, false)
    | (true, K) =>
        some (.running { ctx with K := K, currExp := valnExp, currEnv := env }, st, false)
  else
    -- otherwise evaluate the expression in the populated env
    let (exp, K) ← popU32 K
    some (.running { ctx with K := K, currExp := exp, currEnv := env }, st, false)

def contIfCase (ctx : EvalContext) (st : Store) : Option StepResult := do
  let arg := ctx.r
  let (thenBranch, K) ← popU32 ctx.K
  let (elseBranch, K) ← popU32 K
  let ctx := { ctx with K := K }
  if typeOf arg == valTypeSymbol && decSym arg == symreprTrue then
    some (.running { ctx with currExp := thenBranch }, st, false)
  else some (.running { ctx with currExp := elseBranch }, st, false)

/-- The `switch` of `apply_continuation`. -/
def contSwitch (pf : Platform) (io : Outside) (tag : UINT) (ctx : EvalContext) (st : Store) :
    Option StepResult :=
  if tag == contDone then some (advanceCtx io ctx st)
  else if tag == contSetGlobalEnv then contSetGlobalEnvCase io ctx st
  else if tag == contPrognRest then contPrognRestCase io ctx st
  else if tag == contSpawnAll then contSpawnAllCase io ctx st
  else if tag == contWait then contWaitCase io ctx st
  else if tag == contApplication then contApplicationCase pf io ctx st
  else if tag == contAnd then contAndCase io ctx st
  else if tag == contOr then contOrCase io ctx st
  else if tag == contApplicationArgs then contApplicationArgsCase io ctx st
  else if tag == contBindToKeyRest then contBindToKeyRestCase io ctx st
  else if tag == contIf then contIfCase ctx st
  else some (errorCtx ctx (encSym symreprEerror), st, false)

/-- `apply_continuation`. -/
def applyContinuation (pf : Platform) (io : Outside) (ctx : EvalContext) (st : Store) :
    Option StepResult := do
  let (k, K) ← popU32 ctx.K
  contSwitch pf io (decU k) { ctx with K := K, appCont := false } st

/-! ## Expressions -/

/-- Push a frame and go on with the sub-expression `exp` in `env`. -/
def dispatch (io : Outside) (ctx : EvalContext) (frame : List UINT) (exp env : VALUE) (st : Store) :
    StepResult :=
  match pushAll io.malloc ctx.K frame with
  | (false, K) => (fof { ctx with K := K }, st, false)
  | (true, K) => (.running { ctx with K := K, currExp := exp, currEnv := env }, st, false)

/-- Deliver a value. -/
def deliver (ctx : EvalContext) (v : VALUE) (st : Store) : StepResult :=
  (.running { ctx with r := v, appCont := true }, st, false)

/-- Set `perform_gc` and stay at the same expression. -/
def retryExp (ctx : EvalContext) (st : Store) : StepResult :=
  (.running { ctx with appCont := false }, st, true)

def evalSymbol (pf : Platform) (ctx : EvalContext) (st : Store) : Option StepResult :=
  if isSpecial ctx.currExp || (pf.extensionsLookup (decSym ctx.currExp)).isSome then
    some (deliver ctx ctx.currExp st)
  else do
    let value ← envLookup st.heap ctx.currExp ctx.currEnv
    if typeOf value == valTypeSymbol && decSym value == symreprNotFound then
      let value ← envLookup st.heap ctx.currExp st.envGlobal
      some (deliver ctx value st)
    else some (deliver ctx value st)

def evalDefine (io : Outside) (ctx : EvalContext) (st : Store) : StepResult :=
  let key := car st.heap (cdr st.heap ctx.currExp)
  let valExp := car st.heap (cdr st.heap (cdr st.heap ctx.currExp))
  if typeOf key != valTypeSymbol || key == NIL then
    (errorCtx ctx (encSym symreprEerror), st, false)
  else dispatch io ctx [key, encU contSetGlobalEnv] valExp ctx.currEnv st

def evalProgn (io : Outside) (ctx : EvalContext) (st : Store) : StepResult :=
  let exps := cdr st.heap ctx.currExp
  let env := ctx.currEnv
  if typeOf exps == valTypeSymbol && exps == NIL then deliver ctx NIL st
  else if symreprIsError exps then (errorCtx ctx exps, st, false)
  else dispatch io ctx [env, cdr st.heap exps, encU contPrognRest] (car st.heap exps) env st

def evalSpawn (io : Outside) (ctx : EvalContext) (st : Store) : StepResult :=
  let prgs := cdr st.heap ctx.currExp
  let env := ctx.currEnv
  if typeOf prgs == valTypeSymbol && prgs == NIL then deliver ctx NIL st
  else
    match pushAll io.malloc ctx.K [env, prgs, encU contSpawnAll] with
    | (false, K) => (fof { ctx with K := K }, st, false)
    | (true, K) => deliver { ctx with K := K } NIL st

/-- The allocations of `LAMBDA` after the environment was copied: all four are attempted, with
whatever the earlier ones returned. -/
def consClosure (envCpy exp : VALUE) (h : HeapState) : (VALUE × Bool) × HeapState :=
  let (envEnd, h) := cons envCpy NIL h
  let (body, h) := cons (car h (cdr h (cdr h exp))) envEnd h
  let (params, h) := cons (car h (cdr h exp)) body h
  let (closure, h) := cons (encSym symreprClosure) params h
  ((closure, typeOf envEnd == valTypeSymbol || typeOf body == valTypeSymbol
    || typeOf params == valTypeSymbol || typeOf closure == valTypeSymbol), h)

def evalLambda (ctx : EvalContext) (st : Store) : Option StepResult := do
  let (envCpy, h) ← envCopyShallow ctx.currEnv st.heap
  if typeOf envCpy == valTypeSymbol && decSym envCpy == symreprMerror then
    some (retryExp ctx { st with heap := h })
  else
    let ((closure, failed), h) := consClosure envCpy ctx.currExp h
    if failed then some (retryExp ctx { st with heap := h })
    else some (deliver ctx closure { st with heap := h })

def evalIf (io : Outside) (ctx : EvalContext) (st : Store) : StepResult :=
  let h := st.heap
  dispatch io ctx
    [car h (cdr h (cdr h (cdr h ctx.currExp))), car h (cdr h (cdr h ctx.currExp)), encU contIf]
    (car h (cdr h ctx.currExp)) ctx.currEnv st

/-- The loop of `LET` that puts a binding for every key in front of the environment; `false` when
a `cons` failed. -/
def letEnvLoop : Nat → VALUE → VALUE → HeapState → Option ((VALUE × Bool) × HeapState)
  | 0, _, _, _ => none
  | n + 1, curr, newEnv, h =>
      if typeOf curr == ptrTypeCons then
        let (binding, h) := cons (car h (car h curr)) NIL h
        let (newEnv, h) := cons binding newEnv h
        if typeOf binding == valTypeSymbol || typeOf newEnv == valTypeSymbol then
          some ((newEnv, false), h)
        else letEnvLoop n (cdr h curr) newEnv h
      else some ((newEnv, true), h)

def evalLet (io : Outside) (ctx : EvalContext) (st : Store) : Option StepResult :=
  let binds := car st.heap (cdr st.heap ctx.currExp)
  let exp := car st.heap (cdr st.heap (cdr st.heap ctx.currExp))
  if typeOf binds != ptrTypeCons then some (.running { ctx with currExp := exp }, st, false)
  else do
    let ((newEnv, ok), h) ← letEnvLoop (walkFuel st.heap) binds ctx.currEnv st.heap
    let st := { st with heap := h }
    if !ok then some (retryExp ctx st)
    else
      let key0 := car h (car h binds)
      let val0Exp := car h (cdr h (car h binds))
      some (dispatch io ctx [exp, cdr h binds, newEnv, key0, encU contBindToKeyRest] val0Exp newEnv
        st)

/-- The `PTR_TYPE_CONS` case: a special form or an application. -/
def evalForm (io : Outside) (ctx : EvalContext) (st : Store) : Option StepResult :=
  let head := car st.heap ctx.currExp
  let symId := decSym head
  let isSym := typeOf head == valTypeSymbol
  if isSym && symId == symreprQuote then
    some (deliver ctx (car st.heap (cdr st.heap ctx.currExp)) st)
  else if isSym && symId == symreprDefine then some (evalDefine io ctx st)
  else if isSym && symId == symreprProgn then some (evalProgn io ctx st)
  else if isSym && symId == symreprSpawn then some (evalSpawn io ctx st)
  else if isSym && symId == symreprLambda then evalLambda ctx st
  else if isSym && symId == symreprIf then some (evalIf io ctx st)
  else if isSym && symId == symreprLet then evalLet io ctx st
  else
    some (dispatch io ctx
      [ctx.currEnv, encU 0#32, cdr st.heap ctx.currExp, encU contApplicationArgs] head
      ctx.currEnv st)

/-- The `switch (type_of(ctx->curr_exp))` of `evaluation_step`. -/
def evalExp (pf : Platform) (io : Outside) (ctx : EvalContext) (st : Store) : Option StepResult :=
  let t := typeOf ctx.currExp
  if t == valTypeSymbol then evalSymbol pf ctx st
  else if t == ptrTypeBoxedF || t == ptrTypeBoxedU || t == ptrTypeBoxedI || t == valTypeI
      || t == valTypeU || t == valTypeChar || t == ptrTypeArray then
    some (deliver ctx ctx.currExp st)
  else if t == ptrTypeRef || t == ptrTypeStream then
    some (errorCtx ctx (encSym symreprEerror), st, false)
  else if t == ptrTypeCons then evalForm io ctx st
  else some (errorCtx ctx (encSym symreprEerror), st, false)

/-! ## Collections -/

/-- The marking calls for a context that can still run. -/
def ctxMarkCalls (ctx : EvalContext) : List MarkCall :=
  [.phase ctx.currEnv, .phase ctx.currExp, .phase ctx.program, .phase ctx.r, .aux ctx.K.contents]

/-- The marking calls of `gc(env, runnable, done, running)`. -/
def gcCalls (st : Store) (running : EvalContext) : List MarkCall :=
  .phase st.envGlobal :: st.ctxQueue.flatMap ctxMarkCalls ++ st.ctxDone.map (fun c => .phase c.r)
    ++ ctxMarkCalls running

/-- `gc`. Its results are dropped. -/
def gc (st : Store) (running : EvalContext) : Option Store :=
  (collect (gcCalls st running) st.heap).map fun (_, h) => { st with heap := h }

/-! ## Steps and the scheduler -/

/-- The part of `evaluation_step` after the collection. -/
def stepCtx (pf : Platform) (io : Outside) (ctx : EvalContext) (st : Store) : Option StepResult :=
  if ctx.appCont then applyContinuation pf io ctx st else evalExp pf io ctx st

/-- The globals after a step of the running context. -/
def Outcome.settle (o : Outcome) (st : Store) : EvalState :=
  match o with
  | .running ctx | .fatal ctx => { st with ctxRunning := some ctx }
  | .finished ctx => { st with ctxDone := ctx :: st.ctxDone, ctxRunning := none }
  | .yielded ctx => { st with ctxQueue := st.ctxQueue ++ [ctx], ctxRunning := none }

/-- The two flags of `eval_cps_run_eval`. -/
structure GcFlags where
  performGc : Bool
  lastIterationGc : Bool
deriving DecidableEq, Repr

/-- The collection at the beginning of a step, if one is due. -/
def gcIfDue (ctx : EvalContext) (st : Store) (flags : GcFlags) : Option Store :=
  if flags.performGc then gc st ctx else some st

/-- `evaluation_step(&perform_gc, &last_iteration_gc)` with the running context `ctx`. -/
def evaluationStep (pf : Platform) (io : Outside) (ctx : EvalContext) (st : Store)
    (flags : GcFlags) : Option (EvalState × GcFlags) := do
  if flags.performGc && flags.lastIterationGc then
    some ((errorCtx ctx (encSym symreprMerror)).settle st, flags)
  else
    let st ← gcIfDue ctx st flags
    let (o, st, performGc) ← stepCtx pf io ctx st
    some (o.settle st, ⟨performGc, flags.performGc⟩)

/-- One iteration of the loop of `eval_cps_run_eval`: a context is dequeued if none is running,
and the running one makes a step. With nothing to run the loop sleeps. -/
def runEvalIteration (pf : Platform) (io : Outside) (s : EvalState) (flags : GcFlags) :
    Option (EvalState × GcFlags) :=
  match s.ctxRunning with
  | some ctx => evaluationStep pf io ctx s.toStore flags
  | none =>
      match dequeueCtx (io.timestampUs.getD 0#32) s.ctxQueue with
      | none => some (s, flags)
      | some (ctx, queue) => evaluationStep pf io ctx { s.toStore with ctxQueue := queue } flags

/-! ## Starting -/

/-- `eval_cps_init` on a new heap of `numCells` cells: the global environment binds `nil`. -/
def evalCpsInit (numCells : Nat) : Store :=
  let h := heapInit numCells (List.replicate numCells ⟨0#32, 0#32⟩) ⟨[], [], 0#32, 0#32, 0#32⟩
  let (nilEntry, h) := cons NIL NIL h
  let (envGlobal, h) := cons nilEntry NIL h
  { heap := h
    envGlobal := envGlobal
    symbols := ⟨0#32, 0#32⟩
    ctxQueue := []
    ctxDone := []
    nextCtxId := 1#32 }

/-- `eval_cps_program`. -/
def evalCpsProgram (io : Outside) (lisp : VALUE) (st : Store) : CID × Store :=
  createCtx io lisp NIL 256 false st

/-- The globals after a context was created for each of the programs. -/
def startPrograms (io : Outside) (numCells : Nat) (programs : List (List Datum)) : Store :=
  programs.foldl
    (fun st program =>
      let (lisp, h) := (Datum.list program).build st.heap
      (evalCpsProgram io lisp { st with heap := h }).2)
    (evalCpsInit numCells)

end LispBM
