import LispBM.EvalCps.Runs

/-!
# LispBM — what a step pushes onto the continuation stack

A push onto `K` fails when the stack is full and cannot grow. Two macros deal with it: `FOF` puts
`fatal_error` in `r` and finishes the context; `FATAL_ON_FAIL` sets `done` and puts `fatal_error`
in `r`, but leaves the context in `ctx_running`.

`stepPushes` is what a step pushes, at every place where `evaluation_step` does. The specifications
say that it is complete, since the stack after a step is the one that these pushes leave, and what
becomes of the context when one of them fails.

* `applyContinuation_pushSpec` — a continuation that loses a push leaves its context running;
* `evalExp_pushSpec` — an expression that loses a push finishes its context with `fatal_error`.
-/

namespace LispBM

/-! ## What a step pushes -/

/-- The stack before the first push of a step, and the words; `none` if nothing is pushed. -/
abbrev Pushes := Option (Stack × List UINT)

def advancePushes (ctx : EvalContext) : Pushes :=
  if typeOf ctx.program == ptrTypeCons then some (ctx.K, [encU contDone]) else none

def contSetGlobalEnvPushes (ctx : EvalContext) (st : Store) : Pushes := do
  let (key, K) ← popU32 ctx.K
  let (newEnv, _) ← envSet st.envGlobal key ctx.r st.heap
  if typeOf newEnv == valTypeSymbol && decSym newEnv == symreprMerror then
    some (K, [key, encU contSetGlobalEnv])
  else none

def contPrognRestPushes (ctx : EvalContext) (st : Store) : Pushes := do
  let (rest, K) ← popU32 ctx.K
  let (env, K) ← popU32 K
  if typeOf rest == valTypeSymbol && rest == NIL then none
  else if symreprIsError rest then none
  else if typeOf (cdr st.heap rest) == valTypeSymbol && cdr st.heap rest == NIL then none
  else some (K, [env, cdr st.heap rest, encU contPrognRest])

def contSpawnAllPushes (ctx : EvalContext) (st : Store) : Pushes := do
  let (rest, K) ← popU32 ctx.K
  let (env, K) ← popU32 K
  if typeOf rest == valTypeSymbol && rest == NIL then none
  else
    let (cidList, h) := cons (encI st.nextCtxId) ctx.r st.heap
    if typeOf cidList == valTypeSymbol then some (K, [env, rest, encU contSpawnAll])
    else some (K, [env, cdr h rest, encU contSpawnAll])

def contWaitPushes (ctx : EvalContext) (st : Store) : Pushes := do
  let (cidVal, K) ← popU32 ctx.K
  let cid : CID := (decU cidVal).setWidth 16
  match removeDoneCtx cid st.ctxDone with
  | some _ => none
  | none => some (K, [encU (cid.setWidth 32), encU contWait])

def applyClosurePushes (ctx : EvalContext) (count funWord : VALUE) (argWords : List VALUE)
    (st : Store) : Pushes := do
  let (args, h) := consAll argWords.reverse NIL st.heap
  if argWords.length != 0 && typeOf args == valTypeSymbol then
    some (ctx.K, [count, encU contApplication])
  else
    let params := car h (cdr h funWord)
    let cloEnv := car h (cdr h (cdr h (cdr h funWord)))
    let np ← length h params
    let na ← length h args
    if np != na then none
    else
      let (localEnv, _) ← envBuildParamsArgs params args cloEnv h
      if typeOf localEnv == valTypeSymbol && decSym localEnv == symreprMerror then
        some (ctx.K, [count, encU contApplication])
      else none

def applyFundamentalPushes (pf : Platform) (ctx : EvalContext) (count funWord : VALUE)
    (args : List VALUE) (st : Store) : Pushes := do
  let (res, _, _) ← fundamentalExec pf.floats args (decU count) funWord st.symbols st.heap
  if typeOf res == valTypeSymbol && decSym res == symreprEerror then none
  else if typeOf res == valTypeSymbol && decSym res == symreprMerror then
    some (ctx.K, [count, encU contApplication])
  else none

def applyExtensionPushes (pf : Platform) (ctx : EvalContext) (count funWord : VALUE)
    (args : List VALUE) (st : Store) : Pushes :=
  match pf.extensionsLookup (decSym funWord) with
  | none => none
  | some f =>
      let (extRes, _) := f args (decU count) st
      if typeOf extRes == valTypeSymbol && decSym extRes == symreprMerror then
        some (ctx.K, [count, encU contApplication])
      else none

def contApplicationPushes (pf : Platform) (ctx : EvalContext) (st : Store) : Pushes := do
  let (count, K) ← popU32 ctx.K
  let ctx := { ctx with K := K }
  let n := (decU count).toNat
  let base ← stackPtr K (n + 1)
  let funWord := K.data.getD base 0#32
  let args := K.data.drop (base + 1)
  if typeOf funWord == ptrTypeCons then applyClosurePushes ctx count funWord (args.take n) st
  else if typeOf funWord == valTypeSymbol && decSym funWord == symreprYield then none
  else if typeOf funWord == valTypeSymbol && decSym funWord == symreprWait then
    if typeOf (args.getD 0 0#32) == valTypeI then
      some (stackDrop K (n + 1),
        [encU (((decI (args.getD 0 0#32)).setWidth 16).setWidth 32), encU contWait])
    else none
  else if typeOf funWord == valTypeSymbol && decSym funWord == symreprEval then none
  else if typeOf funWord == valTypeSymbol && isFundamental funWord then
    applyFundamentalPushes pf ctx count funWord args st
  else applyExtensionPushes pf ctx count funWord args st

def contAndPushes (ctx : EvalContext) (st : Store) : Pushes := do
  let (rest, K) ← popU32 ctx.K
  let (env, K) ← popU32 K
  if typeOf ctx.r == valTypeSymbol && decSym ctx.r == symreprNil then none
  else if typeOf rest == valTypeSymbol && rest == NIL then none
  else some (K, [env, cdr st.heap rest, encU contAnd])

def contOrPushes (ctx : EvalContext) (st : Store) : Pushes := do
  let (rest, K) ← popU32 ctx.K
  let (env, K) ← popU32 K
  if typeOf ctx.r != valTypeSymbol || decSym ctx.r != symreprNil then none
  else if typeOf rest == valTypeSymbol && rest == NIL then none
  else some (K, [env, cdr st.heap rest, encU contOr])

/-- The value is pushed first. What comes after it needs one word more than the frame that was
popped, if there is another operand. -/
def contApplicationArgsPushes (ctx : EvalContext) (st : Store) : Pushes := do
  let (rest, K) ← popU32 ctx.K
  let (count, K) ← popU32 K
  let (env, K) ← popU32 K
  if typeOf ctx.r == valTypeSymbol && decSym ctx.r == symreprAnd then
    if typeOf rest == valTypeSymbol && rest == NIL then none
    else some (K, [env, cdr st.heap rest, encU contAnd])
  else if typeOf ctx.r == valTypeSymbol && decSym ctx.r == symreprOr then
    if typeOf rest == valTypeSymbol && rest == NIL then none
    else some (K, [env, cdr st.heap rest, encU contOr])
  else if typeOf rest == valTypeSymbol && rest == NIL then
    some (K, [ctx.r, count, encU contApplication])
  else
    some (K, [ctx.r, env, encU (decU count + 1#32), cdr st.heap rest, encU contApplicationArgs])

def contBindToKeyRestPushes (ctx : EvalContext) (st : Store) : Pushes := do
  let (key, K) ← popU32 ctx.K
  let (env, K) ← popU32 K
  let (rest, K) ← popU32 K
  let (_, h) ← envModifyBinding env key ctx.r st.heap
  if typeOf rest == ptrTypeCons then
    some (K, [cdr h rest, env, car h (car h rest), encU contBindToKeyRest])
  else none

def contPushes (pf : Platform) (tag : UINT) (ctx : EvalContext) (st : Store) : Pushes :=
  if tag == contDone then advancePushes ctx
  else if tag == contSetGlobalEnv then contSetGlobalEnvPushes ctx st
  else if tag == contPrognRest then contPrognRestPushes ctx st
  else if tag == contSpawnAll then contSpawnAllPushes ctx st
  else if tag == contWait then contWaitPushes ctx st
  else if tag == contApplication then contApplicationPushes pf ctx st
  else if tag == contAnd then contAndPushes ctx st
  else if tag == contOr then contOrPushes ctx st
  else if tag == contApplicationArgs then contApplicationArgsPushes ctx st
  else if tag == contBindToKeyRest then contBindToKeyRestPushes ctx st
  else none

def formPushes (ctx : EvalContext) (st : Store) : Pushes :=
  let h := st.heap
  let head := car h ctx.currExp
  let symId := decSym head
  let isSym := typeOf head == valTypeSymbol
  let rest := cdr h ctx.currExp
  if isSym && symId == symreprQuote then none
  else if isSym && symId == symreprDefine then
    let key := car h rest
    if typeOf key != valTypeSymbol || key == NIL then none
    else some (ctx.K, [key, encU contSetGlobalEnv])
  else if isSym && symId == symreprProgn then
    if typeOf rest == valTypeSymbol && rest == NIL then none
    else if symreprIsError rest then none
    else some (ctx.K, [ctx.currEnv, cdr h rest, encU contPrognRest])
  else if isSym && symId == symreprSpawn then
    if typeOf rest == valTypeSymbol && rest == NIL then none
    else some (ctx.K, [ctx.currEnv, rest, encU contSpawnAll])
  else if isSym && symId == symreprLambda then none
  else if isSym && symId == symreprIf then
    some (ctx.K, [car h (cdr h (cdr h rest)), car h (cdr h rest), encU contIf])
  else if isSym && symId == symreprLet then
    let binds := car h rest
    if typeOf binds != ptrTypeCons then none
    else do
      let ((newEnv, ok), h') ← letEnvLoop (walkFuel h) binds ctx.currEnv h
      if !ok then none
      else
        some (ctx.K, [car h (cdr h rest), cdr h' binds, newEnv, car h' (car h' binds),
          encU contBindToKeyRest])
  else some (ctx.K, [ctx.currEnv, encU 0#32, rest, encU contApplicationArgs])

/-- What a step pushes onto the stack of its context. -/
def stepPushes (pf : Platform) (ctx : EvalContext) (st : Store) : Pushes :=
  if ctx.appCont then do
    let (k, K) ← popU32 ctx.K
    contPushes pf (decU k) { ctx with K := K, appCont := false } st
  else if typeOf ctx.currExp == ptrTypeCons then formPushes ctx st
  else none

/-- One of the pushes of a step fails. -/
def pushFails (pf : Platform) (io : Outside) (ctx : EvalContext) (st : Store) : Bool :=
  match stepPushes pf ctx st with
  | none => false
  | some (K, ws) => !(pushAll io.malloc K ws).1

/-! ## That this is all a step pushes -/

def Outcome.ctx : Outcome → EvalContext
  | .running c | .fatal c | .finished c | .yielded c => c

/-- `o` is the outcome of a step that begins with the stack `K₀` and makes the pushes `p`; if one
of them fails, then `o` is as in `onFail`. -/
structure PushSpec (io : Outside) (K₀ : Stack) (p : Pushes) (onFail : Outcome → Prop)
    (o : Outcome) : Prop where
  unchanged : p = none → o.ctx.K.data = K₀.data
  pushed : ∀ {K ws K'}, p = some (K, ws) → pushAll io.malloc K ws = (true, K') → o.ctx.K = K'
  failed : ∀ {K ws K'}, p = some (K, ws) → pushAll io.malloc K ws = (false, K') → onFail o

/-- The context is still the running one. -/
def Outcome.IsFatal (o : Outcome) : Prop := ∃ c, o = .fatal c

section

variable {pf : Platform} {io : Outside} {ctx : EvalContext} {st st' : Store} {o : Outcome}
  {g : Bool} {K K₁ K₂ : Stack} {v : UINT} {ws : List UINT} {onFail : Outcome → Prop}

theorem createCtx_heap (program env : VALUE) (stackSize : StackSize) (growStack : Bool)
    (st : Store) :
    (createCtx io program env stackSize growStack st).2.heap = st.heap := by
  unfold createCtx
  split_ifs
  · rfl
  · rfl
  · rfl
  · simp only
    split
    · rfl
    · split <;> rfl

theorem data_stackDrop (K : Stack) (n : Nat) : (stackDrop K n).data = K.data := by
  unfold stackDrop
  split <;> rfl

theorem sp_stackDrop_lt {n base : Nat} (h : stackPtr K (n + 1) = some base) :
    (stackDrop K (n + 1)).sp < K.sp := by
  unfold stackPtr at h
  split at h
  · cases h
  · next hlt =>
    unfold stackDrop
    rw [if_neg hlt]
    show K.sp - (n + 1) < K.sp
    omega

theorem pushSpec_none (h : o.ctx.K.data = K.data) : PushSpec io K none onFail o :=
  ⟨fun _ => h, fun hp _ => absurd hp (by simp), fun hp _ => absurd hp (by simp)⟩

theorem pushSpec_some (hok : ∀ K', pushAll io.malloc K ws = (true, K') → o.ctx.K = K')
    (hfail : ∀ K', pushAll io.malloc K ws = (false, K') → onFail o) :
    PushSpec io K₁ (some (K, ws)) onFail o := by
  refine ⟨fun hp => absurd hp (by simp), fun hp hpush => ?_, fun hp hpush => ?_⟩
  · cases hp
    exact hok _ hpush
  · cases hp
    exact hfail _ hpush

/-- Pops before the pushes do not write to the stack. -/
theorem PushSpec.of_data {p : Pushes} (h : PushSpec io K p onFail o) (hdata : K.data = K₁.data) :
    PushSpec io K₁ p onFail o :=
  ⟨fun hp => (h.unchanged hp).trans hdata, h.pushed, h.failed⟩

/-- A branch of the source that is also a branch of the pushes. -/
theorem pushSpec_ite {b : Bool} {r₁ r₂ : Option StepResult} {p₁ p₂ : Pushes}
    (h : (if b then r₁ else r₂) = some (o, st', g))
    (hpos : r₁ = some (o, st', g) → PushSpec io K p₁ onFail o)
    (hneg : r₂ = some (o, st', g) → PushSpec io K p₂ onFail o) :
    PushSpec io K (if b then p₁ else p₂) onFail o := by
  cases b with
  | true => exact hpos h
  | false => exact hneg h

theorem isFatal_fatalOnFail (ctx : EvalContext) : (fatalOnFail ctx).IsFatal := ⟨_, rfl⟩

theorem contSetGlobalEnv_pushSpec (h : contSetGlobalEnvCase io ctx st = some (o, st', g)) :
    PushSpec io ctx.K (contSetGlobalEnvPushes ctx st) Outcome.IsFatal o := by
  unfold contSetGlobalEnvCase at h
  simp only [Option.bind_eq_bind] at h
  obtain ⟨⟨key, K⟩, hpop, h⟩ := Option.bind_eq_some_iff.mp h
  obtain ⟨⟨newEnv, heap⟩, henv, h⟩ := Option.bind_eq_some_iff.mp h
  have hdata := data_popU32 hpop
  simp only [contSetGlobalEnvPushes, hpop, henv, Option.bind_eq_bind, Option.bind_some]
  simp only at h
  split at h
  · next hm =>
    rw [if_pos hm]
    refine pushSpec_some (fun K' hp => ?_) fun K' hp => ?_
    · rw [hp] at h
      cases h
      rfl
    · rw [hp] at h
      cases h
      exact isFatal_fatalOnFail _
  · next hm =>
    rw [if_neg hm]
    apply pushSpec_none
    split at h <;> cases h <;> exact hdata

theorem contPrognRest_pushSpec (h : contPrognRestCase io ctx st = some (o, st', g)) :
    PushSpec io ctx.K (contPrognRestPushes ctx st) Outcome.IsFatal o := by
  unfold contPrognRestCase at h
  simp only [Option.bind_eq_bind] at h
  obtain ⟨⟨rest, K₁⟩, hpop₁, h⟩ := Option.bind_eq_some_iff.mp h
  obtain ⟨⟨env, K₂⟩, hpop₂, h⟩ := Option.bind_eq_some_iff.mp h
  have hdata : K₂.data = ctx.K.data := (data_popU32 hpop₂).trans (data_popU32 hpop₁)
  simp only [contPrognRestPushes, hpop₁, hpop₂, Option.bind_eq_bind, Option.bind_some]
  simp only at h hpop₂
  split_ifs at h ⊢
  · cases h
    exact pushSpec_none hdata
  · cases h
    exact pushSpec_none hdata
  · cases h
    exact pushSpec_none hdata
  · refine pushSpec_some (fun K' hp => ?_) fun K' hp => ?_
    · rw [hp] at h
      cases h
      rfl
    · rw [hp] at h
      cases h
      exact isFatal_fatalOnFail _

theorem contSpawnAll_pushSpec (h : contSpawnAllCase io ctx st = some (o, st', g)) :
    PushSpec io ctx.K (contSpawnAllPushes ctx st) Outcome.IsFatal o := by
  unfold contSpawnAllCase at h
  simp only [Option.bind_eq_bind] at h
  obtain ⟨⟨rest, K₁⟩, hpop₁, h⟩ := Option.bind_eq_some_iff.mp h
  obtain ⟨⟨env, K₂⟩, hpop₂, h⟩ := Option.bind_eq_some_iff.mp h
  have hdata : K₂.data = ctx.K.data := (data_popU32 hpop₂).trans (data_popU32 hpop₁)
  simp only [contSpawnAllPushes, hpop₁, hpop₂, Option.bind_eq_bind, Option.bind_some]
  simp only at h hpop₂
  split_ifs at h ⊢
  · cases h
    exact pushSpec_none hdata
  · refine pushSpec_some (fun K' hp => ?_) fun K' hp => ?_
    · rw [hp] at h
      cases h
      rfl
    · rw [hp] at h
      cases h
      exact isFatal_fatalOnFail _
  · -- creating a context does not touch the heap
    simp only [spawnFirst, createCtx_heap, Option.some.injEq] at h
    refine pushSpec_some (fun K' hp => ?_) fun K' hp => ?_
    · rw [hp] at h
      cases h
      rfl
    · rw [hp] at h
      cases h
      exact isFatal_fatalOnFail _

theorem contAnd_pushSpec (h : contAndCase io ctx st = some (o, st', g)) :
    PushSpec io ctx.K (contAndPushes ctx st) Outcome.IsFatal o := by
  unfold contAndCase at h
  simp only [Option.bind_eq_bind] at h
  obtain ⟨⟨rest, K₁⟩, hpop₁, h⟩ := Option.bind_eq_some_iff.mp h
  obtain ⟨⟨env, K₂⟩, hpop₂, h⟩ := Option.bind_eq_some_iff.mp h
  have hdata : K₂.data = ctx.K.data := (data_popU32 hpop₂).trans (data_popU32 hpop₁)
  simp only [contAndPushes, hpop₁, hpop₂, Option.bind_eq_bind, Option.bind_some]
  simp only [evalOperand] at h hpop₂
  split_ifs at h ⊢
  · cases h
    exact pushSpec_none hdata
  · cases h
    exact pushSpec_none hdata
  · refine pushSpec_some (fun K' hp => ?_) fun K' hp => ?_
    · rw [hp] at h
      cases h
      rfl
    · rw [hp] at h
      cases h
      exact isFatal_fatalOnFail _

theorem contOr_pushSpec (h : contOrCase io ctx st = some (o, st', g)) :
    PushSpec io ctx.K (contOrPushes ctx st) Outcome.IsFatal o := by
  unfold contOrCase at h
  simp only [Option.bind_eq_bind] at h
  obtain ⟨⟨rest, K₁⟩, hpop₁, h⟩ := Option.bind_eq_some_iff.mp h
  obtain ⟨⟨env, K₂⟩, hpop₂, h⟩ := Option.bind_eq_some_iff.mp h
  have hdata : K₂.data = ctx.K.data := (data_popU32 hpop₂).trans (data_popU32 hpop₁)
  simp only [contOrPushes, hpop₁, hpop₂, Option.bind_eq_bind, Option.bind_some]
  simp only [evalOperand] at h hpop₂
  split_ifs at h ⊢
  · cases h
    exact pushSpec_none hdata
  · cases h
    exact pushSpec_none hdata
  · refine pushSpec_some (fun K' hp => ?_) fun K' hp => ?_
    · rw [hp] at h
      cases h
      rfl
    · rw [hp] at h
      cases h
      exact isFatal_fatalOnFail _

/-- The pushes of `APPLICATION_ARGS` as one. -/
theorem applicationArg_pushSpec {arg env count rest : VALUE} (hroom : ctx.K.sp < ctx.K.data.length)
    (h : applicationArg io ctx arg env count rest st = (o, st', g)) :
    PushSpec io K
      (if typeOf rest == valTypeSymbol && rest == NIL then
        some (ctx.K, [arg, count, encU contApplication])
      else
        some (ctx.K, [arg, env, encU (decU count + 1#32), cdr st.heap rest,
          encU contApplicationArgs])) Outcome.IsFatal o := by
  have hpush : pushU32 io.malloc ctx.K arg = (true, ctx.K.write arg hroom) := dif_pos hroom
  have hall : ∀ ws, pushAll io.malloc ctx.K (arg :: ws)
      = pushAll io.malloc (ctx.K.write arg hroom) ws := by
    intro ws
    simp only [pushAll, hpush, Bool.true_and]
  unfold applicationArg at h
  rw [hpush] at h
  simp only at h
  split_ifs at h ⊢
  · refine pushSpec_some (fun K' hp => ?_) fun K' hp => ?_
    · rw [hall] at hp
      rw [hp] at h
      cases h
      rfl
    · rw [hall] at hp
      rw [hp] at h
      cases h
      exact isFatal_fatalOnFail _
  · refine pushSpec_some (fun K' hp => ?_) fun K' hp => ?_
    · rw [hall] at hp
      rw [hp] at h
      cases h
      rfl
    · rw [hall] at hp
      rw [hp] at h
      cases h
      exact isFatal_fatalOnFail _

theorem contApplicationArgs_pushSpec (h : contApplicationArgsCase io ctx st = some (o, st', g)) :
    PushSpec io ctx.K (contApplicationArgsPushes ctx st) Outcome.IsFatal o := by
  unfold contApplicationArgsCase at h
  simp only [Option.bind_eq_bind] at h
  obtain ⟨⟨rest, K₁⟩, hpop₁, h⟩ := Option.bind_eq_some_iff.mp h
  obtain ⟨⟨count, K₂⟩, hpop₂, h⟩ := Option.bind_eq_some_iff.mp h
  obtain ⟨⟨env, K₃⟩, hpop₃, h⟩ := Option.bind_eq_some_iff.mp h
  have hdata : K₃.data = ctx.K.data :=
    (data_popU32 hpop₃).trans ((data_popU32 hpop₂).trans (data_popU32 hpop₁))
  have hroom : K₃.sp < K₃.data.length := by
    have hsp : K₃.sp + 1 = K₂.sp := sp_popU32 hpop₃
    have hlen : K₃.data = K₂.data := data_popU32 hpop₃
    have := K₂.sp_le
    rw [hlen]
    omega
  simp only [contApplicationArgsPushes, hpop₁, hpop₂, hpop₃, Option.bind_eq_bind, Option.bind_some]
  simp only [evalOperand] at h
  split_ifs at h ⊢
  · cases h
    exact pushSpec_none hdata
  · refine pushSpec_some (fun K' hp => ?_) fun K' hp => ?_
    · rw [hp] at h
      cases h
      rfl
    · rw [hp] at h
      cases h
      exact isFatal_fatalOnFail _
  · cases h
    exact pushSpec_none hdata
  · refine pushSpec_some (fun K' hp => ?_) fun K' hp => ?_
    · rw [hp] at h
      cases h
      rfl
    · rw [hp] at h
      cases h
      exact isFatal_fatalOnFail _
  · next hnil =>
    have := applicationArg_pushSpec (K := ctx.K) hroom (Option.some.inj h)
    rwa [if_pos hnil] at this
  · next hnil =>
    have := applicationArg_pushSpec (K := ctx.K) hroom (Option.some.inj h)
    rwa [if_neg hnil] at this

theorem contBindToKeyRest_pushSpec (h : contBindToKeyRestCase io ctx st = some (o, st', g)) :
    PushSpec io ctx.K (contBindToKeyRestPushes ctx st) Outcome.IsFatal o := by
  unfold contBindToKeyRestCase at h
  simp only [Option.bind_eq_bind] at h
  obtain ⟨⟨key, K₁⟩, hpop₁, h⟩ := Option.bind_eq_some_iff.mp h
  obtain ⟨⟨env, K₂⟩, hpop₂, h⟩ := Option.bind_eq_some_iff.mp h
  obtain ⟨⟨rest, K₃⟩, hpop₃, h⟩ := Option.bind_eq_some_iff.mp h
  obtain ⟨⟨b, heap⟩, henv, h⟩ := Option.bind_eq_some_iff.mp h
  have hdata : K₃.data = ctx.K.data :=
    (data_popU32 hpop₃).trans ((data_popU32 hpop₂).trans (data_popU32 hpop₁))
  simp only [contBindToKeyRestPushes, hpop₁, hpop₂, hpop₃, henv, Option.bind_eq_bind,
    Option.bind_some]
  simp only at h
  split_ifs at h ⊢
  · refine pushSpec_some (fun K' hp => ?_) fun K' hp => ?_
    · rw [hp] at h
      cases h
      rfl
    · rw [hp] at h
      cases h
      exact isFatal_fatalOnFail _
  · obtain ⟨⟨exp, K₄⟩, hpop₄, h⟩ := Option.bind_eq_some_iff.mp h
    cases h
    exact pushSpec_none ((data_popU32 hpop₄).trans hdata)

/-- The frame of `WAIT` fits into what was popped; a failure would be handled by `FOF`. -/
theorem waitYield_pushSpec {cid : CID} (hroom : ctx.K.sp + 2 ≤ ctx.K.data.length)
    (h : waitYield io ctx cid st = (o, st', g)) :
    PushSpec io K (some (ctx.K, [encU (cid.setWidth 32), encU contWait])) Outcome.IsFatal o := by
  have hok : (pushAll io.malloc ctx.K [encU (cid.setWidth 32), encU contWait]).1 = true :=
    pushAll_of_room hroom
  refine pushSpec_some (fun K' hp => ?_) fun K' hp => ?_
  · unfold waitYield yieldCtx at h
    rw [hp] at h
    cases h
    cases io.timestampUs <;> rfl
  · rw [hp] at hok
    cases hok

theorem contWait_pushSpec (hroom : ctx.K.sp < ctx.K.data.length)
    (h : contWaitCase io ctx st = some (o, st', g)) :
    PushSpec io ctx.K (contWaitPushes ctx st) Outcome.IsFatal o := by
  unfold contWaitCase at h
  simp only [Option.bind_eq_bind] at h
  obtain ⟨⟨cidVal, K₁⟩, hpop, h⟩ := Option.bind_eq_some_iff.mp h
  have hsp := sp_popU32 hpop
  have hdata := data_popU32 hpop
  simp only [contWaitPushes, hpop, Option.bind_eq_bind, Option.bind_some]
  cases hdone : removeDoneCtx ((decU cidVal).setWidth 16) st.ctxDone with
  | some found =>
    simp only [hdone] at h
    cases h
    exact pushSpec_none hdata
  | none =>
    simp only [hdone] at h
    have hwait := waitYield_pushSpec (K := ctx.K) ?_ (Option.some.inj h)
    · exact hwait
    · show K₁.sp + 2 ≤ K₁.data.length
      rw [hdata]
      omega

theorem advance_pushSpec (hroom : ctx.K.sp < ctx.K.data.length)
    (h : advanceCtx io ctx st = (o, st', g)) :
    PushSpec io ctx.K (advancePushes ctx) Outcome.IsFatal o := by
  have hok : (pushAll io.malloc ctx.K [encU contDone]).1 = true := pushAll_of_room hroom
  unfold advanceCtx at h
  unfold advancePushes
  split_ifs at h ⊢
  · refine pushSpec_some (fun K' hp => ?_) fun K' hp => ?_
    · cases h
      show (pushU32 io.malloc ctx.K (encU contDone)).2 = K'
      rw [show K' = (pushAll io.malloc ctx.K [encU contDone]).2 by rw [hp]]
      rfl
    · rw [hp] at hok
      cases hok
  · cases h
    exact pushSpec_none rfl

theorem retryApplication_pushSpec {count funWord : VALUE}
    (h : retryApplication io ctx count funWord st = (o, st', g)) :
    PushSpec io K (some (ctx.K, [count, encU contApplication])) Outcome.IsFatal o := by
  unfold retryApplication at h
  refine pushSpec_some (fun K' hp => ?_) fun K' hp => ?_
  · rw [hp] at h
    cases h
    rfl
  · rw [hp] at h
    cases h
    exact isFatal_fatalOnFail _

theorem applyClosure_pushSpec {count funWord : VALUE} {argWords : List VALUE}
    (h : applyClosure io ctx count funWord argWords st = some (o, st', g)) :
    PushSpec io ctx.K (applyClosurePushes ctx count funWord argWords st) Outcome.IsFatal o := by
  unfold applyClosure at h
  unfold applyClosurePushes
  simp only [Option.bind_eq_bind] at h ⊢
  split_ifs at h ⊢
  · exact retryApplication_pushSpec (Option.some.inj h)
  · obtain ⟨np, hnp, h⟩ := Option.bind_eq_some_iff.mp h
    obtain ⟨na, hna, h⟩ := Option.bind_eq_some_iff.mp h
    simp only [hnp, hna, Option.bind_some]
    split_ifs at h ⊢
    · cases h
      exact pushSpec_none rfl
    · obtain ⟨⟨localEnv, heap⟩, henv, h⟩ := Option.bind_eq_some_iff.mp h
      simp only [henv, Option.bind_some]
      simp only at h
      split_ifs at h ⊢
      · exact retryApplication_pushSpec (Option.some.inj h)
      · cases h
        exact pushSpec_none rfl
      · cases h
        exact pushSpec_none (data_stackDrop _ _)

theorem applyFundamental_pushSpec {count funWord : VALUE} {args : List VALUE}
    (h : applyFundamental pf io ctx count funWord args st = some (o, st', g)) :
    PushSpec io ctx.K (applyFundamentalPushes pf ctx count funWord args st) Outcome.IsFatal o := by
  unfold applyFundamental at h
  simp only [Option.bind_eq_bind] at h
  obtain ⟨⟨res, heap, symbols⟩, hexec, h⟩ := Option.bind_eq_some_iff.mp h
  simp only [applyFundamentalPushes, hexec, Option.bind_eq_bind, Option.bind_some]
  simp only at h
  split_ifs at h ⊢
  · cases h
    exact pushSpec_none rfl
  · exact retryApplication_pushSpec (Option.some.inj h)
  · cases h
    exact pushSpec_none (data_stackDrop _ _)

theorem applyExtension_pushSpec {count funWord : VALUE} {args : List VALUE}
    (h : applyExtension pf io ctx count funWord args st = (o, st', g)) :
    PushSpec io ctx.K (applyExtensionPushes pf ctx count funWord args st) Outcome.IsFatal o := by
  unfold applyExtension at h
  unfold applyExtensionPushes
  cases hf : pf.extensionsLookup (decSym funWord) with
  | none =>
    simp only [hf] at h
    cases h
    exact pushSpec_none rfl
  | some f =>
    simp only [hf] at h
    simp only
    split_ifs at h ⊢
    · exact retryApplication_pushSpec h
    · cases h
      exact pushSpec_none (data_stackDrop _ _)

theorem contApplication_pushSpec (hroom : ctx.K.sp < ctx.K.data.length)
    (h : contApplicationCase pf io ctx st = some (o, st', g)) :
    PushSpec io ctx.K (contApplicationPushes pf ctx st) Outcome.IsFatal o := by
  unfold contApplicationCase at h
  simp only [Option.bind_eq_bind] at h
  obtain ⟨⟨count, K₁⟩, hpop, h⟩ := Option.bind_eq_some_iff.mp h
  obtain ⟨base, hbase, h⟩ := Option.bind_eq_some_iff.mp h
  have hsp := sp_popU32 hpop
  have hdata := data_popU32 hpop
  simp only at hbase
  simp only [contApplicationPushes, hpop, hbase, Option.bind_eq_bind, Option.bind_some]
  simp only at h
  refine pushSpec_ite h (fun h => (applyClosure_pushSpec h).of_data hdata) fun h => ?_
  refine pushSpec_ite h (fun h => ?_) fun h => ?_
  · apply pushSpec_none
    split at h
    · cases h
      rw [← hdata]
      unfold yieldCtx
      cases io.timestampUs <;> exact data_stackDrop _ _
    · cases h
      exact hdata
  refine pushSpec_ite h (fun h => ?_) fun h => ?_
  · refine pushSpec_ite h (fun h => waitYield_pushSpec ?_ (Option.some.inj h)) fun h => ?_
    · show (stackDrop K₁ ((decU count).toNat + 1)).sp + 2 ≤ _
      rw [data_stackDrop, hdata]
      have := sp_stackDrop_lt hbase
      omega
    · cases h
      exact pushSpec_none hdata
  refine pushSpec_ite h (fun h => ?_) fun h => ?_
  · cases h
    exact pushSpec_none ((data_stackDrop _ _).trans hdata)
  refine pushSpec_ite h (fun h => (applyFundamental_pushSpec h).of_data hdata) fun h => ?_
  exact (applyExtension_pushSpec (Option.some.inj h)).of_data hdata

theorem contIf_pushSpec (h : contIfCase ctx st = some (o, st', g)) :
    PushSpec io ctx.K none Outcome.IsFatal o := by
  unfold contIfCase at h
  simp only [Option.bind_eq_bind] at h
  obtain ⟨⟨thenBranch, K₁⟩, hpop₁, h⟩ := Option.bind_eq_some_iff.mp h
  obtain ⟨⟨elseBranch, K₂⟩, hpop₂, h⟩ := Option.bind_eq_some_iff.mp h
  have hdata : K₂.data = ctx.K.data := (data_popU32 hpop₂).trans (data_popU32 hpop₁)
  simp only at h
  split_ifs at h <;> cases h <;> exact pushSpec_none hdata

theorem contSwitch_pushSpec {tag : UINT} (hroom : ctx.K.sp < ctx.K.data.length)
    (h : contSwitch pf io tag ctx st = some (o, st', g)) :
    PushSpec io ctx.K (contPushes pf tag ctx st) Outcome.IsFatal o := by
  unfold contSwitch at h
  unfold contPushes
  refine pushSpec_ite h (fun h => advance_pushSpec hroom (Option.some.inj h)) fun h => ?_
  refine pushSpec_ite h (fun h => contSetGlobalEnv_pushSpec h) fun h => ?_
  refine pushSpec_ite h (fun h => contPrognRest_pushSpec h) fun h => ?_
  refine pushSpec_ite h (fun h => contSpawnAll_pushSpec h) fun h => ?_
  refine pushSpec_ite h (fun h => contWait_pushSpec hroom h) fun h => ?_
  refine pushSpec_ite h (fun h => contApplication_pushSpec hroom h) fun h => ?_
  refine pushSpec_ite h (fun h => contAnd_pushSpec h) fun h => ?_
  refine pushSpec_ite h (fun h => contOr_pushSpec h) fun h => ?_
  refine pushSpec_ite h (fun h => contApplicationArgs_pushSpec h) fun h => ?_
  refine pushSpec_ite h (fun h => contBindToKeyRest_pushSpec h) fun h => ?_
  split at h
  · exact contIf_pushSpec h
  · cases h
    exact pushSpec_none rfl

/-- A continuation that loses a push leaves its context running. -/
theorem applyContinuation_pushSpec (hcont : ctx.appCont = true)
    (h : applyContinuation pf io ctx st = some (o, st', g)) :
    PushSpec io ctx.K (stepPushes pf ctx st) Outcome.IsFatal o := by
  unfold applyContinuation at h
  simp only [Option.bind_eq_bind] at h
  obtain ⟨⟨k, K₁⟩, hpop, h⟩ := Option.bind_eq_some_iff.mp h
  have hroom : K₁.sp < K₁.data.length := by
    have := sp_popU32 hpop
    have := ctx.K.sp_le
    rw [data_popU32 hpop]
    omega
  simp only [stepPushes, hcont, if_true, hpop, Option.bind_eq_bind, Option.bind_some]
  exact (contSwitch_pushSpec hroom h).of_data (data_popU32 hpop)

/-! ## Expressions -/

/-- The context is finished with `fatal_error`. -/
def Outcome.IsFinal (ctx : EvalContext) (o : Outcome) : Prop :=
  ∃ K, o = .finished { ctx with K := K, done := true, r := encSym symreprFatalError }

theorem dispatch_pushSpec {frame : List UINT} {exp env : VALUE}
    (h : dispatch io ctx frame exp env st = (o, st', g)) :
    PushSpec io ctx.K (some (ctx.K, frame)) (Outcome.IsFinal ctx) o := by
  unfold dispatch at h
  refine pushSpec_some (fun K' hp => ?_) fun K' hp => ?_
  · rw [hp] at h
    cases h
    rfl
  · rw [hp] at h
    cases h
    exact ⟨K', rfl⟩

theorem evalDefine_pushSpec (h : evalDefine io ctx st = (o, st', g)) :
    PushSpec io ctx.K
      (let key := car st.heap (cdr st.heap ctx.currExp)
      if typeOf key != valTypeSymbol || key == NIL then none
      else some (ctx.K, [key, encU contSetGlobalEnv])) (Outcome.IsFinal ctx) o := by
  unfold evalDefine at h
  simp only at h ⊢
  split_ifs at h ⊢
  · cases h
    exact pushSpec_none rfl
  · exact dispatch_pushSpec h

theorem evalProgn_pushSpec (h : evalProgn io ctx st = (o, st', g)) :
    PushSpec io ctx.K
      (let rest := cdr st.heap ctx.currExp
      if typeOf rest == valTypeSymbol && rest == NIL then none
      else if symreprIsError rest then none
      else some (ctx.K, [ctx.currEnv, cdr st.heap rest, encU contPrognRest]))
      (Outcome.IsFinal ctx) o := by
  unfold evalProgn at h
  simp only at h ⊢
  split_ifs at h ⊢
  · cases h
    exact pushSpec_none rfl
  · cases h
    exact pushSpec_none rfl
  · exact dispatch_pushSpec h

theorem evalSpawn_pushSpec (h : evalSpawn io ctx st = (o, st', g)) :
    PushSpec io ctx.K
      (let rest := cdr st.heap ctx.currExp
      if typeOf rest == valTypeSymbol && rest == NIL then none
      else some (ctx.K, [ctx.currEnv, rest, encU contSpawnAll])) (Outcome.IsFinal ctx) o := by
  unfold evalSpawn at h
  simp only at h ⊢
  split_ifs at h ⊢
  · cases h
    exact pushSpec_none rfl
  · refine pushSpec_some (fun K' hp => ?_) fun K' hp => ?_
    · rw [hp] at h
      cases h
      rfl
    · rw [hp] at h
      cases h
      exact ⟨K', rfl⟩

theorem evalLambda_pushSpec (h : evalLambda ctx st = some (o, st', g)) :
    PushSpec io ctx.K none (Outcome.IsFinal ctx) o := by
  unfold evalLambda at h
  simp only [Option.bind_eq_bind] at h
  obtain ⟨⟨envCpy, heap⟩, hcopy, h⟩ := Option.bind_eq_some_iff.mp h
  simp only at h
  split_ifs at h <;> cases h <;> exact pushSpec_none rfl

theorem evalIf_pushSpec (h : evalIf io ctx st = (o, st', g)) :
    PushSpec io ctx.K
      (some (ctx.K, [car st.heap (cdr st.heap (cdr st.heap (cdr st.heap ctx.currExp))),
        car st.heap (cdr st.heap (cdr st.heap ctx.currExp)), encU contIf]))
      (Outcome.IsFinal ctx) o := by
  unfold evalIf at h
  exact dispatch_pushSpec h

theorem evalLet_pushSpec (h : evalLet io ctx st = some (o, st', g)) :
    PushSpec io ctx.K
      (let binds := car st.heap (cdr st.heap ctx.currExp)
      if typeOf binds != ptrTypeCons then none
      else do
        let ((newEnv, ok), h') ← letEnvLoop (walkFuel st.heap) binds ctx.currEnv st.heap
        if !ok then none
        else
          some (ctx.K, [car st.heap (cdr st.heap (cdr st.heap ctx.currExp)), cdr h' binds, newEnv,
            car h' (car h' binds), encU contBindToKeyRest])) (Outcome.IsFinal ctx) o := by
  unfold evalLet at h
  simp only at h ⊢
  refine pushSpec_ite h (fun h => ?_) fun h => ?_
  · cases h
    exact pushSpec_none rfl
  · simp only [Option.bind_eq_bind] at h ⊢
    obtain ⟨⟨⟨newEnv, ok⟩, heap⟩, hloop, h⟩ := Option.bind_eq_some_iff.mp h
    rw [hloop, Option.bind_some]
    refine pushSpec_ite h (fun h => ?_) fun h => dispatch_pushSpec (Option.some.inj h)
    cases h
    exact pushSpec_none rfl

theorem evalForm_pushSpec (h : evalForm io ctx st = some (o, st', g)) :
    PushSpec io ctx.K (formPushes ctx st) (Outcome.IsFinal ctx) o := by
  unfold evalForm at h
  unfold formPushes
  refine pushSpec_ite h (fun h => ?_) fun h => ?_
  · cases h
    exact pushSpec_none rfl
  refine pushSpec_ite h (fun h => evalDefine_pushSpec (Option.some.inj h)) fun h => ?_
  refine pushSpec_ite h (fun h => evalProgn_pushSpec (Option.some.inj h)) fun h => ?_
  refine pushSpec_ite h (fun h => evalSpawn_pushSpec (Option.some.inj h)) fun h => ?_
  refine pushSpec_ite h (fun h => evalLambda_pushSpec h) fun h => ?_
  refine pushSpec_ite h (fun h => evalIf_pushSpec (Option.some.inj h)) fun h => ?_
  exact pushSpec_ite h (fun h => evalLet_pushSpec h) fun h => dispatch_pushSpec (Option.some.inj h)

theorem evalSymbol_pushSpec (h : evalSymbol pf ctx st = some (o, st', g)) :
    PushSpec io ctx.K none (Outcome.IsFinal ctx) o := by
  unfold evalSymbol at h
  split_ifs at h
  · cases h
    exact pushSpec_none rfl
  · simp only [Option.bind_eq_bind] at h
    obtain ⟨value, -, h⟩ := Option.bind_eq_some_iff.mp h
    split_ifs at h
    · obtain ⟨value, -, h⟩ := Option.bind_eq_some_iff.mp h
      cases h
      exact pushSpec_none rfl
    · cases h
      exact pushSpec_none rfl

/-- A failed push in the evaluation of an expression finishes the context. -/
theorem evalExp_pushSpec (hcont : ctx.appCont = false)
    (h : evalExp pf io ctx st = some (o, st', g)) :
    PushSpec io ctx.K (stepPushes pf ctx st) (Outcome.IsFinal ctx) o := by
  have hpushes : stepPushes pf ctx st
      = if typeOf ctx.currExp == ptrTypeCons then formPushes ctx st else none := by
    simp [stepPushes, hcont]
  rw [hpushes]
  unfold evalExp at h
  by_cases hcons : typeOf ctx.currExp = ptrTypeCons
  · rw [if_pos (by simp [hcons])]
    simp only [hcons] at h
    exact evalForm_pushSpec h
  · rw [if_neg (by simp [hcons])]
    simp only at h
    split_ifs at h with h₁ h₂ h₃ h₄
    · exact evalSymbol_pushSpec h
    · cases h
      exact pushSpec_none rfl
    · cases h
      exact pushSpec_none rfl
    · exact absurd (beq_iff_eq.mp h₄) hcons
    · cases h
      exact pushSpec_none rfl
end

end LispBM
