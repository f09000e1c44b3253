import LispBM.EvalCps.Overflow

/-!
# LispBM — what a step does to the other contexts

Two continuations look at the contexts in the queue and on the done list: `SPAWN_ALL` creates a
context, and `WAIT` takes a result. Every other step leaves them alone and does not depend on
them (`Apart`), provided that the extension functions do (`ExtensionsApart`).
-/

namespace LispBM

/-- The globals, with other contexts. -/
abbrev Store.withContexts (st : Store) (queue done : List EvalContext) (next : UINT) : Store :=
  { st with ctxQueue := queue, ctxDone := done, nextCtxId := next }

def StepResult.withContexts (res : StepResult) (queue done : List EvalContext) (next : UINT) :
    StepResult :=
  (res.1, res.2.1.withContexts queue done next, res.2.2)

/-- A step that neither reads nor changes the other contexts. -/
def Apart (F : Store → Option StepResult) : Prop :=
  ∀ st queue done next, F (st.withContexts queue done next)
    = (F st).map fun res => StepResult.withContexts res queue done next

/-- Extension functions neither read nor change contexts. -/
def ExtensionsApart (pf : Platform) : Prop :=
  ∀ name f, pf.extensionsLookup name = some f → ∀ args n st queue done next,
    f args n (st.withContexts queue done next)
      = ((f args n st).1, (f args n st).2.withContexts queue done next)

section

variable {pf : Platform} {io : Outside} {ctx : EvalContext} {st : Store}
  {queue done : List EvalContext} {next : UINT}

/-! ## Expressions -/

theorem dispatch_apart {frame : List UINT} {exp env : VALUE} :
    dispatch io ctx frame exp env (st.withContexts queue done next)
      = (dispatch io ctx frame exp env st).withContexts queue done next := by
  unfold dispatch
  split <;> rfl

theorem evalSymbol_apart : Apart (evalSymbol pf ctx) := by
  intro st queue done next
  unfold evalSymbol
  split
  · rfl
  · simp only [Option.bind_eq_bind]
    cases envLookup st.heap ctx.currExp ctx.currEnv with
    | none => rfl
    | some value =>
      simp only [Option.bind_some]
      split
      · cases envLookup st.heap ctx.currExp st.envGlobal <;> rfl
      · rfl

theorem evalLambda_apart : Apart (evalLambda ctx) := by
  intro st queue done next
  unfold evalLambda
  simp only [Option.bind_eq_bind]
  cases envCopyShallow ctx.currEnv st.heap with
  | none => rfl
  | some res =>
    simp only [Option.bind_some]
    split
    · rfl
    · split <;> rfl

theorem evalLet_apart : Apart (evalLet io ctx) := by
  intro st queue done next
  unfold evalLet
  simp only [Option.bind_eq_bind]
  cases hbinds : typeOf (car st.heap (cdr st.heap ctx.currExp)) != ptrTypeCons with
  | true => rfl
  | false =>
    simp only [Bool.false_eq_true, if_false]
    cases letEnvLoop (walkFuel st.heap) (car st.heap (cdr st.heap ctx.currExp)) ctx.currEnv
      st.heap with
    | none => rfl
    | some res =>
      simp only [Option.bind_some]
      split
      · rfl
      · exact congrArg some (@dispatch_apart _ _ { st with heap := res.2 } _ _ _ _ _ _)

theorem evalForm_apart : Apart (evalForm io ctx) := by
  intro st queue done next
  unfold evalForm
  simp only
  split
  · rfl
  split
  · unfold evalDefine
    simp only
    split
    · rfl
    · exact congrArg some dispatch_apart
  split
  · unfold evalProgn
    simp only
    split
    · rfl
    split
    · rfl
    · exact congrArg some dispatch_apart
  split
  · unfold evalSpawn
    simp only
    split
    · rfl
    · split <;> rfl
  split
  · exact evalLambda_apart st queue done next
  split
  · exact congrArg some dispatch_apart
  split
  · exact evalLet_apart st queue done next
  · exact congrArg some dispatch_apart

/-- Evaluating an expression has nothing to do with other contexts. -/
theorem evalExp_apart : Apart (evalExp pf io ctx) := by
  intro st queue done next
  unfold evalExp
  simp only
  split
  · exact evalSymbol_apart st queue done next
  split
  · rfl
  split
  · rfl
  split
  · exact evalForm_apart st queue done next
  · rfl

/-! ## Continuations -/

theorem advanceCtx_apart :
    advanceCtx io ctx (st.withContexts queue done next)
      = (advanceCtx io ctx st).withContexts queue done next := by
  unfold advanceCtx
  split <;> rfl

theorem contSetGlobalEnvCase_apart : Apart (contSetGlobalEnvCase io ctx) := by
  intro st queue done next
  unfold contSetGlobalEnvCase
  simp only [Option.bind_eq_bind]
  cases popU32 ctx.K with
  | none => rfl
  | some popped =>
    simp only [Option.bind_some]
    cases envSet st.envGlobal popped.1 ctx.r st.heap with
    | none => rfl
    | some res =>
      simp only [Option.bind_some]
      split
      · split <;> rfl
      · split <;> rfl

theorem contPrognRestCase_apart : Apart (contPrognRestCase io ctx) := by
  intro st queue done next
  unfold contPrognRestCase
  simp only [Option.bind_eq_bind]
  cases popU32 ctx.K with
  | none => rfl
  | some popped =>
    simp only [Option.bind_some]
    cases popU32 popped.2 with
    | none => rfl
    | some popped' =>
      simp only [Option.bind_some]
      split
      · rfl
      split
      · rfl
      split
      · rfl
      · split <;> rfl

theorem waitYield_apart {cid : CID} :
    waitYield io ctx cid (st.withContexts queue done next)
      = (waitYield io ctx cid st).withContexts queue done next := by
  unfold waitYield
  split <;> rfl

theorem evalOperand_apart {tag : UINT} {env rest : VALUE} :
    evalOperand io ctx tag env rest (st.withContexts queue done next)
      = (evalOperand io ctx tag env rest st).withContexts queue done next := by
  unfold evalOperand
  simp only
  split <;> rfl

theorem contAndCase_apart : Apart (contAndCase io ctx) := by
  intro st queue done next
  unfold contAndCase
  simp only [Option.bind_eq_bind]
  cases popU32 ctx.K with
  | none => rfl
  | some popped =>
    simp only [Option.bind_some]
    cases popU32 popped.2 with
    | none => rfl
    | some popped' =>
      simp only [Option.bind_some]
      split
      · rfl
      split
      · rfl
      · exact congrArg some evalOperand_apart

theorem contOrCase_apart : Apart (contOrCase io ctx) := by
  intro st queue done next
  unfold contOrCase
  simp only [Option.bind_eq_bind]
  cases popU32 ctx.K with
  | none => rfl
  | some popped =>
    simp only [Option.bind_some]
    cases popU32 popped.2 with
    | none => rfl
    | some popped' =>
      simp only [Option.bind_some]
      split
      · rfl
      split
      · rfl
      · exact congrArg some evalOperand_apart

theorem applicationArg_apart {arg env count rest : VALUE} :
    applicationArg io ctx arg env count rest (st.withContexts queue done next)
      = (applicationArg io ctx arg env count rest st).withContexts queue done next := by
  unfold applicationArg
  split
  · rfl
  · split
    · split <;> rfl
    · simp only
      split <;> rfl

theorem contApplicationArgsCase_apart : Apart (contApplicationArgsCase io ctx) := by
  intro st queue done next
  unfold contApplicationArgsCase
  simp only [Option.bind_eq_bind]
  cases popU32 ctx.K with
  | none => rfl
  | some popped =>
    simp only [Option.bind_some]
    cases popU32 popped.2 with
    | none => rfl
    | some popped₂ =>
      simp only [Option.bind_some]
      cases popU32 popped₂.2 with
      | none => rfl
      | some popped₃ =>
        simp only [Option.bind_some]
        split
        · split
          · rfl
          · exact congrArg some evalOperand_apart
        split
        · split
          · rfl
          · exact congrArg some evalOperand_apart
        · exact congrArg some applicationArg_apart

theorem contBindToKeyRestCase_apart : Apart (contBindToKeyRestCase io ctx) := by
  intro st queue done next
  unfold contBindToKeyRestCase
  simp only [Option.bind_eq_bind]
  cases popU32 ctx.K with
  | none => rfl
  | some popped =>
    simp only [Option.bind_some]
    cases popU32 popped.2 with
    | none => rfl
    | some popped₂ =>
      simp only [Option.bind_some]
      cases popU32 popped₂.2 with
      | none => rfl
      | some popped₃ =>
        simp only [Option.bind_some]
        cases envModifyBinding popped₂.1 popped.1 ctx.r st.heap with
        | none => rfl
        | some res =>
          simp only [Option.bind_some]
          split
          · split <;> rfl
          · cases popU32 popped₃.2 <;> rfl

theorem contIfCase_apart : Apart (contIfCase ctx) := by
  intro st queue done next
  unfold contIfCase
  simp only [Option.bind_eq_bind]
  cases popU32 ctx.K with
  | none => rfl
  | some popped =>
    simp only [Option.bind_some]
    cases popU32 popped.2 with
    | none => rfl
    | some popped' =>
      simp only [Option.bind_some]
      split <;> rfl

theorem retryApplication_apart {count funWord : VALUE} :
    retryApplication io ctx count funWord (st.withContexts queue done next)
      = (retryApplication io ctx count funWord st).withContexts queue done next := by
  unfold retryApplication
  split <;> rfl

theorem applyClosure_apart {count funWord : VALUE} {args : List VALUE} :
    Apart (applyClosure io ctx count funWord args) := by
  intro st queue done next
  unfold applyClosure
  simp only [Option.bind_eq_bind]
  split
  · exact congrArg some (@retryApplication_apart _ _ { st with heap := _ } _ _ _ _ _)
  · cases length (consAll args.reverse NIL st.heap).2
        (car (consAll args.reverse NIL st.heap).2
          (cdr (consAll args.reverse NIL st.heap).2 funWord)) with
    | none => rfl
    | some np =>
      simp only [Option.bind_some]
      cases length (consAll args.reverse NIL st.heap).2 (consAll args.reverse NIL st.heap).1 with
      | none => rfl
      | some na =>
        simp only [Option.bind_some]
        split
        · rfl
        · generalize envBuildParamsArgs _ _ _ _ = built
          cases built with
          | none => rfl
          | some res =>
            simp only [Option.bind_some]
            split
            · exact congrArg some (@retryApplication_apart _ _ { st with heap := _ } _ _ _ _ _)
            · split <;> rfl

theorem applyFundamental_apart {count funWord : VALUE} {args : List VALUE} :
    Apart (applyFundamental pf io ctx count funWord args) := by
  intro st queue done next
  unfold applyFundamental
  simp only [Option.bind_eq_bind]
  cases fundamentalExec pf.floats args (decU count) funWord st.symbols st.heap with
  | none => rfl
  | some res =>
    simp only [Option.bind_some]
    split
    · rfl
    split
    · exact congrArg some (@retryApplication_apart _ _ { st with heap := _, symbols := _ } _ _ _ _
      _)
    · rfl

theorem applyExtension_apart (hext : ExtensionsApart pf) {count funWord : VALUE}
    {args : List VALUE} :
    applyExtension pf io ctx count funWord args (st.withContexts queue done next)
      = (applyExtension pf io ctx count funWord args st).withContexts queue done next := by
  unfold applyExtension
  split
  · rfl
  · next f hf =>
    have happly := hext _ f hf args (decU count) st queue done next
    simp only [happly]
    split
    · exact retryApplication_apart
    · rfl

theorem contApplicationCase_apart (hext : ExtensionsApart pf) :
    Apart (contApplicationCase pf io ctx) := by
  intro st queue done next
  unfold contApplicationCase
  simp only [Option.bind_eq_bind]
  cases popU32 ctx.K with
  | none => rfl
  | some popped =>
    simp only [Option.bind_some]
    cases stackPtr popped.2 ((decU popped.1).toNat + 1) with
    | none => rfl
    | some base =>
      simp only [Option.bind_some]
      split
      · exact applyClosure_apart st queue done next
      split
      · split <;> rfl
      split
      · split
        · exact congrArg some waitYield_apart
        · rfl
      split
      · rfl
      split
      · exact applyFundamental_apart st queue done next
      · exact congrArg some (applyExtension_apart hext)

/-! ## What a step does -/

/-- The contexts in the queue and on the done list stay, and so does the next id. -/
structure KeepsContexts (st st' : Store) : Prop where
  queue : st'.ctxQueue = st.ctxQueue
  done : st'.ctxDone = st.ctxDone
  next : st'.nextCtxId = st.nextCtxId

theorem Apart.keeps {F : Store → Option StepResult} (hF : Apart F) {o : Outcome} {st' : Store}
    {g : Bool} (h : F st = some (o, st', g)) : KeepsContexts st st' := by
  -- putting the contexts of `st` into `st` changes nothing
  have hsame := hF st st.ctxQueue st.ctxDone st.nextCtxId
  have hst : F (st.withContexts st.ctxQueue st.ctxDone st.nextCtxId) = some (o, st', g) := h
  rw [hst] at hsame
  have hst' : st' = st'.withContexts st.ctxQueue st.ctxDone st.nextCtxId :=
    congrArg (fun res : StepResult => res.2.1) (Option.some.inj hsame)
  exact ⟨by rw [hst'], by rw [hst'], by rw [hst']⟩

/-- The stack of a new context, with its `DONE` frame. -/
def newStack (io : Outside) (stackSize : StackSize) (growStack : Bool) : Option Stack :=
  (stackAllocate io.malloc stackSize growStack).bind fun K =>
    match pushU32 io.malloc K (encU contDone) with
    | (false, _) => none
    | (true, K) => some K

/-- The context that `create_ctx` puts into the queue. -/
def newCtx (io : Outside) (program env : VALUE) (K : Stack) (st : Store) : EvalContext where
  program := cdr st.heap program
  currExp := car st.heap program
  currEnv := env
  r := io.uninitR
  done := false
  appCont := false
  K := K
  timestamp := 0#32
  sleepUs := 0#32
  id := st.nextCtxId.setWidth 16

/-- Whether `create_ctx` gets as far as to use up an id. -/
def usesId (io : Outside) (program : VALUE) (st : Store) : Bool :=
  st.nextCtxId != 0#32 && typeOf program == ptrTypeCons && io.mallocCtx

/-- Whether `create_ctx` puts a context into the queue. -/
def canCreate (io : Outside) (program : VALUE) (stackSize : StackSize) (growStack : Bool)
    (st : Store) : Bool :=
  usesId io program st && (newStack io stackSize growStack).isSome

theorem createCtx_eq {program env : VALUE} {stackSize : StackSize} {growStack : Bool} :
    createCtx io program env stackSize growStack st
      = if usesId io program st then
          match newStack io stackSize growStack with
          | none => (0#16, { st with nextCtxId := st.nextCtxId + 1#32 })
          | some K =>
              (st.nextCtxId.setWidth 16,
                { st with
                  nextCtxId := st.nextCtxId + 1#32
                  ctxQueue := st.ctxQueue ++ [newCtx io program env K st] })
        else (0#16, st) := by
  unfold createCtx usesId newStack
  by_cases hnext : st.nextCtxId = 0#32
  · simp [hnext]
  by_cases hty : typeOf program = ptrTypeCons
  swap
  · simp [hnext, hty]
  cases hmalloc : io.mallocCtx with
  | false => simp [hnext, hty]
  | true =>
    simp only [hnext, hty, bne_self_eq_false, Bool.not_true, Bool.false_eq_true, if_false,
      bne_iff_ne, ne_eq, not_false_eq_true, beq_self_eq_true, if_true, Bool.and_true]
    cases stackAllocate io.malloc stackSize growStack with
    | none => rfl
    | some K =>
      simp only [Option.bind_some]
      rcases pushU32 io.malloc K (encU contDone) with ⟨ok, K'⟩
      cases ok <;> rfl

/-- `create_ctx` when it fails. -/
theorem createCtx_of_not {program env : VALUE} {stackSize : StackSize} {growStack : Bool}
    (h : canCreate io program stackSize growStack st = false) :
    (createCtx io program env stackSize growStack st).1 = 0#16
      ∧ ∃ next, (next = st.nextCtxId ∨ st.nextCtxId ≠ 0#32 ∧ next = st.nextCtxId + 1#32)
        ∧ (createCtx io program env stackSize growStack st).2 = { st with nextCtxId := next } := by
  rw [createCtx_eq]
  cases huses : usesId io program st with
  | false => exact ⟨rfl, st.nextCtxId, Or.inl rfl, rfl⟩
  | true =>
    have hnext : st.nextCtxId ≠ 0#32 := by
      simp only [usesId, Bool.and_eq_true, bne_iff_ne] at huses
      exact huses.1.1
    cases hK : newStack io stackSize growStack with
    | none => exact ⟨rfl, _, Or.inr ⟨hnext, rfl⟩, rfl⟩
    | some K => simp [canCreate, huses, hK] at h

/-- `create_ctx` when it succeeds. -/
theorem createCtx_of_canCreate {program env : VALUE} {stackSize : StackSize} {growStack : Bool}
    (h : canCreate io program stackSize growStack st = true) :
    st.nextCtxId ≠ 0#32 ∧ ∃ K, createCtx io program env stackSize growStack st
      = (st.nextCtxId.setWidth 16,
          { st with
            nextCtxId := st.nextCtxId + 1#32
            ctxQueue := st.ctxQueue ++ [newCtx io program env K st] }) := by
  simp only [canCreate, Bool.and_eq_true] at h
  obtain ⟨huses, hK⟩ := h
  obtain ⟨K, hK⟩ := Option.isSome_iff_exists.mp hK
  refine ⟨?_, K, by rw [createCtx_eq, if_pos huses, hK]⟩
  simp only [usesId, Bool.and_eq_true, bne_iff_ne] at huses
  exact huses.1.1

/-- The program for which a step of `ctx` calls `create_ctx`: the first one in a `SPAWN_ALL` frame,
if there is a cell for the id. -/
def spawnProgram (ctx : EvalContext) (st : Store) : Option VALUE := do
  let (k, K) ← popU32 ctx.K
  let (rest, _) ← popU32 K
  if ctx.appCont && decU k == contSpawnAll && !(typeOf rest == valTypeSymbol && rest == NIL)
      && typeOf (cons (encI st.nextCtxId) ctx.r st.heap).1 != valTypeSymbol then
    some (car (cons (encI st.nextCtxId) ctx.r st.heap).2 rest)
  else none

/-- What a step can do to the other contexts. -/
inductive CtxEffect (io : Outside) (ctx : EvalContext) (st st' : Store) : Prop where
  | keeps (h : KeepsContexts st st')
  /-- `WAIT` took a result. -/
  | takes (cid : CID) (v : VALUE) (hdone : removeDoneCtx cid st.ctxDone = some (v, st'.ctxDone))
      (hqueue : st'.ctxQueue = st.ctxQueue) (hnext : st'.nextCtxId = st.nextCtxId)
  /-- `SPAWN_ALL` had a cell, and called `create_ctx` for the first program. -/
  | spawns (program env : VALUE) (hprogram : spawnProgram ctx st = some program)
      (h : st' = (createCtx io program env evalCpsDefaultStackSize evalCpsDefaultStackGrowPolicy
        { st with heap := (cons (encI st.nextCtxId) ctx.r st.heap).2 }).2)

theorem contWaitCase_effect {o : Outcome} {st' : Store} {g : Bool}
    (h : contWaitCase io ctx st = some (o, st', g)) {c : EvalContext} : CtxEffect io c st st' := by
  unfold contWaitCase at h
  simp only [Option.bind_eq_bind, Option.bind_eq_some_iff, Prod.exists] at h
  obtain ⟨cidVal, K, -, h⟩ := h
  split at h
  · next r ctxDone hdone =>
    cases h
    exact .takes _ _ hdone rfl rfl
  · have hwait : Apart fun st =>
        some (waitYield io { ctx with K := K } ((decU cidVal).setWidth 16) st) :=
      fun st queue done next => congrArg some waitYield_apart
    exact .keeps (hwait.keeps h)

theorem contSpawnAllCase_effect {o : Outcome} {st' : Store} {g : Bool} {k : UINT} {K : Stack}
    (hpop : popU32 ctx.K = some (k, K)) (ha : ctx.appCont = true) (hk : decU k = contSpawnAll)
    (h : contSpawnAllCase io { ctx with K := K, appCont := false } st = some (o, st', g)) :
    CtxEffect io ctx st st' := by
  unfold contSpawnAllCase at h
  simp only [Option.bind_eq_bind, Option.bind_eq_some_iff, Prod.exists] at h
  obtain ⟨rest, K₁, hrest, env, K₂, -, h⟩ := h
  split at h
  · cases h
    exact .keeps ⟨rfl, rfl, rfl⟩
  next hnil =>
  split at h
  · split at h
    all_goals cases h; exact .keeps ⟨rfl, rfl, rfl⟩
  next hcell =>
  have hprogram : spawnProgram ctx st
      = some (car (cons (encI st.nextCtxId) ctx.r st.heap).2 rest) := by
    simp only [spawnProgram, hpop, hrest, Option.bind_eq_bind, Option.bind_some, ha, hk]
    rw [if_pos]
    simp only [beq_iff_eq] at hcell
    simp [hnil, hcell]
  unfold spawnFirst at h
  simp only at h
  split at h
  all_goals cases h; exact .spawns _ _ hprogram rfl

theorem extensionsKeepOut (hext : ExtensionsApart pf) (i : CID) : ExtensionsKeepOut pf i := by
  intro name f hf args n st c' hc' hi
  have hsame := hext name f hf args n st st.ctxQueue st.ctxDone st.nextCtxId
  have hst : f args n (st.withContexts st.ctxQueue st.ctxDone st.nextCtxId) = f args n st := rfl
  have hqueue : (f args n st).2.ctxQueue = st.ctxQueue :=
    congrArg (fun res => res.2.ctxQueue) (hst.symm.trans hsame)
  rw [hqueue] at hc'
  exact ⟨c', hc', hi⟩

/-- **What a step does to the contexts.** -/
theorem stepCtx_effect (hext : ExtensionsApart pf) {o : Outcome} {st' : Store} {g : Bool}
    (h : stepCtx pf io ctx st = some (o, st', g)) :
    o.ctx.id = ctx.id ∧ CtxEffect io ctx st st' := by
  constructor
  · -- any id but the next one will do
    have hne : st.nextCtxId.setWidth 16 ≠ st.nextCtxId.setWidth 16 + 1#16 := by bv_omega
    exact (stepCtx_keepsOut (extensionsKeepOut hext _) hne h).id
  unfold stepCtx at h
  split at h
  · next ha =>
    unfold applyContinuation at h
    simp only [Option.bind_eq_bind, Option.bind_eq_some_iff, Prod.exists] at h
    obtain ⟨k, K, hpop, h⟩ := h
    have hadvance : Apart fun st => some (advanceCtx io { ctx with K := K, appCont := false } st) :=
      fun st queue done next => congrArg some advanceCtx_apart
    unfold contSwitch at h
    refine of_ite_eq h (fun _ h => .keeps (hadvance.keeps h)) fun h => ?_
    refine of_ite_eq h (fun _ h => .keeps (contSetGlobalEnvCase_apart.keeps h)) fun h => ?_
    refine of_ite_eq h (fun _ h => .keeps (contPrognRestCase_apart.keeps h)) fun h => ?_
    refine of_ite_eq h (fun hk h => contSpawnAllCase_effect hpop ha (by simpa using hk) h)
      fun h => ?_
    refine of_ite_eq h (fun _ h => contWaitCase_effect h) fun h => ?_
    refine of_ite_eq h (fun _ h => .keeps ((contApplicationCase_apart hext).keeps h)) fun h => ?_
    refine of_ite_eq h (fun _ h => .keeps (contAndCase_apart.keeps h)) fun h => ?_
    refine of_ite_eq h (fun _ h => .keeps (contOrCase_apart.keeps h)) fun h => ?_
    refine of_ite_eq h (fun _ h => .keeps (contApplicationArgsCase_apart.keeps h)) fun h => ?_
    refine of_ite_eq h (fun _ h => .keeps (contBindToKeyRestCase_apart.keeps h)) fun h => ?_
    refine of_ite_eq h (fun _ h => .keeps (contIfCase_apart.keeps h)) fun h => ?_
    cases h
    exact .keeps ⟨rfl, rfl, rfl⟩
  · exact .keeps (evalExp_apart.keeps h)

end

/-! ## Runs with a host -/

/-- What the host thread does between iterations, and an iteration of the evaluator. -/
inductive Action where
  /-- `create_ctx`, also through `eval_cps_program` and `eval_cps_program_ext` -/
  | create (io : Outside) (program env : VALUE) (stackSize : StackSize) (growStack : Bool)
  /-- `eval_cps_remove_done_ctx` -/
  | remove (cid : CID)
  /-- `cons`, to build a program -/
  | alloc (a d : VALUE)
  | iterate (io : Outside)

def Action.exec (pf : Platform) : Action → EvalState → GcFlags → Option (EvalState × GcFlags)
  | .create io program env stackSize growStack, s, flags =>
      some ({ (createCtx io program env stackSize growStack s.toStore).2 with
        ctxRunning := s.ctxRunning }, flags)
  | .remove cid, s, flags =>
      match removeDoneCtx cid s.ctxDone with
      | none => some (s, flags)
      | some (_, done) => some ({ s with ctxDone := done }, flags)
  | .alloc a d, s, flags => some ({ s with heap := (cons a d s.heap).2 }, flags)
  | .iterate io, s, flags => runEvalIteration pf io s flags

/-- A run that begins with no contexts, on any heap. -/
structure HostRun (pf : Platform) where
  len : Nat
  act : Nat → Action
  state : Nat → EvalState
  flags : Nat → GcFlags
  start : flags 0 = ⟨false, false⟩ ∧ (state 0).ctxQueue = [] ∧ (state 0).ctxDone = []
    ∧ (state 0).ctxRunning = none ∧ (state 0).nextCtxId = 1#32
  step : ∀ n, n < len → (act n).exec pf (state n) (flags n) = some (state (n + 1), flags (n + 1))

/-- All contexts there are. -/
def EvalState.contexts (s : EvalState) : List EvalContext :=
  s.ctxRunning.toList ++ s.ctxQueue ++ s.ctxDone

end LispBM
