import LispBM.EvalCps.Pushes

/-!
# LispBM — continuation stacks that overflow

A context whose stack overflows should end with `fatal_error`. After `FATAL_ON_FAIL` it does not:
the loop of `eval_cps_run_eval` looks only at `ctx_running`, where the context still is, and goes
on with it, without the frame that was lost.

* `overflowFinal_iff` — in every run, a step in which a push fails ends its context with
  `fatal_error` and for good exactly if the step evaluates an expression;
* `not_overflowFinal_sumOfTwo` — a continuation that overflows, and the result that its context
  gets after it.
-/

namespace LispBM

section

variable {pf : Platform} {io : Outside} {ctx : EvalContext} {st st' : Store} {o : Outcome}
  {g : Bool}

/-! ## The other contexts -/

/-- A step does not put contexts with the id `i` into the queue. -/
structure KeepsOut (i : CID) (ctx : EvalContext) (st : Store) (o : Outcome) (st' : Store) :
    Prop where
  id : o.ctx.id = ctx.id
  queue : ∀ c' ∈ st'.ctxQueue, c'.id = i → ∃ c ∈ st.ctxQueue, c.id = i

theorem keepsOut_of_eq {i : CID} (hid : o.ctx.id = ctx.id) (hqueue : st'.ctxQueue = st.ctxQueue) :
    KeepsOut i ctx st o st' :=
  ⟨hid, fun c' hc' hi => ⟨c', hqueue ▸ hc', hi⟩⟩

theorem dispatch_keeps {frame : List UINT} {exp env : VALUE}
    (h : dispatch io ctx frame exp env st = (o, st', g)) :
    o.ctx.id = ctx.id ∧ st'.ctxQueue = st.ctxQueue ∧ st'.ctxDone = st.ctxDone := by
  unfold dispatch at h
  split at h
  all_goals cases h; exact ⟨rfl, rfl, rfl⟩

theorem evalForm_keeps (h : evalForm io ctx st = some (o, st', g)) :
    o.ctx.id = ctx.id ∧ st'.ctxQueue = st.ctxQueue ∧ st'.ctxDone = st.ctxDone := by
  unfold evalForm at h
  simp only at h
  split at h
  · cases h
    exact ⟨rfl, rfl, rfl⟩
  split at h
  · unfold evalDefine at h
    simp only at h
    split at h
    · cases h
      exact ⟨rfl, rfl, rfl⟩
    · exact dispatch_keeps (Option.some.inj h)
  split at h
  · unfold evalProgn at h
    simp only at h
    split at h
    · cases h
      exact ⟨rfl, rfl, rfl⟩
    split at h
    · cases h
      exact ⟨rfl, rfl, rfl⟩
    · exact dispatch_keeps (Option.some.inj h)
  split at h
  · unfold evalSpawn at h
    simp only at h
    split at h
    · cases h
      exact ⟨rfl, rfl, rfl⟩
    split at h
    all_goals cases h; exact ⟨rfl, rfl, rfl⟩
  split at h
  · unfold evalLambda at h
    simp only [Option.bind_eq_bind] at h
    obtain ⟨⟨envCpy, heap⟩, -, h⟩ := Option.bind_eq_some_iff.mp h
    simp only at h
    split at h
    · cases h
      exact ⟨rfl, rfl, rfl⟩
    split at h
    all_goals cases h; exact ⟨rfl, rfl, rfl⟩
  split at h
  · exact dispatch_keeps (Option.some.inj h)
  split at h
  · unfold evalLet at h
    simp only [Option.bind_eq_bind] at h
    split at h
    · cases h
      exact ⟨rfl, rfl, rfl⟩
    obtain ⟨⟨⟨newEnv, ok⟩, heap⟩, -, h⟩ := Option.bind_eq_some_iff.mp h
    simp only at h
    split at h
    · cases h
      exact ⟨rfl, rfl, rfl⟩
    · have hkeeps := dispatch_keeps (Option.some.inj h)
      exact hkeeps
  · exact dispatch_keeps (Option.some.inj h)

/-- A step that evaluates an expression changes neither the queue nor the done list. -/
theorem evalExp_keeps (h : evalExp pf io ctx st = some (o, st', g)) :
    o.ctx.id = ctx.id ∧ st'.ctxQueue = st.ctxQueue ∧ st'.ctxDone = st.ctxDone := by
  unfold evalExp at h
  simp only at h
  split at h
  · unfold evalSymbol at h
    split at h
    · cases h
      exact ⟨rfl, rfl, rfl⟩
    · simp only [Option.bind_eq_bind] at h
      obtain ⟨value, -, h⟩ := Option.bind_eq_some_iff.mp h
      split at h
      · obtain ⟨value, -, h⟩ := Option.bind_eq_some_iff.mp h
        cases h
        exact ⟨rfl, rfl, rfl⟩
      · cases h
        exact ⟨rfl, rfl, rfl⟩
  split at h
  · cases h
    exact ⟨rfl, rfl, rfl⟩
  split at h
  · cases h
    exact ⟨rfl, rfl, rfl⟩
  split at h
  · exact evalForm_keeps h
  · cases h
    exact ⟨rfl, rfl, rfl⟩

theorem id_yieldCtx (ctx : EvalContext) (us : UINT) : (yieldCtx io ctx us).ctx.id = ctx.id := by
  unfold yieldCtx
  cases io.timestampUs <;> rfl

theorem contSetGlobalEnv_keeps (h : contSetGlobalEnvCase io ctx st = some (o, st', g)) :
    o.ctx.id = ctx.id ∧ st'.ctxQueue = st.ctxQueue := by
  unfold contSetGlobalEnvCase at h
  simp only [Option.bind_eq_bind, Option.bind_eq_some_iff, Prod.exists] at h
  obtain ⟨key, K, -, newEnv, heap, -, h⟩ := h
  repeat' split at h
  all_goals cases h; exact ⟨rfl, rfl⟩

theorem contPrognRest_keeps (h : contPrognRestCase io ctx st = some (o, st', g)) :
    o.ctx.id = ctx.id ∧ st'.ctxQueue = st.ctxQueue := by
  unfold contPrognRestCase at h
  simp only [Option.bind_eq_bind, Option.bind_eq_some_iff, Prod.exists] at h
  obtain ⟨rest, K₁, -, env, K₂, -, h⟩ := h
  repeat' split at h
  all_goals cases h; exact ⟨rfl, rfl⟩

theorem waitYield_keeps {cid : CID} (h : waitYield io ctx cid st = (o, st', g)) :
    o.ctx.id = ctx.id ∧ st'.ctxQueue = st.ctxQueue := by
  unfold waitYield at h
  split at h
  · cases h
    exact ⟨rfl, rfl⟩
  · cases h
    exact ⟨id_yieldCtx _ _, rfl⟩

theorem contWait_keeps (h : contWaitCase io ctx st = some (o, st', g)) :
    o.ctx.id = ctx.id ∧ st'.ctxQueue = st.ctxQueue := by
  unfold contWaitCase at h
  simp only [Option.bind_eq_bind, Option.bind_eq_some_iff, Prod.exists] at h
  obtain ⟨cidVal, K, -, h⟩ := h
  split at h
  · cases h
    exact ⟨rfl, rfl⟩
  · have hkeeps := waitYield_keeps (Option.some.inj h)
    exact hkeeps

theorem contAnd_keeps (h : contAndCase io ctx st = some (o, st', g)) :
    o.ctx.id = ctx.id ∧ st'.ctxQueue = st.ctxQueue := by
  unfold contAndCase evalOperand at h
  simp only [Option.bind_eq_bind, Option.bind_eq_some_iff, Prod.exists] at h
  obtain ⟨rest, K₁, -, env, K₂, -, h⟩ := h
  repeat' split at h
  all_goals cases h; exact ⟨rfl, rfl⟩

theorem contOr_keeps (h : contOrCase io ctx st = some (o, st', g)) :
    o.ctx.id = ctx.id ∧ st'.ctxQueue = st.ctxQueue := by
  unfold contOrCase evalOperand at h
  simp only [Option.bind_eq_bind, Option.bind_eq_some_iff, Prod.exists] at h
  obtain ⟨rest, K₁, -, env, K₂, -, h⟩ := h
  repeat' split at h
  all_goals cases h; exact ⟨rfl, rfl⟩

theorem contApplicationArgs_keeps (h : contApplicationArgsCase io ctx st = some (o, st', g)) :
    o.ctx.id = ctx.id ∧ st'.ctxQueue = st.ctxQueue := by
  unfold contApplicationArgsCase evalOperand applicationArg at h
  simp only [Option.bind_eq_bind, Option.bind_eq_some_iff, Prod.exists] at h
  obtain ⟨rest, K₁, -, count, K₂, -, env, K₃, -, h⟩ := h
  repeat' split at h
  all_goals cases h; exact ⟨rfl, rfl⟩

theorem contBindToKeyRest_keeps (h : contBindToKeyRestCase io ctx st = some (o, st', g)) :
    o.ctx.id = ctx.id ∧ st'.ctxQueue = st.ctxQueue := by
  unfold contBindToKeyRestCase at h
  simp only [Option.bind_eq_bind, Option.bind_eq_some_iff, Prod.exists] at h
  obtain ⟨key, K₁, -, env, K₂, -, rest, K₃, -, b, heap, -, h⟩ := h
  split at h
  · split at h
    all_goals cases h; exact ⟨rfl, rfl⟩
  · obtain ⟨⟨exp, K₄⟩, -, h⟩ := Option.bind_eq_some_iff.mp h
    cases h
    exact ⟨rfl, rfl⟩

theorem contIf_keeps (h : contIfCase ctx st = some (o, st', g)) :
    o.ctx.id = ctx.id ∧ st'.ctxQueue = st.ctxQueue := by
  unfold contIfCase at h
  simp only [Option.bind_eq_bind, Option.bind_eq_some_iff, Prod.exists] at h
  obtain ⟨thenBranch, K₁, -, elseBranch, K₂, -, h⟩ := h
  split at h
  all_goals cases h; exact ⟨rfl, rfl⟩

theorem advance_keeps (h : advanceCtx io ctx st = (o, st', g)) :
    o.ctx.id = ctx.id ∧ st'.ctxQueue = st.ctxQueue := by
  unfold advanceCtx at h
  split at h
  all_goals cases h; exact ⟨rfl, rfl⟩

theorem retryApplication_keeps {count funWord : VALUE}
    (h : retryApplication io ctx count funWord st = (o, st', g)) :
    o.ctx.id = ctx.id ∧ st'.ctxQueue = st.ctxQueue := by
  unfold retryApplication at h
  split at h
  all_goals cases h; exact ⟨rfl, rfl⟩

theorem applyClosure_keeps {count funWord : VALUE} {argWords : List VALUE}
    (h : applyClosure io ctx count funWord argWords st = some (o, st', g)) :
    o.ctx.id = ctx.id ∧ st'.ctxQueue = st.ctxQueue := by
  unfold applyClosure at h
  simp only [Option.bind_eq_bind] at h
  split at h
  · have hkeeps := retryApplication_keeps (Option.some.inj h)
    exact hkeeps
  · obtain ⟨np, -, h⟩ := Option.bind_eq_some_iff.mp h
    obtain ⟨na, -, h⟩ := Option.bind_eq_some_iff.mp h
    split at h
    · cases h
      exact ⟨rfl, rfl⟩
    · obtain ⟨⟨localEnv, heap⟩, -, h⟩ := Option.bind_eq_some_iff.mp h
      simp only at h
      split at h
      · have hkeeps := retryApplication_keeps (Option.some.inj h)
        exact hkeeps
      · split at h
        all_goals cases h; exact ⟨rfl, rfl⟩

theorem applyFundamental_keeps {count funWord : VALUE} {args : List VALUE}
    (h : applyFundamental pf io ctx count funWord args st = some (o, st', g)) :
    o.ctx.id = ctx.id ∧ st'.ctxQueue = st.ctxQueue := by
  unfold applyFundamental at h
  simp only [Option.bind_eq_bind] at h
  obtain ⟨⟨res, heap, symbols⟩, -, h⟩ := Option.bind_eq_some_iff.mp h
  simp only at h
  split at h
  · cases h
    exact ⟨rfl, rfl⟩
  · split at h
    · have hkeeps := retryApplication_keeps (Option.some.inj h)
      exact hkeeps
    · cases h
      exact ⟨rfl, rfl⟩

/-- Extension functions do not put a context with the id `i` into the queue. -/
def ExtensionsKeepOut (pf : Platform) (i : CID) : Prop :=
  ∀ name f, pf.extensionsLookup name = some f → ∀ args n st, ∀ c' ∈ (f args n st).2.ctxQueue,
    c'.id = i → ∃ c ∈ st.ctxQueue, c.id = i

theorem applyExtension_keepsOut {i : CID} {count funWord : VALUE} {args : List VALUE}
    (hext : ExtensionsKeepOut pf i)
    (h : applyExtension pf io ctx count funWord args st = (o, st', g)) :
    KeepsOut i ctx st o st' := by
  unfold applyExtension at h
  split at h
  · cases h
    exact keepsOut_of_eq rfl rfl
  · next f hf =>
    have hqueue := hext _ f hf args (decU count) st
    simp only at h
    split at h
    · obtain ⟨hid, heq⟩ := retryApplication_keeps h
      exact ⟨hid, heq ▸ hqueue⟩
    · cases h
      exact ⟨rfl, hqueue⟩

theorem contApplication_keepsOut {i : CID} (hext : ExtensionsKeepOut pf i)
    (h : contApplicationCase pf io ctx st = some (o, st', g)) : KeepsOut i ctx st o st' := by
  unfold contApplicationCase at h
  simp only [Option.bind_eq_bind, Option.bind_eq_some_iff, Prod.exists] at h
  obtain ⟨count, K, -, base, -, h⟩ := h
  split at h
  · have hkeeps := applyClosure_keeps h
    exact keepsOut_of_eq hkeeps.1 hkeeps.2
  split at h
  · split at h
    · cases h
      exact keepsOut_of_eq (id_yieldCtx _ _) rfl
    · cases h
      exact keepsOut_of_eq rfl rfl
  split at h
  · split at h
    · have hkeeps := waitYield_keeps (Option.some.inj h)
      exact keepsOut_of_eq hkeeps.1 hkeeps.2
    · cases h
      exact keepsOut_of_eq rfl rfl
  split at h
  · cases h
    exact keepsOut_of_eq rfl rfl
  split at h
  · have hkeeps := applyFundamental_keeps h
    exact keepsOut_of_eq hkeeps.1 hkeeps.2
  · have hkeeps := applyExtension_keepsOut hext (Option.some.inj h)
    exact ⟨hkeeps.id, hkeeps.queue⟩

/-- A new context has the next id. -/
theorem createCtx_queue {i : CID} {program env : VALUE} {stackSize : StackSize} {growStack : Bool}
    (hnext : st.nextCtxId.setWidth 16 ≠ i) :
    ∀ c' ∈ (createCtx io program env stackSize growStack st).2.ctxQueue,
      c'.id = i → ∃ c ∈ st.ctxQueue, c.id = i := by
  unfold createCtx
  intro c' hc' hi
  split at hc'
  · exact ⟨c', hc', hi⟩
  split at hc'
  · exact ⟨c', hc', hi⟩
  split at hc'
  · exact ⟨c', hc', hi⟩
  simp only at hc'
  split at hc'
  · exact ⟨c', hc', hi⟩
  split at hc'
  · exact ⟨c', hc', hi⟩
  · simp only [List.mem_append, List.mem_singleton] at hc'
    rcases hc' with hc' | rfl
    · exact ⟨c', hc', hi⟩
    · exact absurd hi hnext

theorem contSpawnAll_keepsOut {i : CID} (hnext : st.nextCtxId.setWidth 16 ≠ i)
    (h : contSpawnAllCase io ctx st = some (o, st', g)) : KeepsOut i ctx st o st' := by
  unfold contSpawnAllCase at h
  simp only [Option.bind_eq_bind, Option.bind_eq_some_iff, Prod.exists] at h
  obtain ⟨rest, K₁, -, env, K₂, -, h⟩ := h
  split at h
  · cases h
    exact keepsOut_of_eq rfl rfl
  split at h
  · split at h
    all_goals cases h; exact keepsOut_of_eq rfl rfl
  · unfold spawnFirst at h
    simp only at h
    have hqueue : ∀ program stackSize growStack,
        ∀ c' ∈ (createCtx io program env stackSize growStack
          { st with heap := (cons (encI st.nextCtxId) ctx.r st.heap).2 }).2.ctxQueue,
          c'.id = i → ∃ c ∈ st.ctxQueue, c.id = i := fun _ _ _ => createCtx_queue hnext
    split at h
    all_goals cases h; exact ⟨rfl, hqueue _ _ _⟩

theorem stepCtx_keepsOut {i : CID} (hext : ExtensionsKeepOut pf i)
    (hnext : st.nextCtxId.setWidth 16 ≠ i) (h : stepCtx pf io ctx st = some (o, st', g)) :
    KeepsOut i ctx st o st' := by
  unfold stepCtx at h
  split at h
  · unfold applyContinuation at h
    simp only [Option.bind_eq_bind, Option.bind_eq_some_iff, Prod.exists] at h
    obtain ⟨k, K, -, h⟩ := h
    suffices hkeeps : KeepsOut i { ctx with K := K, appCont := false } st o st' from
      ⟨hkeeps.id, hkeeps.queue⟩
    have of_eq : ∀ {c : EvalContext}, o.ctx.id = c.id ∧ st'.ctxQueue = st.ctxQueue →
        KeepsOut i c st o st' := fun hk => keepsOut_of_eq hk.1 hk.2
    unfold contSwitch at h
    refine of_ite_eq h (fun _ h => of_eq (advance_keeps (Option.some.inj h))) fun h => ?_
    refine of_ite_eq h (fun _ h => of_eq (contSetGlobalEnv_keeps h)) fun h => ?_
    refine of_ite_eq h (fun _ h => of_eq (contPrognRest_keeps h)) fun h => ?_
    refine of_ite_eq h (fun _ h => contSpawnAll_keepsOut hnext h) fun h => ?_
    refine of_ite_eq h (fun _ h => of_eq (contWait_keeps h)) fun h => ?_
    refine of_ite_eq h (fun _ h => contApplication_keepsOut hext h) fun h => ?_
    refine of_ite_eq h (fun _ h => of_eq (contAnd_keeps h)) fun h => ?_
    refine of_ite_eq h (fun _ h => of_eq (contOr_keeps h)) fun h => ?_
    refine of_ite_eq h (fun _ h => of_eq (contApplicationArgs_keeps h)) fun h => ?_
    refine of_ite_eq h (fun _ h => of_eq (contBindToKeyRest_keeps h)) fun h => ?_
    refine of_ite_eq h (fun _ h => of_eq (contIf_keeps h)) fun h => ?_
    cases h
    exact keepsOut_of_eq rfl rfl
  · obtain ⟨hid, hqueue, -⟩ := evalExp_keeps h
    exact keepsOut_of_eq hid hqueue

/-! ## Runs -/

/-- No context with the id `i` can be picked. -/
structure NoneWithId (i : CID) (s : EvalState) : Prop where
  queue : ∀ c ∈ s.ctxQueue, c.id ≠ i
  running : ∀ c, s.ctxRunning = some c → c.id ≠ i

theorem noneWithId_settle {i : CID} (hctx : ctx.id ≠ i) (hqueue : ∀ c ∈ st.ctxQueue, c.id ≠ i)
    (hkeeps : KeepsOut i ctx st o st') : NoneWithId i (o.settle st') := by
  have hid : o.ctx.id ≠ i := by
    rw [hkeeps.id]
    exact hctx
  have hqueue' : ∀ c ∈ st'.ctxQueue, c.id ≠ i := by
    intro c hc hi
    obtain ⟨c', hc', hi'⟩ := hkeeps.queue c hc hi
    exact hqueue c' hc' hi'
  cases o with
  | running c => exact ⟨hqueue', fun c' hc' => Option.some.inj hc' ▸ hid⟩
  | fatal c => exact ⟨hqueue', fun c' hc' => Option.some.inj hc' ▸ hid⟩
  | finished c => exact ⟨hqueue', fun c' hc' => absurd hc' (by simp [Outcome.settle])⟩
  | yielded c =>
    refine ⟨fun c' hc' => ?_, fun c' hc' => absurd hc' (by simp [Outcome.settle])⟩
    rcases List.mem_append.mp hc' with hc' | hc'
    · exact hqueue' c' hc'
    · rw [List.mem_singleton.mp hc']
      exact hid

theorem gcIfDue_keeps {flags : GcFlags} {st₁ : Store} (h : gcIfDue ctx st flags = some st₁) :
    st₁.ctxQueue = st.ctxQueue ∧ st₁.ctxDone = st.ctxDone ∧ st₁.nextCtxId = st.nextCtxId := by
  unfold gcIfDue gc at h
  split at h
  · obtain ⟨⟨oks, heap⟩, -, h⟩ := Option.map_eq_some_iff.mp h
    cases h
    exact ⟨rfl, rfl, rfl⟩
  · cases h
    exact ⟨rfl, rfl, rfl⟩

theorem evaluationStep_noneWithId {i : CID} {flags flags' : GcFlags} {s' : EvalState}
    (hext : ExtensionsKeepOut pf i) (hnext : st.nextCtxId.setWidth 16 ≠ i) (hctx : ctx.id ≠ i)
    (hqueue : ∀ c ∈ st.ctxQueue, c.id ≠ i)
    (h : evaluationStep pf io ctx st flags = some (s', flags')) : NoneWithId i s' := by
  cases hboth : (flags.performGc && flags.lastIterationGc) with
  | true =>
    simp only [Bool.and_eq_true] at hboth
    rw [evaluationStep_of_kill hboth.1 hboth.2] at h
    cases h
    exact noneWithId_settle hctx hqueue (keepsOut_of_eq rfl rfl)
  | false =>
    obtain ⟨st₁, o, st', g, hdue, hstep, rfl, rfl⟩ := evaluationStep_eq hboth h
    obtain ⟨hqueue₁, -, hnext₁⟩ := gcIfDue_keeps hdue
    refine noneWithId_settle hctx ?_ (stepCtx_keepsOut hext ?_ hstep)
    · rw [hqueue₁]
      exact hqueue
    · rw [hnext₁]
      exact hnext

theorem dequeueCtx_perm {tNow : UINT} : ∀ {queue queue' : List EvalContext} {c : EvalContext},
    dequeueCtx tNow queue = some (c, queue') → (c :: queue').Perm queue
  | [], _, _, h => by cases h
  | d :: queue, queue', c, h => by
    unfold dequeueCtx at h
    simp only at h
    generalize (if tNow < d.timestamp then 0xFFFFFFFF#32 - d.timestamp + tNow
      else tNow - d.timestamp) = tDiff at h
    split at h
    · cases h
      exact List.Perm.refl _
    · obtain ⟨⟨e, rest⟩, hrest, heq⟩ := Option.map_eq_some_iff.mp h
      cases heq
      exact (List.Perm.swap d e rest).trans ((dequeueCtx_perm hrest).cons d)

/-- The picked context and the rest of the queue come from the queue or are running. -/
theorem NoneWithId.pick {i : CID} {s : EvalState} (hs : NoneWithId i s)
    (h : pickCtx io s = some (ctx, st)) :
    ctx.id ≠ i ∧ (∀ c ∈ st.ctxQueue, c.id ≠ i) ∧ st.nextCtxId = s.nextCtxId := by
  unfold pickCtx at h
  split at h
  · next c hrun =>
    cases h
    exact ⟨hs.running _ hrun, hs.queue, rfl⟩
  · obtain ⟨⟨c, queue⟩, hdeq, heq⟩ := Option.map_eq_some_iff.mp h
    cases heq
    have hperm := dequeueCtx_perm hdeq
    refine ⟨hs.queue _ (hperm.subset (by simp)), fun c' hc' => ?_, rfl⟩
    exact hs.queue c' (hperm.subset (by simp [hc']))

end

section

variable {pf : Platform}

/-- Iteration `n` makes a step of `c`, and one of the pushes of the step fails. -/
structure PushFailsAt (run : EvalRun pf) (n : Nat) (c : EvalContext) (st : Store) : Prop where
  lt : n < run.len
  picked : pickCtx (run.io n) (run.state n) = some (c, st)
  notKilled : ((run.flags n).performGc && (run.flags n).lastIterationGc) = false
  fails : ∃ st₁, gcIfDue c st (run.flags n) = some st₁ ∧ pushFails pf (run.io n) c st₁ = true

/-- From iteration `n` on the id of `c` stands for `c`: no other context in the queue has it, and
nobody gives it to a new one. -/
structure IdStandsFor (run : EvalRun pf) (n : Nat) (c : EvalContext) (st : Store) : Prop where
  queue : ∀ c' ∈ st.ctxQueue, c'.id ≠ c.id
  next : ∀ m, n ≤ m → m < run.len → (run.state m).nextCtxId.setWidth 16 ≠ c.id
  extensions : ExtensionsKeepOut pf c.id
  host : ∀ m, n ≤ m → m < run.len → ∀ c' ∈ (run.state (m + 1)).ctxQueue, c'.id = c.id →
    ∃ c'' ∈ (run.after m).ctxQueue, c''.id = c.id

/-- Iteration `n` puts `c` on the done list with the result `fatal_error`, and no later iteration
makes a step of it. -/
structure OverflowFinal (run : EvalRun pf) (n : Nat) (c : EvalContext) (st : Store) : Prop where
  done : ∃ K, (run.after n).ctxDone
    = { c with K := K, done := true, r := encSym symreprFatalError } :: st.ctxDone
  notRunning : (run.after n).ctxRunning = none
  noLaterStep : IdStandsFor run n c st → ∀ m, n < m → m < run.len → ∀ c' st',
    pickCtx (run.io m) (run.state m) = some (c', st') → c'.id ≠ c.id

/-- Whom the iterations after `n` can pick. -/
theorem noneWithId_later {run : EvalRun pf} {n : Nat} {c : EvalContext} {st : Store}
    (hid : IdStandsFor run n c st) (hn : n < run.len) (hafter : NoneWithId c.id (run.after n)) :
    ∀ m, n < m → m < run.len → NoneWithId c.id (run.state m) := by
  -- the host does not give the id to another context
  have hhost : ∀ m, n ≤ m → m < run.len → NoneWithId c.id (run.after m) →
      NoneWithId c.id (run.state (m + 1)) := by
    intro m hle hlt hm
    refine ⟨fun c' hc' hi => ?_, fun c' hc' => ?_⟩
    · obtain ⟨c'', hc'', hi''⟩ := hid.host m hle hlt c' hc' hi
      exact hm.queue c'' hc'' hi''
    · rw [run.host m hlt] at hc'
      exact hm.running c' hc'
  intro m hm
  induction m, hm using Nat.le_induction with
  | base => exact fun _ => hhost n le_rfl hn hafter
  | succ m hm ih =>
    intro hlt
    have hs := ih (by omega)
    apply hhost m (by omega) (by omega)
    have hiter := run.iter m (by omega)
    cases hpick : pickCtx (run.io m) (run.state m) with
    | none =>
      rw [(runEvalIteration_of_not_pick (run.flags m) hpick).2] at hiter
      rw [← (Prod.mk.inj (Option.some.inj hiter)).1]
      exact hs
    | some picked =>
      obtain ⟨c', st'⟩ := picked
      obtain ⟨hc', hqueue, hnext⟩ := hs.pick hpick
      rw [runEvalIteration_of_pick hpick] at hiter
      refine evaluationStep_noneWithId hid.extensions ?_ hc' hqueue hiter
      rw [hnext]
      exact hid.next m (by omega) (by omega)

/-- **A stack overflow is fatal and final exactly for expressions.** In every run, when a push
onto `K` fails, the step moves its context to the done list with the result `fatal_error`, and no
later step of it is made, if and only if the step evaluated an expression. When it applied a
continuation, the context is still the running one. -/
theorem overflowFinal_iff {run : EvalRun pf} {n : Nat} {c : EvalContext} {st : Store}
    (h : PushFailsAt run n c st) : OverflowFinal run n c st ↔ c.appCont = false := by
  obtain ⟨st₁, hdue, hfails⟩ := h.fails
  have hiter := run.iter n h.lt
  rw [runEvalIteration_of_pick h.picked] at hiter
  obtain ⟨st₂, o, st', g, hdue', hstep, hafter, -⟩ := evaluationStep_eq h.notKilled hiter
  obtain rfl : st₁ = st₂ := Option.some.inj (hdue.symm.trans hdue')
  -- the pushes of the step, one of which fails
  have hspec : ∀ {onFail : Outcome → Prop},
      PushSpec (run.io n) c.K (stepPushes pf c st₁) onFail o → onFail o := by
    intro onFail hspec
    unfold pushFails at hfails
    cases hp : stepPushes pf c st₁ with
    | none =>
      rw [hp] at hfails
      cases hfails
    | some p =>
      rw [hp] at hfails
      have hpush : pushAll (run.io n).malloc p.1 p.2
          = (false, (pushAll (run.io n).malloc p.1 p.2).2) := Prod.ext (by simpa using hfails) rfl
      exact hspec.failed hp hpush
  unfold stepCtx at hstep
  cases hcont : c.appCont with
  | true =>
    rw [hcont, if_pos rfl] at hstep
    obtain ⟨c', rfl⟩ := hspec (applyContinuation_pushSpec hcont hstep)
    refine ⟨fun hfinal => ?_, fun hfalse => absurd hfalse (by simp)⟩
    have hnone := hfinal.notRunning
    rw [hafter] at hnone
    cases hnone
  | false =>
    rw [hcont, if_neg (by simp)] at hstep
    refine ⟨fun _ => rfl, fun _ => ?_⟩
    obtain ⟨K, rfl⟩ := hspec (evalExp_pushSpec hcont hstep)
    obtain ⟨-, hqueue, hdone⟩ := evalExp_keeps hstep
    obtain ⟨hqueue₁, hdone₁, -⟩ := gcIfDue_keeps hdue
    refine ⟨⟨K, ?_⟩, ?_, fun hid m hm hlt c' s' hpick => ?_⟩
    · rw [hafter, ← hdone₁, ← hdone]
      rfl
    · rw [hafter]
      rfl
    · have hnone : NoneWithId c.id (run.after n) := by
        rw [hafter]
        refine ⟨fun c' hc' => ?_, fun c' hc' => absurd hc' (by simp [Outcome.settle])⟩
        apply hid.queue c'
        rw [← hqueue₁, ← hqueue]
        exact hc'
      exact ((noneWithId_later hid h.lt hnone m hm hlt).pick hpick).1

/-- `(+ 1 2)`, started by `eval_cps_program_ext` with a stack of `stackSize` words. -/
def sumOfTwo (stackSize : StackSize) : Store :=
  let st := evalCpsInit 24
  let (lisp, h) := (Datum.list [.list [.sym symAdd, .int 1#32, .int 2#32]]).build st.heap
  (createCtx plainOutside lisp NIL stackSize false { st with heap := h }).2

theorem loopAlone_sumOfTwo :
    (loopAlone (sumOfTwo ⟨4, by decide⟩) 2).isSome = true
    ∧ (loopAlone (sumOfTwo ⟨5, by decide⟩) 5).isSome = true := by
  decide +kernel

/-- In iteration `n` of a run of one context a push fails. -/
theorem pushFailsAt_alone {st st₁ : Store} {len n : Nat} {c : EvalContext}
    (h : (loopAlone st len).isSome = true) (hn : n < len)
    (hpick : ((loopAlone st n).bind fun (s, flags) => (pickCtx plainOutside s).map fun picked =>
      (picked.1, picked.2, flags)) = some (c, st₁, ⟨false, false⟩))
    (hfails : pushFails plainPlatform plainOutside c st₁ = true) :
    PushFailsAt (EvalRun.alone st len h) n c st₁ := by
  obtain ⟨⟨s, flags⟩, hs, hpick⟩ := Option.bind_eq_some_iff.mp hpick
  obtain ⟨⟨c', st'⟩, hpicked, heq⟩ := Option.map_eq_some_iff.mp hpick
  simp only [Prod.mk.injEq] at heq
  obtain ⟨rfl, rfl, rfl⟩ := heq
  have hstate : (EvalRun.alone st len h).state n = s := by simp [EvalRun.alone, hs]
  have hflags : (EvalRun.alone st len h).flags n = ⟨false, false⟩ := by simp [EvalRun.alone, hs]
  refine ⟨hn, ?_, by simp [hflags], st', ?_, hfails⟩
  · rw [hstate]
    exact hpicked
  · rw [hflags]
    rfl

/-- With four words the frame of the application does not fit: the context ends. -/
theorem overflowFinal_sumOfTwo :
    ∃ (run : EvalRun plainPlatform) (c : EvalContext) (st : Store),
      PushFailsAt run 0 c st ∧ OverflowFinal run 0 c st := by
  have hcheck : (((loopAlone (sumOfTwo ⟨4, by decide⟩) 0).bind fun (s, flags) =>
      (pickCtx plainOutside s).map fun picked => (picked.1, picked.2, flags)).map
        fun (c, st, flags) =>
          (c.appCont, flags, pushFails plainPlatform plainOutside c st))
      = some (false, ⟨false, false⟩, true) := by
    decide +kernel
  obtain ⟨⟨c, st, flags⟩, hpick, heq⟩ := Option.map_eq_some_iff.mp hcheck
  simp only [Prod.mk.injEq] at heq
  obtain ⟨hcont, rfl, hfails⟩ := heq
  have hat := pushFailsAt_alone loopAlone_sumOfTwo.1 (by decide) hpick hfails
  exact ⟨_, c, st, hat, (overflowFinal_iff hat).mpr hcont⟩

/-- **With five words** the operator is evaluated, and the frame for the operands does not fit. The
context goes on and ends with the result `eval_error`. -/
theorem not_overflowFinal_sumOfTwo :
    ∃ (run : EvalRun plainPlatform) (c : EvalContext) (st : Store),
      PushFailsAt run 2 c st ∧ ¬ OverflowFinal run 2 c st
        ∧ (run.after 4).ctxDone.map (fun c => c.r) = [encSym symreprEerror] := by
  have hcheck : (((loopAlone (sumOfTwo ⟨5, by decide⟩) 2).bind fun (s, flags) =>
      (pickCtx plainOutside s).map fun picked => (picked.1, picked.2, flags)).map
        fun (c, st, flags) => (flags, pushFails plainPlatform plainOutside c st))
      = some (⟨false, false⟩, true) := by
    decide +kernel
  have hafter :
      ((EvalRun.alone (sumOfTwo ⟨5, by decide⟩) 5 loopAlone_sumOfTwo.2).after 2).ctxRunning ≠ none
      ∧ ((EvalRun.alone (sumOfTwo ⟨5, by decide⟩) 5 loopAlone_sumOfTwo.2).after 4).ctxDone.map
        (fun c => c.r)
        = [encSym symreprEerror] := by
    decide +kernel
  obtain ⟨⟨c, st, flags⟩, hpick, heq⟩ := Option.map_eq_some_iff.mp hcheck
  simp only [Prod.mk.injEq] at heq
  obtain ⟨rfl, hfails⟩ := heq
  refine ⟨_, c, st, pushFailsAt_alone loopAlone_sumOfTwo.2 (by decide) hpick hfails, ?_, hafter.2⟩
  exact fun hfinal => hafter.1 hfinal.notRunning

end

end LispBM
