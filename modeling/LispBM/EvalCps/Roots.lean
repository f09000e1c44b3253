import LispBM.EvalCps.ContextIds

/-!
# LispBM — the register `r` of a new context

`create_ctx` does not write the field `r` of the context it allocates, and the collector marks
from it: what a collection keeps depends on the word that `malloc` left there, until the context
has delivered a value. Nothing else reads that word. In runs in which it is no pointer whenever
a collection happens, collections do not depend on it (`HostRun.collectAlike`).
-/

namespace LispBM

section

variable {pf : Platform} {io : Outside} {c : EvalContext} {st st' : Store} {o : Outcome} {g : Bool}

/-! ## Steps that do not read `r` -/

/-- The outcome of an expression, for a context with another word in `r`. -/
def Outcome.setR (x : VALUE) : Outcome → Outcome
  | .running c => .running (if c.appCont then c else { c with r := x })
  | o => o

def setR (x : VALUE) (res : StepResult) : StepResult := (res.1.setR x, res.2)

theorem dispatch_setR (x : VALUE) {frame : List UINT} {exp env : VALUE} (ha : c.appCont = false) :
    dispatch io { c with r := x } frame exp env st = setR x (dispatch io c frame exp env st) := by
  unfold dispatch
  rcases pushAll io.malloc c.K frame with ⟨ok, K⟩
  cases ok with
  | false => rfl
  | true => simp [setR, Outcome.setR, ha]

theorem evalForm_setR (x : VALUE) (ha : c.appCont = false) :
    evalForm io { c with r := x } st = (evalForm io c st).map (setR x) := by
  unfold evalForm
  simp only
  split
  · rfl
  split
  · unfold evalDefine
    simp only
    split
    · rfl
    · exact congrArg some (dispatch_setR x ha)
  split
  · unfold evalProgn
    simp only
    split
    · rfl
    split
    · rfl
    · exact congrArg some (dispatch_setR x ha)
  split
  · unfold evalSpawn
    simp only
    split
    · rfl
    · split <;> rfl
  split
  · unfold evalLambda
    simp only [Option.bind_eq_bind]
    cases envCopyShallow c.currEnv st.heap with
    | none => rfl
    | some res =>
      simp only [Option.bind_some]
      split
      · rfl
      · split <;> rfl
  split
  · exact congrArg some (dispatch_setR x ha)
  split
  · unfold evalLet
    simp only [Option.bind_eq_bind]
    cases typeOf (car st.heap (cdr st.heap c.currExp)) != ptrTypeCons with
    | true => simp [setR, Outcome.setR, ha]
    | false =>
      simp only [Bool.false_eq_true, if_false]
      cases letEnvLoop (walkFuel st.heap) (car st.heap (cdr st.heap c.currExp)) c.currEnv
        st.heap with
      | none => rfl
      | some res =>
        simp only [Option.bind_some]
        split
        · rfl
        · exact congrArg some (@dispatch_setR _ _ { st with heap := res.2 } x _ _ _ ha)
  · exact congrArg some (dispatch_setR x ha)

/-- **Evaluating an expression does not read `r`.** -/
theorem evalExp_setR (x : VALUE) (ha : c.appCont = false) :
    evalExp pf io { c with r := x } st = (evalExp pf io c st).map (setR x) := by
  unfold evalExp
  simp only
  split
  · unfold evalSymbol
    split
    · rfl
    · simp only [Option.bind_eq_bind]
      cases envLookup st.heap c.currExp c.currEnv with
      | none => rfl
      | some value =>
        simp only [Option.bind_some]
        split
        · cases envLookup st.heap c.currExp st.envGlobal <;> rfl
        · rfl
  split
  · rfl
  split
  · rfl
  split
  · exact evalForm_setR x ha
  · rfl

/-! ## Steps beside other contexts -/

/-- The same surroundings, with another word in the memory for a new context. -/
abbrev Outside.withR (io : Outside) (x : VALUE) : Outside := { io with uninitR := x }

theorem createCtx_withR (x : VALUE) (queue : List EvalContext) {program env : VALUE}
    {stackSize : StackSize} {growStack : Bool} :
    ∃ new : List EvalContext, (∀ c ∈ new, c.appCont = false)
      ∧ (createCtx io program env stackSize growStack st).2.ctxQueue = st.ctxQueue ++ new
      ∧ createCtx (io.withR x) program env stackSize growStack { st with ctxQueue := queue }
        = ((createCtx io program env stackSize growStack st).1,
          { (createCtx io program env stackSize growStack st).2 with
            ctxQueue := queue ++ new.map fun c => { c with r := x } }) := by
  have huses : usesId (io.withR x) program { st with ctxQueue := queue }
      = usesId io program st := rfl
  have hstack : newStack (io.withR x) stackSize growStack = newStack io stackSize growStack := rfl
  simp only [createCtx_eq, huses, hstack]
  split
  · split
    · exact ⟨[], by simp, by simp, by simp⟩
    · exact ⟨[_], by simp [newCtx], rfl, rfl⟩
  · exact ⟨[], by simp, by simp, by simp⟩

/-- What a step makes of the contexts is the same for other words in the queue and in the memory
for a new context. -/
structure StepsBeside (pf : Platform) (io : Outside) (c : EvalContext) (st : Store) (o : Outcome)
    (st' : Store) (g : Bool) (x : VALUE) (queue : List EvalContext) (new : List EvalContext) :
    Prop where
  fresh : ∀ c ∈ new, c.appCont = false
  added : st'.ctxQueue = st.ctxQueue ++ new
  running : new ≠ [] → ∃ c', (o.settle st').ctxRunning = some c'
  step : stepCtx pf (io.withR x) c { st with ctxQueue := queue }
    = some (o, { st' with ctxQueue := queue ++ new.map fun c => { c with r := x } }, g)

/-- A step that has nothing to do with other contexts. -/
theorem stepsBeside_of_apart {F : Store → Option StepResult} (hF : Apart F) {x : VALUE}
    {queue : List EvalContext} (hio : ∀ st, stepCtx pf io c st = F st)
    (hio' : ∀ st, stepCtx pf (io.withR x) c st = F st)
    (h : stepCtx pf io c st = some (o, st', g)) : StepsBeside pf io c st o st' g x queue [] := by
  rw [hio] at h
  have hkeeps := hF.keeps h
  refine ⟨by simp, by rw [hkeeps.queue, List.append_nil], fun hne => absurd rfl hne, ?_⟩
  rw [hio']
  have hother := hF st queue st.ctxDone st.nextCtxId
  rw [h] at hother
  have hst : ({ st with ctxQueue := queue } : Store)
      = st.withContexts queue st.ctxDone st.nextCtxId := rfl
  rw [hst, hother]
  simp only [Option.map_some, StepResult.withContexts, List.map_nil, List.append_nil,
    Option.some.injEq, Prod.mk.injEq, true_and, and_true]
  rw [← hkeeps.done, ← hkeeps.next]

theorem contSpawnAllCase_beside (x : VALUE) (queue : List EvalContext)
    (h : contSpawnAllCase io c st = some (o, st', g)) :
    ∃ new : List EvalContext, (∀ c ∈ new, c.appCont = false)
      ∧ st'.ctxQueue = st.ctxQueue ++ new
      ∧ (new ≠ [] → ∃ c', (o.settle st').ctxRunning = some c')
      ∧ contSpawnAllCase (io.withR x) c { st with ctxQueue := queue }
        = some (o, { st' with ctxQueue := queue ++ new.map fun c => { c with r := x } }, g) := by
  unfold contSpawnAllCase at h ⊢
  simp only [Option.bind_eq_bind, Option.bind_eq_some_iff, Prod.exists] at h
  obtain ⟨rest, K₁, hpop₁, env, K₂, hpop₂, h⟩ := h
  simp only [hpop₁, hpop₂, Option.bind_eq_bind, Option.bind_some]
  split at h
  · next hnil =>
    cases h
    refine ⟨[], by simp, by simp, by simp, ?_⟩
    rw [if_pos hnil]
    simp
  next hnil =>
  rw [if_neg hnil]
  split at h
  · next hcell =>
    rw [if_pos hcell]
    split at h
    all_goals
      cases h
      refine ⟨[], by simp, by simp, by simp, ?_⟩
      simp
  next hcell =>
  rw [if_neg hcell]
  unfold spawnFirst at h ⊢
  simp only at h ⊢
  obtain ⟨new, hfresh, hadded, hcreate⟩ := @createCtx_withR io
    { st with heap := (cons (encI st.nextCtxId) c.r st.heap).2 } x queue
    (car (cons (encI st.nextCtxId) c.r st.heap).2 rest) env
    evalCpsDefaultStackSize evalCpsDefaultStackGrowPolicy
  refine ⟨new, hfresh, ?_⟩
  rw [hcreate]
  simp only
  split at h
  all_goals
    cases h
    exact ⟨hadded, fun _ => ⟨_, rfl⟩, rfl⟩

theorem contWaitCase_beside (x : VALUE) (queue : List EvalContext)
    (h : contWaitCase io c st = some (o, st', g)) :
    st'.ctxQueue = st.ctxQueue
      ∧ contWaitCase (io.withR x) c { st with ctxQueue := queue }
        = some (o, { st' with ctxQueue := queue }, g) := by
  unfold contWaitCase at h ⊢
  simp only [Option.bind_eq_bind, Option.bind_eq_some_iff, Prod.exists] at h
  obtain ⟨cidVal, K, hpop, h⟩ := h
  simp only [hpop, Option.bind_eq_bind, Option.bind_some]
  split at h
  · cases h
    exact ⟨rfl, rfl⟩
  · have hwait := @waitYield_apart io { c with K := K } st queue st.ctxDone st.nextCtxId
      ((decU cidVal).setWidth 16)
    have hapart : Apart fun st =>
        some (waitYield io { c with K := K } ((decU cidVal).setWidth 16) st) :=
      fun st queue done next => congrArg some waitYield_apart
    have hkeeps := hapart.keeps h
    refine ⟨hkeeps.queue, ?_⟩
    rw [Option.some.inj h] at hwait
    refine congrArg some (hwait.trans ?_)
    simp only [StepResult.withContexts, Prod.mk.injEq, true_and, and_true]
    rw [← hkeeps.done, ← hkeeps.next]

theorem apart_ite {p : Prop} [Decidable p] {F G : Store → Option StepResult} (hF : Apart F)
    (hG : Apart G) : Apart fun st => if p then F st else G st := by
  intro st queue done next
  by_cases hp : p
  · simp only [if_pos hp]
    exact hF st queue done next
  · simp only [if_neg hp]
    exact hG st queue done next

/-- A continuation other than `SPAWN_ALL` and `WAIT`. -/
theorem contSwitch_apart (hext : ExtensionsApart pf) {tag : UINT}
    (hspawn : (tag == contSpawnAll) = false) (hwait : (tag == contWait) = false) :
    Apart (contSwitch pf io tag c) := by
  have hdone : Apart fun st => some (advanceCtx io c st) :=
    fun st queue done next => congrArg some advanceCtx_apart
  have herror : Apart fun st => some (errorCtx c (encSym symreprEerror), st, false) :=
    fun st queue done next => rfl
  unfold contSwitch
  simp only [hspawn, hwait, Bool.false_eq_true, if_false]
  exact apart_ite hdone (apart_ite contSetGlobalEnvCase_apart (apart_ite contPrognRestCase_apart
    (apart_ite (contApplicationCase_apart hext) (apart_ite contAndCase_apart
    (apart_ite contOrCase_apart (apart_ite contApplicationArgsCase_apart
    (apart_ite contBindToKeyRestCase_apart (apart_ite contIfCase_apart herror))))))))

/-! The steps that create no context do not read the word. -/

theorem dispatch_withR (x : VALUE) : dispatch (io.withR x) = dispatch io := rfl

theorem evalLet_withR (x : VALUE) : evalLet (io.withR x) = evalLet io := by
  funext c st
  unfold evalLet
  rw [dispatch_withR]

theorem evalExp_withR (x : VALUE) : evalExp pf (io.withR x) c st = evalExp pf io c st := by
  simp only [evalExp, evalForm, evalDefine, evalProgn, evalSpawn, evalIf, evalLet_withR,
    dispatch_withR]

theorem applicationArg_withR (x : VALUE) : applicationArg (io.withR x) = applicationArg io := rfl

theorem evalOperand_withR (x : VALUE) : evalOperand (io.withR x) = evalOperand io := rfl

theorem retryApplication_withR (x : VALUE) :
    retryApplication (io.withR x) = retryApplication io := rfl

theorem waitYield_withR (x : VALUE) : waitYield (io.withR x) = waitYield io := rfl

theorem contSwitch_withR (x : VALUE) {tag : UINT} (hspawn : (tag == contSpawnAll) = false) :
    contSwitch pf (io.withR x) tag c st = contSwitch pf io tag c st := by
  simp only [contSwitch, hspawn, Bool.false_eq_true, if_false, contApplicationArgsCase, contAndCase,
    contOrCase, contWaitCase, contApplicationCase, applyClosure, applyFundamental, applyExtension,
    contBindToKeyRestCase, evalOperand_withR, applicationArg_withR, retryApplication_withR,
    waitYield_withR]
  rfl

/-- **A step beside other contexts.** The words in the `r` of queued contexts, and the one in the
memory for a new context, only end up in the queue. -/
theorem stepCtx_beside (hext : ExtensionsApart pf) (x : VALUE) (queue : List EvalContext)
    (h : stepCtx pf io c st = some (o, st', g)) :
    ∃ new, StepsBeside pf io c st o st' g x queue new := by
  cases ha : c.appCont with
  | false =>
    refine ⟨[], stepsBeside_of_apart (F := evalExp pf io c) evalExp_apart ?_ ?_ h⟩
    · intro st
      rw [stepCtx, if_neg (by simp [ha])]
    · intro st
      rw [stepCtx, if_neg (by simp [ha]), evalExp_withR]
  | true =>
    cases hpop : popU32 c.K with
    | none => simp [stepCtx, ha, applyContinuation, hpop] at h
    | some popped =>
      obtain ⟨k, K⟩ := popped
      have hstep : ∀ io st, stepCtx pf io c st
          = contSwitch pf io (decU k) { c with K := K, appCont := false } st := by
        intro io st
        rw [stepCtx, if_pos ha, applyContinuation, hpop]
        rfl
      cases hspawn : decU k == contSpawnAll with
      | true =>
        have hcase : ∀ io st, contSwitch pf io (decU k) { c with K := K, appCont := false } st
            = contSpawnAllCase io { c with K := K, appCont := false } st := by
          intro io st
          rw [beq_iff_eq.mp hspawn]
          rfl
        rw [hstep, hcase] at h
        obtain ⟨new, hfresh, hadded, hrunning, hbeside⟩ := contSpawnAllCase_beside x queue h
        exact ⟨new, hfresh, hadded, hrunning, by rw [hstep, hcase]; exact hbeside⟩
      | false =>
        cases hwait : decU k == contWait with
        | true =>
          have hcase : ∀ io st, contSwitch pf io (decU k) { c with K := K, appCont := false } st
              = contWaitCase io { c with K := K, appCont := false } st := by
            intro io st
            rw [beq_iff_eq.mp hwait]
            rfl
          rw [hstep, hcase] at h
          obtain ⟨hqueue, hbeside⟩ := contWaitCase_beside x queue h
          refine ⟨[], by simp, by simpa using hqueue, by simp, ?_⟩
          rw [hstep, hcase, hbeside]
          simp
        | false =>
          refine ⟨[], stepsBeside_of_apart (@contSwitch_apart _ io _ hext _ hspawn hwait)
            (hstep io) (fun st => ?_) h⟩
          rw [hstep, contSwitch_withR x hspawn]

end

/-! ## Contexts that have not written `r` -/

/-- Which contexts have not written `r` since they were created: the running one, and those in the
queue. -/
structure Fresh where
  running : Bool
  queue : List Bool
deriving DecidableEq

/-- What `dequeue_ctx` takes out of a list with an entry for every context of the queue. -/
def dequeueFlag (tNow : UINT) : List EvalContext → List Bool → Bool × List Bool
  | c :: cs, b :: bs =>
      if (dequeueCtx tNow [c]).isSome then (b, bs)
      else
        let (r, bs) := dequeueFlag tNow cs bs
        (r, b :: bs)
  | _, bs => (false, bs)

/-- The entry of the context that an iteration works on, and those of the queue without it. -/
def Fresh.pick (f : Fresh) (io : Outside) (s : EvalState) : Bool × List Bool :=
  match s.ctxRunning with
  | some _ => (f.running, f.queue)
  | none => dequeueFlag (io.timestampUs.getD 0#32) s.ctxQueue f.queue

/-- The entries after an iteration that leads to `s'`, with the picked context's entry `b` and
those of the queue without it. A context writes `r` when it delivers a value, and it has written
it when it yields. -/
def freshAfter (b : Bool) (queue : List Bool) (s' : EvalState) : Fresh :=
  match s'.ctxRunning with
  | some c => ⟨b && !c.appCont, queue ++ List.replicate (s'.ctxQueue.length - queue.length) true⟩
  | none => ⟨false, queue ++ List.replicate (s'.ctxQueue.length - queue.length) false⟩

/-- The entries after an action that leads from `s` to `s'`. -/
def Fresh.after (f : Fresh) (s s' : EvalState) : Action → Fresh
  | .create .. =>
      ⟨f.running, f.queue ++ List.replicate (s'.ctxQueue.length - f.queue.length) true⟩
  | .iterate io => freshAfter (f.pick io s).1 (f.pick io s).2 s'
  | _ => f

/-- Two contexts that are the same up to an `r` that neither has written. -/
structure SameCtx (fresh : Bool) (c c' : EvalContext) : Prop where
  fields : c' = { c with r := c'.r }
  evaluates : fresh = true → c.appCont = false
  written : fresh = false → c'.r = c.r

inductive SameQueue : List Bool → List EvalContext → List EvalContext → Prop where
  | nil : SameQueue [] [] []
  | cons {b : Bool} {bs : List Bool} {c c' : EvalContext} {cs cs' : List EvalContext}
      (h : SameCtx b c c') (hrest : SameQueue bs cs cs') :
      SameQueue (b :: bs) (c :: cs) (c' :: cs')

/-- Two states that are the same up to an `r` that neither has written. -/
structure SameButR (f : Fresh) (s s' : EvalState) : Prop where
  store : s'.toStore = { s.toStore with ctxQueue := s'.ctxQueue }
  queue : SameQueue f.queue s.ctxQueue s'.ctxQueue
  running : (s.ctxRunning = none ∧ s'.ctxRunning = none)
    ∨ ∃ c c', s.ctxRunning = some c ∧ s'.ctxRunning = some c' ∧ SameCtx f.running c c'

section

variable {b : Bool} {bs bs₂ : List Bool} {c c' : EvalContext} {cs cs' cs₂ cs₂' : List EvalContext}

theorem SameCtx.refl {b : Bool} (h : b = true → c.appCont = false) : SameCtx b c c :=
  ⟨rfl, h, fun _ => rfl⟩

theorem SameCtx.eq (h : SameCtx false c c') : c' = c := by
  rw [h.fields, h.written rfl]

theorem SameQueue.lengths (h : SameQueue bs cs cs') :
    bs.length = cs.length ∧ cs'.length = cs.length := by
  induction h with
  | nil => exact ⟨rfl, rfl⟩
  | cons _ _ ih =>
    obtain ⟨hbs, hcs⟩ := ih
    exact ⟨by simp [hbs], by simp [hcs]⟩

theorem SameQueue.append (h : SameQueue bs cs cs') (h₂ : SameQueue bs₂ cs₂ cs₂') :
    SameQueue (bs ++ bs₂) (cs ++ cs₂) (cs' ++ cs₂') := by
  induction h with
  | nil => exact h₂
  | cons hc _ ih => exact .cons hc ih

/-- New contexts, up to their `r`. -/
theorem sameQueue_new (x : VALUE) : ∀ {new : List EvalContext}, (∀ c ∈ new, c.appCont = false) →
    SameQueue (List.replicate new.length true) new (new.map fun c => { c with r := x })
  | [], _ => .nil
  | c :: new, h =>
    .cons ⟨rfl, fun _ => h c (by simp), fun hb => absurd hb (by decide)⟩
      (sameQueue_new x fun c' hc' => h c' (List.mem_cons_of_mem _ hc'))

theorem dequeueCtx_cons (tNow : UINT) (c : EvalContext) (cs : List EvalContext) :
    dequeueCtx tNow (c :: cs)
      = if (dequeueCtx tNow [c]).isSome then some (c, cs)
        else (dequeueCtx tNow cs).map fun (r, cs) => (r, c :: cs) := by
  by_cases h : c.sleepUs ≤ if tNow < c.timestamp then 0xFFFFFFFF#32 - c.timestamp + tNow
    else tNow - c.timestamp
  · have hone : ∀ cs, dequeueCtx tNow (c :: cs) = some (c, cs) := fun cs => if_pos h
    rw [hone, hone, Option.isSome_some, if_pos rfl]
  · have hone : ∀ cs, dequeueCtx tNow (c :: cs)
        = (dequeueCtx tNow cs).map fun (r, cs) => (r, c :: cs) := fun cs => if_neg h
    rw [hone, hone]
    rfl

theorem SameCtx.awake_eq {tNow : UINT} (h : SameCtx b c c') :
    (dequeueCtx tNow [c']).isSome = (dequeueCtx tNow [c]).isSome := by
  rw [h.fields]
  simp only [dequeueCtx, Option.map_none]
  split <;> split <;> rfl

/-- Two queues that are the same up to `r` are served in the same order. -/
theorem SameQueue.dequeue (tNow : UINT) (h : SameQueue bs cs cs') :
    (dequeueCtx tNow cs = none ∧ dequeueCtx tNow cs' = none ∧ dequeueFlag tNow cs bs = (false, bs))
      ∨ ∃ b q c c' queue queue', dequeueFlag tNow cs bs = (b, q)
        ∧ dequeueCtx tNow cs = some (c, queue) ∧ dequeueCtx tNow cs' = some (c', queue')
        ∧ SameCtx b c c' ∧ SameQueue q queue queue' := by
  induction h with
  | nil => exact Or.inl ⟨rfl, rfl, rfl⟩
  | @cons b bs c c' cs cs' hc hrest ih =>
    rw [dequeueCtx_cons tNow c, dequeueCtx_cons tNow c', dequeueFlag, hc.awake_eq]
    cases (dequeueCtx tNow [c]).isSome with
    | true => exact Or.inr ⟨b, bs, c, c', cs, cs', rfl, rfl, rfl, hc, hrest⟩
    | false =>
      simp only [Bool.false_eq_true, if_false]
      rcases ih with ⟨hnone, hnone', hflag⟩ |
        ⟨b₁, q, c₁, c₁', queue, queue', hflag, hd, hd', hs, hq⟩
      · rw [hnone, hnone', hflag]
        exact Or.inl ⟨rfl, rfl, rfl⟩
      · rw [hd, hd', hflag]
        exact Or.inr ⟨b₁, b :: q, c₁, c₁', c :: queue, c' :: queue', rfl, rfl, rfl, hs, .cons hc hq⟩

theorem SameQueue.dequeueFlag_eq (tNow : UINT) (h : SameQueue bs cs cs') :
    dequeueFlag tNow cs' bs = dequeueFlag tNow cs bs := by
  induction h with
  | nil => rfl
  | cons hc _ ih => rw [dequeueFlag, dequeueFlag, hc.awake_eq, ih]

end

/-- The contexts that an iteration picks in two such states. -/
theorem SameButR.pick {f : Fresh} {s s' : EvalState} (h : SameButR f s s') (io : Outside)
    (x : VALUE) :
    (pickCtx io s = none ∧ pickCtx (io.withR x) s' = none ∧ f.pick io s = (false, f.queue))
      ∨ ∃ c c' st queue', pickCtx io s = some (c, st)
        ∧ pickCtx (io.withR x) s' = some (c', { st with ctxQueue := queue' })
        ∧ SameCtx (f.pick io s).1 c c' ∧ SameQueue (f.pick io s).2 st.ctxQueue queue' := by
  rcases h.running with ⟨hnone, hnone'⟩ | ⟨c, c', hrun, hrun', hsame⟩
  · simp only [pickCtx, hnone, hnone', Fresh.pick]
    rcases h.queue.dequeue (io.timestampUs.getD 0#32) with
      ⟨hd, hd', hflag⟩ | ⟨b, q, c, c', queue, queue', hflag, hd, hd', hs, hq⟩
    · rw [hd, hd', hflag]
      exact Or.inl ⟨rfl, rfl, rfl⟩
    · rw [hd, hd', hflag]
      refine Or.inr ⟨c, c', { s.toStore with ctxQueue := queue }, queue', rfl, ?_, hs, hq⟩
      have hst : ({ s'.toStore with ctxQueue := queue' } : Store)
          = { s.toStore with ctxQueue := queue' } := by rw [h.store]
      rw [Option.map_some, hst]
  · simp only [pickCtx, hrun, hrun', Fresh.pick]
    refine Or.inr ⟨c, c', s.toStore, s'.ctxQueue, rfl, ?_, hsame, h.queue⟩
    rw [← h.store]

/-! ## Collections that do not depend on `r` -/

/-- Marking calls that mark the same: where they differ, neither has a pointer to follow. -/
def CallsAlike (call call' : MarkCall) : Prop :=
  call' = call ∨ ∃ v w, call = .phase v ∧ call' = .phase w ∧ isPtr v = false ∧ isPtr w = false

theorem CallsAlike.run_eq {call call' : MarkCall} (hc : CallsAlike call call') (h : HeapState) :
    call'.run h = call.run h := by
  rcases hc with rfl | ⟨v, w, rfl, rfl, hv, hw⟩
  · rfl
  · simp [MarkCall.run, gcMarkPhase, hv, hw]

theorem markAll_alike {calls calls' : List MarkCall} (hc : List.Forall₂ CallsAlike calls calls') :
    ∀ h : HeapState, markAll calls' h = markAll calls h := by
  induction hc with
  | nil => exact fun _ => rfl
  | cons hcall _ ih =>
    intro h
    simp only [markAll, hcall.run_eq, ih]

theorem collect_alike {calls calls' : List MarkCall} (hc : List.Forall₂ CallsAlike calls calls')
    (h : HeapState) : collect calls' h = collect calls h := by
  simp only [collect, marks, markAll_alike hc]

/-- The entries of the contexts with a pointer in an `r` that they have not written. -/
def StrayR (b : Bool) (c : EvalContext) : Prop := b = true ∧ isPtr c.r = true

theorem SameCtx.callsAlike {b : Bool} {c c' : EvalContext} (h : SameCtx b c c') (hc : ¬StrayR b c)
    (hc' : ¬StrayR b c') : List.Forall₂ CallsAlike (ctxMarkCalls c) (ctxMarkCalls c') := by
  have hr : CallsAlike (.phase c.r) (.phase c'.r) := by
    cases b with
    | false => exact Or.inl (by rw [h.eq])
    | true =>
      refine Or.inr ⟨c.r, c'.r, rfl, rfl, ?_, ?_⟩
      · simpa [StrayR] using hc
      · simpa [StrayR] using hc'
  have hcalls : ctxMarkCalls c'
      = [.phase c.currEnv, .phase c.currExp, .phase c.program, .phase c'.r, .aux c.K.contents] := by
    rw [h.fields]
    rfl
  rw [hcalls]
  exact .cons (Or.inl rfl) (.cons (Or.inl rfl) (.cons (Or.inl rfl) (.cons hr
    (.cons (Or.inl rfl) .nil))))

theorem SameQueue.callsAlike {bs : List Bool} {cs cs' : List EvalContext}
    (h : SameQueue bs cs cs') :
    (∀ p ∈ bs.zip cs, ¬StrayR p.1 p.2) → (∀ p ∈ bs.zip cs', ¬StrayR p.1 p.2) →
      List.Forall₂ CallsAlike (cs.flatMap ctxMarkCalls) (cs'.flatMap ctxMarkCalls) := by
  induction h with
  | nil => exact fun _ _ => .nil
  | cons hc _ ih =>
    intro hcs hcs'
    simp only [List.zip_cons_cons, List.forall_mem_cons] at hcs hcs'
    simp only [List.flatMap_cons]
    exact List.rel_append (hc.callsAlike hcs.1 hcs'.1) (ih hcs.2 hcs'.2)

theorem callsAlike_refl (calls : List MarkCall) : List.Forall₂ CallsAlike calls calls :=
  List.forall₂_same.mpr fun _ _ => Or.inl rfl

/-- What the collection at the beginning of an iteration does, if there is one. -/
def collectionAt (io : Outside) (s : EvalState) (flags : GcFlags) :
    Option (List Bool × HeapState) :=
  if flags.performGc && !flags.lastIterationGc then
    (pickCtx io s).bind fun (c, st) => collect (gcCalls st c) st.heap
  else none

/-- If a collection is due, no context that has not written `r` has a pointer there. -/
def NoStrayR (f : Fresh) (io : Outside) (s : EvalState) (flags : GcFlags) : Prop :=
  flags.performGc = true → flags.lastIterationGc = false → ∀ c st, pickCtx io s = some (c, st) →
    ¬StrayR (f.pick io s).1 c ∧ ∀ p ∈ (f.pick io s).2.zip st.ctxQueue, ¬StrayR p.1 p.2

section

variable {pf : Platform} {io : Outside} {f : Fresh} {s s' s₁ s₁' : EvalState}
  {flags flags₁ flags₁' : GcFlags} {c c' : EvalContext} {st st' : Store} {b g : Bool}
  {bs : List Bool} {queue new : List EvalContext} {o : Outcome} {x : VALUE}

theorem SameButR.pick_eq (h : SameButR f s s') (io : Outside) (x : VALUE) :
    f.pick (io.withR x) s' = f.pick io s := by
  rcases h.running with ⟨hnone, hnone'⟩ | ⟨c, c', hrun, hrun', -⟩
  · simp only [Fresh.pick, hnone, hnone']
    exact h.queue.dequeueFlag_eq _
  · simp only [Fresh.pick, hrun, hrun']

theorem gcCalls_alike (hc : SameCtx b c c') (hq : SameQueue bs st.ctxQueue queue)
    (hstray : ¬StrayR b c ∧ ∀ p ∈ bs.zip st.ctxQueue, ¬StrayR p.1 p.2)
    (hstray' : ¬StrayR b c' ∧ ∀ p ∈ bs.zip queue, ¬StrayR p.1 p.2) :
    List.Forall₂ CallsAlike (gcCalls st c) (gcCalls { st with ctxQueue := queue } c') := by
  have hqueue := hq.callsAlike hstray.2 hstray'.2
  have hrunning := hc.callsAlike hstray.1 hstray'.1
  exact .cons (Or.inl rfl)
    (List.rel_append (List.rel_append hqueue (callsAlike_refl _)) hrunning)

/-- A context that delivers no value in the step has not written `r` after it either. -/
theorem SameCtx.stepCtx (h : SameCtx b c c')
    (hstep : LispBM.stepCtx pf io c st = some (o, st', g)) :
    LispBM.stepCtx pf io c' st = some (if b then o.setR c'.r else o, st', g) := by
  cases b with
  | false =>
    rw [h.eq]
    exact hstep
  | true =>
    have ha := h.evaluates rfl
    have hc' : LispBM.stepCtx pf io c' st = evalExp pf io { c with r := c'.r } st := by
      rw [LispBM.stepCtx, ← h.fields, if_neg]
      rw [h.fields]
      simp [ha]
    rw [LispBM.stepCtx, if_neg (by simp [ha])] at hstep
    rw [hc', evalExp_setR _ ha, hstep]
    rfl

/-- Two contexts make a step, and leave the same up to `r`. -/
theorem sameButR_settle (hq : SameQueue bs st.ctxQueue queue) (hnew : ∀ c ∈ new, c.appCont = false)
    (hadded : st'.ctxQueue = st.ctxQueue ++ new)
    (hrunning : new ≠ [] → ∃ c', (o.settle st').ctxRunning = some c') (y : VALUE) :
    SameButR (freshAfter b bs (o.settle st')) (o.settle st')
      ((if b then o.setR y else o).settle
        { st' with ctxQueue := queue ++ new.map fun c => { c with r := x } }) := by
  have hlen := hq.lengths
  have hcount : st'.ctxQueue.length - bs.length = new.length := by
    rw [hadded, List.length_append, hlen.1]
    omega
  have hqueue : SameQueue (bs ++ List.replicate new.length true) st'.ctxQueue
      (queue ++ new.map fun c => { c with r := x }) := by
    rw [hadded]
    exact hq.append (sameQueue_new x hnew)
  -- a context that is still running keeps its entry unless it delivers a value
  have hctx : ∀ c : EvalContext,
      SameCtx (b && !c.appCont) c (if b && !c.appCont then { c with r := y } else c) := by
    intro c
    cases hb : b && !c.appCont with
    | false => exact .refl (by simp)
    | true =>
      simp only [Bool.and_eq_true, Bool.not_eq_true'] at hb
      exact ⟨rfl, fun _ => hb.2, fun h => absurd h (by decide)⟩
  have hnone : ∀ s' : EvalState, (o.settle st') = s' → s'.ctxRunning = none → new = [] := by
    intro s' hs' hrun
    by_contra hne
    obtain ⟨c', hc'⟩ := hrunning hne
    rw [hs', hrun] at hc'
    cases hc'
  cases o with
  | running c =>
    have ho : (if b then (Outcome.running c).setR y else .running c)
        = .running (if b && !c.appCont then { c with r := y } else c) := by
      cases b with
      | false => rfl
      | true => cases ha : c.appCont <;> simp [Outcome.setR, ha]
    rw [ho]
    refine ⟨rfl, ?_, Or.inr ⟨c, _, rfl, rfl, hctx c⟩⟩
    show SameQueue (bs ++ List.replicate (st'.ctxQueue.length - bs.length) true) _ _
    rw [hcount]
    exact hqueue
  | fatal c =>
    have ho : (if b then (Outcome.fatal c).setR y else .fatal c) = .fatal c := ite_self _
    rw [ho]
    refine ⟨rfl, ?_, Or.inr ⟨c, c, rfl, rfl, .refl (by simp [freshAfter, Outcome.settle])⟩⟩
    show SameQueue (bs ++ List.replicate (st'.ctxQueue.length - bs.length) true) _ _
    rw [hcount]
    exact hqueue
  | finished c =>
    have ho : (if b then (Outcome.finished c).setR y else .finished c) = .finished c := ite_self _
    obtain rfl := hnone _ rfl rfl
    rw [ho]
    refine ⟨rfl, ?_, Or.inl ⟨rfl, rfl⟩⟩
    show SameQueue (bs ++ List.replicate (st'.ctxQueue.length - bs.length) false) _ _
    rw [hcount]
    exact hqueue
  | yielded c =>
    have ho : (if b then (Outcome.yielded c).setR y else .yielded c) = .yielded c := ite_self _
    obtain rfl := hnone _ rfl rfl
    rw [ho]
    refine ⟨rfl, ?_, Or.inl ⟨rfl, rfl⟩⟩
    have hone : (st'.ctxQueue ++ [c]).length - bs.length = 1 := by
      rw [List.length_append, hadded, List.append_nil, hlen.1, List.length_singleton]
      omega
    show SameQueue (bs ++ List.replicate ((st'.ctxQueue ++ [c]).length - bs.length) false)
      (st'.ctxQueue ++ [c]) _
    rw [hone, hadded, List.append_nil, List.map_nil, List.append_nil]
    exact hq.append (.cons (.refl (by simp)) .nil)

/-- The collection of an iteration that picks `c` or `c'`. -/
theorem collect_picked (hc : SameCtx b c c') (hq : SameQueue bs st.ctxQueue queue)
    (hf : f.pick io s = (b, bs)) (hf' : f.pick (io.withR x) s' = (b, bs))
    (hpick : pickCtx io s = some (c, st))
    (hpick' : pickCtx (io.withR x) s' = some (c', { st with ctxQueue := queue }))
    (hstray : NoStrayR f io s flags) (hstray' : NoStrayR f (io.withR x) s' flags)
    (hgc : flags.performGc = true) (hlast : flags.lastIterationGc = false) :
    collect (gcCalls { st with ctxQueue := queue } c') st.heap
      = collect (gcCalls st c) st.heap := by
  apply collect_alike
  have hnone := hstray hgc hlast c st hpick
  have hnone' := hstray' hgc hlast c' _ hpick'
  rw [hf] at hnone
  rw [hf'] at hnone'
  exact gcCalls_alike hc hq hnone hnone'

/-- **An iteration in two states that are the same up to an unwritten `r`.** -/
theorem SameButR.iterate (hext : ExtensionsApart pf) (h : SameButR f s s')
    (hstray : NoStrayR f io s flags) (hstray' : NoStrayR f (io.withR x) s' flags)
    (hstep : runEvalIteration pf io s flags = some (s₁, flags₁))
    (hstep' : runEvalIteration pf (io.withR x) s' flags = some (s₁', flags₁')) :
    collectionAt (io.withR x) s' flags = collectionAt io s flags ∧ flags₁' = flags₁
      ∧ SameButR (f.after s s₁ (.iterate io)) s₁ s₁' := by
  show _ ∧ _ ∧ SameButR (freshAfter (f.pick io s).1 (f.pick io s).2 s₁) s₁ s₁'
  have hlen := h.queue.lengths
  rcases h.pick io x with ⟨hpick, hpick', hf⟩ | ⟨c, c', st, queue, hpick, hpick', hc, hq⟩
  · obtain ⟨hrun, heq⟩ := @runEvalIteration_of_not_pick pf _ _ flags hpick
    obtain ⟨hrun', heq'⟩ := @runEvalIteration_of_not_pick pf _ _ flags hpick'
    rw [heq] at hstep
    rw [heq'] at hstep'
    cases hstep
    cases hstep'
    refine ⟨by rw [collectionAt, collectionAt, hpick, hpick'], rfl, ?_⟩
    have hfresh : freshAfter (f.pick io s).1 (f.pick io s).2 s = ⟨false, f.queue⟩ := by
      simp [freshAfter, hrun, hf, hlen.1]
    rw [hfresh]
    exact ⟨h.store, h.queue, Or.inl ⟨hrun, hrun'⟩⟩
  · have hf' := h.pick_eq io x
    rw [runEvalIteration_of_pick hpick] at hstep
    rw [runEvalIteration_of_pick hpick'] at hstep'
    cases hkill : flags.performGc && flags.lastIterationGc with
    | true =>
      simp only [Bool.and_eq_true] at hkill
      rw [evaluationStep_of_kill hkill.1 hkill.2] at hstep hstep'
      cases hstep
      cases hstep'
      refine ⟨by simp [collectionAt, hkill.2], rfl, ?_⟩
      have herror : errorCtx c' (encSym symreprMerror) = errorCtx c (encSym symreprMerror) := by
        rw [hc.fields]
        rfl
      have hadded : st.ctxQueue = st.ctxQueue ++ [] := by simp
      have hsettle := @sameButR_settle st st (f.pick io s).1 _ queue []
        (errorCtx c (encSym symreprMerror)) x hq (by simp) hadded (by simp) c.r
      rw [herror]
      simpa [errorCtx, Outcome.setR] using hsettle
    | false =>
      obtain ⟨st₁, o, st', g, hdue, hstepCtx, rfl, rfl⟩ := evaluationStep_eq hkill hstep
      obtain ⟨st₁', o', st'', g', hdue', hstepCtx', rfl, rfl⟩ := evaluationStep_eq hkill hstep'
      have hcollect : flags.performGc = true →
          collect (gcCalls { st with ctxQueue := queue } c') st.heap
            = collect (gcCalls st c) st.heap := by
        intro hgc
        have hlast : flags.lastIterationGc = false := by simpa [hgc] using hkill
        exact collect_picked hc hq rfl hf' hpick hpick' hstray hstray' hgc hlast
      have hst₁ : st₁' = { st₁ with ctxQueue := queue } ∧ st₁.ctxQueue = st.ctxQueue := by
        cases hgc : flags.performGc with
        | false =>
          simp only [gcIfDue, hgc, Bool.false_eq_true, if_false, Option.some.injEq] at hdue hdue'
          rw [← hdue, ← hdue']
          exact ⟨rfl, rfl⟩
        | true =>
          simp only [gcIfDue, hgc, if_true, gc, hcollect hgc, Option.map_eq_some_iff] at hdue hdue'
          obtain ⟨⟨oks, h₁⟩, hh, rfl⟩ := hdue
          obtain ⟨⟨oks', h₁'⟩, hh', rfl⟩ := hdue'
          rw [hh] at hh'
          cases hh'
          exact ⟨rfl, rfl⟩
      obtain ⟨rfl, hqueue⟩ := hst₁
      obtain ⟨new, hbeside⟩ := stepCtx_beside hext x queue hstepCtx
      rw [hc.stepCtx hbeside.step] at hstepCtx'
      cases hstepCtx'
      refine ⟨?_, rfl, ?_⟩
      · simp only [collectionAt, hpick, hpick', Option.bind_some]
        split
        · next hgc =>
          simp only [Bool.and_eq_true] at hgc
          exact hcollect hgc.1
        · rfl
      · rw [← hqueue] at hq
        exact sameButR_settle hq hbeside.fresh hbeside.added hbeside.running c'.r

/-! ## Runs -/

/-- The same action, with another word in the memory for a new context. -/
def Action.withR (x : VALUE) : Action → Action
  | .create io program env stackSize growStack =>
      .create (io.withR x) program env stackSize growStack
  | .iterate io => .iterate (io.withR x)
  | a => a

theorem SameButR.create {program env : VALUE} {stackSize : StackSize} {growStack : Bool}
    (h : SameButR f s s')
    (hstep : (Action.create io program env stackSize growStack).exec pf s flags
      = some (s₁, flags₁))
    (hstep' : (Action.create (io.withR x) program env stackSize growStack).exec pf s' flags
      = some (s₁', flags₁')) :
    flags₁' = flags₁
      ∧ SameButR (f.after s s₁ (.create io program env stackSize growStack)) s₁ s₁' := by
  obtain ⟨new, hnew, hadded, hcreate⟩ := @createCtx_withR io s.toStore x s'.ctxQueue program env
    stackSize growStack
  rw [← h.store] at hcreate
  simp only [Action.exec, hcreate] at hstep hstep'
  cases hstep
  cases hstep'
  have hcount : (createCtx io program env stackSize growStack s.toStore).2.ctxQueue.length
      - f.queue.length = new.length := by
    rw [hadded, List.length_append, h.queue.lengths.1]
    omega
  refine ⟨rfl, rfl, ?_, h.running⟩
  show SameQueue (f.queue ++ List.replicate
    ((createCtx io program env stackSize growStack s.toStore).2.ctxQueue.length - f.queue.length)
    true) (createCtx io program env stackSize growStack s.toStore).2.ctxQueue _
  rw [hcount, hadded]
  exact h.queue.append (sameQueue_new x hnew)

theorem SameButR.remove {cid : CID} (h : SameButR f s s')
    (hstep : (Action.remove cid).exec pf s flags = some (s₁, flags₁))
    (hstep' : (Action.remove cid).exec pf s' flags = some (s₁', flags₁')) :
    flags₁' = flags₁ ∧ SameButR f s₁ s₁' := by
  have hdone : s'.ctxDone = s.ctxDone := by rw [h.store]
  simp only [Action.exec, hdone] at hstep hstep'
  cases hremove : removeDoneCtx cid s.ctxDone with
  | none =>
    rw [hremove] at hstep hstep'
    cases hstep
    cases hstep'
    exact ⟨rfl, h⟩
  | some res =>
    rw [hremove] at hstep hstep'
    cases hstep
    cases hstep'
    refine ⟨rfl, ?_, h.queue, h.running⟩
    rw [h.store]

theorem SameButR.alloc {a d : VALUE} (h : SameButR f s s')
    (hstep : (Action.alloc a d).exec pf s flags = some (s₁, flags₁))
    (hstep' : (Action.alloc a d).exec pf s' flags = some (s₁', flags₁')) :
    flags₁' = flags₁ ∧ SameButR f s₁ s₁' := by
  cases hstep
  cases hstep'
  refine ⟨rfl, ?_, h.queue, h.running⟩
  rw [h.store]

theorem SameButR.after_eq {f₁ : Fresh} {a : Action} (h : SameButR f s s')
    (h₁ : SameButR f₁ s₁ s₁') : f.after s' s₁' (a.withR x) = f.after s s₁ a := by
  have hlen : s₁'.ctxQueue.length = s₁.ctxQueue.length := h₁.queue.lengths.2
  cases a with
  | create io program env stackSize growStack => simp only [Fresh.after, Action.withR, hlen]
  | remove cid => rfl
  | alloc a d => rfl
  | iterate io =>
    simp only [Fresh.after, Action.withR, h.pick_eq, freshAfter, hlen]
    rcases h₁.running with ⟨hnone, hnone'⟩ | ⟨c, c', hrun, hrun', hc⟩
    · rw [hnone, hnone']
    · rw [hrun, hrun', hc.fields]

namespace HostRun

/-- Two runs that get the same from the outside, except for the words that `malloc` leaves in the
field `r` of new contexts. -/
structure SameInputs (run run' : HostRun pf) : Prop where
  len : run'.len = run.len
  start : run'.state 0 = run.state 0
  act : ∀ n, n < run.len → ∃ x, run'.act n = (run.act n).withR x

/-- Which contexts have not written `r` before action `n`. -/
def fresh (run : HostRun pf) : Nat → Fresh
  | 0 => ⟨false, []⟩
  | n + 1 => (run.fresh n).after (run.state n) (run.state (n + 1)) (run.act n)

/-- What the collection of action `n` does, if there is one. -/
def collection (run : HostRun pf) (n : Nat) : Option (List Bool × HeapState) :=
  match run.act n with
  | .iterate io => collectionAt io (run.state n) (run.flags n)
  | _ => none

/-- Whenever a collection happens, there is no pointer in the `r` of a context that has not
delivered a value yet. -/
def NoStray (run : HostRun pf) : Prop :=
  ∀ n io, n < run.len → run.act n = .iterate io →
    NoStrayR (run.fresh n) io (run.state n) (run.flags n)

/-- The collections of two runs have the same outcome. -/
def CollectAlike (run run' : HostRun pf) : Prop :=
  ∀ n, n < run.len → run'.collection n = run.collection n

/-- What holds between two runs before action `n`. -/
structure Alike (run run' : HostRun pf) (n : Nat) : Prop where
  states : SameButR (run.fresh n) (run.state n) (run'.state n)
  flags : run'.flags n = run.flags n
  fresh : run'.fresh n = run.fresh n

variable {run run' : HostRun pf} {n : Nat}

theorem SameInputs.step (hext : ExtensionsApart pf) (hsame : run.SameInputs run')
    (hstray : run.NoStray) (hstray' : run'.NoStray) (hn : n < run.len) (h : run.Alike run' n) :
    run'.collection n = run.collection n ∧ run.Alike run' (n + 1) := by
  obtain ⟨x, hact'⟩ := hsame.act n hn
  have hn' : n < run'.len := by rw [hsame.len]; exact hn
  have hstep := run.step n hn
  have hstep' := run'.step n hn'
  rw [h.flags, hact'] at hstep'
  have hfinish : run'.flags (n + 1) = run.flags (n + 1)
      ∧ SameButR (run.fresh (n + 1)) (run.state (n + 1)) (run'.state (n + 1)) →
      run.Alike run' (n + 1) := by
    rintro ⟨hflags, hstates⟩
    refine ⟨hstates, hflags, ?_⟩
    rw [HostRun.fresh, HostRun.fresh, h.fresh, hact']
    exact h.states.after_eq hstates
  cases hact : run.act n with
  | create io program env stackSize growStack =>
    rw [hact] at hstep hact'
    rw [hact] at hstep'
    refine ⟨by simp [collection, hact, hact', Action.withR], hfinish ?_⟩
    rw [HostRun.fresh, hact]
    exact h.states.create hstep hstep'
  | remove cid =>
    rw [hact] at hstep hstep' hact'
    refine ⟨by simp [collection, hact, hact', Action.withR], hfinish ?_⟩
    rw [HostRun.fresh, hact]
    exact h.states.remove hstep hstep'
  | alloc a d =>
    rw [hact] at hstep hstep' hact'
    refine ⟨by simp [collection, hact, hact', Action.withR], hfinish ?_⟩
    rw [HostRun.fresh, hact]
    exact h.states.alloc hstep hstep'
  | iterate io =>
    rw [hact] at hstep hstep' hact'
    have hnone := hstray n io hn hact
    have hnone' := hstray' n (io.withR x) hn' hact'
    rw [h.fresh, h.flags] at hnone'
    obtain ⟨hcollect, hstates⟩ := h.states.iterate hext hnone hnone' hstep hstep'
    refine ⟨?_, hfinish ?_⟩
    · simpa only [collection, hact, hact', Action.withR, h.flags] using hcollect
    · rw [HostRun.fresh, hact]
      exact hstates

theorem SameInputs.alike (hext : ExtensionsApart pf) (hsame : run.SameInputs run')
    (hstray : run.NoStray) (hstray' : run'.NoStray) : ∀ n, n ≤ run.len → run.Alike run' n := by
  intro n
  induction n with
  | zero =>
    intro _
    obtain ⟨hflags, hqueue, -, hrunning, -⟩ := run.start
    refine ⟨?_, by rw [run'.start.1, hflags], rfl⟩
    rw [hsame.start]
    refine ⟨rfl, ?_, Or.inl ⟨hrunning, hrunning⟩⟩
    rw [hqueue]
    exact .nil
  | succ n ih =>
    intro hn
    exact (hsame.step hext hstray hstray' (by omega) (ih (by omega))).2

/-- **Collections do not depend on what `malloc` left in a context**, as long as no pointer is
left there when one happens. -/
theorem collectAlike (hext : ExtensionsApart pf) (hsame : run.SameInputs run')
    (hstray : run.NoStray) (hstray' : run'.NoStray) : run.CollectAlike run' :=
  fun n hn => (hsame.step hext hstray hstray' hn
    (hsame.alike hext hstray hstray' n (Nat.le_of_lt hn))).1

end HostRun

end

/-! ## A collection before the first value -/

/-- The globals with the program `((lambda () 1))` in the heap, and the program. A cell that
nothing refers to takes the last free one. -/
def lambdaProgram : VALUE × Store :=
  let st := evalCpsInit 7
  let (lisp, h) := (Datum.list [.list [.sym symreprLambda, .atom NIL, .int 1#32]]).build st.heap
  (lisp, { st with heap := (cons NIL NIL h).2 })

/-- The host starts the program, with the word `x` in the memory for the context. -/
def startLambda (x : VALUE) : Nat → Action
  | 0 => .create (plainOutside.withR x) lambdaProgram.1 NIL 256 false
  | _ + 1 => .iterate plainOutside

theorem sameInputs_startLambda {x y : VALUE} {len : Nat} (hx) (hy) :
    (HostRun.of lambdaProgram.2 (startLambda x) len hx).SameInputs
      (HostRun.of lambdaProgram.2 (startLambda y) len hy) := by
  refine ⟨rfl, rfl, fun n _ => ?_⟩
  cases n with
  | zero => exact ⟨y, rfl⟩
  | succ n => exact ⟨0#32, rfl⟩

set_option maxRecDepth 20000 in
/-- The memory for the context is clear, holds the number 5, or a pointer to the last cell. -/
theorem actStates_clear : (actStates { lambdaProgram.2 with
    ctxQueue := [], ctxDone := [], nextCtxId := 1#32, ctxRunning := none }
    (startLambda 0#32) 3).isSome = true := by
  decide

set_option maxRecDepth 20000 in
theorem actStates_number : (actStates { lambdaProgram.2 with
    ctxQueue := [], ctxDone := [], nextCtxId := 1#32, ctxRunning := none }
    (startLambda (encI 5#32)) 3).isSome = true := by
  decide

set_option maxRecDepth 20000 in
theorem actStates_pointer : (actStates { lambdaProgram.2 with
    ctxQueue := [], ctxDone := [], nextCtxId := 1#32, ctxRunning := none }
    (startLambda (cellPtr 6)) 3).isSome = true := by
  decide

def clearRun : HostRun plainPlatform := HostRun.of _ _ 3 actStates_clear

def numberRun : HostRun plainPlatform := HostRun.of _ _ 3 actStates_number

def pointerRun : HostRun plainPlatform := HostRun.of _ _ 3 actStates_pointer

/-- The collection of these runs is that of the last action; the context is the only one. -/
theorem noStray_of_startLambda {run : HostRun plainPlatform} {x : VALUE} (hlen : run.len = 3)
    (hact : run.act = startLambda x)
    (hfirst : (run.flags 1).performGc = false)
    (hlast : (pickCtx plainOutside (run.state 2)).map (fun p => (isPtr p.1.r, p.2.ctxQueue))
      = some (false, [])) : run.NoStray := by
  intro n io hn hio hgc _ c st hpick
  rw [hlen] at hn
  interval_cases n
  · rw [hact] at hio
    cases hio
  · rw [hfirst] at hgc
    cases hgc
  · rw [hact] at hio
    cases hio
    rw [hpick] at hlast
    obtain ⟨hptr, hqueue⟩ := Prod.mk.inj (Option.some.inj hlast)
    refine ⟨fun hstray => ?_, ?_⟩
    · rw [hstray.2] at hptr
      cases hptr
    · rw [show st.ctxQueue = [] from hqueue, List.zip_nil_right]
      simp

set_option maxRecDepth 20000 in
theorem noStray_clearRun : clearRun.NoStray :=
  noStray_of_startLambda rfl rfl (by decide) (by decide)

set_option maxRecDepth 20000 in
theorem noStray_numberRun : numberRun.NoStray :=
  noStray_of_startLambda rfl rfl (by decide) (by decide)

/-- A number in the memory for the context does not change the collection, which takes place. -/
theorem collectAlike_clearRun_numberRun :
    clearRun.CollectAlike numberRun ∧ (clearRun.collection 2).isSome = true :=
  ⟨HostRun.collectAlike extensionsApart_plainPlatform (sameInputs_startLambda _ _)
    noStray_clearRun noStray_numberRun, by decide +kernel⟩

/-- **A pointer that `malloc` left in the memory for a context keeps a dead cell.** -/
theorem not_collectAlike_clearRun_pointerRun :
    clearRun.SameInputs pointerRun ∧ ¬clearRun.CollectAlike pointerRun := by
  refine ⟨sameInputs_startLambda _ _, fun hsame => ?_⟩
  have hcells := congrArg (fun res => res.map fun p => p.2.numAlloc) (hsame 2 (by decide))
  revert hcells
  decide +kernel

end LispBM
