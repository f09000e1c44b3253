import LispBM.EvalCps.Scheduler

/-!
# LispBM — the queues of the evaluator are the linked lists (`src/eval_cps.c`)

The evaluator's model has the run queue and the done list as lists of contexts, and functions on
them under the names of the source. Here these are compared with the functions on the linked lists:
where the pointers and links spell the lists, an operation has the same result on both, and leaves
pointers and links that spell the lists again.

* `Op.onLists` — an operation, made with the functions of the evaluator's model;
* `exec_onLists` — one operation;
* `Runs.onLists` — any sequence of operations.
-/

namespace LispBM

namespace Scheduler

/-- The queues, the running context and the next id, as the evaluator's model has them. -/
structure OnLists (s : Sched) (q : Places) (st : EvalState) : Prop where
  ctxQueue : st.ctxQueue = q.queue.map s.ctxAt
  ctxRunning : st.ctxRunning = q.running.map s.ctxAt
  ctxDone : st.ctxDone = q.done.map s.ctxAt
  nextCtxId : st.nextCtxId = s.nextCtxId

/-- What the memory for a new context holds is there in its field `r`, which `create_ctx` does not
initialise. -/
def Op.createOnLists (io : Outside) (node : Node) (h : HeapState) (program env : VALUE)
    (stackSize : StackSize) (growStack : Bool) (st : EvalState) : CID × Store :=
  LispBM.createCtx { io with uninitR := node.r } program env stackSize growStack
    { st.toStore with heap := h }

/-- An operation, by the functions on lists. -/
def Op.onLists (st : EvalState) : Op → Out × EvalState
  | .create io _ node h program env stackSize growStack =>
      let (cid, st') := Op.createOnLists io node h program env stackSize growStack st
      (.id cid, { st' with heap := st.heap, ctxRunning := st.ctxRunning })
  | .schedule tNow =>
      match st.ctxRunning with
      | some _ => (.unit, st)
      | none =>
          match LispBM.dequeueCtx tNow st.ctxQueue with
          | none => (.unit, st)
          | some (ctx, queue) => (.unit, { st with ctxQueue := queue, ctxRunning := some ctx })
  | .yield io sleepUs =>
      match st.ctxRunning with
      | none => (.unit, st)
      | some ctx => (.unit, (LispBM.yieldCtx io ctx sleepUs).settle st.toStore)
  | .finish =>
      match st.ctxRunning with
      | none => (.unit, st)
      | some ctx => (.unit, (Outcome.finished ctx).settle st.toStore)
  | .error errVal =>
      match st.ctxRunning with
      | none => (.unit, st)
      | some ctx => (.unit, (LispBM.errorCtx ctx errVal).settle st.toStore)
  | .remove cid =>
      match LispBM.removeDoneCtx cid st.ctxDone with
      | none => (.result none, st)
      | some (r, done) => (.result (some r), { st with ctxDone := done })
  | .evaluate ctx => (.unit, { st with ctxRunning := some ctx })

/-! ## Lists of contexts -/

section

variable {s s' : Sched} {q q' : Places} {st : EvalState} {op : Op} {out : Out} {a : Addr}
  {l l₁ l₂ : List Addr} {tNow : UINT} {cid : CID}

theorem map_ctxAt (h : ∀ b ∈ l, s'.ctxAt b = s.ctxAt b) : l.map s.ctxAt = l.map s'.ctxAt :=
  List.map_congr_left fun b hb => (h b hb).symm

/-- The elapsed-time test is the same on both. -/
theorem dequeueCtx_cons {b : Addr} : LispBM.dequeueCtx tNow (s.ctxAt b :: l.map s.ctxAt)
    = if awake tNow (s.mem b) then some (s.ctxAt b, l.map s.ctxAt)
      else (LispBM.dequeueCtx tNow (l.map s.ctxAt)).map fun (r, cs) => (r, s.ctxAt b :: cs) := by
  by_cases h : awake tNow (s.mem b) = true
  · rw [if_pos h, LispBM.dequeueCtx]
    exact if_pos (of_decide_eq_true h)
  · rw [if_neg h, LispBM.dequeueCtx]
    exact if_neg fun hle => h (decide_eq_true hle)

theorem dequeueCtx_of_none (h : ∀ b ∈ l, awake tNow (s.mem b) = false) :
    LispBM.dequeueCtx tNow (l.map s.ctxAt) = none := by
  induction l with
  | nil => rfl
  | cons b l ih =>
    rw [List.map_cons, dequeueCtx_cons, h b List.mem_cons_self, if_neg (by decide),
      ih fun c hc => h c (List.mem_cons_of_mem _ hc), Option.map_none]

theorem dequeueCtx_of_first (h : ∀ b ∈ l₁, awake tNow (s.mem b) = false)
    (ha : awake tNow (s.mem a) = true) :
    LispBM.dequeueCtx tNow ((l₁ ++ a :: l₂).map s.ctxAt)
      = some (s.ctxAt a, (l₁ ++ l₂).map s.ctxAt) := by
  induction l₁ with
  | nil => rw [List.nil_append, List.map_cons, dequeueCtx_cons, if_pos ha, List.nil_append]
  | cons b l₁ ih =>
    rw [List.cons_append, List.map_cons, dequeueCtx_cons, h b List.mem_cons_self,
      if_neg (by decide), ih fun c hc => h c (List.mem_cons_of_mem _ hc), Option.map_some,
      List.cons_append, List.map_cons]

theorem removeDoneCtx_of_none (h : ∀ b ∈ l, (s.ctxAt b).id ≠ cid) :
    LispBM.removeDoneCtx cid (l.map s.ctxAt) = none := by
  induction l with
  | nil => rfl
  | cons b l ih =>
    rw [List.map_cons, LispBM.removeDoneCtx, if_neg (h b List.mem_cons_self),
      ih fun c hc => h c (List.mem_cons_of_mem _ hc), Option.map_none]

theorem removeDoneCtx_of_first (h : ∀ b ∈ l₁, (s.ctxAt b).id ≠ cid) (ha : (s.ctxAt a).id = cid) :
    LispBM.removeDoneCtx cid ((l₁ ++ a :: l₂).map s.ctxAt)
      = some ((s.ctxAt a).r, (l₁ ++ l₂).map s.ctxAt) := by
  induction l₁ with
  | nil => rw [List.nil_append, List.map_cons, LispBM.removeDoneCtx, if_pos ha, List.nil_append]
  | cons b l₁ ih =>
    rw [List.cons_append, List.map_cons, LispBM.removeDoneCtx, if_neg (h b List.mem_cons_self),
      ih fun c hc => h c (List.mem_cons_of_mem _ hc), Option.map_some, List.cons_append,
      List.map_cons]

/-! ## `create_ctx` -/

/-- The contexts that were there are still there, and in the same places. -/
theorem OnLists.same (h : OnLists s q st) (hsame : ∀ b ∈ q.all, s'.ctxAt b = s.ctxAt b)
    (hnext : s'.nextCtxId = st.nextCtxId) : OnLists s' q st where
  ctxQueue := h.ctxQueue.trans (map_ctxAt fun b hb => hsame b (mem_all_of_queue hb))
  ctxRunning := by
    rw [h.ctxRunning]
    cases hrun : q.running with
    | none => rfl
    | some a => rw [Option.map_some, Option.map_some, hsame a (mem_all_of_running hrun)]
  ctxDone := h.ctxDone.trans (map_ctxAt fun b hb => hsame b (mem_all_of_done hb))
  nextCtxId := hnext.symm

/-- The contexts beside the running one are the same. -/
theorem OnLists.beside (h : OnLists s q st) (hrep : Represents s q) (hrun : q.running = some a)
    (hsame : ∀ b ∈ q.all, b ≠ a → s'.ctxAt b = s.ctxAt b) :
    st.ctxRunning = some (s.ctxAt a) ∧ st.ctxQueue = q.queue.map s'.ctxAt
      ∧ st.ctxDone = q.done.map s'.ctxAt := by
  refine ⟨by rw [h.ctxRunning, hrun, Option.map_some], ?_, ?_⟩
  · refine h.ctxQueue.trans (map_ctxAt fun b hb => hsame b (mem_all_of_queue hb) ?_)
    rintro rfl
    exact hrep.running_queue hrun hb
  · refine h.ctxDone.trans (map_ctxAt fun b hb => hsame b (mem_all_of_done hb) ?_)
    rintro rfl
    exact hrep.running_done hrun hb

theorem create_onLists {io : Outside} {addr : Addr} {node : Node} {heap : HeapState}
    {program env : VALUE} {stackSize : StackSize} {growStack : Bool} (h : Represents s q)
    (hlists : OnLists s q st) (hfresh : addr ∉ s.live) :
    ∃ s' q', createCtx io addr node heap program env stackSize growStack s
        = some ((Op.createOnLists io node heap program env stackSize growStack st).1, s')
      ∧ Represents s' q'
      ∧ OnLists s' q' ⟨(Op.createOnLists io node heap program env stackSize growStack st).2,
        st.ctxRunning⟩ := by
  have hsame : OnLists s q ⟨{ st.toStore with heap := heap, nextCtxId := s.nextCtxId },
      st.ctxRunning⟩ := ⟨hlists.ctxQueue, hlists.ctxRunning, hlists.ctxDone, rfl⟩
  unfold Op.createOnLists LispBM.createCtx createCtx
  simp only [hlists.nextCtxId]
  by_cases hnext : s.nextCtxId = 0#32
  · rw [if_pos hnext, if_pos hnext]
    exact ⟨s, q, rfl, h, hsame⟩
  rw [if_neg hnext, if_neg hnext]
  by_cases hty : (typeOf program != ptrTypeCons) = true
  · rw [if_pos hty, if_pos hty]
    exact ⟨s, q, rfl, h, hsame⟩
  rw [if_neg hty, if_neg hty]
  by_cases hmalloc : (!io.mallocCtx) = true
  · rw [if_pos hmalloc, if_pos hmalloc]
    exact ⟨s, q, rfl, h, hsame⟩
  rw [if_neg hmalloc, if_neg hmalloc]
  -- from here on an id is used
  have hrep := h.setNextCtxId (s.nextCtxId + 1#32)
  have hused : OnLists { s with nextCtxId := s.nextCtxId + 1#32 } q
      ⟨{ st.toStore with heap := heap, nextCtxId := s.nextCtxId + 1#32 }, st.ctxRunning⟩ :=
    ⟨hlists.ctxQueue, hlists.ctxRunning, hlists.ctxDone, rfl⟩
  cases stackAllocate io.malloc stackSize growStack with
  | none => exact ⟨_, q, rfl, hrep, hused⟩
  | some K =>
    simp only
    rcases pushU32 io.malloc K (encU contDone) with ⟨ok, K⟩
    cases ok with
    | false => exact ⟨_, q, rfl, hrep, hused⟩
    | true =>
      obtain ⟨s', henqueue, hrep', hnode, hnext', hold⟩ := hrep.enqueueNew hfresh
        { node with
          program := cdr heap program, currExp := car heap program, currEnv := env, done := false,
          appCont := false, timestamp := 0#32, sleepUs := 0#32,
          id := s.nextCtxId.setWidth 16, K := K }
      have hkept := hused.same hold hnext'
      refine ⟨s', _, ?_, hrep', ⟨?_, hkept.ctxRunning, hkept.ctxDone, hkept.nextCtxId⟩⟩
      · simp only [henqueue, Option.bind_eq_bind, Option.bind_some]
      · show _ ++ [_] = (q.queue ++ [addr]).map s'.ctxAt
        have hqueue : st.ctxQueue = q.queue.map s'.ctxAt := hkept.ctxQueue
        rw [List.map_append, List.map_singleton, hnode, ← hqueue]

/-! ## The operations -/

/-- **An operation on the linked lists is the one on the lists**: it has the same result, and its
pointers and links spell the lists that the other one leaves. -/
theorem exec_onLists (h : Represents s q) (hlists : OnLists s q st) (hop : op.Enabled s)
    (hexec : op.exec s = some (out, s')) :
    ∃ q', Represents s' q' ∧ OnLists s' q' (op.onLists st).2 ∧ (op.onLists st).1 = out := by
  obtain ⟨out', s'', q', hexec', hrep, hnext, heffect⟩ := op_effect h hop
  obtain ⟨rfl, rfl⟩ : out' = out ∧ s'' = s' :=
    Prod.mk.inj (Option.some.inj (hexec'.symm.trans hexec))
  have hkeeps (hnot : op.isCreate = false) : s''.nextCtxId = st.nextCtxId := by
    rw [hlists.nextCtxId]
    exact hnext.resolve_right fun hcreate => absurd (hnot.symm.trans hcreate.1) (by decide)
  have hidle (hrun : q.running = none) : st.ctxRunning = none := by
    rw [hlists.ctxRunning, hrun, Option.map_none]
  cases heffect with
  | created | notCreated =>
    -- both functions make the same tests in the same order
    obtain ⟨s₁, q₁, hcreate, hrep₁, hlists₁⟩ := create_onLists h hlists hop
    rw [Op.exec, hcreate, Option.map_some] at hexec
    obtain ⟨hout, rfl⟩ := Prod.mk.inj (Option.some.inj hexec)
    exact ⟨q₁, hrep₁,
      ⟨hlists₁.ctxQueue, hlists₁.ctxRunning, hlists₁.ctxDone, hlists₁.nextCtxId⟩, hout⟩
  | @picked tNow a l₁ l₂ hrun hq hfirst ha hsame =>
    -- the first context that is awake is taken out of the queue
    have hkept := hlists.same hsame (hkeeps rfl)
    have hfound : LispBM.dequeueCtx tNow st.ctxQueue
        = some (s.ctxAt a, (l₁ ++ l₂).map s.ctxAt) := by
      rw [hlists.ctxQueue, hq]
      exact dequeueCtx_of_first hfirst ha
    have hall : ∀ b, b = a ∨ b ∈ l₁ ++ l₂ → s''.ctxAt b = s.ctxAt b := by
      intro b hb
      refine hsame b (mem_all_of_queue ?_)
      rw [hq]
      simp only [List.mem_append, List.mem_cons] at hb ⊢
      tauto
    unfold Op.onLists
    simp only [hidle hrun, hfound]
    refine ⟨_, hrep, ⟨?_, ?_, hkept.ctxDone, hkept.nextCtxId⟩, trivial⟩
    · exact map_ctxAt fun b hb => hall b (.inr hb)
    · show some (s.ctxAt a) = some (s''.ctxAt a)
      rw [hall a (.inl rfl)]
  | @nonePicked tNow hrun hq hsame =>
    have hfound : LispBM.dequeueCtx tNow st.ctxQueue = none := by
      rw [hlists.ctxQueue]
      exact dequeueCtx_of_none hq
    unfold Op.onLists
    simp only [hidle hrun, hfound]
    exact ⟨_, hrep, hlists.same hsame (hkeeps rfl), trivial⟩
  | busy hrun hsame =>
    -- nothing is scheduled while a context is running
    obtain ⟨a, hrun⟩ := Option.ne_none_iff_exists'.mp hrun
    have hbusy : st.ctxRunning = some (s.ctxAt a) := by
      rw [hlists.ctxRunning, hrun, Option.map_some]
    unfold Op.onLists
    simp only [hbusy]
    exact ⟨_, hrep, hlists.same hsame (hkeeps rfl), trivial⟩
  | @yielded io sleepUs a hrun ha hsame =>
    -- the running context goes to the end of the queue, with the time and `sleepUs`
    obtain ⟨hctx, hqueue, hdone⟩ := hlists.beside h hrun hsame
    unfold Op.onLists
    simp only [hctx, ha]
    refine ⟨_, hrep, ⟨?_, rfl, hdone, (hkeeps rfl).symm⟩, trivial⟩
    show st.ctxQueue ++ [s''.ctxAt a] = (q.queue ++ [a]).map s''.ctxAt
    rw [List.map_append, List.map_singleton, hqueue]
  | @finished a hrun hsame =>
    obtain ⟨hctx, hqueue, hdone⟩ := hlists.beside h hrun fun b hb _ => hsame b hb
    unfold Op.onLists
    simp only [hctx]
    refine ⟨_, hrep, ⟨hqueue, rfl, ?_, (hkeeps rfl).symm⟩, trivial⟩
    show s.ctxAt a :: st.ctxDone = (a :: q.done).map s''.ctxAt
    rw [List.map_cons, hsame a (mem_all_of_running hrun), hdone]
  | @failed errVal a hrun ha hsame =>
    obtain ⟨hctx, hqueue, hdone⟩ := hlists.beside h hrun hsame
    unfold Op.onLists
    simp only [hctx]
    refine ⟨_, hrep, ⟨hqueue, rfl, ?_, (hkeeps rfl).symm⟩, trivial⟩
    show { s.ctxAt a with r := errVal } :: st.ctxDone = (a :: q.done).map s''.ctxAt
    rw [List.map_cons, ha, hdone]
  | @removed cid a l₁ l₂ hq hfirst ha hsame =>
    have hkept := hlists.same hsame (hkeeps rfl)
    have hfound : LispBM.removeDoneCtx cid st.ctxDone
        = some ((s.ctxAt a).r, (l₁ ++ l₂).map s.ctxAt) := by
      rw [hlists.ctxDone, hq]
      exact removeDoneCtx_of_first hfirst ha
    unfold Op.onLists
    simp only [hfound]
    refine ⟨_, hrep, ⟨hkept.ctxQueue, hkept.ctxRunning, ?_, hkept.nextCtxId⟩, trivial⟩
    refine map_ctxAt fun b hb => hsame b (mem_all_of_done ?_)
    rw [hq]
    simp only [List.mem_append, List.mem_cons] at hb ⊢
    tauto
  | @notRemoved cid hq hsame =>
    have hfound : LispBM.removeDoneCtx cid st.ctxDone = none := by
      rw [hlists.ctxDone]
      exact removeDoneCtx_of_none hq
    unfold Op.onLists
    simp only [hfound]
    exact ⟨_, hrep, hlists.same hsame (hkeeps rfl), trivial⟩
  | @evaluated ctx a hrun ha hsame =>
    -- an evaluation step writes to the running context only
    obtain ⟨-, hqueue, hdone⟩ := hlists.beside h hrun hsame
    refine ⟨_, hrep, ⟨hqueue, ?_, hdone, (hkeeps rfl).symm⟩, rfl⟩
    show some ctx = q.running.map s''.ctxAt
    rw [hrun, Option.map_some, ha]

end

/-! ## Runs -/

/-- The operations `ops` take `s` to `s'`, and return `outs`. -/
inductive Runs : Sched → List Op → List Out → Sched → Prop where
  | nil (s : Sched) : Runs s [] [] s
  | cons {s s' s'' : Sched} {op : Op} {ops : List Op} {out : Out} {outs : List Out}
      (hop : op.Enabled s) (hexec : op.exec s = some (out, s')) (hrest : Runs s' ops outs s'') :
      Runs s (op :: ops) (out :: outs) s''

/-- The same by the functions on lists. -/
def runOnLists (st : EvalState) : List Op → List Out × EvalState
  | [] => ([], st)
  | op :: ops =>
      let (out, st) := op.onLists st
      let (outs, st) := runOnLists st ops
      (out :: outs, st)

/-- **The queues of the evaluator are the linked lists**: in any sequence of operations the results
are the same, and in the end the pointers and links spell the lists. -/
theorem Runs.onLists {s s' : Sched} {ops : List Op} {outs : List Out} (hrun : Runs s ops outs s') :
    ∀ {q : Places} {st : EvalState}, Represents s q → OnLists s q st →
      ∃ q', Represents s' q' ∧ OnLists s' q' (runOnLists st ops).2
        ∧ (runOnLists st ops).1 = outs := by
  induction hrun with
  | nil s => exact fun h hlists => ⟨_, h, hlists, rfl⟩
  | cons hop hexec _ ih =>
    intro q st h hlists
    obtain ⟨q₁, h₁, hlists₁, hout⟩ := exec_onLists h hlists hop hexec
    obtain ⟨q', h', hlists', houts⟩ := ih h₁ hlists₁
    refine ⟨q', h', hlists', ?_⟩
    show (Op.onLists st _).1 :: (runOnLists (Op.onLists st _).2 _).1 = _
    rw [hout, houts]

/-- A new evaluator has empty queues. -/
theorem Runs.onLists_start {mem : Addr → Node} {numCells : Nat} {s' : Sched} {ops : List Op}
    {outs : List Out} (hrun : Runs (start mem) ops outs s') :
    ∃ q', Represents s' q' ∧ OnLists s' q' (runOnLists ⟨evalCpsInit numCells, none⟩ ops).2
      ∧ (runOnLists ⟨evalCpsInit numCells, none⟩ ops).1 = outs := by
  have hrep : Represents (start mem) ⟨[], none, []⟩ :=
    ⟨trivial, trivial, rfl, rfl, rfl, rfl, .refl _, List.nodup_nil⟩
  exact hrun.onLists hrep ⟨rfl, rfl, rfl, rfl⟩

end Scheduler

end LispBM
