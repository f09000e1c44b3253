import LispBM.EvalCps.Contexts
import LispBM.EvalCps.Evaluation
import LispBM.EvalCps.Runs
import LispBM.Semantics.Initial

/-!
# LispBM — programs in the concurrent evaluator

A program with a value is built in a new heap, its context is created, and the evaluation loop runs
it: after finitely many iterations the context is finished, with a word for the value in `r`, and
the heap stands for the memory after the program. Or its stack was full.

* `programTo` — the expressions of a program, one after the other;
* `iterations_of_leads` — the loop with one context;
* `program_finishes` — programs from the start.
-/

namespace LispBM

open FrameStack Machine

/-! ## The loop -/

/-- `n` iterations of the loop of `eval_cps_run_eval`, with what the target contributes to each. -/
def iterations (pf : Platform) (io : Nat → Outside) :
    Nat → EvalState × GcFlags → Option (EvalState × GcFlags)
  | 0, s => some s
  | n + 1, s => (runEvalIteration pf (io 0) s.1 s.2).bind (iterations pf (fun k => io (k + 1)) n)

/-- A context of which a push has failed. -/
def StackFull (s : EvalState) : Prop := ∃ o st, OutOfStack o ∧ s = o.settle st

section

variable {pf : Platform} {R : Store → Store → Prop} {P : EvalContext × Store → Prop}
  {Q : EvalContext → Store → Prop} {s : EvalState} {flags : GcFlags}

/-- Without a collection, an iteration is a step of the context that it works on. -/
theorem runEvalIteration_of_step {io : Outside} {c : EvalContext} {st st' : Store} {o : Outcome}
    (hpick : pickCtx io s = some (c, st)) (hgc : flags.performGc = false)
    (hstep : stepCtx pf io c st = some (o, st', false)) :
    runEvalIteration pf io s flags = some (o.settle st', ⟨false, false⟩) := by
  rw [runEvalIteration_of_pick hpick]
  unfold evaluationStep gcIfDue
  rw [hgc]
  simp only [Bool.false_and, Bool.false_eq_true, if_false, Option.bind_eq_bind, Option.bind_some,
    hstep]

/-- **The loop follows a context** that comes to a state in which it is finished. -/
theorem iterations_of_leads {t : EvalContext × Store}
    (h : (contextMachine pf R).Leads (Semantics.Straight pf) P t)
    (hlast : ∀ u io, P u →
      ∃ c st, stepCtx pf io u.1 u.2 = some (.finished c, st, false) ∧ Q c st) :
    ∀ {io : Nat → Outside} {s : EvalState} {flags : GcFlags}, pickCtx (io 0) s = some t →
      flags.performGc = false → ∃ n s', iterations pf io n (s, flags) = some (s', ⟨false, false⟩)
        ∧ (StackFull s' ∨ ∃ c st, Q c st ∧ s' = (Outcome.finished c).settle st) := by
  induction h with
  | @here t hP =>
    intro io s flags hpick hgc
    obtain ⟨c, st, hstep, hQ⟩ := hlast t (io 0) hP
    have hiter := runEvalIteration_of_step hpick hgc hstep
    exact ⟨1, _, by rw [iterations, hiter]; rfl, .inr ⟨c, st, hQ, rfl⟩⟩
  | @next t hlive _ ih =>
    intro io s flags hpick hgc
    obtain ⟨o, st, hstep, hnext⟩ := hlive.step (io 0)
    have hiter := runEvalIteration_of_step hpick hgc hstep
    rcases hnext with hfull | ⟨c, rfl⟩
    · exact ⟨1, _, by rw [iterations, hiter]; rfl, .inl ⟨o, st, hfull, rfl⟩⟩
    · have hmachine : (contextMachine pf R).step t (c, st) :=
        ⟨hlive.done, io 0, _, st, false, hstep, .atOnce⟩
      -- the context is the running one now
      obtain ⟨n, s', hrest, hend⟩ := @ih _ hmachine (fun k => io (k + 1)) _ ⟨false, false⟩
        (pickCtx_of_running (s := (Outcome.running c).settle st) rfl) rfl
      refine ⟨n + 1, s', ?_, hend⟩
      rw [iterations, hiter]
      exact hrest

end

namespace Semantics

section

variable {pf : Platform} {R : Store → Store → Prop} {n n₁ n₂ : Nat} {Λ Λ₁ : Layout}
  {m m₁ m' : Memory} {E E₁ E' : Env} {e v v₁ : Val} {es : List Val} {s : EvalContext × Store}

/-! ## Expressions of a program -/

/-- The context is about to evaluate the first of the expressions; the others are what is left of
its program. -/
def AtProgram (E : Env) (es : List Val) (Λ : Layout) (m : Memory) (s : EvalContext × Store) :
    Prop :=
  match es with
  | [] => False
  | e :: es => Evaluating Frame.done.words E e Λ m s ∧ Holds s.2.heap Λ s.1.program (.list es)

/-- The program has the value `v`, and nothing is left of it. -/
structure Delivered (id : CID) (v : Val) (Λ : Layout) (m : Memory) (s : EvalContext × Store) :
    Prop where
  appCont : s.1.appCont = true
  done : s.1.done = false
  stack : s.1.K.contents = Frame.done.words
  program : s.1.program = NIL
  id : s.1.id = id
  val : Holds s.2.heap Λ s.1.r v
  sound : Sound s.2.heap Λ m s.2.envGlobal

theorem EvalProgram.exists_cons {T : Target} (h : EvalProgram T m E es n m' v E') :
    ∃ e es', es = e :: es' := by
  cases h with
  | last => exact ⟨_, _, rfl⟩
  | next => exact ⟨_, _, rfl⟩

/-- The next expression of the program. -/
theorem stepCtx_advance {E₂ : Env} (hr : Returning Frame.done.words v E₂ Λ m s)
    (hprogram : Holds s.2.heap Λ s.1.program (.list (e :: es))) (io : Outside) :
    ∃ c, stepCtx pf io s.1 s.2 = some (.running c, s.2, false) ∧ c.id = s.1.id
      ∧ AtProgram E₂ (e :: es) Λ m (c, s.2) := by
  obtain ⟨hty, hcar, hcdr⟩ := hprogram.list_uncons
  have hstack : s.1.K.contents = [] ++ Frame.done.words := hr.stack
  obtain ⟨K, hpop, -, hstep⟩ := stepCtx_of_frame hr.appCont hstack
  have hcase : contSwitch pf io contDone (s.1.resumed K) s.2
      = some (advanceCtx io (s.1.resumed K) s.2) := rfl
  have hcons : (typeOf s.1.program == ptrTypeCons) = true := beq_iff_eq.mpr hty
  have hgo : stepCtx pf io s.1 s.2 = some (advanceCtx io (s.1.resumed K) s.2) :=
    (hstep pf io s.2).trans hcase
  rw [hgo]
  unfold advanceCtx
  simp only [EvalContext.resumed, hcons, if_true]
  refine ⟨_, rfl, rfl, ⟨rfl, hr.done, ?_, hcar, hr.env, hr.sound⟩, hcdr⟩
  -- the tag is pushed where it was popped
  have hback : popU32 s.1.K = some (encU contDone, K) := hpop
  show (pushU32 io.malloc K (encU contDone)).2.contents = Frame.done.words
  rw [pushU32_popU32 hback]
  exact hr.stack

/-- **A program comes to the value of its last expression.** -/
theorem programTo (h : EvalProgram pf.target m E es n m' v E') :
    ∀ {Λ : Layout} {s : EvalContext × Store}, AtProgram E es Λ m s → n ≤ Λ.free.length →
      (contextMachine pf R).Leads (Straight pf)
        (fun u => ∃ Λ', Delivered s.1.id v Λ' m' u) s := by
  induction h with
  | last he =>
    intro Λ s hat hfree
    obtain ⟨heval, hprogram⟩ := hat
    apply Leads.mono (evaluatesTo he _ _ _ heval hfree)
    intro u hu
    obtain ⟨Λ', hr, hk, hsame⟩ := hu
    have hnil : s.1.program = NIL := Holds.nil_eq hprogram
    exact ⟨Λ', hr.appCont, hr.done, hr.stack, hsame.program.trans hnil, hsame.id, hr.val, hr.sound⟩
  | next he hes ih =>
    intro Λ s hat hfree
    obtain ⟨heval, hprogram⟩ := hat
    apply Leads.bind (evaluatesTo he _ _ _ heval (by omega))
    intro u hu
    obtain ⟨Λ₁, hr, hk, hsame⟩ := hu
    have hprogram₁ := hk.holds hprogram
    rw [← hsame.program] at hprogram₁
    have hlive : Straight pf u := by
      refine ⟨hr.done, fun io => ?_⟩
      obtain ⟨c, hstep, -, -⟩ := @stepCtx_advance pf _ _ _ _ _ _ _ hr hprogram₁ io
      exact ⟨_, _, hstep, .inr ⟨c, rfl⟩⟩
    apply leads_of_step hr.done fun _ => hlive
    intro io
    obtain ⟨c, hstep, hid, hat⟩ := @stepCtx_advance pf _ _ _ _ _ _ _ hr hprogram₁ io
    have hgo := @ih Λ₁ (c, u.2) hat (free_of_keeps hk hfree)
    rw [hid.trans hsame.id] at hgo
    exact ⟨_, hstep, .inr ⟨c, rfl, hgo⟩⟩

/-- The context is finished. -/
theorem Delivered.stepCtx_eq {id : CID} (h : Delivered id v Λ m s) (io : Outside) :
    ∃ K, stepCtx pf io s.1 s.2
      = some (.finished { s.1.resumed K with done := true }, s.2, false) := by
  have hstack : s.1.K.contents = [] ++ Frame.done.words := h.stack
  obtain ⟨K, -, -, hstep⟩ := stepCtx_of_frame h.appCont hstack
  have hcase : contSwitch pf io contDone (s.1.resumed K) s.2
      = some (advanceCtx io (s.1.resumed K) s.2) := rfl
  have hcons : (typeOf s.1.program == ptrTypeCons) = false := by
    rw [h.program]
    decide
  refine ⟨K, ((hstep pf io s.2).trans hcase).trans ?_⟩
  unfold advanceCtx
  simp only [EvalContext.resumed, hcons, Bool.false_eq_true, if_false]

/-! ## From the start -/

theorem contents_newStack {io : Outside} {stackSize : StackSize} {growStack : Bool} {K : Stack}
    (h : newStack io stackSize growStack = some K) : K.contents = Frame.done.words := by
  unfold newStack at h
  obtain ⟨K₀, halloc, hpush⟩ := Option.bind_eq_some_iff.mp h
  have hempty : K₀.contents = [] := by
    unfold stackAllocate at halloc
    split at halloc
    · cases halloc
      exact List.take_zero
    · cases halloc
  rcases hpushed : pushU32 io.malloc K₀ (encU contDone) with ⟨ok, K₁⟩
  rw [hpushed] at hpush
  cases ok with
  | false => cases hpush
  | true =>
    cases hpush
    rw [contents_pushU32 hpushed, hempty]
    rfl

/-- The state of a new evaluator. -/
theorem sound_evalCpsInit {numCells : Nat} (hn : 2 ≤ numCells) (hmax : numCells ≤ 2 ^ 23) :
    ∃ Λ, Λ.free.length = numCells - 2
      ∧ Sound (evalCpsInit numCells).heap Λ .initial (evalCpsInit numCells).envGlobal := by
  have hl := @freeList_heapInit numCells (by omega) hmax (List.replicate numCells ⟨0#32, 0#32⟩)
    List.length_replicate ⟨[], [], 0#32, 0#32, 0#32⟩
  obtain ⟨Λ, hfree, hs⟩ := sound_initial hl (by rw [List.length_range']; exact hn)
  refine ⟨Λ, ?_, hs⟩
  rw [hfree, List.length_drop, List.length_range']

/-- The context of a program is created. -/
theorem startPrograms_eq {program : List Datum} {numCells : Nat} {io : Outside} {lisp : VALUE}
    {h : HeapState} (hbuild : (Datum.list program).build (evalCpsInit numCells).heap = (lisp, h))
    (hty : typeOf lisp = ptrTypeCons)
    (hcreate : io.mallocCtx = true ∧ (newStack io evalCpsDefaultStackSize false).isSome = true) :
    ∃ K, newStack io evalCpsDefaultStackSize false = some K
      ∧ startPrograms io numCells [program]
        = { evalCpsInit numCells with
            heap := h
            nextCtxId := 2#32
            ctxQueue := [newCtx io lisp NIL K { evalCpsInit numCells with heap := h }] } := by
  obtain ⟨K, hK⟩ := Option.isSome_iff_exists.mp hcreate.2
  have huses : usesId io lisp { evalCpsInit numCells with heap := h } = true := by
    have hnext : ((evalCpsInit numCells).nextCtxId != 0#32) = true := rfl
    rw [usesId, hty, hcreate.1, hnext]
    rfl
  refine ⟨K, hK, ?_⟩
  show (createCtx io ((Datum.list program).build (evalCpsInit numCells).heap).1 NIL
    evalCpsDefaultStackSize false
    { evalCpsInit numCells with
      heap := ((Datum.list program).build (evalCpsInit numCells).heap).2 }).2 = _
  rw [hbuild, createCtx_eq, if_pos huses, hK]
  rfl

/-- **A program with a value** is started in a new heap with enough cells. The loop runs it, and the
host gets a word for the value under the id of the context, unless the stack of the context is too
small. -/
theorem program_finishes {program : List Datum} {numCells : Nat} {io₀ : Outside}
    {io : Nat → Outside} (htext : (Datum.list program).isText = true)
    (h : EvalProgram pf.target .initial [] (program.map Datum.val) n m' v E')
    (hcells : 2 + (Datum.list program).cells + n ≤ numCells) (hmax : numCells ≤ 2 ^ 23)
    (hcreate : io₀.mallocCtx = true ∧ (newStack io₀ evalCpsDefaultStackSize false).isSome = true) :
    ∃ k s, iterations pf io k (⟨startPrograms io₀ numCells [program], none⟩, ⟨false, false⟩)
        = some (s, ⟨false, false⟩)
      ∧ (StackFull s ∨ ∃ w done Λ, removeDoneCtx 1#16 s.ctxDone = some (w, done)
        ∧ Holds s.heap Λ w v ∧ Sound s.heap Λ m' s.envGlobal) := by
  obtain ⟨Λ, hlen, hs⟩ := @sound_evalCpsInit numCells (by omega) hmax
  obtain ⟨Λ₁, hs₁, hk, hlisp⟩ := hs.leaves_build htext (by omega)
  rcases hbuild : (Datum.list program).build (evalCpsInit numCells).heap with ⟨lisp, h₀⟩
  rw [hbuild] at hs₁ hk hlisp
  rw [Datum.val_list] at hlisp
  -- the first expression, and the others
  obtain ⟨e, es, hes⟩ := h.exists_cons
  rw [hes] at h hlisp
  obtain ⟨hty, hcar, hcdr⟩ := hlisp.list_uncons
  obtain ⟨K, hK, hstart⟩ := startPrograms_eq hbuild hty hcreate
  have hat : AtProgram [] (e :: es) Λ₁ .initial
      (newCtx io₀ lisp NIL K { evalCpsInit numCells with heap := h₀ },
        { evalCpsInit numCells with heap := h₀, nextCtxId := 2#32 }) :=
    ⟨⟨rfl, rfl, contents_newStack hK, hcar, isEnv_nil, hs₁⟩, hcdr⟩
  have hfree : n ≤ Λ₁.free.length := free_of_keeps hk (by omega)
  have hleads := @programTo pf (fun _ _ => False) _ _ _ _ _ _ _ h _ _ hat hfree
  -- its context is the first one of the queue, and is finished with the value
  have hpick : pickCtx (io 0) ⟨startPrograms io₀ numCells [program], none⟩ = some
      (newCtx io₀ lisp NIL K { evalCpsInit numCells with heap := h₀ },
        { evalCpsInit numCells with heap := h₀, nextCtxId := 2#32 }) := by
    rw [hstart]
    rfl
  have hlast : ∀ u io', (∃ Λ', Delivered 1#16 v Λ' m' u) → ∃ c st,
      stepCtx pf io' u.1 u.2 = some (.finished c, st, false)
        ∧ c.id = 1#16 ∧ ∃ Λ, Holds st.heap Λ c.r v ∧ Sound st.heap Λ m' st.envGlobal := by
    intro u io' hu
    obtain ⟨Λ', hu⟩ := hu
    obtain ⟨K', hstep⟩ := @Delivered.stepCtx_eq pf _ _ _ _ _ hu io'
    exact ⟨_, _, hstep, hu.id, Λ', hu.val, hu.sound⟩
  obtain ⟨k, s, hiter, hend⟩ := iterations_of_leads hleads hlast hpick
    (show GcFlags.performGc ⟨false, false⟩ = false from rfl)
  refine ⟨k, s, hiter, ?_⟩
  rcases hend with hfull | ⟨c, st, ⟨hid, Λ', hw, hs'⟩, rfl⟩
  · exact .inl hfull
  · refine .inr ⟨c.r, st.ctxDone, Λ', ?_, hw, hs'⟩
    show removeDoneCtx 1#16 (c :: st.ctxDone) = _
    rw [removeDoneCtx, if_pos hid]

end

/-- In a heap of 64 cells it comes to the pair. -/
theorem program_finishes_pairWithTwo : ∃ m k s,
    iterations plainPlatform (fun _ => plainOutside) k
        (⟨startPrograms plainOutside 64 [pairWithTwo], none⟩, ⟨false, false⟩)
      = some (s, ⟨false, false⟩)
    ∧ (StackFull s ∨ ∃ w done Λ, removeDoneCtx 1#16 s.ctxDone = some (w, done)
      ∧ Holds s.heap Λ w (.pair (.word (encI 40#32)) (.word (encI 2#32)))
      ∧ Sound s.heap Λ m s.envGlobal) := by
  obtain ⟨m, E, h⟩ := @evalProgram_pairWithTwo plainPlatform.target fun _ => rfl
  have hstack : (newStack plainOutside evalCpsDefaultStackSize false).isSome = true := by
    unfold newStack stackAllocate pushU32
    rw [if_pos (by decide)]
    simp only [Option.bind_some, List.length_map, List.length_range]
    rfl
  exact ⟨m, program_finishes (by decide) h (by decide) (by decide) ⟨rfl, hstack⟩⟩

end Semantics

end LispBM
