import LispBM.EvalCps.Roots

/-!
# LispBM — the top-level expressions of a program

A context evaluates the expressions of its program one after the other. `advance_ctx` goes on with
the next one, and leaves `curr_env` as it is: the environment of the last closure call or `let` of
an expression is there while the next one is evaluated. Where it is the initial environment at
every such step, the expressions have the values that they have on their own (`isolated`).
-/

namespace LispBM

/-- A run from any state: of the contexts that the host starts, or of the one context of
`eval_cps_program_nc`. -/
structure EvalTrace (pf : Platform) where
  len : Nat
  act : Nat → Action
  state : Nat → EvalState
  flags : Nat → GcFlags
  step : ∀ n, n < len → (act n).exec pf (state n) (flags n) = some (state (n + 1), flags (n + 1))

/-- The value of a top-level expression is in `r`. -/
def AtBoundary (c : EvalContext) : Prop := c.appCont = true ∧ c.K.contents = [encU contDone]

/-- The context in which a new evaluation of the expressions that are left begins. The
environment is the one `eval_cps_program` and `eval_cps_program_nc` begin with; in `r` there is
the word `x`. -/
def EvalContext.startRest (c : EvalContext) (h : HeapState) (x : VALUE) : EvalContext :=
  { c with
    program := cdr h c.program
    currExp := car h c.program
    currEnv := NIL
    r := x
    appCont := false }

namespace EvalTrace

variable {pf : Platform}

/-- Action `n` is an iteration, and works on the context `c` with the id `i`. -/
structure WorksOn (tr : EvalTrace pf) (i : CID) (n : Nat) (c : EvalContext) : Prop where
  lt : n < tr.len
  picks : ∃ io st, tr.act n = .iterate io ∧ pickCtx io (tr.state n) = some (c, st)
  id : c.id = i

/-- Before action `n`, the value of a top-level expression of the context with the id `i` is `v`. -/
def Delivers (tr : EvalTrace pf) (i : CID) (n : Nat) (v : VALUE) : Prop :=
  ∃ c, tr.WorksOn i n c ∧ AtBoundary c ∧ c.r = v

/-- Action `n` goes on with the next expression of the program of `c`. -/
structure Advances (tr : EvalTrace pf) (i : CID) (n : Nat) (c : EvalContext) : Prop where
  works : tr.WorksOn i n c
  boundary : AtBoundary c
  more : typeOf c.program = ptrTypeCons
  notKilled : ((tr.flags n).performGc && (tr.flags n).lastIterationGc) = false

/-- After action `n`, `alone` evaluates the expressions that are left on their own: it begins with
the globals that the others left, with a context as it is for a new program, and the same happens
around it. The word in `r` is no pointer. -/
structure Alone (tr alone : EvalTrace pf) (n : Nat) (c : EvalContext) : Prop where
  len : n + 1 + alone.len = tr.len
  act : ∀ m, m < alone.len → alone.act m = tr.act (n + 1 + m)
  flags : alone.flags 0 = ⟨false, false⟩
  start : ∃ x, isPtr x = false ∧ alone.state 0
    = { tr.state (n + 1) with ctxRunning := some (c.startRest (tr.state (n + 1)).heap x) }

/-- **Top-level expressions are isolated.** From each of them on, the expressions can be evaluated
on their own, and their values are the same then. -/
def Isolated (tr : EvalTrace pf) (i : CID) : Prop :=
  ∀ n c, tr.Advances i n c → (∃ alone, tr.Alone alone n c)
    ∧ ∀ alone, tr.Alone alone n c → ∀ m v, alone.Delivers i m v ↔ tr.Delivers i (n + 1 + m) v

/-- Whenever the context with the id `i` goes on with its next expression, `curr_env` is the
environment it began with. -/
def LeavesNoEnv (tr : EvalTrace pf) (i : CID) : Prop :=
  ∀ n c, tr.Advances i n c → c.currEnv = NIL

end EvalTrace

/-! ## Runs that differ in an unwritten `r` -/

/-- Two states that are the same, or whose running contexts are still evaluating an expression
and have different words in `r`, no pointers. -/
inductive Follows (s : EvalState) : EvalState → Prop where
  | same : Follows s s
  | evaluating {c : EvalContext} {x : VALUE} (hrun : s.ctxRunning = some c)
      (ha : c.appCont = false) (hr : isPtr c.r = false) (hx : isPtr x = false) :
      Follows s { s with ctxRunning := some { c with r := x } }

/-- Flags with the same effect: without `perform_gc` the other one is not read. -/
structure FlagsAlike (flags flags' : GcFlags) : Prop where
  performGc : flags'.performGc = flags.performGc
  last : flags.performGc = true → flags'.lastIterationGc = flags.lastIterationGc

section

variable {pf : Platform} {io : Outside} {c : EvalContext} {st : Store} {s s' s₁ s₁' : EvalState}
  {flags flags' flags₁ flags₁' : GcFlags} {x : VALUE}

theorem FlagsAlike.refl (flags : GcFlags) : FlagsAlike flags flags := ⟨rfl, fun _ => rfl⟩

theorem FlagsAlike.kill_eq (h : FlagsAlike flags flags') :
    (flags'.performGc && flags'.lastIterationGc)
      = (flags.performGc && flags.lastIterationGc) := by
  rw [h.performGc]
  cases hgc : flags.performGc with
  | false => rfl
  | true => rw [h.last hgc]

/-- The same context makes a step. -/
theorem evaluationStep_alike (hflags : FlagsAlike flags flags')
    (h : evaluationStep pf io c st flags = some (s₁, flags₁)) :
    ∃ flags₁', evaluationStep pf io c st flags' = some (s₁, flags₁')
      ∧ FlagsAlike flags₁ flags₁' := by
  cases hkill : flags.performGc && flags.lastIterationGc with
  | true =>
    have hkill' := hflags.kill_eq.trans hkill
    simp only [Bool.and_eq_true] at hkill hkill'
    rw [evaluationStep_of_kill hkill.1 hkill.2] at h
    cases h
    exact ⟨flags', evaluationStep_of_kill hkill'.1 hkill'.2, hflags⟩
  | false =>
    have hsame : evaluationStep pf io c st flags' = evaluationStep pf io c st flags := by
      rw [evaluationStep, evaluationStep, hflags.kill_eq.trans hkill, hkill, gcIfDue, gcIfDue,
        hflags.performGc]
      rfl
    exact ⟨flags₁, hsame.trans h, .refl _⟩

/-- A step that delivers no value leaves `r` as it is. -/
theorem evalExp_r {c₁ : EvalContext} {st' : Store} {g : Bool} (ha : c.appCont = false)
    (h : evalExp pf io c st = some (.running c₁, st', g)) (ha₁ : c₁.appCont = false) :
    c₁.r = c.r := by
  have hsame : evalExp pf io { c with r := c.r } st = (evalExp pf io c st).map (setR c.r) :=
    evalExp_setR c.r ha
  rw [h] at hsame
  simp only [Option.map_some, setR, Outcome.setR, ha₁, Bool.false_eq_true, if_false,
    Option.some.injEq, Prod.mk.injEq, Outcome.running.injEq, and_true] at hsame
  rw [hsame]

/-- The context makes a step with two words in `r`. -/
theorem evaluationStep_setR (hflags : FlagsAlike flags flags') (ha : c.appCont = false)
    (hr : isPtr c.r = false) (hx : isPtr x = false)
    (h : evaluationStep pf io c st flags = some (s₁, flags₁))
    (h' : evaluationStep pf io { c with r := x } st flags' = some (s₁', flags₁')) :
    Follows s₁ s₁' ∧ FlagsAlike flags₁ flags₁' := by
  cases hkill : flags.performGc && flags.lastIterationGc with
  | true =>
    have hkill' := hflags.kill_eq.trans hkill
    simp only [Bool.and_eq_true] at hkill hkill'
    rw [evaluationStep_of_kill hkill.1 hkill.2] at h
    rw [evaluationStep_of_kill hkill'.1 hkill'.2] at h'
    cases h
    cases h'
    exact ⟨.same, hflags⟩
  | false =>
    obtain ⟨st₁, o, st', g, hdue, hstep, rfl, rfl⟩ := evaluationStep_eq hkill h
    obtain ⟨st₁', o', st'', g', hdue', hstep', rfl, rfl⟩ :=
      evaluationStep_eq (hflags.kill_eq.trans hkill) h'
    have hc : SameCtx true c { c with r := x } :=
      ⟨rfl, fun _ => ha, fun hb => absurd hb (by decide)⟩
    -- The two words are the only roots that differ, and neither is a pointer.
    have hcalls : List.Forall₂ CallsAlike (gcCalls st c) (gcCalls st { c with r := x }) :=
      .cons (Or.inl rfl) (List.rel_append (callsAlike_refl _)
        (hc.callsAlike (by simp [StrayR, hr]) (by simp [StrayR, hx])))
    have hsame : gcIfDue { c with r := x } st flags' = gcIfDue c st flags := by
      rw [gcIfDue, gcIfDue, hflags.performGc, gc, gc, collect_alike hcalls]
    rw [hsame, hdue] at hdue'
    cases hdue'
    rw [hc.stepCtx hstep] at hstep'
    cases hstep'
    rw [hflags.performGc]
    refine ⟨?_, .refl _⟩
    rw [stepCtx, if_neg (by simp [ha])] at hstep
    -- An evaluation step leaves `r` alone as long as it delivers no value.
    cases o with
    | running c₁ =>
      cases ha₁ : c₁.appCont with
      | true =>
        have ho : Outcome.setR x (.running c₁) = .running c₁ :=
          congrArg Outcome.running (if_pos ha₁)
        rw [if_pos rfl, ho]
        exact .same
      | false =>
        have hr₁ : isPtr c₁.r = false := by rw [evalExp_r ha hstep ha₁, hr]
        have ho : Outcome.setR x (.running c₁) = .running { c₁ with r := x } :=
          congrArg Outcome.running (if_neg (by simp [ha₁]))
        rw [if_pos rfl, ho]
        have hrun : ((Outcome.running c₁).settle st').ctxRunning = some c₁ := rfl
        exact .evaluating hrun ha₁ hr₁ hx
    | fatal c₁ => exact .same
    | finished c₁ => exact .same
    | yielded c₁ => exact .same

theorem follows_iterate (hs : Follows s s') (hflags : FlagsAlike flags flags')
    (h : runEvalIteration pf io s flags = some (s₁, flags₁))
    (h' : runEvalIteration pf io s' flags' = some (s₁', flags₁')) :
    Follows s₁ s₁' ∧ FlagsAlike flags₁ flags₁' := by
  cases hs with
  | same =>
    cases hpick : pickCtx io s with
    | none =>
      rw [(runEvalIteration_of_not_pick flags hpick).2] at h
      rw [(runEvalIteration_of_not_pick flags' hpick).2] at h'
      cases h
      cases h'
      exact ⟨.same, hflags⟩
    | some picked =>
      rw [runEvalIteration_of_pick hpick] at h h'
      obtain ⟨flags₂, hagain, hflags₁⟩ := evaluationStep_alike hflags h
      rw [hagain] at h'
      cases h'
      exact ⟨.same, hflags₁⟩
  | evaluating hrun ha hr hx =>
    rw [runEvalIteration_of_pick (pickCtx_of_running hrun)] at h
    rw [runEvalIteration_of_pick (pickCtx_of_running rfl)] at h'
    exact evaluationStep_setR hflags ha hr hx h h'

/-- `eval_cps_remove_done_ctx` on the store. -/
def Store.withoutDone (cid : CID) (st : Store) : Store :=
  { st with ctxDone := (removeDoneCtx cid st.ctxDone).elim st.ctxDone Prod.snd }

/-- What the host does has nothing to do with the running context. -/
theorem exec_host {a : Action} (ha : ∀ io, a ≠ .iterate io) :
    ∃ F : Store → Store, ∀ s flags,
      a.exec pf s flags = some ({ F s.toStore with ctxRunning := s.ctxRunning }, flags) := by
  cases a with
  | create io program env stackSize growStack =>
    exact ⟨fun st => (createCtx io program env stackSize growStack st).2, fun _ _ => rfl⟩
  | remove cid =>
    refine ⟨Store.withoutDone cid, fun s flags => ?_⟩
    rw [Action.exec, Store.withoutDone]
    cases removeDoneCtx cid s.ctxDone <;> rfl
  | alloc a d => exact ⟨fun st => { st with heap := (cons a d st.heap).2 }, fun _ _ => rfl⟩
  | iterate io => exact absurd rfl (ha io)

/-- **One action in two such states.** -/
theorem follows_exec {a : Action} (hs : Follows s s') (hflags : FlagsAlike flags flags')
    (h : a.exec pf s flags = some (s₁, flags₁)) (h' : a.exec pf s' flags' = some (s₁', flags₁')) :
    Follows s₁ s₁' ∧ FlagsAlike flags₁ flags₁' := by
  by_cases ha : ∃ io, a = .iterate io
  · obtain ⟨io, rfl⟩ := ha
    exact follows_iterate hs hflags h h'
  · obtain ⟨F, hF⟩ := @exec_host pf a fun io hio => ha ⟨io, hio⟩
    rw [hF] at h h'
    cases h
    cases h'
    cases hs with
    | same => exact ⟨.same, hflags⟩
    | evaluating hrun ha hr hx => exact ⟨.evaluating hrun ha hr hx, hflags⟩

/-- With flags of the same effect the same action can be made. -/
theorem exec_alike {a : Action} (hflags : FlagsAlike flags flags')
    (h : a.exec pf s flags = some (s₁, flags₁)) :
    ∃ flags₁', a.exec pf s flags' = some (s₁, flags₁') ∧ FlagsAlike flags₁ flags₁' := by
  by_cases ha : ∃ io, a = .iterate io
  · obtain ⟨io, rfl⟩ := ha
    rw [Action.exec] at h ⊢
    cases hpick : pickCtx io s with
    | none =>
      rw [(runEvalIteration_of_not_pick flags hpick).2] at h
      cases h
      exact ⟨flags', (runEvalIteration_of_not_pick flags' hpick).2, hflags⟩
    | some picked =>
      rw [runEvalIteration_of_pick hpick] at h ⊢
      exact evaluationStep_alike hflags h
  · obtain ⟨F, hF⟩ := @exec_host pf a fun io hio => ha ⟨io, hio⟩
    rw [hF] at h
    cases h
    exact ⟨flags', hF s flags', hflags⟩

/-- Contexts at a boundary are the same in both states. -/
theorem Follows.pick_boundary (hs : Follows s s') :
    (∃ st, pickCtx io s' = some (c, st) ∧ AtBoundary c)
      ↔ ∃ st, pickCtx io s = some (c, st) ∧ AtBoundary c := by
  cases hs with
  | same => rfl
  | evaluating hrun ha _ _ =>
    rw [pickCtx_of_running hrun, pickCtx_of_running rfl]
    constructor
    all_goals
      intro h
      obtain ⟨st, hpick, hb⟩ := h
      cases hpick
      exact absurd (ha.symm.trans hb.1) Bool.false_ne_true

end

namespace EvalTrace

variable {pf : Platform} {tr alone : EvalTrace pf} {i : CID} {n : Nat} {c : EvalContext}

/-- `advance_ctx` begins the next expression as a new evaluation would, with `curr_env` left as
it is. -/
theorem Advances.next (h : tr.Advances i n c) :
    (tr.state (n + 1)).ctxRunning
        = some { c.startRest (tr.state (n + 1)).heap NIL with currEnv := c.currEnv }
      ∧ (tr.flags (n + 1)).performGc = false := by
  obtain ⟨io, st, hact, hpick⟩ := h.works.picks
  have hstep := tr.step n h.works.lt
  rw [hact, Action.exec, runEvalIteration_of_pick hpick] at hstep
  obtain ⟨st₁, o, st', g, -, hstepCtx, hs, hflags⟩ := evaluationStep_eq h.notKilled hstep
  have hK : c.K.contents = [] ++ [encU contDone] := h.boundary.2
  obtain ⟨K, hpop, -⟩ := popU32_of_contents hK
  have hpush : (pushU32 io.malloc K (encU contDone)).2 = c.K := by rw [pushU32_popU32 hpop]
  have hdone : contSwitch pf io contDone { c with K := K, appCont := false } st₁
      = some (advanceCtx io { c with K := K, appCont := false } st₁) := rfl
  have hmore : typeOf c.program == ptrTypeCons := by simp [h.more]
  rw [stepCtx, if_pos h.boundary.1, applyContinuation, hpop] at hstepCtx
  have hstepCtx : contSwitch pf io (decU (encU contDone)) { c with K := K, appCont := false } st₁
    = some (o, st', g) := hstepCtx
  rw [show decU (encU contDone) = contDone by decide, hdone, advanceCtx, if_pos hmore, hpush]
    at hstepCtx
  cases hstepCtx
  rw [hs, hflags]
  exact ⟨rfl, rfl⟩

/-- The flags of the actions after action `n`, with the flags of a new evaluation before them. -/
def flagsFrom (tr : EvalTrace pf) (n : Nat) : Nat → GcFlags
  | 0 => ⟨false, false⟩
  | m + 1 =>
      match (tr.act (n + 1 + m)).exec pf (tr.state (n + 1 + m)) (tr.flagsFrom n m) with
      | none => ⟨false, false⟩
      | some (_, flags) => flags

/-- The actions after action `n` can be made with these flags. -/
theorem flagsFrom_exec (hgc : (tr.flags (n + 1)).performGc = false) : ∀ m, n + 1 + m < tr.len →
    (tr.act (n + 1 + m)).exec pf (tr.state (n + 1 + m)) (tr.flagsFrom n m)
        = some (tr.state (n + 1 + m + 1), tr.flagsFrom n (m + 1))
      ∧ FlagsAlike (tr.flags (n + 1 + (m + 1))) (tr.flagsFrom n (m + 1)) := by
  have hnext : ∀ m, n + 1 + m < tr.len →
      FlagsAlike (tr.flags (n + 1 + m)) (tr.flagsFrom n m) →
      (tr.act (n + 1 + m)).exec pf (tr.state (n + 1 + m)) (tr.flagsFrom n m)
          = some (tr.state (n + 1 + m + 1), tr.flagsFrom n (m + 1))
        ∧ FlagsAlike (tr.flags (n + 1 + (m + 1))) (tr.flagsFrom n (m + 1)) := by
    intro m hm hflags
    obtain ⟨flags', hexec, hflags'⟩ := exec_alike hflags (tr.step (n + 1 + m) hm)
    have hnew : tr.flagsFrom n (m + 1) = flags' := by rw [flagsFrom, hexec]
    rw [hnew]
    exact ⟨hexec, hflags'⟩
  intro m
  induction m with
  | zero =>
    intro hm
    refine hnext 0 hm ⟨hgc.symm, fun hgc' => ?_⟩
    rw [show tr.flags (n + 1 + 0) = tr.flags (n + 1) from rfl, hgc] at hgc'
    cases hgc'
  | succ m ih => exact fun hm => hnext (m + 1) hm (ih (by omega)).2

/-- The expressions that are left can be evaluated on their own. -/
theorem Advances.exists_alone (hadv : tr.Advances i n c) (henv : c.currEnv = NIL) :
    ∃ alone, tr.Alone alone n c := by
  obtain ⟨hrun, hgc⟩ := hadv.next
  refine ⟨⟨tr.len - (n + 1), fun m => tr.act (n + 1 + m), fun m => tr.state (n + 1 + m),
    tr.flagsFrom n, fun m hm => (flagsFrom_exec hgc m (by omega)).1⟩, ?_, ?_, rfl, NIL,
      by decide, ?_⟩
  · have hlt := hadv.works.lt
    show n + 1 + (tr.len - (n + 1)) = tr.len
    omega
  · exact fun _ _ => rfl
  · show tr.state (n + 1) = { tr.state (n + 1) with
      ctxRunning := some (c.startRest (tr.state (n + 1)).heap NIL) }
    rw [← show (tr.state (n + 1)).ctxRunning = some (c.startRest (tr.state (n + 1)).heap NIL) by
      rw [hrun, henv]
      rfl]

/-- The two runs, action by action. -/
theorem Alone.follows (hadv : tr.Advances i n c) (henv : c.currEnv = NIL)
    (h : tr.Alone alone n c) : ∀ m, m ≤ alone.len →
      Follows (tr.state (n + 1 + m)) (alone.state m)
        ∧ FlagsAlike (tr.flags (n + 1 + m)) (alone.flags m) := by
  intro m
  induction m with
  | zero =>
    intro _
    obtain ⟨hrun, hgc⟩ := hadv.next
    obtain ⟨x, hx, hstart⟩ := h.start
    refine ⟨?_, ?_, fun hgc' => ?_⟩
    -- `advance_ctx` keeps the environment, which `henv` says is that of a fresh context.
    · have hc : ({ c.startRest (tr.state (n + 1)).heap NIL with
          currEnv := c.currEnv } : EvalContext)
          = c.startRest (tr.state (n + 1)).heap NIL := by
        rw [henv]
        rfl
      rw [hc] at hrun
      rw [hstart]
      exact .evaluating hrun rfl (show isPtr NIL = false by decide) hx
    · rw [h.flags]
      exact hgc.symm
    · rw [show tr.flags (n + 1 + 0) = tr.flags (n + 1) from rfl, hgc] at hgc'
      cases hgc'
  | succ m ih =>
    intro hm
    obtain ⟨hs, hflags⟩ := ih (by omega)
    have hlen := h.len
    have hstep := tr.step (n + 1 + m) (by omega)
    have hstep' := alone.step m (by omega)
    rw [h.act m (by omega)] at hstep'
    exact follows_exec hs hflags hstep hstep'

/-- **The expressions of a program have the values that they have on their own**, if no
environment is left for the next one. -/
theorem isolated (hleaves : tr.LeavesNoEnv i) : tr.Isolated i := by
  intro n c hadv
  refine ⟨hadv.exists_alone (hleaves n c hadv), fun alone halone m v => ?_⟩
  have hlen := halone.len
  have hfollows := halone.follows hadv (hleaves n c hadv) m
  constructor
  · intro hdel
    obtain ⟨c', ⟨hlt, ⟨io, st, hact, hpick⟩, hid⟩, hb, hr⟩ := hdel
    obtain ⟨st', hpick', hb'⟩ := (hfollows hlt.le).1.pick_boundary.mp ⟨st, hpick, hb⟩
    rw [halone.act m hlt] at hact
    exact ⟨c', ⟨by omega, ⟨io, st', hact, hpick'⟩, hid⟩, hb', hr⟩
  · intro hdel
    obtain ⟨c', ⟨hlt, ⟨io, st, hact, hpick⟩, hid⟩, hb, hr⟩ := hdel
    have hlt' : m < alone.len := by omega
    obtain ⟨st', hpick', hb'⟩ := (hfollows hlt'.le).1.pick_boundary.mpr ⟨st, hpick, hb⟩
    rw [← halone.act m hlt'] at hact
    exact ⟨c', ⟨hlt', ⟨io, st', hact, hpick'⟩, hid⟩, hb', hr⟩

end EvalTrace

/-! ## An environment that is left over -/

/-- The run of `len` actions from `s`. -/
def EvalTrace.of (s : EvalState) (act : Nat → Action) (len : Nat)
    (h : (actStates s act len).isSome = true) : EvalTrace plainPlatform where
  len := len
  act := act
  state n := (actState s act n).1
  flags n := (actState s act n).2
  step := fun _ hn => actState_step h hn

theorem EvalTrace.of_state_zero {s : EvalState} {act : Nat → Action} {len : Nat}
    {h : (actStates s act len).isSome = true} : (EvalTrace.of s act len h).state 0 = s := rfl

/-- The globals with a program in the heap, and the program. -/
def programOf (p : List Datum) : VALUE × EvalState :=
  let st := evalCpsInit 40
  let (lisp, h) := (Datum.list p).build st.heap
  (lisp, { st with heap := h, ctxRunning := none })

theorem EvalTrace.delivers_of_pick {tr : EvalTrace plainPlatform} {i : CID} {n : Nat} {v : VALUE}
    {io : Outside} (hn : n < tr.len) (hact : tr.act n = .iterate io)
    (h : (pickCtx io (tr.state n)).map (fun p => (p.1.id, p.1.appCont, p.1.K.contents, p.1.r))
      = some (i, true, [encU contDone], v)) : tr.Delivers i n v := by
  obtain ⟨⟨c, st⟩, hpick, heq⟩ := Option.map_eq_some_iff.mp h
  simp only [Prod.mk.injEq] at heq
  obtain ⟨hid, ha, hK, hr⟩ := heq
  exact ⟨c, ⟨hn, ⟨io, st, hact, hpick⟩, hid⟩, ⟨ha, hK⟩, hr⟩

/-- `((+ 1 2) 3)` -/
def sumThenNumber : VALUE × EvalState :=
  programOf [.list [.sym symAdd, .int 1#32, .int 2#32], .int 3#32]

set_option maxRecDepth 20000 in
theorem actStates_sum :
    (actStates sumThenNumber.2 (startThenRun sumThenNumber.1) 12).isSome = true := by
  decide

def sumRun : EvalTrace plainPlatform := .of _ _ 12 actStates_sum

set_option maxRecDepth 20000 in
theorem leavesNoEnv_sumRun : sumRun.LeavesNoEnv 1#16 := by
  have hnil : ∀ n, n < 12 → (pickCtx plainOutside (sumRun.state n)).all
      (fun p => p.1.currEnv == NIL) = true := by
    intro n hn
    interval_cases n <;> decide
  intro n c hadv
  obtain ⟨io, st, hact, hpick⟩ := hadv.works.picks
  cases n with
  | zero => cases hact
  | succ n =>
    cases hact
    have hall := hnil (n + 1) hadv.works.lt
    rw [hpick] at hall
    exact beq_iff_eq.mp hall

/-- A context with expressions left has a value. -/
theorem EvalTrace.advances_of_running {tr : EvalTrace plainPlatform} {i : CID} {n : Nat}
    {io : Outside} (hn : n < tr.len) (hact : tr.act n = .iterate io)
    (hgc : (tr.flags n).performGc = false)
    (h : (tr.state n).ctxRunning.map (fun c => (c.id, c.appCont, c.K.contents, typeOf c.program))
      = some (i, true, [encU contDone], ptrTypeCons)) :
    ∃ c, (tr.state n).ctxRunning = some c ∧ tr.Advances i n c := by
  obtain ⟨c, hrun, heq⟩ := Option.map_eq_some_iff.mp h
  simp only [Prod.mk.injEq] at heq
  obtain ⟨hid, ha, hK, hmore⟩ := heq
  refine ⟨c, hrun, ⟨hn, ⟨io, _, hact, pickCtx_of_running hrun⟩, hid⟩, ⟨ha, hK⟩, hmore, ?_⟩
  rw [hgc]
  rfl

/-- The `3` after `(+ 1 2)` is evaluated on its own, with the same value. -/
theorem isolated_sumRun : sumRun.Isolated 1#16
    ∧ ∃ c alone, sumRun.Advances 1#16 9 c ∧ sumRun.Alone alone 9 c
      ∧ alone.Delivers 1#16 1 (encI 3#32) := by
  have hisolated := EvalTrace.isolated leavesNoEnv_sumRun
  obtain ⟨c, -, hadv⟩ := @EvalTrace.advances_of_running sumRun 1#16 9 plainOutside (by decide) rfl
    (by decide +kernel) (by decide +kernel)
  obtain ⟨⟨alone, halone⟩, hsame⟩ := hisolated 9 c hadv
  have hlast : (pickCtx plainOutside (sumRun.state 11)).map
      (fun p => (p.1.id, p.1.appCont, p.1.K.contents, p.1.r))
      = some (1#16, true, [encU contDone], encI 3#32) := by decide +kernel
  have hdel : sumRun.Delivers 1#16 (9 + 1 + 1) (encI 3#32) :=
    EvalTrace.delivers_of_pick (by decide) rfl hlast
  exact ⟨hisolated, c, alone, hadv, halone, (hsame alone halone 1 _).mpr hdel⟩

/-- `((lambda (x) x) 1)`, and `x` after it -/
def callThenName : VALUE × EvalState :=
  let x := Datum.sym maxSpecialSymbols
  programOf [.list [.list [.sym symreprLambda, .list [x], x], .int 1#32], x]

set_option maxRecDepth 20000 in
theorem actStates_call :
    (actStates callThenName.2 (startThenRun callThenName.1) 11).isSome = true := by
  decide

def callRun : EvalTrace plainPlatform := .of _ _ 11 actStates_call

/-- The state before `x` is evaluated, with the environment of a new evaluation. -/
def nameState : EvalState :=
  { callRun.state (8 + 1) with
    ctxRunning := (callRun.state 8).ctxRunning.map fun c =>
      c.startRest (callRun.state (8 + 1)).heap NIL }

set_option maxRecDepth 20000 in
theorem actStates_name :
    (actStates nameState (fun _ => .iterate plainOutside) 2).isSome = true := by
  decide

def nameRun : EvalTrace plainPlatform := .of _ _ 2 actStates_name

/-- **The parameter of a closure is bound in the next expression.** On its own, `x` has no
binding. -/
theorem not_isolated_callRun : ¬callRun.Isolated 1#16 := by
  intro hisolated
  obtain ⟨c, hrun, hadv⟩ := @EvalTrace.advances_of_running callRun 1#16 8 plainOutside (by decide)
    rfl (by decide +kernel) (by decide +kernel)
  have halone : callRun.Alone nameRun 8 c := by
    refine ⟨rfl, ?_, rfl, NIL, by decide, ?_⟩
    · intro m _
      show Action.iterate plainOutside = startThenRun callThenName.1 (8 + 1 + m)
      rw [show 8 + 1 + m = 8 + m + 1 by omega, startThenRun]
    · have hstate : nameState = { callRun.state (8 + 1) with
          ctxRunning := some (c.startRest (callRun.state (8 + 1)).heap NIL) } := by
        rw [nameState, hrun, Option.map_some]
      exact EvalTrace.of_state_zero.trans hstate
  have hname : nameRun.Delivers 1#16 1 (encSym symreprNotFound) :=
    @EvalTrace.delivers_of_pick _ _ _ _ plainOutside (by decide) rfl (by decide +kernel)
  obtain ⟨c', ⟨-, ⟨io, st, hact, hpick⟩, -⟩, -, hr⟩ :=
    ((hisolated 8 c hadv).2 nameRun halone 1 _).mp hname
  have hvalue : (pickCtx plainOutside (callRun.state 10)).map (fun p => p.1.r)
      = some (encI 1#32) := by decide +kernel
  cases hact
  rw [hpick, Option.map_some, hr] at hvalue
  exact absurd hvalue (by decide)

end LispBM
