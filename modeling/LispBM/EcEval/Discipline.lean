import LispBM.EcEval.Frames
import LispBM.EvalCps.Discipline

/-!
# LispBM — registers and stack of the explicit-control evaluator over whole runs

* `registerDiscipline` — the value of an expression arrives with the stack and the continuation
  register that the expression was dispatched with, and the sub-expressions of a form are
  dispatched in the environment of the form.

Unlike the concurrent evaluator, this one brings back the environment everywhere.
-/

namespace LispBM

namespace EcEval

open FrameStack

/-! ## Runs -/

/-- The loop of `ec_eval`, as long as no push is lost and the error continuation is not up. -/
def ecMachine (pf : Platform) : Machine State UINT where
  step s t := s.done = false ∧ Undisturbed t ∧ ∃ m, ecEvalIteration pf m s = some t
  stack s := s.S.contents
  evaluating s := s.es = .evalDispatch ∧ s.done = false
  returning s := s.es = .evalContinuation

/-- Up to the delivery of the value of the expression that `s` dispatches, the stack of `s` stays
in place; the value is delivered with the stack and the continuation register of `s`; and if the
expression is a form, its sub-expressions are dispatched in the environment of the form. The
argument of `eval` and the bodies of closures are dispatched by an application, and not by the
form. -/
structure RegisterDiscipline (pf : Platform) (s : State) : Prop where
  below : ∀ t, (ecMachine pf).RunTo s.S.contents s t → s.S.contents <+: t.S.contents
  delivered : ∀ t, (ecMachine pf).RunTo s.S.contents s t →
    (ecMachine pf).Delivered s.S.contents t → t.cont = s.cont ∧ t.S.contents = s.S.contents
  env : ∀ E u, formEnv s = some E →
    (ecMachine pf).SubEval (ecMachine pf).step (fun _ => True) s u → u.env = E

section

variable {pf : Platform}

theorem ecMachine_reading (k : List UINT) (c : VALUE) :
    (ecMachine pf).Reading (Frame.words c) k (Reads k c) where
  stack hr := hr.stack
  step := by
    intro s t fs hr hfs ⟨_, ht, m, hstep⟩
    obtain ⟨fs', hr', -⟩ := ecEvalIteration_frameStep hr hfs hstep ht
    exact ⟨fs', hr'⟩

theorem reads_self {s : State} (hs : s.es = .evalDispatch) : Reads s.S.contents s.cont s [] :=
  .of_top rfl rfl (by simp [hs])

theorem reads_of_runTo {s t : State} (hs : s.es = .evalDispatch)
    (hrun : (ecMachine pf).RunTo s.S.contents s t) : ∃ fs, Reads s.S.contents s.cont t fs :=
  (ecMachine_reading s.S.contents s.cont).run hrun (reads_self hs)

theorem reads_of_delivered {s t : State} (hs : s.es = .evalDispatch)
    (hrun : (ecMachine pf).RunTo s.S.contents s t)
    (hdel : (ecMachine pf).Delivered s.S.contents t) :
    t.cont = s.cont ∧ t.S.contents = s.S.contents := by
  obtain ⟨fs, hr⟩ := reads_of_runTo hs hrun
  obtain rfl := (ecMachine_reading s.S.contents s.cont).eq_nil_of_delivered
    (Frame.words_ne_nil s.cont) hr hdel
  have hes : t.es = .evalContinuation := hdel.1
  exact ⟨hr.cont (by simp [hes]), hr.stack⟩

/-- A sub-expression of a form with the environment `E` is dispatched: in tail position, or with a
frame of the form on the stack. -/
def SubOf (k : List UINT) (c E : VALUE) (u : State) : Prop :=
  u.es = .evalDispatch ∧ u.env = E
    ∧ (Reads k c u [] ∨ ∃ f : Frame, f.Awaits E ∧ Reads k c u [f])

theorem subOf_of_enter {s u : State} {E : VALUE} (hs : s.es = .evalDispatch)
    (hE : formEnv s = some E) (hstep : (ecMachine pf).step s u)
    (hu : (ecMachine pf).evaluating u) : SubOf s.S.contents s.cont E u := by
  obtain ⟨_, hquiet, m, hiter⟩ := hstep
  obtain ⟨hes, hdone⟩ := hu
  obtain ⟨fs', hr, hfs⟩ := ecEvalIteration_frameStep (reads_self hs) (by simp [hs]) hiter hquiet
  cases hfs with
  | enter _ _ henv hf =>
    have henv := henv E hE
    exact ⟨hes, henv, .inr ⟨_, henv ▸ hf, hr⟩⟩
  | enterTail _ _ henv => exact ⟨hes, henv E hE, .inl hr⟩
  | value _ ht => simp [hes] at ht
  | stop _ ht => simp [hdone] at ht

/-- A frame of the form gets a value, and the form goes on with another sub-expression. -/
theorem subOf_of_resume {t u : State} {k : List UINT} {c E : VALUE} {f : Frame}
    (hr : Reads k c t [f]) (hf : f.Awaits E) (ht : t.es = .evalContinuation)
    (hstep : (ecMachine pf).step t u) (hu : (ecMachine pf).evaluating u) : SubOf k c E u := by
  obtain ⟨_, hquiet, m, hiter⟩ := hstep
  have hes : u.es = .evalDispatch := hu.1
  obtain ⟨fs', hr', hfs⟩ := ecEvalIteration_frameStep hr (by simp) hiter hquiet
  cases hfs with
  | next _ _ hsaved hf' =>
    have henv := hf _ hsaved
    exact ⟨hes, henv, .inr ⟨_, henv ▸ hf', hr'⟩⟩
  | nextTail _ _ hsaved => exact ⟨hes, hf _ hsaved, .inl hr'⟩
  | _ => simp_all

theorem subEval_subOf {s u : State} {E : VALUE} (hs : s.es = .evalDispatch)
    (hE : formEnv s = some E)
    (hsub : (ecMachine pf).SubEval (ecMachine pf).step (fun _ => True) s u) :
    SubOf s.S.contents s.cont E u := by
  induction hsub with
  | first _ henter hu => exact subOf_of_enter hs hE henter hu
  | @next v t u _ hframe hrun hdel _ hstep hu ih =>
    obtain ⟨hv, -, htail | ⟨f, hf, hr⟩⟩ := ih
    · -- nothing of the form is left on the stack
      exact absurd (congrArg List.length htail.stack) (Nat.ne_of_gt hframe)
    · obtain ⟨hcont, hstack⟩ := reads_of_delivered hv hrun hdel
      have ht : t.es = .evalContinuation := hdel.1
      have hrt : Reads s.S.contents s.cont t [f] :=
        .of_frame (hstack.trans hr.stack) (hcont.trans (hr.cont (by simp [hv]))) (by simp [ht])
      exact subOf_of_resume hrt hf ht hstep hu

/-- **Register and stack discipline.** -/
theorem registerDiscipline (pf : Platform) {s : State} (hs : s.es = .evalDispatch) :
    RegisterDiscipline pf s := by
  refine ⟨?_, ?_, ?_⟩
  · intro t hrun
    obtain ⟨fs, hr⟩ := reads_of_runTo hs hrun
    rw [hr.stack]
    exact prefix_layout _ _
  · intro t hrun hdel
    exact reads_of_delivered hs hrun hdel
  · intro E u hE hsub
    exact (subEval_subOf hs hE hsub).2.1

end

/-- One undisturbed step on a target without extensions. -/
def stepAlone (s : State) : Option State := do
  let t ← ecEvalIteration plainPlatform plainOutside.malloc s
  if !s.done && !t.pushLost
      && (t.es != .evalContinuation || t.cont != Continuation.contError.enc) then some t
  else none

/-- `n` undisturbed steps before a value is delivered at the stack height `sp`. -/
def runAlone (sp : Nat) : Nat → State → Option State
  | 0, s => some s
  | n + 1, s => do
      let t ← runAlone sp n s
      if t.es == .evalContinuation && decide (t.S.sp ≤ sp) then none else stepAlone t

theorem step_of_stepAlone {s t : State} (h : stepAlone s = some t) :
    (ecMachine plainPlatform).step s t := by
  obtain ⟨t', hiter, h⟩ := Option.bind_eq_some_iff.mp h
  split at h
  · next hcond =>
    cases h
    simp only [Bool.and_eq_true, Bool.not_eq_true', Bool.or_eq_true, bne_iff_ne] at hcond
    refine ⟨hcond.1.1, ⟨hcond.1.2, fun hes => ?_⟩, _, hiter⟩
    exact hcond.2.resolve_left (fun hne => hne hes)
  · cases h

theorem runTo_of_runAlone {s : State} : ∀ {n : Nat} {t : State}, runAlone s.S.sp n s = some t →
    (ecMachine plainPlatform).RunTo s.S.contents s t := by
  intro n
  induction n with
  | zero =>
    intro t h
    cases h
    exact .refl
  | succ n ih =>
    intro u h
    obtain ⟨t, ht, hu⟩ := Option.bind_eq_some_iff.mp h
    split at hu
    · cases hu
    · next hcond =>
      refine .tail (ih ht) ?_ (step_of_stepAlone hu)
      rintro ⟨hret, hle⟩
      have hes : t.es = .evalContinuation := hret
      have hsp : t.S.sp ≤ s.S.sp := by
        rw [← t.S.length_contents, ← s.S.length_contents]
        exact hle
      exact hcond (by simp [hes, hsp])

/-- `(if (let ((x 1)) nil) 2 3)`, where `x` is the first symbol of the program. -/
def ifOfLet : List Datum :=
  let x := Datum.sym maxSpecialSymbols
  [.list [.sym symreprIf,
    .list [.sym symreprLet, .list [.list [x, .int 1#32]], .sym symreprNil], .int 2#32, .int 3#32]]

/-- The state in which `ec_eval_program` starts a program in a new heap. -/
def startAlone (numCells : Nat) (program : List Datum) : Option State :=
  let st := evalCpsInit numCells
  let (prg, h) := (Datum.list program).build st.heap
  startProgram plainOutside.malloc prg NIL { st with heap := h }

/-- The value 3 of `ifOfLet` is delivered with the registers of the start, and its branch is
dispatched in the empty environment of the `if`. -/
theorem registerDiscipline_ifOfLet :
    ∃ s t u : State, startAlone 48 ifOfLet = some s ∧ formEnv s = some NIL
      ∧ (ecMachine plainPlatform).RunTo s.S.contents s t ∧ t.val = encI 3#32
      ∧ t.cont = s.cont ∧ t.S.contents = s.S.contents
      ∧ (ecMachine plainPlatform).SubEval (ecMachine plainPlatform).step (fun _ => True) s u
      ∧ u.exp = encI 3#32 ∧ u.env = NIL := by
  have h : ((startAlone 48 ifOfLet).bind fun s => (runAlone s.S.sp 8 s).bind fun t =>
      (stepAlone s).bind fun v => (runAlone v.S.sp 5 v).bind fun w => (stepAlone w).map fun u =>
        decide (s.es = .evalDispatch ∧ s.done = false ∧ formEnv s = some NIL
          ∧ t.es = .evalContinuation ∧ t.S.sp ≤ s.S.sp ∧ t.val = encI 3#32
          ∧ v.es = .evalDispatch ∧ v.done = false ∧ s.S.sp < v.S.sp
          ∧ w.es = .evalContinuation ∧ w.S.sp ≤ v.S.sp
          ∧ u.es = .evalDispatch ∧ u.done = false ∧ u.exp = encI 3#32)) = some true := by
    decide +kernel
  obtain ⟨s, hs, h⟩ := Option.bind_eq_some_iff.mp h
  obtain ⟨t, ht, h⟩ := Option.bind_eq_some_iff.mp h
  obtain ⟨v, hv, h⟩ := Option.bind_eq_some_iff.mp h
  obtain ⟨w, hw, h⟩ := Option.bind_eq_some_iff.mp h
  obtain ⟨u, hu, h⟩ := Option.map_eq_some_iff.mp h
  obtain ⟨hes, hdone, hform, htes, htsp, htval, hves, hvdone, hlt, hwes, hwsp, hues,
    hudone, huexp⟩ :=
    of_decide_eq_true h
  simp only [← Stack.length_contents] at htsp hlt hwsp
  have hrun := runTo_of_runAlone ht
  have hdisc := registerDiscipline plainPlatform hes
  obtain ⟨hcont, hstack⟩ := hdisc.delivered t hrun ⟨htes, htsp⟩
  have hsub : (ecMachine plainPlatform).SubEval (ecMachine plainPlatform).step
      (fun _ => True) s u :=
    .next (.first ⟨hes, hdone⟩ (step_of_stepAlone hv) ⟨hves, hvdone⟩) hlt (runTo_of_runAlone hw)
      ⟨hwes, hwsp⟩ trivial (step_of_stepAlone hu) ⟨hues, hudone⟩
  exact ⟨s, t, u, hs, hform, hrun, htval, hcont, hstack, hsub, huexp, hdisc.env NIL u hform hsub⟩

end EcEval

end LispBM
