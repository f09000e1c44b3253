import LispBM.EvalCps.Frames
import LispBM.Heap.Collect

/-!
# LispBM — stack and environments of the concurrent evaluator over whole runs

A run of one context is the sequence of its own steps (`cpsMachine`). What happens between two
of them, in other contexts and in collections, shows only in the globals, which are therefore
arbitrary at every step.

* `stackDiscipline` — an expression started on the stack `k` leaves `k` alone, and its value
  arrives at `k`; expressions in tail position start at `k` again;
* `subEval_env` — the sub-expressions of a form are evaluated in the environment of the form.

Neither holds of all runs. The first one fails when `APPLICATION_ARGS` takes an operand for a
short-circuiting operator (`strayShortCircuit`). The second one also fails where a form goes on
in whatever environment the sub-expression before left behind: `IF` and the last form of
`PROGN_REST` do not bring back the environment of the form (`keepsCurrEnv`).
-/

namespace LispBM

open FrameStack

/-! ## The machine -/

/-- A step of a context that is not done, from a state that is `ok`, without an error. The second
components are the globals as the context finds them; `g` tells whether the step asked for a
collection. -/
def CtxStep (pf : Platform) (ok : EvalContext → Prop) (g : Bool) (s t : EvalContext × Store) :
    Prop :=
  ok s.1 ∧ s.1.done = false
    ∧ ∃ io o st', stepCtx pf io s.1 s.2 = some (o, st', g) ∧ o.goesOn t.1

def cpsMachine (pf : Platform) (ok : EvalContext → Prop) : Machine (EvalContext × Store) UINT where
  step s t := ∃ g, CtxStep pf ok g s t
  stack s := s.1.K.contents
  evaluating s := s.1.appCont = false
  returning s := s.1.appCont = true

/-- A step of `evaluation_step` that does not kill the context is a step of it from the globals
that the collection left. -/
theorem evaluationStep_eq {pf : Platform} {io : Outside} {c : EvalContext} {st : Store}
    {flags flags' : GcFlags} {s' : EvalState}
    (hflags : (flags.performGc && flags.lastIterationGc) = false)
    (h : evaluationStep pf io c st flags = some (s', flags')) :
    ∃ st₁ o st' g, gcIfDue c st flags = some st₁ ∧ stepCtx pf io c st₁ = some (o, st', g)
      ∧ s' = o.settle st' ∧ flags' = ⟨g, flags.performGc⟩ := by
  unfold evaluationStep at h
  rw [if_neg (by simp [hflags])] at h
  obtain ⟨st₁, hgc, h⟩ := Option.bind_eq_some_iff.mp h
  obtain ⟨⟨o, st', g⟩, hstep, h⟩ := Option.bind_eq_some_iff.mp h
  obtain ⟨rfl, rfl⟩ := Prod.mk.inj (Option.some.inj h)
  exact ⟨st₁, o, st', g, hgc, hstep, rfl, rfl⟩

variable {pf : Platform}

theorem CtxStep.stepOn {ok : EvalContext → Prop} {g : Bool} {s t : EvalContext × Store}
    (hok : ∀ c, ok c → strayShortCircuit c = false) (h : CtxStep pf ok g s t) {k : List UINT}
    {fs : List Frame} (hK : s.1.K.contents = framesOn k fs) (hfs : s.1.appCont = true → fs ≠ []) :
    StepOn s.2 g k fs s.1 t.1 := by
  obtain ⟨hs, hdone, io, o, st', hstep, ho⟩ := h
  exact stepCtx_stepOn hK hfs hdone (hok _ hs) hstep ho

/-- The steps that do not take an operand for a short-circuiting operator. -/
def NotStray (c : EvalContext) : Prop := strayShortCircuit c = false

theorem cpsMachine_reading (k : List UINT) :
    (cpsMachine pf NotStray).Reading (fun f _ => Frame.words f) k
      (fun s fs => s.1.K.contents = framesOn k fs) where
  stack hs := hs
  step := by
    intro s t fs hs hfs ⟨g, hstep⟩
    obtain ⟨fs', ht, -⟩ := hstep.stepOn (fun _ hc => hc) hs hfs
    exact ⟨fs', ht⟩

/-! ## The stack -/

/-- Up to the delivery of the value of the expression that `s` is about to evaluate, the stack of
`s` stays in place, and at the delivery it is all there is; what is in tail position of the
expression, bodies of closures included, starts with the stack of `s` again. -/
structure StackDiscipline (M : Machine (EvalContext × Store) UINT) (s : EvalContext × Store) :
    Prop where
  below : ∀ t, M.RunTo (M.stack s) s t → M.stack s <+: M.stack t
  delivered : ∀ t, M.RunTo (M.stack s) s t → M.Delivered (M.stack s) t → M.stack t = M.stack s
  tail : ∀ t u f, M.RunTo (M.stack s) s t → M.returning t → M.stack t = M.stack s ++ Frame.words f →
    f.isTail t.2 = true → M.step t u → M.evaluating u → M.stack u = M.stack s

theorem contents_of_runTo {s t : EvalContext × Store}
    (ht : (cpsMachine pf NotStray).RunTo s.1.K.contents s t) :
    ∃ fs, t.1.K.contents = framesOn s.1.K.contents fs :=
  (cpsMachine_reading s.1.K.contents).run ht (framesOn_nil _).symm

theorem contents_of_delivered {s t : EvalContext × Store}
    (ht : (cpsMachine pf NotStray).RunTo s.1.K.contents s t)
    (hdel : (cpsMachine pf NotStray).Delivered s.1.K.contents t) :
    t.1.K.contents = s.1.K.contents := by
  obtain ⟨fs, hfs⟩ := contents_of_runTo ht
  obtain rfl := (cpsMachine_reading s.1.K.contents).eq_nil_of_delivered
    (fun f _ => f.words_ne_nil) hfs hdel
  exact hfs

theorem stack_of_isTail {k : List UINT} {f : Frame} {t u : EvalContext × Store}
    (ht : t.1.K.contents = framesOn k [f]) (htail : f.isTail t.2 = true)
    (hret : t.1.appCont = true) (hstep : ∃ g, CtxStep pf NotStray g t u)
    (heval : u.1.appCont = false) : u.1.K.contents = k := by
  obtain ⟨g, hstep⟩ := hstep
  obtain ⟨fs', hu, hfs⟩ := hstep.stepOn (fun _ hc => hc) ht (by simp)
  cases hfs with
  | next hfs _ _ hnot _ _ =>
    obtain ⟨rfl, rfl⟩ := List.cons.inj hfs
    exact absurd htail (by simp [hnot])
  | ifBranch hfs _ _ _ => rw [hu, ← (List.cons.inj hfs).2, framesOn_nil]
  | prognLast hfs _ _ _ _ => rw [hu, ← (List.cons.inj hfs).2, framesOn_nil]
  | letLast hfs _ _ => rw [hu, ← (List.cons.inj hfs).2, framesOn_nil]
  | body hfs _ _ => rw [hu, ← (List.cons.inj hfs).2, framesOn_nil]
  | advance hfs _ _ =>
    obtain ⟨rfl, -⟩ := List.cons.inj hfs
    exact absurd htail (by simp [Frame.isTail])
  | _ => simp_all

/-- **Stack discipline**, in every run in which no operand is taken for a short-circuiting
operator. -/
theorem stackDiscipline (s : EvalContext × Store) : StackDiscipline (cpsMachine pf NotStray) s := by
  refine ⟨?_, ?_, ?_⟩
  · intro t ht
    obtain ⟨fs, hfs⟩ := contents_of_runTo ht
    show s.1.K.contents <+: t.1.K.contents
    rw [hfs]
    exact prefix_layout _ _
  · intro t ht hdel
    exact contents_of_delivered ht hdel
  · intro t u f _ hret hstack htail hstep heval
    exact stack_of_isTail hstack htail hret hstep heval

/-- A target without floating point and without extensions. -/
def plainPlatform : Platform where
  floats :=
    { add := fun _ _ => 0#32
      sub := fun _ _ => 0#32
      mul := fun _ _ => 0#32
      div := fun _ _ => 0#32
      neg := fun _ => 0#32
      ofI := fun _ => 0#32
      ofU := fun _ => 0#32
      toI := fun _ => 0#32
      toU := fun _ => 0#32
      eq := fun _ _ => false
      lt := fun _ _ => false }
  extensionsLookup := fun _ => none

/-- Memory is there for whoever asks, and no time passes. -/
def plainOutside : Outside where
  malloc :=
    { grants := fun n => decide (n < 2 ^ 28)
      uninit := fun _ => 0#32
      grants_lt := fun _ h => of_decide_eq_true h }
  mallocCtx := true
  uninitR := 0#32
  timestampUs := none

/-- The first context of the queue, taken out of it. -/
def firstCtx (st : Store) : Option (EvalContext × Store) :=
  (dequeueCtx 0#32 st.ctxQueue).map fun (c, queue) => (c, { st with ctxQueue := queue })

/-- One step of a context that nobody interrupts. -/
def stepAlone (s : EvalContext × Store) : Option (EvalContext × Store) :=
  match stepCtx plainPlatform plainOutside s.1 s.2 with
  | some (.running c, st, false) => some (c, st)
  | _ => none

/-- `n` steps of a context that nobody interrupts, from states that are `ok`, before a value is
delivered at the stack height `sp`. -/
def runAlone (ok : EvalContext → Bool) (sp : Nat) :
    Nat → EvalContext × Store → Option (EvalContext × Store)
  | 0, s => some s
  | n + 1, s => do
      let t ← runAlone ok sp n s
      if ok t.1 && !t.1.done && !(t.1.appCont && decide (t.1.K.sp ≤ sp)) then stepAlone t else none

theorem ctxStep_of_stepAlone {ok : EvalContext → Prop} {s t : EvalContext × Store}
    (hok : ok s.1) (hdone : s.1.done = false) (h : stepAlone s = some t) :
    CtxStep plainPlatform ok false s t := by
  unfold stepAlone at h
  split at h
  · next c st heq =>
    obtain rfl := Option.some.inj h
    exact ⟨hok, hdone, plainOutside, .running c, st, heq, goesOn_running.mpr rfl⟩
  · exact absurd h (by simp)

theorem runTo_of_runAlone {ok : EvalContext → Bool} {s : EvalContext × Store} :
    ∀ {n : Nat} {t : EvalContext × Store}, runAlone ok s.1.K.sp n s = some t →
      (cpsMachine plainPlatform (fun c => ok c = true)).RunTo s.1.K.contents s t := by
  intro n
  induction n with
  | zero =>
    intro t h
    obtain rfl := Option.some.inj h
    exact .refl
  | succ n ih =>
    intro u h
    obtain ⟨t, ht, hu⟩ := Option.bind_eq_some_iff.mp h
    split at hu
    · next hcond =>
      simp only [Bool.and_eq_true, Bool.not_eq_true', Bool.and_eq_false_iff,
        decide_eq_false_iff_not] at hcond
      refine .tail (ih ht) ?_ ⟨false, ctxStep_of_stepAlone hcond.1.1 hcond.1.2 hu⟩
      rintro ⟨hret, hle⟩
      have hle' : t.1.K.sp ≤ s.1.K.sp := by
        rw [← t.1.K.length_contents, ← s.1.K.length_contents]
        exact hle
      rcases hcond.2 with happ | hsp
      · exact absurd hret (by simp [cpsMachine, happ])
      · exact hsp hle'
    · exact absurd hu (by simp)

/-- `(progn (5 and 2) 7)`. -/
def strayAnd : List Datum :=
  [.list [.sym symreprProgn, .list [.int 5#32, .sym symreprAnd, .int 2#32], .int 7#32]]

/-- **The frame of an enclosing form is lost.** The operand `and` of `(5 and 2)` makes the
evaluator leave the 5 on the stack and take it for the tag of a frame later, so that the words
of the `progn` are popped. -/
theorem not_stackDiscipline_strayAnd :
    ∃ s₀ s, firstCtx (startPrograms plainOutside 32 [strayAnd]) = some s₀
      ∧ stepAlone s₀ = some s ∧ s.1.appCont = false
      ∧ ¬ StackDiscipline (cpsMachine plainPlatform (fun _ => True)) s := by
  have h : ((firstCtx (startPrograms plainOutside 32 [strayAnd])).bind fun s₀ =>
      (stepAlone s₀).bind fun s => (runAlone (fun _ => true) s.1.K.sp 8 s).map fun t =>
        (s.1.appCont, decide (s.1.K.contents <+: t.1.K.contents))) = some (false, false) := by
    decide +kernel
  obtain ⟨s₀, hs₀, h⟩ := Option.bind_eq_some_iff.mp h
  obtain ⟨s, hs, h⟩ := Option.bind_eq_some_iff.mp h
  obtain ⟨t, ht, h⟩ := Option.map_eq_some_iff.mp h
  obtain ⟨happ, hprefix⟩ := Prod.mk.inj h
  refine ⟨s₀, s, hs₀, hs, happ, fun hdisc => ?_⟩
  have hrun := runTo_of_runAlone ht
  simp only at hrun
  exact of_decide_eq_false hprefix (hdisc.below t hrun)

/-! ## The environments -/

/-- The form on top of the stack goes on in the environment that the sub-expression before left
behind: the branches of `if`, and the last form of `progn`. -/
def keepsCurrEnv (s : EvalContext × Store) : Bool :=
  match s.1.K.contents.reverse with
  | tag :: rest :: _ =>
      s.1.appCont
        && (decU tag == contIf || decU tag == contPrognRest && isLastForm s.2 rest)
  | _ => false

theorem keepsCurrEnv_of_ifBranches {s : EvalContext × Store} {k : List UINT}
    {elseBranch thenBranch : VALUE} (ha : s.1.appCont = true)
    (hK : s.1.K.contents = framesOn k [.ifBranches elseBranch thenBranch]) :
    keepsCurrEnv s = true := by
  have htag : decU (encU contIf) = contIf := by decide
  simp [keepsCurrEnv, hK, ha, Frame.words, Frame.payload, Frame.tag, htag]

theorem keepsCurrEnv_of_prognRest {s : EvalContext × Store} {k : List UINT} {env rest : VALUE}
    (ha : s.1.appCont = true) (hK : s.1.K.contents = framesOn k [.prognRest env rest])
    (hlast : isLastForm s.2 rest = true) : keepsCurrEnv s = true := by
  have htag : decU (encU contPrognRest) = contPrognRest := by decide
  simp [keepsCurrEnv, hK, ha, Frame.words, Frame.payload, Frame.tag, htag, hlast]

/-- A sub-expression of a form entered in `E` on the stack `k` is about to be evaluated: in tail
position, or with a frame of the form above `k`. -/
def SubOf (E : VALUE) (k : List UINT) (c : EvalContext) : Prop :=
  c.currEnv = E ∧ (c.K.contents = k ∨ ∃ f, f.Awaits E ∧ c.K.contents = framesOn k [f])

theorem subOf_of_enter {E : VALUE} {s t : EvalContext × Store}
    (hE : formEnv s.2 s.1 = some E) (hs : s.1.appCont = false)
    (hstep : CtxStep pf NotStray false s t) (ht : t.1.appCont = false) :
    SubOf E s.1.K.contents t.1 := by
  have hK₀ : s.1.K.contents = framesOn s.1.K.contents [] := rfl
  obtain ⟨fs', hK, hfs⟩ := hstep.stepOn (fun _ hc => hc) hK₀ (by simp [hs])
  cases hfs with
  | enter _ _ henv hf =>
    obtain rfl := Option.some.inj (hE.symm.trans henv)
    exact ⟨rfl, .inr ⟨_, hf, hK⟩⟩
  | letBody _ _ henv => exact ⟨(Option.some.inj (hE.symm.trans henv)).symm, .inl hK⟩
  | _ => simp_all

/-- The frame of a form gets a value and the form goes on with another sub-expression. -/
theorem subOf_of_resume {E : VALUE} {k : List UINT} {f : Frame} {t u : EvalContext × Store}
    (hf : f.Awaits E) (hK : t.1.K.contents = framesOn k [f]) (ht : t.1.appCont = true)
    (hkeep : keepsCurrEnv t = true → t.1.currEnv = E) (hstep : ∃ g, CtxStep pf NotStray g t u)
    (hu : u.1.appCont = false) : SubOf E k u.1 := by
  obtain ⟨g, hstep⟩ := hstep
  obtain ⟨fs', hK', hfs⟩ := hstep.stepOn (fun _ hc => hc) hK (by simp)
  -- Only `if` and the last form of `progn` rely on `curr_env`; the others have it in the frame.
  cases hfs with
  | next hfs _ _ _ hsaved hsaved' =>
    obtain ⟨rfl, rfl⟩ := List.cons.inj hfs
    have henv : u.1.currEnv = E := by
      rcases hf with hsavedE | ⟨key, rfl⟩ | ⟨elseBranch, thenBranch, rfl⟩
      · exact Option.some.inj (hsaved.symm.trans hsavedE)
      · exact absurd hsaved (by simp [Frame.savedEnv])
      · exact absurd hsaved (by simp [Frame.savedEnv])
    exact ⟨henv, .inr ⟨_, .inl (henv ▸ hsaved'), hK'⟩⟩
  | ifBranch hfs _ _ henv =>
    obtain ⟨rfl, rfl⟩ := List.cons.inj hfs
    exact ⟨henv.trans (hkeep (keepsCurrEnv_of_ifBranches ht hK)), .inl hK'⟩
  | prognLast hfs hlast _ _ henv =>
    obtain ⟨rfl, rfl⟩ := List.cons.inj hfs
    exact ⟨henv.trans (hkeep (keepsCurrEnv_of_prognRest ht hK hlast)), .inl hK'⟩
  | letLast hfs _ _ =>
    obtain ⟨rfl, rfl⟩ := List.cons.inj hfs
    refine ⟨?_, .inl hK'⟩
    simpa [Frame.Awaits, Frame.savedEnv] using hf
  | body hfs _ _ =>
    obtain ⟨rfl, rfl⟩ := List.cons.inj hfs
    simp [Frame.Awaits, Frame.savedEnv] at hf
  | advance hfs _ _ =>
    obtain ⟨rfl, rfl⟩ := List.cons.inj hfs
    simp [Frame.Awaits, Frame.savedEnv] at hf
  | _ => simp_all

/-- **Environment discipline**, in every run in which no operand is taken for a short-circuiting
operator, and `if` and the last form of `progn` go on where the current environment is that of
the form. -/
theorem subEval_env {E : VALUE} {s₀ s : EvalContext × Store} (hE : formEnv s₀.2 s₀.1 = some E)
    (hsub : (cpsMachine pf NotStray).SubEval (CtxStep pf NotStray false)
      (fun t => keepsCurrEnv t = true → t.1.currEnv = E) s₀ s) :
    s.1.currEnv = E := by
  suffices hinv : SubOf E s₀.1.K.contents s.1 from hinv.1
  induction hsub with
  | first hform henter hsub => exact subOf_of_enter hE hform henter hsub
  | @next s t u _ hframe hrun hdel hok hstep hu ih =>
    rcases ih.2 with htail | ⟨f, hf, hK⟩
    · -- nothing of the form is left on the stack
      exact absurd (congrArg List.length htail) (Nat.ne_of_gt hframe)
    · have ht : t.1.K.contents = s.1.K.contents := contents_of_delivered hrun hdel
      exact subOf_of_resume hf (ht.trans hK) hdel.1 hok hstep hu

/-- The first sub-expression of the form that `s₀` is about to evaluate is started. -/
def firstSub (ok : EvalContext → Bool) (s₀ : EvalContext × Store) :
    Option (EvalContext × Store) := do
  let s ← stepAlone s₀
  if ok s₀.1 && !s₀.1.done && !s₀.1.appCont && !s.1.appCont then some s else none

/-- The states before and after the next sub-expression is started, if the one that was started in
`s` takes `n` steps. -/
def nextSub (ok : EvalContext → Bool) (n : Nat) (s₀ s : EvalContext × Store) :
    Option ((EvalContext × Store) × (EvalContext × Store)) := do
  let t ← runAlone ok s.1.K.sp n s
  let u ← stepAlone t
  if decide (s₀.1.K.sp < s.1.K.sp) && ok t.1 && !t.1.done && t.1.appCont
      && decide (t.1.K.sp ≤ s.1.K.sp) && !u.1.appCont then
    some (t, u)
  else none

section

variable {ok : EvalContext → Bool} {resume : EvalContext × Store → Prop} {n : Nat}
  {s₀ s t u : EvalContext × Store}

theorem subEval_of_firstSub (h : firstSub ok s₀ = some s) :
    (cpsMachine plainPlatform (fun c => ok c = true)).SubEval
      (CtxStep plainPlatform (fun c => ok c = true) false) resume s₀ s := by
  obtain ⟨s', hs, h⟩ := Option.bind_eq_some_iff.mp h
  split at h
  · next hcond =>
    cases h
    simp only [Bool.and_eq_true, Bool.not_eq_true'] at hcond
    obtain ⟨⟨⟨hok, hdone⟩, happ₀⟩, happ⟩ := hcond
    exact .first happ₀ (ctxStep_of_stepAlone hok hdone hs) happ
  · cases h

theorem subEval_of_nextSub
    (hprev : (cpsMachine plainPlatform (fun c => ok c = true)).SubEval
      (CtxStep plainPlatform (fun c => ok c = true) false) resume s₀ s)
    (h : nextSub ok n s₀ s = some (t, u)) (hresume : resume t) :
    (cpsMachine plainPlatform (fun c => ok c = true)).SubEval
      (CtxStep plainPlatform (fun c => ok c = true) false) resume s₀ u := by
  obtain ⟨t', ht, h⟩ := Option.bind_eq_some_iff.mp h
  obtain ⟨u', hu, h⟩ := Option.bind_eq_some_iff.mp h
  split at h
  · next hcond =>
    cases h
    simp only [Bool.and_eq_true, Bool.not_eq_true', decide_eq_true_eq] at hcond
    obtain ⟨⟨⟨⟨⟨hlt, hok⟩, hdone⟩, happ⟩, hle⟩, happu⟩ := hcond
    rw [← s₀.1.K.length_contents, ← s.1.K.length_contents] at hlt
    rw [← t.1.K.length_contents, ← s.1.K.length_contents] at hle
    exact .next hprev hlt (runTo_of_runAlone ht) ⟨happ, hle⟩ hresume
      ⟨false, ctxStep_of_stepAlone hok hdone hu⟩ happu
  · cases h

end

/-- `(and (let ((x 1)) x) 2)`, where `x` is the first symbol of the program. -/
def andOfLet : List Datum :=
  let x := Datum.sym maxSpecialSymbols
  [.list [.sym symreprAnd, .list [.sym symreprLet, .list [.list [x, .int 1#32]], x], .int 2#32]]

/-- The value of the `let` is delivered in the environment of the `let`, and `2` is evaluated in
that of the form. -/
theorem subEval_env_andOfLet :
    ∃ s₀ t u : EvalContext × Store, firstCtx (startPrograms plainOutside 32 [andOfLet]) = some s₀
      ∧ formEnv s₀.2 s₀.1 = some NIL ∧ t.1.currEnv ≠ NIL ∧ stepAlone t = some u
      ∧ u.1.currExp = encI 2#32 ∧ u.1.currEnv = NIL := by
  have h : ((firstCtx (startPrograms plainOutside 32 [andOfLet])).bind fun s₀ =>
      (firstSub (fun c => !strayShortCircuit c) s₀).bind fun s =>
      (nextSub (fun c => !strayShortCircuit c) 1 s₀ s).bind fun (t₁, u₁) =>
      (nextSub (fun c => !strayShortCircuit c) 4 s₀ u₁).map fun (t₂, u₂) =>
        (formEnv s₀.2 s₀.1, keepsCurrEnv t₁, keepsCurrEnv t₂, decide (t₂.1.currEnv = NIL),
          u₂.1.currExp)) = some (some NIL, false, false, false, encI 2#32) := by
    decide +kernel
  obtain ⟨s₀, hs₀, h⟩ := Option.bind_eq_some_iff.mp h
  obtain ⟨s, hs, h⟩ := Option.bind_eq_some_iff.mp h
  obtain ⟨⟨t₁, u₁⟩, h₁, h⟩ := Option.bind_eq_some_iff.mp h
  obtain ⟨⟨t₂, u₂⟩, h₂, h⟩ := Option.map_eq_some_iff.mp h
  simp only [Prod.mk.injEq] at h
  obtain ⟨hform, hkeep₁, hkeep₂, henv, hexp⟩ := h
  -- no state of the run goes on in the environment it finds
  have hfirst : (cpsMachine plainPlatform fun c => (!strayShortCircuit c) = true).SubEval
      (CtxStep plainPlatform (fun c => (!strayShortCircuit c) = true) false)
      (fun t => keepsCurrEnv t = true → t.1.currEnv = NIL) s₀ s := subEval_of_firstSub hs
  have hlet := subEval_of_nextSub hfirst h₁ fun hkeep =>
    absurd (hkeep₁.symm.trans hkeep) (by decide)
  have htwo := subEval_of_nextSub hlet h₂ fun hkeep =>
    absurd (hkeep₂.symm.trans hkeep) (by decide)
  have hstep : stepAlone t₂ = some u₂ := by
    obtain ⟨t', -, h₂⟩ := Option.bind_eq_some_iff.mp h₂
    obtain ⟨u', hu, h₂⟩ := Option.bind_eq_some_iff.mp h₂
    split at h₂
    · cases h₂
      exact hu
    · cases h₂
  simp only [Bool.not_eq_true'] at htwo
  exact ⟨s₀, t₂, u₂, hs₀, hform, of_decide_eq_false henv, hstep, hexp, subEval_env hform htwo⟩

/-- `(progn (let ((x 1)) x) x)`, where `x` is the first symbol of the program. -/
def leakingLet : List Datum :=
  let x := Datum.sym maxSpecialSymbols
  [.list [.sym symreprProgn, .list [.sym symreprLet, .list [.list [x, .int 1#32]], x], x]]

/-- **The environment of a `let` leaks out of it**: the last form of the `progn` is evaluated in
the environment of the `let` before it, and not in that of the `progn`. -/
theorem not_subEval_env_leakingLet :
    ∃ s₀ u E, firstCtx (startPrograms plainOutside 32 [leakingLet]) = some s₀
      ∧ formEnv s₀.2 s₀.1 = some E
      ∧ (cpsMachine plainPlatform (fun _ => True)).SubEval
          (CtxStep plainPlatform (fun _ => True) false) (fun _ => True) s₀ u
      ∧ u.1.currEnv ≠ E := by
  have h : ((firstCtx (startPrograms plainOutside 32 [leakingLet])).bind fun s₀ =>
      (firstSub (fun _ => true) s₀).bind fun s =>
      (nextSub (fun _ => true) 4 s₀ s).map fun (_, u) =>
        (formEnv s₀.2 s₀.1, decide (u.1.currEnv = NIL))) = some (some NIL, false) := by
    decide +kernel
  obtain ⟨s₀, hs₀, h⟩ := Option.bind_eq_some_iff.mp h
  obtain ⟨s, hs, h⟩ := Option.bind_eq_some_iff.mp h
  obtain ⟨⟨t, u⟩, htu, h⟩ := Option.map_eq_some_iff.mp h
  simp only [Prod.mk.injEq] at h
  have hfirst : (cpsMachine plainPlatform fun _ => true = true).SubEval
      (CtxStep plainPlatform (fun _ => true = true) false) (fun _ => True) s₀ s :=
    subEval_of_firstSub hs
  have hsub := subEval_of_nextSub hfirst htu trivial
  simp only at hsub
  exact ⟨s₀, u, NIL, hs₀, h.1, hsub, of_decide_eq_false h.2⟩

end LispBM
