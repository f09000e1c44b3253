import LispBM.EcEval
import LispBM.Lib.FrameStack

/-!
# LispBM — frames of the explicit-control evaluator

The continuation register is part of the continuation: a frame is what a continuation left on
the stack (`Frame`), and its number is either in `cont`, for the topmost frame, or it is the word
that the frame above it has saved. `Reads k c s fs` says that the machine has the frames `fs`
above the stack `k` and the continuation `c`; every step keeps this (`ecEvalIteration_frameStep`),
and `FrameStep` says how the frames change and in which environment an expression is dispatched.
-/

namespace LispBM

namespace EcEval

open FrameStack

/-! ## Frames -/

/-- What a continuation has on the stack, apart from the saved `cont`. -/
inductive Frame where
  | define (unev : VALUE)
  /-- Also the stack of an application in `EVAL_APPLY_DISPATCH`. -/
  | setupNoArgApply
  | evalArgs (env unev : VALUE)
  | accumulateArg (fn argl env unev : VALUE)
  | accumulateLastArg (fn argl : VALUE)
  | branch (env unev : VALUE)
  | sequence (env unev : VALUE)
  | bindVar (outer body env unev : VALUE)
  | endLet (outer : VALUE)
  | and (env unev : VALUE)
  | or (env unev : VALUE)

namespace Frame

def continuation : Frame → Continuation
  | define _ => .contDefine
  | setupNoArgApply => .contSetupNoArgApply
  | evalArgs _ _ => .contEvalArgs
  | accumulateArg _ _ _ _ => .contAccumulateArg
  | accumulateLastArg _ _ => .contAccumulateLastArg
  | branch _ _ => .contBranch
  | sequence _ _ => .contSequence
  | bindVar _ _ _ _ => .contBindVar
  | endLet _ => .contEndLet
  | and _ _ => .contAnd
  | or _ _ => .contOr

/-- The continuation that waits on the frames `fs`, if `c` is below them. -/
def top (c : VALUE) : List Frame → VALUE
  | [] => c
  | f :: _ => f.continuation.enc

/-- The words of a frame that has saved the continuation `cont`, bottom first. -/
def onStack (cont : VALUE) : Frame → List UINT
  | define unev => [unev, cont]
  | setupNoArgApply => [cont]
  | evalArgs env unev => [cont, env, unev]
  | accumulateArg fn argl env unev => [cont, fn, argl, env, unev]
  | accumulateLastArg fn argl => [cont, fn, argl]
  | branch env unev => [cont, env, unev]
  | sequence env unev => [cont, env, unev]
  | bindVar outer body env unev => [cont, outer, body, env, unev]
  | endLet outer => [cont, outer]
  | and env unev => [cont, env, unev]
  | or env unev => [cont, env, unev]

/-- The words of a frame on top of the frames `below`. -/
def words (c : VALUE) (f : Frame) (below : List Frame) : List UINT := f.onStack (top c below)

theorem words_ne_nil (c : VALUE) (f : Frame) (below : List Frame) : f.words c below ≠ [] := by
  cases f <;> exact List.cons_ne_nil _ _

/-- The environment in which the form goes on with another sub-expression, if it can. -/
def savedEnv : Frame → Option VALUE
  | evalArgs env _ | accumulateArg _ _ env _ | branch env _ | sequence env _ => some env
  | bindVar _ _ env _ | and env _ | or env _ => some env
  | define _ | setupNoArgApply | accumulateLastArg _ _ | endLet _ => none

/-- Whatever the frame dispatches next, it does so in `E`. -/
def Awaits (E : VALUE) (f : Frame) : Prop := ∀ e, f.savedEnv = some e → e = E

theorem awaits_of_savedEnv {E : VALUE} {f : Frame} (h : f.savedEnv = some E) : f.Awaits E := by
  intro e he
  exact Option.some.inj (he.symm.trans h)

theorem awaits_of_none {E : VALUE} {f : Frame} (h : f.savedEnv = none) : f.Awaits E := by
  intro e he
  exact absurd he (by simp [h])

end Frame

/-- The stack with the frames `fs` on top of `k`, where the continuation `c` was waiting. -/
abbrev framesOn (k : List UINT) (c : VALUE) (fs : List Frame) : List UINT :=
  layout (Frame.words c) k fs

/-- The machine has the frames `fs` above the stack `k` and the continuation `c`. While an
application is dispatched the register is not in use, and the continuation is on the stack. -/
structure Reads (k : List UINT) (c : VALUE) (s : State) (fs : List Frame) : Prop where
  stack : s.S.contents = framesOn k c fs
  cont : s.es ≠ .evalApplyDispatch → s.cont = Frame.top c fs
  apply : s.es = .evalApplyDispatch → ∃ gs, fs = .setupNoArgApply :: gs

/-! ## The environment of a form -/

/-- The environment `env` with a new binding for each of the bindings in `curr`; `none` if there
are not enough free cells. -/
def extendEnv : Nat → VALUE → VALUE → HeapState → Option VALUE
  | 0, _, _, _ => none
  | n + 1, curr, env, h =>
      if isSymbolNil curr then some env
      else
        let ((binding, env'), h') := consBinding (car h (car h curr)) env h
        if isSymbol binding || isSymbol env' then none
        else extendEnv n (cdr h' curr) env' h'

/-- The same, if the key of the first binding is known. -/
def extendEnvWith (key : VALUE) (n : Nat) (curr env : VALUE) (h : HeapState) : Option VALUE :=
  let ((binding, env'), h') := consBinding key env h
  if isSymbol binding || isSymbol env' then none else extendEnv n (cdr h' curr) env' h'

/-- The extended environment of the `let` in `exp`. If no cell is free at the beginning, the cells
come from a collection; `none` if the cells do not last. -/
def letEnv (s : State) : Option VALUE :=
  let h := s.store.heap
  let binds := car h (cdr h s.exp)
  let body := car h (cdr h (cdr h s.exp))
  let key := car h (car h binds)
  let n := preallocFuel h - 1
  if isSymbolNil binds then some s.env
  else if isSymbolMerror s.env then none
  else if isSymbolMerror (consBinding key s.env h).1.1 then
    (collect
      [.phase s.store.envGlobal, .phase s.env, .phase binds, .phase s.prg, .phase s.exp,
        .phase s.argl, .phase s.val, .phase s.fun', .aux (s.S.contents ++ [s.cont, s.env, body])]
      (consBinding key s.env h).2).bind fun (_, h) => extendEnvWith key n binds s.env h
  else extendEnvWith key n binds s.env h

/-- The environment for the sub-expressions of the form in `exp`. -/
def formEnv (s : State) : Option VALUE :=
  if expKindOf s.store.heap s.exp = .expLet then letEnv s else some s.env

/-! ## What the operations leave alone -/

theorem contents_push {m : Malloc} {s : State} {ws : List UINT}
    (h : (s.push m ws).pushLost = false) :
    (s.push m ws).S.contents = s.S.contents ++ ws ∧ s.pushLost = false := by
  simp only [State.push, Bool.or_eq_false_iff, Bool.not_eq_false'] at h
  exact ⟨contents_pushAll (Prod.ext h.2 rfl), h.1⟩

theorem gc_eq {s t : State} (h : gc s = some t) : ∃ st, t = { s with store := st } := by
  obtain ⟨⟨ress, heap⟩, -, rfl⟩ := Option.map_eq_some_iff.mp h
  exact ⟨_, rfl⟩

theorem allocWithGc_eq {s t : State} {alloc : Store → Option (VALUE × Store)} {v : VALUE}
    (h : allocWithGc s alloc = some (v, t)) : ∃ st, t = { s with store := st } := by
  obtain ⟨⟨v₁, st₁⟩, -, h⟩ := Option.bind_eq_some_iff.mp h
  simp only at h
  split at h
  · obtain ⟨s₂, hgc, h⟩ := Option.bind_eq_some_iff.mp h
    obtain ⟨st₂, rfl⟩ := gc_eq hgc
    obtain ⟨⟨v₃, st₃⟩, -, h⟩ := Option.bind_eq_some_iff.mp h
    cases h
    exact ⟨st₃, rfl⟩
  · cases h
    exact ⟨st₁, rfl⟩

theorem preallocLoop_eq : ∀ {n : Nat} {curr newEnv env : VALUE} {s t : State} {ok : Bool},
    preallocLoop n curr newEnv s = some (ok, env, t) → ∃ st, t = { s with store := st } := by
  intro n
  induction n with
  | zero => intro curr newEnv env s t ok h; cases h
  | succ n ih =>
    intro curr newEnv env s t ok h
    rw [preallocLoop] at h
    split at h
    · cases h
      exact ⟨s.store, rfl⟩
    · simp only at h
      split at h
      · obtain ⟨s₁, hgc, h⟩ := Option.bind_eq_some_iff.mp h
        obtain ⟨st₁, rfl⟩ := gc_eq hgc
        split at h
        · cases h
          exact ⟨_, rfl⟩
        · obtain ⟨st, rfl⟩ := ih h
          exact ⟨st, rfl⟩
      · obtain ⟨st, rfl⟩ := ih h
        exact ⟨st, rfl⟩

/-! ## The extended environment -/

theorem isSymbolMerror_of_not_isSymbol {v : VALUE} (h : isSymbol v = false) :
    isSymbolMerror v = false := by
  rw [isSymbolMerror, h, Bool.false_and]

/-- While the cells last, the loop computes the extended environment. -/
theorem preallocLoop_of_extendEnv : ∀ {n : Nat} {curr env E : VALUE} {s : State},
    isSymbolMerror env = false → extendEnv n curr env s.store.heap = some E →
      ∃ t, preallocLoop n curr env s = some (true, E, t) := by
  intro n
  induction n with
  | zero => intro curr env E s _ h; cases h
  | succ n ih =>
    intro curr env E s henv h
    rw [extendEnv] at h
    rw [preallocLoop]
    split at h
    · next hnil =>
      cases h
      exact ⟨s, by rw [if_pos hnil]⟩
    · next hnil =>
      simp only at h
      split at h
      · cases h
      · next hsym =>
        simp only [Bool.or_eq_true, not_or, Bool.not_eq_true] at hsym
        obtain ⟨t, ht⟩ := ih (s := { s with store := { s.store with heap := _ } })
          (isSymbolMerror_of_not_isSymbol hsym.2) h
        refine ⟨t, ?_⟩
        rw [if_neg hnil]
        simp only [isSymbolMerror_of_not_isSymbol hsym.1, henv, Bool.or_self]
        exact ht

/-- A collection for the first binding finds nothing of the new environment to lose. -/
theorem preallocLoop_of_gc {n : Nat} {curr env key E : VALUE} {s u : State}
    (hnil : isSymbolNil curr = false) (henv : isSymbolMerror env = false)
    (hkey : key = car s.store.heap (car s.store.heap curr))
    (hfull : isSymbolMerror (consBinding key env s.store.heap).1.1 = true)
    (hgc : gc { s with store := { s.store with heap := (consBinding key env s.store.heap).2 } }
      = some u)
    (h : extendEnvWith key n curr env u.store.heap = some E) :
    ∃ t, preallocLoop (n + 1) curr env s = some (true, E, t) := by
  subst hkey
  unfold extendEnvWith at h
  simp only at h
  split at h
  · cases h
  · next hsym =>
    simp only [Bool.or_eq_true, not_or, Bool.not_eq_true] at hsym
    obtain ⟨t, ht⟩ := preallocLoop_of_extendEnv
      (s := { u with store := { u.store with heap := _ } })
      (isSymbolMerror_of_not_isSymbol hsym.2) h
    refine ⟨t, ?_⟩
    rw [preallocLoop, if_neg (by simp [hnil])]
    simp only [hfull, Bool.true_or, if_true]
    rw [hgc]
    simp only [Option.bind_eq_bind, Option.bind_some, henv,
      isSymbolMerror_of_not_isSymbol hsym.1, Bool.or_self]
    exact ht

/-- The loop of `eval_let`, after its pushes, computes the extended environment. -/
theorem preallocLoop_of_letEnv {s : State} {E : VALUE} {S : Stack} (lost : Bool)
    (hE : letEnv s = some E)
    (hS : S.contents = s.S.contents
      ++ [s.cont, s.env, car s.store.heap (cdr s.store.heap (cdr s.store.heap s.exp))]) :
    ∃ t, preallocLoop (preallocFuel s.store.heap) (car s.store.heap (cdr s.store.heap s.exp)) s.env
      { s with
        unev := car s.store.heap (cdr s.store.heap s.exp), S := S, pushLost := lost }
      = some (true, E, t) := by
  obtain ⟨n, hn⟩ : ∃ n, preallocFuel s.store.heap = n + 1 := ⟨_, rfl⟩
  unfold letEnv at hE
  simp only [hn, Nat.add_sub_cancel] at hE
  rw [hn]
  split at hE
  · next hnil =>
    cases hE
    exact ⟨_, by rw [preallocLoop, if_pos hnil]⟩
  · next hnil =>
    simp only [Bool.not_eq_true] at hnil
    split at hE
    · cases hE
    · next henv =>
      simp only [Bool.not_eq_true] at henv
      split at hE
      · next hfull =>
        obtain ⟨⟨ress, h⟩, hcollect, hE⟩ := Option.bind_eq_some_iff.mp hE
        rw [← hS] at hcollect
        refine preallocLoop_of_gc (u := { s with
          unev := car s.store.heap (cdr s.store.heap s.exp), S := S, pushLost := lost,
          store := { s.store with heap := h } }) hnil henv rfl hfull ?_ hE
        unfold gc
        exact congrArg _ hcollect
      · -- the first key is the one that the loop reads
        apply preallocLoop_of_extendEnv henv
        rw [extendEnv, if_neg (by simp [hnil])]
        exact hE

/-! ## Steps -/

/-- How a step changes the frames, and in which environment it dispatches an expression. -/
inductive FrameStep (s t : State) : List Frame → List Frame → Prop where
  /-- The expression has its value. -/
  | value {fs : List Frame} (hs : s.es = .evalDispatch) (ht : t.es = .evalContinuation) :
      FrameStep s t fs fs
  /-- There is no such expression: the evaluator stops. -/
  | stop {fs : List Frame} (hs : s.es = .evalDispatch) (ht : t.done = true) : FrameStep s t fs fs
  /-- The first sub-expression of a form. -/
  | enter {f : Frame} {fs : List Frame} (hs : s.es = .evalDispatch) (ht : t.es = .evalDispatch)
      (henv : ∀ E, formEnv s = some E → t.env = E) (hf : f.Awaits t.env) :
      FrameStep s t fs (f :: fs)
  /-- The only form of a `progn`. -/
  | enterTail {fs : List Frame} (hs : s.es = .evalDispatch) (ht : t.es = .evalDispatch)
      (henv : ∀ E, formEnv s = some E → t.env = E) : FrameStep s t fs fs
  /-- The form has its value. -/
  | leave {f : Frame} {fs : List Frame} (hs : s.es = .evalContinuation)
      (ht : t.es = .evalContinuation) : FrameStep s t (f :: fs) fs
  /-- The next sub-expression. -/
  | next {f f' : Frame} {fs : List Frame} (hs : s.es = .evalContinuation)
      (ht : t.es = .evalDispatch) (hf : f.savedEnv = some t.env) (hf' : f'.Awaits t.env) :
      FrameStep s t (f :: fs) (f' :: fs)
  /-- The last sub-expression, in tail position. -/
  | nextTail {f : Frame} {fs : List Frame} (hs : s.es = .evalContinuation)
      (ht : t.es = .evalDispatch) (hf : f.savedEnv = some t.env) : FrameStep s t (f :: fs) fs
  /-- Operator and operands have their values. -/
  | apply {f : Frame} {fs : List Frame} (hs : s.es = .evalContinuation)
      (ht : t.es = .evalApplyDispatch) : FrameStep s t (f :: fs) (.setupNoArgApply :: fs)
  /-- The function has its value, or goes on as a body, or as the argument of `eval`. -/
  | applied {f : Frame} {fs : List Frame} (hs : s.es = .evalApplyDispatch)
      (ht : t.es ≠ .evalApplyDispatch) : FrameStep s t (f :: fs) fs

def StepOn (k : List UINT) (c : VALUE) (fs : List Frame) (s t : State) : Prop :=
  ∃ fs', Reads k c t fs' ∧ FrameStep s t fs fs'

/-- No push was lost, and the error continuation is not up next. -/
def Undisturbed (t : State) : Prop :=
  t.pushLost = false ∧ (t.es = .evalContinuation → t.cont ≠ Continuation.contError.enc)

section

variable {k : List UINT} {c : VALUE} {s t : State} {fs : List Frame}

theorem Reads.of_frame {f : Frame} (hstack : t.S.contents = framesOn k c fs ++ f.words c fs)
    (hcont : t.cont = f.continuation.enc) (hes : t.es ≠ .evalApplyDispatch) :
    Reads k c t (f :: fs) where
  stack := hstack
  cont _ := hcont
  apply h := absurd h hes

theorem Reads.of_apply (hstack : t.S.contents = framesOn k c fs ++ [Frame.top c fs])
    (hes : t.es = .evalApplyDispatch) : Reads k c t (.setupNoArgApply :: fs) where
  stack := hstack
  cont h := absurd hes h
  apply _ := ⟨fs, rfl⟩

theorem Reads.of_top (hstack : t.S.contents = framesOn k c fs) (hcont : t.cont = Frame.top c fs)
    (hes : t.es ≠ .evalApplyDispatch) : Reads k c t fs where
  stack := hstack
  cont _ := hcont
  apply h := absurd h hes

/-! ### Expressions -/

theorem formEnv_eq (hkind : expKindOf s.store.heap s.exp ≠ .expLet) : formEnv s = some s.env := by
  rw [formEnv, if_neg hkind]

theorem stepOn_value (hr : Reads k c s fs) (hs : s.es = .evalDispatch)
    (ht : t.es = .evalContinuation) (hS : t.S = s.S) (hc : t.cont = s.cont) :
    StepOn k c fs s t := by
  refine ⟨fs, .of_top ?_ ?_ (by simp [ht]), .value hs ht⟩
  · rw [hS, hr.stack]
  · rw [hc, hr.cont (by simp [hs])]

/-- An expression is dispatched in `E`, with a frame on top of the stack `l` that has saved the
continuation `saved`. -/
structure Dispatched (l : List UINT) (saved E : VALUE) (f : Frame) (t : State) : Prop where
  es : t.es = .evalDispatch
  env : t.env = E
  stack : t.S.contents = l ++ f.onStack saved
  cont : t.cont = f.continuation.enc
  awaits : f.Awaits E

theorem Dispatched.reads {env : VALUE} {f : Frame}
    (ht : Dispatched (framesOn k c fs) (Frame.top c fs) env f t) : Reads k c t (f :: fs) :=
  .of_frame ht.stack ht.cont (by simp [ht.es])

theorem stepOn_enter {f : Frame} (hr : Reads k c s fs) (hs : s.es = .evalDispatch)
    (hkind : expKindOf s.store.heap s.exp ≠ .expLet)
    (ht : Dispatched s.S.contents s.cont s.env f t) : StepOn k c fs s t := by
  rw [hr.stack, hr.cont (by simp [hs])] at ht
  refine ⟨f :: fs, ht.reads, .enter hs ht.es ?_ ?_⟩
  · intro E hE
    rw [formEnv_eq hkind] at hE
    rw [ht.env]
    exact Option.some.inj hE
  · rw [ht.env]
    exact ht.awaits

theorem evalDefine_dispatched {m : Malloc} (hlost : (evalDefine m s).pushLost = false) :
    Dispatched s.S.contents s.cont s.env (.define (car s.store.heap (cdr s.store.heap s.exp)))
      (evalDefine m s) where
  es := rfl
  env := rfl
  stack := (contents_push hlost).1
  cont := rfl
  awaits := Frame.awaits_of_none rfl

theorem evalNoArgs_dispatched {m : Malloc} (hlost : (evalNoArgs m s).pushLost = false) :
    Dispatched s.S.contents s.cont s.env .setupNoArgApply (evalNoArgs m s) where
  es := rfl
  env := rfl
  stack := (contents_push hlost).1
  cont := rfl
  awaits := Frame.awaits_of_none rfl

theorem evalApplication_dispatched {m : Malloc} (hlost : (evalApplication m s).pushLost = false) :
    Dispatched s.S.contents s.cont s.env (.evalArgs s.env (cdr s.store.heap s.exp))
      (evalApplication m s) where
  es := rfl
  env := rfl
  stack := (contents_push hlost).1
  cont := rfl
  awaits := Frame.awaits_of_savedEnv rfl

theorem evalIf_dispatched {m : Malloc} (hlost : (evalIf m s).pushLost = false) :
    Dispatched s.S.contents s.cont s.env (.branch s.env (cdr s.store.heap (cdr s.store.heap s.exp)))
      (evalIf m s) where
  es := rfl
  env := rfl
  stack := (contents_push hlost).1
  cont := rfl
  awaits := Frame.awaits_of_savedEnv rfl

/-- `and` and `or`; the value they set when there are no operands is not looked at. -/
theorem evalShortCircuit_dispatched {m : Malloc} {v : VALUE} {f : Frame}
    (hf : f.savedEnv = some s.env)
    (hwords : f.onStack s.cont = [s.cont, s.env, cdr s.store.heap (cdr s.store.heap s.exp)])
    (hlost : (evalShortCircuit f.continuation v m s).pushLost = false) :
    Dispatched s.S.contents s.cont s.env f (evalShortCircuit f.continuation v m s) := by
  have hval : ∀ v, (if isSymbolNil (cdr s.store.heap s.exp) then { s with val := v } else s)
      = { s with val := if isSymbolNil (cdr s.store.heap s.exp) then v else s.val } := by
    intro v
    split <;> rfl
  simp only [evalShortCircuit, hval] at hlost ⊢
  refine ⟨rfl, rfl, ?_, rfl, Frame.awaits_of_savedEnv hf⟩
  rw [hwords]
  exact (contents_push hlost).1

/-! ### Loops over the sub-expressions of a form -/

theorem evalArgLoop_dispatched {m : Malloc} {l : List UINT} {saved fn : VALUE}
    (hlost : (evalArgLoop m s).pushLost = false) (hS : s.S.contents = l ++ [saved, fn]) :
    ∃ f, Dispatched l saved s.env f (evalArgLoop m s) := by
  unfold evalArgLoop at hlost ⊢
  simp only at hlost ⊢
  split at hlost
  · next hlast =>
    rw [if_pos hlast]
    refine ⟨.accumulateLastArg fn s.argl, rfl, rfl, ?_, rfl, Frame.awaits_of_none rfl⟩
    refine (contents_push (m := m) hlost).1.trans ?_
    rw [hS]
    simp [Frame.onStack]
  · next hlast =>
    rw [if_neg hlast]
    refine ⟨.accumulateArg fn s.argl s.env s.unev, rfl, rfl, ?_, rfl,
      Frame.awaits_of_savedEnv rfl⟩
    obtain ⟨hpush₂, hlost₁⟩ := contents_push hlost
    refine hpush₂.trans ?_
    have hpush₁ := (contents_push hlost₁).1
    simp only at hpush₁ ⊢
    rw [hpush₁, hS]
    simp [Frame.onStack, State.push]

theorem evalSequence_eq {m : Malloc} {l : List UINT} {saved E : VALUE}
    (h : evalSequence m s = some t) (hlost : t.pushLost = false)
    (hS : s.S.contents = l ++ [saved, E]) :
    (t.es = .evalDispatch ∧ t.env = E ∧ t.S.contents = l ∧ t.cont = saved)
      ∨ Dispatched l saved E (.sequence E s.unev) t := by
  obtain ⟨S₁, S₂, hpop₁, hpop₂, hS₂⟩ := popU32_two_of_contents hS
  have hS₁ := contents_of_popU32 hpop₂
  unfold evalSequence at h
  simp only [hpop₁, Option.bind_eq_bind, Option.bind_some] at h
  split at h
  · simp only [hpop₂, Option.bind_some] at h
    cases h
    exact .inl ⟨rfl, rfl, hS₂, rfl⟩
  · cases h
    refine .inr ⟨rfl, rfl, ?_, rfl, Frame.awaits_of_savedEnv rfl⟩
    refine (contents_push hlost).1.trans ?_
    simp only
    rw [hS₁, hS₂]
    simp [Frame.onStack]

theorem evalLetLoop_dispatched {m : Malloc} {l : List UINT} {saved outer body : VALUE}
    (h : evalLetLoop m s = some t) (hlost : t.pushLost = false)
    (hS : s.S.contents = l ++ [saved, outer, body]) : ∃ f, Dispatched l saved s.env f t := by
  unfold evalLetLoop at h
  split at h
  · obtain ⟨S₁, hpop, hS₁, -⟩ :=
      popU32_of_contents (k := l ++ [saved, outer]) (v := body) (by simpa using hS)
    simp only [hpop, Option.bind_eq_bind, Option.bind_some] at h
    cases h
    exact ⟨.endLet outer, rfl, rfl, hS₁, rfl, Frame.awaits_of_none rfl⟩
  · cases h
    refine ⟨.bindVar outer body s.env s.unev, rfl, rfl, ?_, rfl, Frame.awaits_of_savedEnv rfl⟩
    refine (contents_push hlost).1.trans ?_
    simp only
    rw [hS]
    simp [Frame.onStack]

/-! A push that was lost before one of these loops stays lost. -/

theorem evalSequence_pushLost {m : Malloc} (h : evalSequence m s = some t)
    (hlost : t.pushLost = false) : s.pushLost = false := by
  unfold evalSequence at h
  obtain ⟨⟨env, S₁⟩, -, h⟩ := Option.bind_eq_some_iff.mp h
  simp only at h
  split at h
  · obtain ⟨⟨cont, S₂⟩, -, h⟩ := Option.bind_eq_some_iff.mp h
    cases h
    exact hlost
  · cases h
    exact (contents_push hlost).2

theorem evalLetLoop_pushLost {m : Malloc} (h : evalLetLoop m s = some t)
    (hlost : t.pushLost = false) : s.pushLost = false := by
  unfold evalLetLoop at h
  split at h
  · obtain ⟨⟨exp, S₁⟩, -, h⟩ := Option.bind_eq_some_iff.mp h
    cases h
    exact hlost
  · cases h
    exact (contents_push hlost).2

theorem evalArgLoop_pushLost {m : Malloc} (hlost : (evalArgLoop m s).pushLost = false) :
    s.pushLost = false := by
  unfold evalArgLoop at hlost
  simp only at hlost
  split at hlost
  · exact (contents_push (m := m) hlost).2
  · exact (contents_push (m := m) (contents_push hlost).2).2

theorem evalProgn_stepOn {m : Malloc} (hr : Reads k c s fs) (hs : s.es = .evalDispatch)
    (hkind : expKindOf s.store.heap s.exp ≠ .expLet) (h : evalProgn m s = some t)
    (hlost : t.pushLost = false) : StepOn k c fs s t := by
  unfold evalProgn at h
  have hpushed := evalSequence_pushLost h hlost
  have hS := (contents_push hpushed).1
  rcases evalSequence_eq h hlost hS with ⟨hes, henv, hS, hc⟩ | hdisp
  · refine ⟨fs, .of_top ?_ ?_ (by simp [hes]), .enterTail hs hes ?_⟩
    · rw [hS, hr.stack]
    · rw [hc, hr.cont (by simp [hs])]
    · intro E hE
      rw [formEnv_eq hkind] at hE
      rw [henv]
      exact Option.some.inj hE
  · exact stepOn_enter hr hs hkind hdisp

theorem evalLet_stepOn {m : Malloc} (hr : Reads k c s fs) (hs : s.es = .evalDispatch)
    (hkind : expKindOf s.store.heap s.exp = .expLet) (h : evalLet m s = some t)
    (ht : Undisturbed t) : StepOn k c fs s t := by
  unfold evalLet at h
  obtain ⟨⟨ok, newEnv, s₁⟩, hloop, h⟩ := Option.bind_eq_some_iff.mp h
  obtain ⟨st, rfl⟩ := preallocLoop_eq hloop
  simp only at h
  split at h
  · have hpushed := evalLetLoop_pushLost h ht.1
    have hS := (contents_push hpushed).1
    obtain ⟨f, hdisp⟩ := evalLetLoop_dispatched h ht.1 hS
    rw [hr.stack, hr.cont (by simp [hs])] at hdisp
    refine ⟨f :: fs, hdisp.reads, .enter hs hdisp.es ?_ ?_⟩
    · intro E hE
      rw [formEnv, if_pos hkind] at hE
      obtain ⟨t', hloop'⟩ := preallocLoop_of_letEnv _ hE hS
      have heq := hloop.symm.trans hloop'
      rw [hdisp.env]
      exact (Prod.mk.inj (Prod.mk.inj (Option.some.inj heq)).2).1
    · rw [hdisp.env]
      exact hdisp.awaits
  · cases h
    exact absurd rfl (ht.2 rfl)

theorem evalVariable_stepOn {pf : Platform} (hr : Reads k c s fs) (hs : s.es = .evalDispatch)
    (h : evalVariable pf s = some t) (ht : Undisturbed t) : StepOn k c fs s t := by
  unfold evalVariable at h
  obtain ⟨v₁, -, h⟩ := Option.bind_eq_some_iff.mp h
  obtain ⟨v₂, -, h⟩ := Option.bind_eq_some_iff.mp h
  cases h
  revert ht
  split
  · intro ht
    exact absurd rfl (ht.2 rfl)
  · intro _
    exact stepOn_value hr hs rfl rfl rfl

theorem evalLambda_stepOn (hr : Reads k c s fs) (hs : s.es = .evalDispatch)
    (h : evalLambda s = some t) (ht : Undisturbed t) : StepOn k c fs s t := by
  unfold evalLambda at h
  obtain ⟨⟨closure, s₁⟩, halloc, h⟩ := Option.bind_eq_some_iff.mp h
  obtain ⟨st, rfl⟩ := allocWithGc_eq halloc
  simp only at h
  split at h
  · cases h
    exact absurd rfl (ht.2 rfl)
  · cases h
    exact stepOn_value hr hs rfl rfl rfl

theorem dispatchSwitch_stepOn {pf : Platform} {m : Malloc} (hr : Reads k c s fs)
    (hs : s.es = .evalDispatch) (h : dispatchSwitch pf m s = some t) (ht : Undisturbed t) :
    StepOn k c fs s t := by
  unfold dispatchSwitch at h
  split at h
  case h_1 =>
    cases h
    exact stepOn_value hr hs rfl rfl rfl
  case h_2 => exact evalVariable_stepOn hr hs h ht
  case h_3 =>
    cases h
    exact stepOn_value hr hs rfl rfl rfl
  case h_4 hkind =>
    cases h
    exact stepOn_enter hr hs (by simp [hkind]) (evalDefine_dispatched ht.1)
  case h_5 hkind =>
    cases h
    exact stepOn_enter hr hs (by simp [hkind]) (evalNoArgs_dispatched ht.1)
  case h_6 hkind =>
    cases h
    exact stepOn_enter hr hs (by simp [hkind]) (evalApplication_dispatched ht.1)
  case h_7 => exact evalLambda_stepOn hr hs h ht
  case h_8 hkind => exact evalProgn_stepOn hr hs (by simp [hkind]) h ht.1
  case h_9 hkind =>
    cases h
    exact stepOn_enter hr hs (by simp [hkind]) (evalIf_dispatched ht.1)
  case h_10 hkind => exact evalLet_stepOn hr hs hkind h ht
  case h_11 hkind =>
    cases h
    exact stepOn_enter hr hs (by simp [hkind])
      (evalShortCircuit_dispatched (f := .and s.env _) rfl rfl ht.1)
  case h_12 hkind =>
    cases h
    exact stepOn_enter hr hs (by simp [hkind])
      (evalShortCircuit_dispatched (f := .or s.env _) rfl rfl ht.1)
  case h_13 =>
    cases h
    exact ⟨fs, ⟨hr.stack, hr.cont, hr.apply⟩, .stop hs rfl⟩

/-! ### Continuations -/

theorem stepOn_leave {f : Frame} (hs : s.es = .evalContinuation) (ht : t.es = .evalContinuation)
    (hS : t.S.contents = framesOn k c fs) (hc : t.cont = Frame.top c fs) :
    StepOn k c (f :: fs) s t :=
  ⟨fs, .of_top hS hc (by simp [ht]), .leave hs ht⟩

theorem stepOn_next {f g : Frame} {E : VALUE} (hs : s.es = .evalContinuation)
    (hf : f.savedEnv = some E) (ht : Dispatched (framesOn k c fs) (Frame.top c fs) E g t) :
    StepOn k c (f :: fs) s t :=
  ⟨g :: fs, ht.reads, .next hs ht.es (by rw [ht.env, hf]) (by rw [ht.env]; exact ht.awaits)⟩

theorem stepOn_nextTail {f : Frame} (hs : s.es = .evalContinuation) (ht : t.es = .evalDispatch)
    (hf : f.savedEnv = some t.env) (hS : t.S.contents = framesOn k c fs)
    (hc : t.cont = Frame.top c fs) : StepOn k c (f :: fs) s t :=
  ⟨fs, .of_top hS hc (by simp [ht]), .nextTail hs ht hf⟩

theorem contDefineCase_stepOn {unev : VALUE} (hr : Reads k c s (.define unev :: fs))
    (hs : s.es = .evalContinuation) (h : contDefineCase s = some t) (ht : Undisturbed t) :
    StepOn k c (.define unev :: fs) s t := by
  obtain ⟨S₁, S₂, hpop₁, hpop₂, hS₂⟩ := popU32_two_of_contents hr.stack
  unfold contDefineCase at h
  simp only [hpop₁, hpop₂, Option.bind_eq_bind, Option.bind_some] at h
  obtain ⟨⟨newEnv, s₁⟩, halloc, h⟩ := Option.bind_eq_some_iff.mp h
  obtain ⟨st, rfl⟩ := allocWithGc_eq halloc
  simp only at h
  split at h
  · cases h
    exact absurd rfl (ht.2 rfl)
  · cases h
    exact stepOn_leave hs rfl hS₂ rfl

theorem contEvalArgsCase_stepOn {m : Malloc} {env unev : VALUE}
    (hr : Reads k c s (.evalArgs env unev :: fs)) (hs : s.es = .evalContinuation)
    (h : contEvalArgsCase m s = some t) (ht : Undisturbed t) :
    StepOn k c (.evalArgs env unev :: fs) s t := by
  obtain ⟨S₁, S₂, hpop₁, hpop₂, hS₂⟩ :=
    popU32_two_of_contents (k := framesOn k c fs ++ [Frame.top c fs]) (a := env) (b := unev)
      (by rw [hr.stack]; simp [layout, Frame.words, Frame.onStack])
  unfold contEvalArgsCase at h
  simp only [hpop₁, hpop₂, Option.bind_eq_bind, Option.bind_some] at h
  -- what the loop starts with, if the operator was pushed
  obtain ⟨u, henv, hu, rfl⟩ : ∃ u : State, u.env = env
      ∧ (u.pushLost = false → u.S.contents = S₂.contents ++ [u.fun']) ∧ evalArgLoop m u = t := by
    refine ⟨_, rfl, ?_, Option.some.inj h⟩
    intro hlost
    exact (contents_push (m := m) (s := { s with unev := unev, env := env, S := S₂, fun' := s.val })
      hlost).1
  have hS := hu (evalArgLoop_pushLost ht.1)
  rw [hS₂, List.append_assoc] at hS
  obtain ⟨f, hdisp⟩ := evalArgLoop_dispatched ht.1 hS
  rw [henv] at hdisp
  exact stepOn_next hs rfl hdisp

theorem contAccumulateArgCase_stepOn {m : Malloc} {fn argl env unev : VALUE}
    (hr : Reads k c s (.accumulateArg fn argl env unev :: fs)) (hs : s.es = .evalContinuation)
    (h : contAccumulateArgCase m s = some t) (ht : Undisturbed t) :
    StepOn k c (.accumulateArg fn argl env unev :: fs) s t := by
  obtain ⟨S₁, S₂, S₃, hpop₁, hpop₂, hpop₃, hS₃⟩ :=
    popU32_three_of_contents (k := framesOn k c fs ++ [Frame.top c fs, fn]) (a := argl) (b := env)
      (c := unev) (by rw [hr.stack]; simp [layout, Frame.words, Frame.onStack])
  unfold contAccumulateArgCase at h
  simp only [hpop₁, hpop₂, hpop₃, Option.bind_eq_bind, Option.bind_some] at h
  obtain ⟨⟨argl₁, s₁⟩, halloc, h⟩ := Option.bind_eq_some_iff.mp h
  obtain ⟨st, rfl⟩ := allocWithGc_eq halloc
  simp only at h
  split at h
  · cases h
    exact absurd rfl (ht.2 rfl)
  · obtain ⟨u, henv, hu, rfl⟩ : ∃ u : State, u.env = env ∧ u.S = S₃ ∧ evalArgLoop m u = t :=
      ⟨_, rfl, rfl, Option.some.inj h⟩
    obtain ⟨f, hdisp⟩ := evalArgLoop_dispatched ht.1 (hu ▸ hS₃)
    rw [henv] at hdisp
    exact stepOn_next hs rfl hdisp

theorem contAccumulateLastArgCase_stepOn {fn argl : VALUE}
    (hr : Reads k c s (.accumulateLastArg fn argl :: fs)) (hs : s.es = .evalContinuation)
    (h : contAccumulateLastArgCase s = some t) (ht : Undisturbed t) :
    StepOn k c (.accumulateLastArg fn argl :: fs) s t := by
  obtain ⟨S₁, S₂, hpop₁, hpop₂, hS₂⟩ :=
    popU32_two_of_contents (k := framesOn k c fs ++ [Frame.top c fs]) (a := fn) (b := argl)
      (by rw [hr.stack]; simp [layout, Frame.words, Frame.onStack])
  unfold contAccumulateLastArgCase at h
  simp only [hpop₁, Option.bind_eq_bind, Option.bind_some] at h
  obtain ⟨⟨argl₁, s₁⟩, halloc₁, h⟩ := Option.bind_eq_some_iff.mp h
  obtain ⟨st₁, rfl⟩ := allocWithGc_eq halloc₁
  simp only at h
  split at h
  · cases h
    exact absurd rfl (ht.2 rfl)
  · obtain ⟨⟨revArgs, s₂⟩, halloc₂, h⟩ := Option.bind_eq_some_iff.mp h
    obtain ⟨st₂, rfl⟩ := allocWithGc_eq halloc₂
    obtain ⟨⟨f, S⟩, hpop, h⟩ := Option.bind_eq_some_iff.mp h
    cases h
    have hS : S = S₂ := by
      simp only [apply_ite RegisterMachine.S, apply_ite State.toRegisterMachine, ite_self] at hpop
      rw [hpop₂] at hpop
      exact ((Prod.mk.inj (Option.some.inj hpop)).2).symm
    subst hS
    exact ⟨_, .of_apply hS₂ rfl, .apply hs rfl⟩

theorem contBranchCase_stepOn {env unev : VALUE} (hr : Reads k c s (.branch env unev :: fs))
    (hs : s.es = .evalContinuation) (h : contBranchCase s = some t) :
    StepOn k c (.branch env unev :: fs) s t := by
  obtain ⟨S₁, S₂, S₃, hpop₁, hpop₂, hpop₃, hS₃⟩ := popU32_three_of_contents hr.stack
  unfold contBranchCase at h
  simp only [hpop₁, hpop₂, hpop₃, Option.bind_eq_bind, Option.bind_some] at h
  cases h
  exact stepOn_nextTail hs rfl rfl hS₃ rfl

theorem contSequenceCase_stepOn {m : Malloc} {env unev : VALUE}
    (hr : Reads k c s (.sequence env unev :: fs)) (hs : s.es = .evalContinuation)
    (h : contSequenceCase m s = some t) (ht : Undisturbed t) :
    StepOn k c (.sequence env unev :: fs) s t := by
  obtain ⟨S₁, hpop, hS₁, -⟩ :=
    popU32_of_contents (k := framesOn k c fs ++ [Frame.top c fs, env]) (v := unev)
      (by rw [hr.stack]; simp [layout, Frame.words, Frame.onStack])
  unfold contSequenceCase at h
  simp only [hpop, Option.bind_eq_bind, Option.bind_some] at h
  rcases evalSequence_eq h ht.1 hS₁ with ⟨hes, henv, hS, hc⟩ | hdisp
  · exact stepOn_nextTail hs hes (by rw [henv]; rfl) hS hc
  · exact stepOn_next hs rfl hdisp

theorem contBindVarCase_stepOn {m : Malloc} {outer body env unev : VALUE}
    (hr : Reads k c s (.bindVar outer body env unev :: fs)) (hs : s.es = .evalContinuation)
    (h : contBindVarCase m s = some t) (ht : Undisturbed t) :
    StepOn k c (.bindVar outer body env unev :: fs) s t := by
  obtain ⟨S₁, S₂, hpop₁, hpop₂, hS₂⟩ :=
    popU32_two_of_contents (k := framesOn k c fs ++ [Frame.top c fs, outer, body]) (a := env)
      (b := unev) (by rw [hr.stack]; simp [layout, Frame.words, Frame.onStack])
  unfold contBindVarCase at h
  simp only [hpop₁, hpop₂, Option.bind_eq_bind, Option.bind_some] at h
  obtain ⟨⟨v, heap⟩, -, h⟩ := Option.bind_eq_some_iff.mp h
  obtain ⟨f, hdisp⟩ := evalLetLoop_dispatched h ht.1 hS₂
  exact stepOn_next hs rfl hdisp

theorem contEndLetCase_stepOn {outer : VALUE} (hr : Reads k c s (.endLet outer :: fs))
    (hs : s.es = .evalContinuation) (h : contEndLetCase s = some t) :
    StepOn k c (.endLet outer :: fs) s t := by
  obtain ⟨S₁, S₂, hpop₁, hpop₂, hS₂⟩ := popU32_two_of_contents hr.stack
  unfold contEndLetCase at h
  simp only [hpop₁, hpop₂, Option.bind_eq_bind, Option.bind_some] at h
  cases h
  exact stepOn_leave hs rfl hS₂ rfl

theorem contShortCircuitCase_stepOn {m : Malloc} {env unev : VALUE} {kind : Continuation}
    (stops : VALUE → Bool) (mk : VALUE → VALUE → Frame)
    (hsaved : ∀ e u, (mk e u).savedEnv = some e) (hkind : ∀ e u, (mk e u).continuation = kind)
    (hwords : ∀ e u saved, (mk e u).onStack saved = [saved, e, u])
    (hr : Reads k c s (mk env unev :: fs)) (hs : s.es = .evalContinuation)
    (h : contShortCircuitCase kind stops m s = some t) (ht : Undisturbed t) :
    StepOn k c (mk env unev :: fs) s t := by
  obtain ⟨S₁, S₂, S₃, hpop₁, hpop₂, hpop₃, hS₃⟩ := popU32_three_of_contents
    (hr.stack.trans (congrArg (framesOn k c fs ++ ·) (hwords env unev (Frame.top c fs))))
  unfold contShortCircuitCase at h
  simp only [hpop₁, hpop₂, Option.bind_eq_bind, Option.bind_some] at h
  split at h
  · simp only [hpop₃, Option.bind_some] at h
    cases h
    exact stepOn_leave hs rfl hS₃ rfl
  · cases h
    refine stepOn_next (g := mk env (cdr s.store.heap unev)) hs (hsaved env unev)
      ⟨rfl, rfl, ?_, congrArg Continuation.enc (hkind _ _).symm,
        Frame.awaits_of_savedEnv (hsaved _ _)⟩
    refine (contents_push ht.1).1.trans ?_
    show S₂.contents ++ [env, cdr s.store.heap unev] = _
    rw [contents_of_popU32 hpop₃, hS₃, hwords, List.append_assoc]
    rfl

/-- The frame on top of the stack says which case of the `switch` is taken. -/
theorem continuationSwitch_of_frame {m : Malloc} {f : Frame} (hr : Reads k c s (f :: fs))
    (hs : s.es = .evalContinuation) :
    continuationSwitch m s = continuationCase m s f.continuation := by
  have hcont : s.cont = f.continuation.enc := hr.cont (by simp [hs])
  have hfind : continuations.find? (·.toUINT == decU s.cont) = some f.continuation := by
    rw [hcont]
    generalize f.continuation = kind
    cases kind <;> decide
  rw [continuationSwitch, hfind]

theorem continuationSwitch_stepOn {m : Malloc} {f : Frame} (hr : Reads k c s (f :: fs))
    (hs : s.es = .evalContinuation) (h : continuationSwitch m s = some t) (ht : Undisturbed t) :
    StepOn k c (f :: fs) s t := by
  rw [continuationSwitch_of_frame hr hs] at h
  cases f with
  | define unev => exact contDefineCase_stepOn hr hs h ht
  | setupNoArgApply =>
    cases h
    exact ⟨_, .of_apply hr.stack rfl, .apply hs rfl⟩
  | evalArgs env unev => exact contEvalArgsCase_stepOn hr hs h ht
  | accumulateArg fn argl env unev => exact contAccumulateArgCase_stepOn hr hs h ht
  | accumulateLastArg fn argl => exact contAccumulateLastArgCase_stepOn hr hs h ht
  | branch env unev => exact contBranchCase_stepOn hr hs h
  | sequence env unev => exact contSequenceCase_stepOn hr hs h ht
  | bindVar outer body env unev => exact contBindVarCase_stepOn hr hs h ht
  | endLet outer => exact contEndLetCase_stepOn hr hs h
  | and env unev =>
    exact contShortCircuitCase_stepOn isSymbolNil .and (fun _ _ => rfl) (fun _ _ => rfl)
      (fun _ _ _ => rfl) hr hs h ht
  | or env unev =>
    exact contShortCircuitCase_stepOn (fun v => !isSymbolNil v) .or (fun _ _ => rfl)
      (fun _ _ => rfl) (fun _ _ _ => rfl) hr hs h ht

/-! ### Application -/

theorem stepOn_applied (hs : s.es = .evalApplyDispatch) (ht : t.es ≠ .evalApplyDispatch)
    (hS : t.S.contents = framesOn k c fs) (hc : t.cont = Frame.top c fs) :
    StepOn k c (.setupNoArgApply :: fs) s t :=
  ⟨fs, .of_top hS hc ht, .applied hs ht⟩

/-- The arguments that were pushed for a call are dropped again, and the continuation is on top. -/
theorem popU32_stackDrop {m : Malloc} {args : List UINT}
    (hS : s.S.contents = framesOn k c fs ++ [Frame.top c fs])
    (hlost : (s.push m args).pushLost = false) :
    ∃ S, popU32 (stackDrop (s.push m args).S args.length) = some (Frame.top c fs, S)
      ∧ S.contents = framesOn k c fs := by
  have hpush := (contents_push hlost).1
  have hdrop := contents_stackDrop hpush
  rw [hS] at hdrop
  obtain ⟨S, hpop, hS', -⟩ := popU32_of_contents hdrop
  exact ⟨S, hpop, hS'⟩

theorem evalApplyFundamental_stepOn {pf : Platform} {m : Malloc}
    (hr : Reads k c s (.setupNoArgApply :: fs)) (hs : s.es = .evalApplyDispatch)
    (h : evalApplyFundamental pf m s = some t) (ht : Undisturbed t) :
    StepOn k c (.setupNoArgApply :: fs) s t := by
  unfold evalApplyFundamental at h
  obtain ⟨args, -, h⟩ := Option.bind_eq_some_iff.mp h
  obtain ⟨base, -, h⟩ := Option.bind_eq_some_iff.mp h
  obtain ⟨⟨val, s₁⟩, halloc, h⟩ := Option.bind_eq_some_iff.mp h
  obtain ⟨st, rfl⟩ := allocWithGc_eq halloc
  simp only at h
  split at h
  · cases h
    exact absurd rfl (ht.2 rfl)
  · obtain ⟨⟨cont, S⟩, hpop, h⟩ := Option.bind_eq_some_iff.mp h
    cases h
    obtain ⟨S', hpop', hS'⟩ := popU32_stackDrop hr.stack ht.1
    cases hpop.symm.trans hpop'
    exact stepOn_applied hs (by simp) hS' rfl

theorem evalApplyClosure_stepOn (hr : Reads k c s (.setupNoArgApply :: fs))
    (hs : s.es = .evalApplyDispatch) (h : evalApplyClosure s = some t) (ht : Undisturbed t) :
    StepOn k c (.setupNoArgApply :: fs) s t := by
  obtain ⟨S', hpop', hS', -⟩ := popU32_of_contents hr.stack
  unfold evalApplyClosure at h
  obtain ⟨⟨localEnv, s₁⟩, halloc, h⟩ := Option.bind_eq_some_iff.mp h
  obtain ⟨st, rfl⟩ := allocWithGc_eq halloc
  simp only at h
  split at h
  · cases h
    exact absurd rfl (ht.2 rfl)
  · simp only [hpop', Option.bind_eq_bind, Option.bind_some] at h
    cases h
    exact stepOn_applied hs (by simp) hS' rfl

theorem evalApplyExtension_stepOn {pf : Platform} {m : Malloc}
    (hr : Reads k c s (.setupNoArgApply :: fs)) (hs : s.es = .evalApplyDispatch)
    (h : evalApplyExtension pf m s = some t) (ht : Undisturbed t) :
    StepOn k c (.setupNoArgApply :: fs) s t := by
  unfold evalApplyExtension at h
  split at h
  · cases h
    exact absurd rfl (ht.2 rfl)
  · obtain ⟨args, -, h⟩ := Option.bind_eq_some_iff.mp h
    obtain ⟨base, -, h⟩ := Option.bind_eq_some_iff.mp h
    simp only at h
    obtain ⟨⟨cont, S⟩, hpop, h⟩ := Option.bind_eq_some_iff.mp h
    cases h
    obtain ⟨S', hpop', hS'⟩ := popU32_stackDrop hr.stack ht.1
    cases hpop.symm.trans hpop'
    exact stepOn_applied hs (by simp) hS' rfl

theorem evalApplyDispatch_stepOn {pf : Platform} {m : Malloc}
    (hr : Reads k c s (.setupNoArgApply :: fs)) (hs : s.es = .evalApplyDispatch)
    (h : evalApplyDispatch pf m s = some t) (ht : Undisturbed t) :
    StepOn k c (.setupNoArgApply :: fs) s t := by
  unfold evalApplyDispatch at h
  split at h
  · obtain ⟨S', hpop', hS', -⟩ := popU32_of_contents hr.stack
    unfold evalEval at h
    simp only [hpop', Option.bind_eq_bind, Option.bind_some] at h
    cases h
    exact stepOn_applied hs (by simp) hS' rfl
  · split at h
    · exact evalApplyFundamental_stepOn hr hs h ht
    · split at h
      · exact evalApplyClosure_stepOn hr hs h ht
      · split at h
        · exact evalApplyExtension_stepOn hr hs h ht
        · cases h
          exact absurd rfl (ht.2 rfl)

/-- **One iteration keeps the frames below.** -/
theorem ecEvalIteration_frameStep {pf : Platform} {m : Malloc} (hr : Reads k c s fs)
    (hfs : s.es = .evalContinuation → fs ≠ []) (h : ecEvalIteration pf m s = some t)
    (ht : Undisturbed t) : StepOn k c fs s t := by
  unfold ecEvalIteration at h
  split at h
  · next hs => exact dispatchSwitch_stepOn hr hs h ht
  · next hs =>
    cases fs with
    | nil => exact absurd rfl (hfs hs)
    | cons f fs => exact continuationSwitch_stepOn hr hs h ht
  · next hs =>
    obtain ⟨gs, rfl⟩ := hr.apply hs
    exact evalApplyDispatch_stepOn hr hs h ht

end

end EcEval

end LispBM
