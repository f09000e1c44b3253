import LispBM.EvalCps
import LispBM.Lib.FrameStack

/-!
# LispBM — the continuation stack as a list of frames

The continuation stack is an array of untyped words. Here it is read as a list of typed frames
(`Frame`, `framesOn`), and a step of a context is described by what it does to that list
(`FrameStep`): which frame it pushes, replaces or pops, and in which environment it goes on. The
description covers every step that neither ends in an error nor loses track of its frames
(`stepCtx_stepOn`); the disciplines of the stack and of the environments are read off it.

The one way to lose track is in `APPLICATION_ARGS`: the test for `and` and `or` is made on every
operand, not only on the operator, and leaves the words evaluated so far on the stack when an
operand has one of these symbols as its value (`strayShortCircuit`).
-/

namespace LispBM

open FrameStack

/-! ## Frames -/

inductive Frame where
  | done
  | setGlobalEnv (key : VALUE)
  | bindToKeyRest (exp rest env key : VALUE)
  | ifBranches (elseBranch thenBranch : VALUE)
  | prognRest (env rest : VALUE)
  | application (funWord : VALUE) (args : List VALUE)
  | applicationArgs (funArgs : List VALUE) (env rest : VALUE)
  | and (env rest : VALUE)
  | or (env rest : VALUE)
  | wait (cid : VALUE)
  | spawnAll (env rest : VALUE)
deriving DecidableEq

/-- The words of a frame below its tag. -/
def Frame.payload : Frame → List UINT
  | .done => []
  | .setGlobalEnv key => [key]
  | .bindToKeyRest exp rest env key => [exp, rest, env, key]
  | .ifBranches elseBranch thenBranch => [elseBranch, thenBranch]
  | .prognRest env rest => [env, rest]
  | .application funWord args => funWord :: args ++ [encU (BitVec.ofNat 32 args.length)]
  | .applicationArgs funArgs env rest =>
      funArgs ++ [env, encU (BitVec.ofNat 32 funArgs.length), rest]
  | .and env rest => [env, rest]
  | .or env rest => [env, rest]
  | .wait cid => [cid]
  | .spawnAll env rest => [env, rest]

def Frame.tag : Frame → UINT
  | .done => contDone
  | .setGlobalEnv _ => contSetGlobalEnv
  | .bindToKeyRest _ _ _ _ => contBindToKeyRest
  | .ifBranches _ _ => contIf
  | .prognRest _ _ => contPrognRest
  | .application _ _ => contApplication
  | .applicationArgs _ _ _ => contApplicationArgs
  | .and _ _ => contAnd
  | .or _ _ => contOr
  | .wait _ => contWait
  | .spawnAll _ _ => contSpawnAll

/-- The words of a frame, bottom first. -/
def Frame.words (f : Frame) : List UINT := f.payload ++ [encU f.tag]

theorem Frame.words_ne_nil (f : Frame) : f.words ≠ [] := by simp [Frame.words]

/-- The stack that has the frames `fs` (top first) on top of the words `k`. -/
def framesOn (k : List UINT) (fs : List Frame) : List UINT := layout (fun f _ => f.words) k fs

@[simp] theorem framesOn_nil (k : List UINT) : framesOn k [] = k := rfl

@[simp] theorem framesOn_cons (k : List UINT) (f : Frame) (fs : List Frame) :
    framesOn k (f :: fs) = framesOn k fs ++ f.words := rfl

theorem decU_encU_ofNat {n : Nat} (h : n < 2 ^ 28) :
    (decU (encU (BitVec.ofNat 32 n))).toNat = n := by
  have hn : (BitVec.ofNat 32 n).toNat = n := by
    rw [BitVec.toNat_ofNat]
    omega
  rw [decU_encU (by rw [hn]; exact h), hn]

theorem decU_encU_tag (f : Frame) : decU (encU f.tag) = f.tag := by
  cases f <;> simp only [Frame.tag] <;> decide

/-- The environment that the frame brings back when its form goes on. -/
def Frame.savedEnv : Frame → Option VALUE
  | .bindToKeyRest _ _ env _ => some env
  | .prognRest env _ => some env
  | .applicationArgs _ env _ => some env
  | .and env _ => some env
  | .or env _ => some env
  | _ => none

/-- A frame of a form in the environment `env` that waits for the value of a sub-expression. -/
def Frame.Awaits (env : VALUE) (f : Frame) : Prop :=
  f.savedEnv = some env ∨ (∃ key, f = .setGlobalEnv key)
    ∨ ∃ elseBranch thenBranch, f = .ifBranches elseBranch thenBranch

/-! ## What a step does to the frames -/

/-- The environment of the form that is evaluated next: the current one, extended with the keys
if the form is a `let` with bindings. -/
def formEnv (st : Store) (c : EvalContext) : Option VALUE :=
  let head := car st.heap c.currExp
  let binds := car st.heap (cdr st.heap c.currExp)
  if typeOf c.currExp == ptrTypeCons && typeOf head == valTypeSymbol && decSym head == symreprLet
      && typeOf binds == ptrTypeCons then
    (letEnvLoop (walkFuel st.heap) binds c.currEnv st.heap).map fun r => r.1.1
  else some c.currEnv

/-- `rest` has a last form to evaluate: the branch of `PROGN_REST` that allows for tail
recursion. -/
def isLastForm (st : Store) (rest : VALUE) : Bool :=
  typeOf (cdr st.heap rest) == valTypeSymbol && cdr st.heap rest == NIL

/-- The form of the frame goes on with its last sub-expression, or the call with a body: nothing
of it stays on the stack. -/
def Frame.isTail (st : Store) : Frame → Bool
  | .ifBranches _ _ => true
  | .prognRest _ rest => isLastForm st rest
  | .bindToKeyRest _ rest _ _ => !(typeOf rest == ptrTypeCons)
  | .application _ _ => true
  | _ => false

/-- What a step from the globals `st` does to a context and its frames; `g` tells whether it
asked for a collection. -/
inductive FrameStep (st : Store) (g : Bool) (c : EvalContext) (fs : List Frame)
    (c' : EvalContext) : List Frame → Prop where
  /-- the expression has a value at once -/
  | value (ha : c.appCont = false) (ha' : c'.appCont = true) : FrameStep st g c fs c' fs
  | enter {f : Frame} (ha : c.appCont = false) (ha' : c'.appCont = false)
      (henv : formEnv st c = some c'.currEnv) (hf : f.Awaits c'.currEnv) :
      FrameStep st g c fs c' (f :: fs)
  | spawn (env rest : VALUE) (ha : c.appCont = false) (ha' : c'.appCont = true) :
      FrameStep st g c fs c' (.spawnAll env rest :: fs)
  /-- a `let` without bindings goes on with its body -/
  | letBody (ha : c.appCont = false) (ha' : c'.appCont = false)
      (henv : formEnv st c = some c'.currEnv) : FrameStep st g c fs c' fs
  /-- out of cells at an expression -/
  | retryExp (hg : g = true) (ha : c.appCont = false) (hc : c' = c) : FrameStep st g c fs c' fs
  /-- the value is passed on to the frame below -/
  | ret {f : Frame} {fs₀ : List Frame} (hfs : fs = f :: fs₀) (ha : c.appCont = true)
      (ha' : c'.appCont = true) : FrameStep st g c fs c' fs₀
  | next {f f' : Frame} {fs₀ : List Frame} (hfs : fs = f :: fs₀) (ha : c.appCont = true)
      (ha' : c'.appCont = false) (htail : f.isTail st = false)
      (hf : f.savedEnv = some c'.currEnv) (hf' : f'.savedEnv = some c'.currEnv) :
      FrameStep st g c fs c' (f' :: fs₀)
  | ifBranch {elseBranch thenBranch : VALUE} {fs₀ : List Frame}
      (hfs : fs = .ifBranches elseBranch thenBranch :: fs₀) (ha : c.appCont = true)
      (ha' : c'.appCont = false) (henv : c'.currEnv = c.currEnv) : FrameStep st g c fs c' fs₀
  | prognLast {env rest : VALUE} {fs₀ : List Frame} (hfs : fs = .prognRest env rest :: fs₀)
      (hlast : isLastForm st rest = true) (ha : c.appCont = true) (ha' : c'.appCont = false)
      (henv : c'.currEnv = c.currEnv) : FrameStep st g c fs c' fs₀
  | letLast {exp rest key : VALUE} {fs₀ : List Frame}
      (hfs : fs = .bindToKeyRest exp rest c'.currEnv key :: fs₀) (ha : c.appCont = true)
      (ha' : c'.appCont = false) : FrameStep st g c fs c' fs₀
  /-- the body of a closure, or the argument of `eval` -/
  | body {funWord : VALUE} {args : List VALUE} {fs₀ : List Frame}
      (hfs : fs = .application funWord args :: fs₀) (ha : c.appCont = true)
      (ha' : c'.appCont = false) : FrameStep st g c fs c' fs₀
  /-- all operands are there -/
  | ready {funArgs args : List VALUE} {env rest funWord : VALUE} {fs₀ : List Frame}
      (hfs : fs = .applicationArgs funArgs env rest :: fs₀)
      (hargs : funArgs ++ [c.r] = funWord :: args) (ha : c.appCont = true)
      (ha' : c'.appCont = true) : FrameStep st g c fs c' (.application funWord args :: fs₀)
  /-- out of cells in a continuation -/
  | retry {f : Frame} {fs₀ : List Frame} (hfs : fs = f :: fs₀) (ha : c.appCont = true)
      (ha' : c'.appCont = true) : FrameStep st g c fs c' fs
  | spawnNext {env rest rest' : VALUE} {fs₀ : List Frame} (hfs : fs = .spawnAll env rest :: fs₀)
      (ha : c.appCont = true) (ha' : c'.appCont = true) :
      FrameStep st g c fs c' (.spawnAll env rest' :: fs₀)
  | wait {f : Frame} {fs₀ : List Frame} (cid : VALUE) (hfs : fs = f :: fs₀)
      (ha : c.appCont = true) (ha' : c'.appCont = true) : FrameStep st g c fs c' (.wait cid :: fs₀)
  /-- the next expression of the program -/
  | advance {fs₀ : List Frame} (hfs : fs = .done :: fs₀) (ha : c.appCont = true)
      (ha' : c'.appCont = false) : FrameStep st g c fs c' (.done :: fs₀)

/-- `APPLICATION_ARGS` is about to get the symbol `and` or `or` as the value of an operand other
than the operator. -/
def strayShortCircuit (c : EvalContext) : Bool :=
  match c.K.contents.reverse with
  | tag :: _ :: count :: _ =>
      c.appCont && decU tag == contApplicationArgs && decU count != 0#32
        && typeOf c.r == valTypeSymbol && (decSym c.r == symreprAnd || decSym c.r == symreprOr)
  | _ => false

/-- The context goes on as `c'`: it is still running, or waits in the queue. -/
def Outcome.goesOn (o : Outcome) (c' : EvalContext) : Prop := o = .running c' ∨ o = .yielded c'

@[simp] theorem goesOn_running {c c' : EvalContext} : (Outcome.running c).goesOn c' ↔ c' = c := by
  simp [Outcome.goesOn, eq_comm]

@[simp] theorem goesOn_yielded {c c' : EvalContext} : (Outcome.yielded c).goesOn c' ↔ c' = c := by
  simp [Outcome.goesOn, eq_comm]

@[simp] theorem not_goesOn_fatal {c c' : EvalContext} : ¬ (Outcome.fatal c).goesOn c' := by
  simp [Outcome.goesOn]

@[simp] theorem not_goesOn_finished {c c' : EvalContext} : ¬ (Outcome.finished c).goesOn c' := by
  simp [Outcome.goesOn]

@[simp] theorem not_goesOn_errorCtx {c c' : EvalContext} {v : VALUE} :
    ¬ (errorCtx c v).goesOn c' := not_goesOn_finished

@[simp] theorem not_goesOn_fatalOnFail {c c' : EvalContext} : ¬ (fatalOnFail c).goesOn c' :=
  not_goesOn_fatal

@[simp] theorem not_goesOn_fof {c c' : EvalContext} : ¬ (fof c).goesOn c' := not_goesOn_errorCtx

/-! ## Expressions -/

variable {pf : Platform} {io : Outside} {c c' : EvalContext} {st st' st'' : Store}
  {o : Outcome} {g : Bool} {k : List UINT} {fs : List Frame}

theorem dispatch_goesOn {frame : List UINT} {exp env : VALUE}
    (h : dispatch io c frame exp env st = (o, st', g)) (ho : o.goesOn c') :
    c'.K.contents = c.K.contents ++ frame ∧ c'.currEnv = env ∧ c'.appCont = c.appCont := by
  unfold dispatch at h
  split at h <;> cases h
  · simp at ho
  · next K hpush =>
    obtain rfl := goesOn_running.mp ho
    exact ⟨contents_pushAll hpush, rfl, rfl⟩

theorem deliver_goesOn {v : VALUE} (h : deliver c v st = (o, st', g)) (ho : o.goesOn c') :
    c'.K = c.K ∧ c'.appCont = true := by
  cases h
  obtain rfl := goesOn_running.mp ho
  exact ⟨rfl, rfl⟩

/-- A step of a context whose stack is read as `fs` on top of `k`. -/
def StepOn (st : Store) (g : Bool) (k : List UINT) (fs : List Frame) (c c' : EvalContext) :
    Prop :=
  ∃ fs', c'.K.contents = framesOn k fs' ∧ FrameStep st g c fs c' fs'

theorem stepOn_of_dispatch {f : Frame} {exp env : VALUE} (hK : c.K.contents = framesOn k fs)
    (ha : c.appCont = false) (henv : formEnv st c = some env) (hf : f.Awaits env)
    (h : dispatch io c f.words exp env st' = (o, st'', g)) (ho : o.goesOn c') :
    StepOn st g k fs c c' := by
  obtain ⟨hK', rfl, ha'⟩ := dispatch_goesOn h ho
  exact ⟨f :: fs, by rw [hK', hK, framesOn_cons], .enter ha (ha'.trans ha) henv hf⟩

theorem stepOn_of_deliver {v : VALUE} (hK : c.K.contents = framesOn k fs)
    (ha : c.appCont = false) (h : deliver c v st' = (o, st'', g)) (ho : o.goesOn c') :
    StepOn st g k fs c c' := by
  obtain ⟨hK', ha'⟩ := deliver_goesOn h ho
  exact ⟨fs, by rw [hK', hK], .value ha ha'⟩

theorem stepOn_of_retryExp (hK : c.K.contents = framesOn k fs)
    (ha : c.appCont = false) (h : retryExp c st' = (o, st'', g)) (ho : o.goesOn c') :
    StepOn st g k fs c c' := by
  cases h
  obtain rfl := goesOn_running.mp ho
  exact ⟨fs, hK, .retryExp rfl ha (by rw [← ha])⟩

theorem evalSymbol_stepOn (hK : c.K.contents = framesOn k fs) (ha : c.appCont = false)
    (h : evalSymbol pf c st = some (o, st', g)) (ho : o.goesOn c') : StepOn st g k fs c c' := by
  unfold evalSymbol at h
  split at h
  · exact stepOn_of_deliver hK ha (Option.some.inj h) ho
  · obtain ⟨value, -, h⟩ := Option.bind_eq_some_iff.mp h
    split at h
    · obtain ⟨value, -, h⟩ := Option.bind_eq_some_iff.mp h
      exact stepOn_of_deliver hK ha (Option.some.inj h) ho
    · exact stepOn_of_deliver hK ha (Option.some.inj h) ho

theorem formEnv_of_not_let (h : ¬ (typeOf c.currExp = ptrTypeCons
      ∧ typeOf (car st.heap c.currExp) = valTypeSymbol
      ∧ decSym (car st.heap c.currExp) = symreprLet
      ∧ typeOf (car st.heap (cdr st.heap c.currExp)) = ptrTypeCons)) :
    formEnv st c = some c.currEnv := by
  unfold formEnv
  rw [if_neg]
  simpa [and_assoc] using h

theorem formEnv_of_head {sym : UINT} (hsym : decSym (car st.heap c.currExp) = sym)
    (hne : sym ≠ symreprLet) : formEnv st c = some c.currEnv :=
  formEnv_of_not_let fun hlet => hne (hsym.symm.trans hlet.2.2.1)

theorem evalDefine_stepOn (hK : c.K.contents = framesOn k fs) (ha : c.appCont = false)
    (henv : formEnv st c = some c.currEnv) (h : evalDefine io c st = (o, st', g))
    (ho : o.goesOn c') : StepOn st g k fs c c' := by
  unfold evalDefine at h
  simp only at h
  split at h
  · cases h
    simp at ho
  · exact stepOn_of_dispatch (f := .setGlobalEnv _) hK ha henv (.inr (.inl ⟨_, rfl⟩)) h ho

theorem evalProgn_stepOn (hK : c.K.contents = framesOn k fs) (ha : c.appCont = false)
    (henv : formEnv st c = some c.currEnv) (h : evalProgn io c st = (o, st', g))
    (ho : o.goesOn c') : StepOn st g k fs c c' := by
  unfold evalProgn at h
  simp only at h
  split at h
  · exact stepOn_of_deliver hK ha h ho
  · split at h
    · cases h
      simp at ho
    · exact stepOn_of_dispatch (f := .prognRest _ _) hK ha henv (.inl rfl) h ho

theorem evalSpawn_stepOn (hK : c.K.contents = framesOn k fs) (ha : c.appCont = false)
    (h : evalSpawn io c st = (o, st', g)) (ho : o.goesOn c') : StepOn st g k fs c c' := by
  unfold evalSpawn at h
  simp only at h
  split at h
  · exact stepOn_of_deliver hK ha h ho
  · split at h
    · cases h
      simp at ho
    · next K hpush =>
      obtain ⟨hK', ha'⟩ := deliver_goesOn h ho
      refine ⟨.spawnAll c.currEnv (cdr st.heap c.currExp) :: fs, ?_, .spawn _ _ ha ha'⟩
      rw [hK', framesOn_cons, ← hK]
      exact contents_pushAll hpush

theorem evalLambda_stepOn (hK : c.K.contents = framesOn k fs) (ha : c.appCont = false)
    (h : evalLambda c st = some (o, st', g)) (ho : o.goesOn c') : StepOn st g k fs c c' := by
  unfold evalLambda at h
  obtain ⟨⟨envCpy, h₁⟩, -, h⟩ := Option.bind_eq_some_iff.mp h
  simp only at h
  split at h
  · exact stepOn_of_retryExp hK ha (Option.some.inj h) ho
  · split at h
    · exact stepOn_of_retryExp hK ha (Option.some.inj h) ho
    · exact stepOn_of_deliver hK ha (Option.some.inj h) ho

theorem evalLet_stepOn (hK : c.K.contents = framesOn k fs) (ha : c.appCont = false)
    (hexp : typeOf c.currExp = ptrTypeCons)
    (hsym : typeOf (car st.heap c.currExp) = valTypeSymbol)
    (hlet : decSym (car st.heap c.currExp) = symreprLet)
    (h : evalLet io c st = some (o, st', g)) (ho : o.goesOn c') : StepOn st g k fs c c' := by
  unfold evalLet at h
  simp only at h
  split at h
  · next hbinds =>
    cases h
    obtain rfl := goesOn_running.mp ho
    exact ⟨fs, hK, .letBody ha ha (formEnv_of_not_let fun hl => by simp [hl.2.2.2] at hbinds)⟩
  · next hbinds =>
    obtain ⟨⟨⟨newEnv, ok⟩, h₁⟩, hloop, h⟩ := Option.bind_eq_some_iff.mp h
    simp only at h
    split at h
    · exact stepOn_of_retryExp hK ha (Option.some.inj h) ho
    · have henv : formEnv st c = some newEnv := by
        unfold formEnv
        rw [if_pos (by simpa [hexp, hsym, hlet] using hbinds), hloop, Option.map_some]
      exact stepOn_of_dispatch (f := .bindToKeyRest _ _ newEnv _) hK ha henv (.inl rfl)
        (Option.some.inj h) ho

theorem evalForm_stepOn (hK : c.K.contents = framesOn k fs) (ha : c.appCont = false)
    (hexp : typeOf c.currExp = ptrTypeCons) (h : evalForm io c st = some (o, st', g))
    (ho : o.goesOn c') : StepOn st g k fs c c' := by
  unfold evalForm at h
  simp only [Bool.and_eq_true, beq_iff_eq] at h
  split at h
  · exact stepOn_of_deliver hK ha (Option.some.inj h) ho
  · split at h
    · next _ hhead =>
      exact evalDefine_stepOn hK ha (formEnv_of_head hhead.2 (by decide)) (Option.some.inj h) ho
    · split at h
      · next _ _ hhead =>
        exact evalProgn_stepOn hK ha (formEnv_of_head hhead.2 (by decide)) (Option.some.inj h) ho
      · split at h
        · exact evalSpawn_stepOn hK ha (Option.some.inj h) ho
        · split at h
          · exact evalLambda_stepOn hK ha h ho
          · split at h
            · next hhead =>
              exact stepOn_of_dispatch (f := .ifBranches _ _) hK ha
                (formEnv_of_head hhead.2 (by decide)) (.inr (.inr ⟨_, _, rfl⟩))
                (Option.some.inj h) ho
            · split at h
              · next hhead => exact evalLet_stepOn hK ha hexp hhead.1 hhead.2 h ho
              · next hhead =>
                exact stepOn_of_dispatch (f := .applicationArgs [] _ _) hK ha
                  (formEnv_of_not_let fun hl => hhead ⟨hl.2.1, hl.2.2.1⟩) (.inl rfl)
                  (Option.some.inj h) ho

theorem evalExp_stepOn (hK : c.K.contents = framesOn k fs) (ha : c.appCont = false)
    (h : evalExp pf io c st = some (o, st', g)) (ho : o.goesOn c') : StepOn st g k fs c c' := by
  unfold evalExp at h
  simp only at h
  split at h
  · exact evalSymbol_stepOn hK ha h ho
  · split at h
    · exact stepOn_of_deliver hK ha (Option.some.inj h) ho
    · split at h
      · cases h
        simp at ho
      · split at h
        · next hcons => exact evalForm_stepOn hK ha (by simpa using hcons) h ho
        · cases h
          simp at ho

/-! ## Continuations -/

variable {K : Stack} {fs₀ : List Frame}

/-- The context that a continuation gets: the tag is popped, `app_cont` is cleared. -/
def EvalContext.resumed (c : EvalContext) (K : Stack) : EvalContext :=
  { c with K := K, appCont := false }

@[simp] theorem EvalContext.resumed_K (c : EvalContext) (K : Stack) : (c.resumed K).K = K := rfl

theorem advanceCtx_stepOn (hpop : popU32 c.K = some (encU contDone, K))
    (hK : c.K.contents = framesOn k (.done :: fs₀)) (ha : c.appCont = true)
    (h : advanceCtx io (c.resumed K) st = (o, st', g)) (ho : o.goesOn c') :
    StepOn st g k (.done :: fs₀) c c' := by
  unfold advanceCtx at h
  split at h
  · cases h
    obtain rfl := goesOn_running.mp ho
    refine ⟨.done :: fs₀, ?_, .advance rfl ha rfl⟩
    show (pushU32 io.malloc K (encU contDone)).2.contents = _
    rw [pushU32_popU32 hpop, hK]
  · cases h
    simp at ho

theorem contSetGlobalEnvCase_stepOn {key : VALUE}
    (hK : K.contents = framesOn k fs₀ ++ (Frame.setGlobalEnv key).payload)
    (ha : c.appCont = true) (hdone : c.done = false)
    (h : contSetGlobalEnvCase io (c.resumed K) st = some (o, st', g)) (ho : o.goesOn c') :
    StepOn st g k (.setGlobalEnv key :: fs₀) c c' := by
  obtain ⟨K₁, hpop, hK₁, -⟩ := popU32_of_contents hK
  unfold contSetGlobalEnvCase at h
  simp only [EvalContext.resumed, hpop, hdone, Option.bind_eq_bind, Option.bind_some] at h
  obtain ⟨⟨newEnv, h₁⟩, -, h⟩ := Option.bind_eq_some_iff.mp h
  simp only at h
  split at h
  · split at h <;> cases h
    · simp at ho
    · next K₂ hpush =>
      obtain rfl := goesOn_running.mp ho
      refine ⟨.setGlobalEnv key :: fs₀, ?_, .retry rfl ha rfl⟩
      rw [framesOn_cons, ← hK₁]
      exact contents_pushAll hpush
  · split at h <;> cases h
    · simp at ho
    · obtain rfl := goesOn_running.mp ho
      exact ⟨fs₀, hK₁, .ret rfl ha rfl⟩

theorem contPrognRestCase_stepOn {env rest : VALUE}
    (hK : K.contents = framesOn k fs₀ ++ (Frame.prognRest env rest).payload)
    (ha : c.appCont = true)
    (h : contPrognRestCase io (c.resumed K) st = some (o, st', g)) (ho : o.goesOn c') :
    StepOn st g k (.prognRest env rest :: fs₀) c c' := by
  obtain ⟨K₁, K₂, hpop₁, hpop₂, hK₂⟩ := popU32_two_of_contents hK
  unfold contPrognRestCase at h
  simp only [EvalContext.resumed, hpop₁, hpop₂, Option.bind_eq_bind, Option.bind_some] at h
  split at h
  · cases h
    obtain rfl := goesOn_running.mp ho
    exact ⟨fs₀, hK₂, .ret rfl ha rfl⟩
  · split at h
    · cases h
      simp at ho
    · split at h
      · next hlast =>
        cases h
        obtain rfl := goesOn_running.mp ho
        exact ⟨fs₀, hK₂, .prognLast rfl hlast ha rfl rfl⟩
      · next hlast =>
        split at h <;> cases h
        · simp at ho
        · next K₃ hpush =>
          obtain rfl := goesOn_running.mp ho
          refine ⟨.prognRest env (cdr st.heap rest) :: fs₀, ?_,
            .next rfl ha rfl (Bool.eq_false_iff.mpr hlast) rfl rfl⟩
          rw [framesOn_cons, ← hK₂]
          exact contents_pushAll hpush

theorem spawnFirst_goesOn {env rest cidList : VALUE}
    (h : spawnFirst io c env rest cidList st = (o, st', g)) (ho : o.goesOn c') :
    (∃ rest', c'.K.contents = c.K.contents ++ (Frame.spawnAll env rest').words)
      ∧ c'.appCont = true := by
  unfold spawnFirst at h
  simp only at h
  split at h <;> cases h
  · simp at ho
  · next K₁ hpush =>
    obtain rfl := goesOn_running.mp ho
    exact ⟨⟨_, contents_pushAll hpush⟩, rfl⟩

theorem contSpawnAllCase_stepOn {env rest : VALUE}
    (hK : K.contents = framesOn k fs₀ ++ (Frame.spawnAll env rest).payload)
    (ha : c.appCont = true)
    (h : contSpawnAllCase io (c.resumed K) st = some (o, st', g)) (ho : o.goesOn c') :
    StepOn st g k (.spawnAll env rest :: fs₀) c c' := by
  obtain ⟨K₁, K₂, hpop₁, hpop₂, hK₂⟩ := popU32_two_of_contents hK
  rcases hcons : cons (encI st.nextCtxId) c.r st.heap with ⟨cidList, h₁⟩
  unfold contSpawnAllCase at h
  simp only [EvalContext.resumed, hpop₁, hpop₂, hcons, Option.bind_eq_bind, Option.bind_some] at h
  split at h
  · cases h
    obtain rfl := goesOn_running.mp ho
    exact ⟨fs₀, hK₂, .ret rfl ha rfl⟩
  · split at h
    · split at h <;> cases h
      · simp at ho
      · next K₃ hpush =>
        obtain rfl := goesOn_running.mp ho
        refine ⟨.spawnAll env rest :: fs₀, ?_, .spawnNext rfl ha rfl⟩
        rw [framesOn_cons, ← hK₂]
        exact contents_pushAll hpush
    · obtain ⟨⟨rest', hK'⟩, ha'⟩ := spawnFirst_goesOn (Option.some.inj h) ho
      exact ⟨.spawnAll env rest' :: fs₀, by rw [hK', framesOn_cons, ← hK₂], .spawnNext rfl ha ha'⟩

theorem yieldCtx_goesOn {sleepUs : UINT} (ho : (yieldCtx io c sleepUs).goesOn c') :
    c'.K = c.K ∧ c'.appCont = true := by
  unfold yieldCtx at ho
  cases htime : io.timestampUs with
  | none =>
    rw [htime] at ho
    obtain rfl := goesOn_yielded.mp ho
    exact ⟨rfl, rfl⟩
  | some t =>
    rw [htime] at ho
    obtain rfl := goesOn_yielded.mp ho
    exact ⟨rfl, rfl⟩

theorem waitYield_goesOn {cid : CID} (hK : c.K.contents = framesOn k fs₀)
    (h : waitYield io c cid st = (o, st', g)) (ho : o.goesOn c') :
    c'.K.contents = framesOn k (.wait (encU (cid.setWidth 32)) :: fs₀) ∧ c'.appCont = true := by
  unfold waitYield at h
  split at h <;> cases h
  · simp at ho
  · next K₁ hpush =>
    obtain ⟨hK', ha'⟩ := yieldCtx_goesOn ho
    refine ⟨?_, ha'⟩
    rw [hK', framesOn_cons, ← hK]
    exact contents_pushAll hpush

theorem contWaitCase_stepOn {cidVal : VALUE}
    (hK : K.contents = framesOn k fs₀ ++ (Frame.wait cidVal).payload) (ha : c.appCont = true)
    (h : contWaitCase io (c.resumed K) st = some (o, st', g)) (ho : o.goesOn c') :
    StepOn st g k (.wait cidVal :: fs₀) c c' := by
  obtain ⟨K₁, hpop, hK₁, -⟩ := popU32_of_contents hK
  unfold contWaitCase at h
  simp only [EvalContext.resumed, hpop, Option.bind_eq_bind, Option.bind_some] at h
  split at h
  · cases h
    obtain rfl := goesOn_running.mp ho
    exact ⟨fs₀, hK₁, .ret rfl ha rfl⟩
  · obtain ⟨hK', ha'⟩ := waitYield_goesOn hK₁ (Option.some.inj h) ho
    exact ⟨_, hK', .wait _ rfl ha ha'⟩

/-- The word vector of an application, with the number of arguments popped. -/
theorem application_words {funWord count : VALUE} {args : List VALUE}
    (hcount : count = encU (BitVec.ofNat 32 args.length))
    (hK : K.contents = framesOn k fs₀ ++ funWord :: args) :
    (decU count).toNat = args.length
      ∧ stackPtr K (args.length + 1) = some (framesOn k fs₀).length
      ∧ K.data.getD (framesOn k fs₀).length 0#32 = funWord
      ∧ (K.data.drop ((framesOn k fs₀).length + 1)).take args.length = args
      ∧ (stackDrop K (args.length + 1)).contents = framesOn k fs₀ := by
  obtain ⟨hfun, hargs⟩ := data_of_contents hK
  have hlen : args.length < 2 ^ 28 := by
    have hsp := congrArg List.length hK
    have := K.sp_le
    have := K.size_lt
    rw [K.length_contents, List.length_append, List.length_cons] at hsp
    omega
  refine ⟨by rw [hcount, decU_encU_ofNat hlen], ?_, hfun, hargs, ?_⟩
  · exact stackPtr_of_contents hK
  · exact contents_stackDrop hK

theorem retryApplication_stepOn {funWord fw count : VALUE} {args : List VALUE}
    (hcount : count = encU (BitVec.ofNat 32 args.length))
    (hK : K.contents = framesOn k fs₀ ++ funWord :: args) (ha : c.appCont = true)
    (h : retryApplication io (c.resumed K) count fw st'' = (o, st', g)) (ho : o.goesOn c') :
    StepOn st g k (.application funWord args :: fs₀) c c' := by
  unfold retryApplication at h
  split at h <;> cases h
  · simp at ho
  · next K₁ hpush =>
    obtain rfl := goesOn_running.mp ho
    refine ⟨.application funWord args :: fs₀, ?_, .retry rfl ha rfl⟩
    have hK₁ := contents_pushAll hpush
    simp only [EvalContext.resumed, hK, hcount] at hK₁
    simp [hK₁, Frame.words, Frame.payload, Frame.tag]

/-- The stack pointer drops below the vector and the value is passed on. -/
theorem stepOn_of_drop {funWord : VALUE} {args : List VALUE}
    (hdrop : c'.K.contents = framesOn k fs₀) (ha : c.appCont = true) (ha' : c'.appCont = true) :
    StepOn st g k (.application funWord args :: fs₀) c c' :=
  ⟨fs₀, hdrop, .ret rfl ha ha'⟩

theorem applyClosure_stepOn {funWord count : VALUE} {args : List VALUE}
    (hcount : count = encU (BitVec.ofNat 32 args.length))
    (hK : K.contents = framesOn k fs₀ ++ funWord :: args) (ha : c.appCont = true)
    (h : applyClosure io (c.resumed K) count funWord args st = some (o, st', g))
    (ho : o.goesOn c') : StepOn st g k (.application funWord args :: fs₀) c c' := by
  obtain ⟨-, -, -, -, hdrop⟩ := application_words hcount hK
  unfold applyClosure at h
  rcases hcons : consAll args.reverse NIL st.heap with ⟨argList, h₁⟩
  simp only [hcons] at h
  split at h
  · exact retryApplication_stepOn hcount hK ha (Option.some.inj h) ho
  · obtain ⟨np, -, h⟩ := Option.bind_eq_some_iff.mp h
    obtain ⟨na, -, h⟩ := Option.bind_eq_some_iff.mp h
    split at h
    · cases h
      simp at ho
    · obtain ⟨⟨localEnv, h₂⟩, -, h⟩ := Option.bind_eq_some_iff.mp h
      simp only at h
      split at h
      · exact retryApplication_stepOn hcount hK ha (Option.some.inj h) ho
      · split at h <;> cases h
        · simp at ho
        · obtain rfl := goesOn_running.mp ho
          exact ⟨fs₀, hdrop, .body rfl ha rfl⟩

theorem applyFundamental_stepOn {funWord count : VALUE} {args argWords : List VALUE}
    (hcount : count = encU (BitVec.ofNat 32 args.length))
    (hK : K.contents = framesOn k fs₀ ++ funWord :: args) (ha : c.appCont = true)
    (h : applyFundamental pf io (c.resumed K) count funWord argWords st = some (o, st', g))
    (ho : o.goesOn c') : StepOn st g k (.application funWord args :: fs₀) c c' := by
  obtain ⟨hn, -, -, -, hdrop⟩ := application_words hcount hK
  unfold applyFundamental at h
  obtain ⟨⟨res, h₁, symbols⟩, -, h⟩ := Option.bind_eq_some_iff.mp h
  simp only [hn] at h
  split at h
  · cases h
    simp at ho
  · split at h
    · exact retryApplication_stepOn hcount hK ha (Option.some.inj h) ho
    · cases h
      obtain rfl := goesOn_running.mp ho
      exact stepOn_of_drop hdrop ha rfl

theorem applyExtension_stepOn {funWord count : VALUE} {args argWords : List VALUE}
    (hcount : count = encU (BitVec.ofNat 32 args.length))
    (hK : K.contents = framesOn k fs₀ ++ funWord :: args) (ha : c.appCont = true)
    (h : applyExtension pf io (c.resumed K) count funWord argWords st = (o, st', g))
    (ho : o.goesOn c') : StepOn st g k (.application funWord args :: fs₀) c c' := by
  obtain ⟨hn, -, -, -, hdrop⟩ := application_words hcount hK
  unfold applyExtension at h
  simp only [hn] at h
  split at h
  · cases h
    simp at ho
  · split at h
    · exact retryApplication_stepOn hcount hK ha h ho
    · cases h
      obtain rfl := goesOn_running.mp ho
      exact stepOn_of_drop hdrop ha rfl

theorem contApplicationCase_stepOn {funWord : VALUE} {args : List VALUE}
    (hK : K.contents = framesOn k fs₀ ++ (Frame.application funWord args).payload)
    (ha : c.appCont = true)
    (h : contApplicationCase pf io (c.resumed K) st = some (o, st', g)) (ho : o.goesOn c') :
    StepOn st g k (.application funWord args :: fs₀) c c' := by
  obtain ⟨K₁, hpop, hK₁, -⟩ := popU32_of_contents (s := K) (k := framesOn k fs₀ ++ funWord :: args)
    (v := encU (BitVec.ofNat 32 args.length)) (by rw [hK]; simp [Frame.payload])
  obtain ⟨hn, hbase, hfun, hargs, hdrop⟩ := application_words rfl hK₁
  unfold contApplicationCase at h
  simp only [EvalContext.resumed, hpop, hn, hbase, hfun, Option.bind_eq_bind,
    Option.bind_some] at h
  split at h
  · rw [hargs] at h
    exact applyClosure_stepOn rfl hK₁ ha h ho
  · split at h
    · split at h <;> cases h
      · obtain ⟨hK', ha'⟩ := yieldCtx_goesOn ho
        exact stepOn_of_drop (by rw [hK']; exact hdrop) ha ha'
      · simp at ho
    · split at h
      · split at h
        · obtain ⟨hK', ha'⟩ := waitYield_goesOn hdrop (Option.some.inj h) ho
          exact ⟨_, hK', .wait _ rfl ha ha'⟩
        · cases h
          simp at ho
      · split at h
        · cases h
          obtain rfl := goesOn_running.mp ho
          exact ⟨fs₀, hdrop, .body rfl ha rfl⟩
        · split at h
          · exact applyFundamental_stepOn rfl hK₁ ha h ho
          · exact applyExtension_stepOn rfl hK₁ ha (Option.some.inj h) ho

theorem evalOperand_goesOn {tag : UINT} {env rest : VALUE}
    (h : evalOperand io c tag env rest st = (o, st', g)) (ho : o.goesOn c') :
    c'.K.contents = c.K.contents ++ [env, cdr st.heap rest, encU tag] ∧ c'.currEnv = env
      ∧ c'.appCont = c.appCont := by
  unfold evalOperand at h
  split at h <;> cases h
  · simp at ho
  · next K₁ hpush =>
    obtain rfl := goesOn_running.mp ho
    exact ⟨contents_pushAll hpush, rfl, rfl⟩

theorem contAndCase_stepOn {env rest : VALUE}
    (hK : K.contents = framesOn k fs₀ ++ (Frame.and env rest).payload) (ha : c.appCont = true)
    (h : contAndCase io (c.resumed K) st = some (o, st', g)) (ho : o.goesOn c') :
    StepOn st g k (.and env rest :: fs₀) c c' := by
  obtain ⟨K₁, K₂, hpop₁, hpop₂, hK₂⟩ := popU32_two_of_contents hK
  unfold contAndCase at h
  simp only [EvalContext.resumed, hpop₁, hpop₂, Option.bind_eq_bind, Option.bind_some] at h
  split at h
  · cases h
    obtain rfl := goesOn_running.mp ho
    exact ⟨fs₀, hK₂, .ret rfl ha rfl⟩
  · split at h
    · cases h
      obtain rfl := goesOn_running.mp ho
      exact ⟨fs₀, hK₂, .ret rfl ha rfl⟩
    · obtain ⟨hK', henv, ha'⟩ := evalOperand_goesOn (Option.some.inj h) ho
      subst henv
      refine ⟨.and _ (cdr st.heap rest) :: fs₀, ?_, .next rfl ha ha' rfl rfl rfl⟩
      rw [hK', hK₂]
      rfl

theorem contOrCase_stepOn {env rest : VALUE}
    (hK : K.contents = framesOn k fs₀ ++ (Frame.or env rest).payload) (ha : c.appCont = true)
    (h : contOrCase io (c.resumed K) st = some (o, st', g)) (ho : o.goesOn c') :
    StepOn st g k (.or env rest :: fs₀) c c' := by
  obtain ⟨K₁, K₂, hpop₁, hpop₂, hK₂⟩ := popU32_two_of_contents hK
  unfold contOrCase at h
  simp only [EvalContext.resumed, hpop₁, hpop₂, Option.bind_eq_bind, Option.bind_some] at h
  split at h
  · cases h
    obtain rfl := goesOn_running.mp ho
    exact ⟨fs₀, hK₂, .ret rfl ha rfl⟩
  · split at h
    · cases h
      obtain rfl := goesOn_running.mp ho
      exact ⟨fs₀, hK₂, .ret rfl ha rfl⟩
    · obtain ⟨hK', henv, ha'⟩ := evalOperand_goesOn (Option.some.inj h) ho
      subst henv
      refine ⟨.or _ (cdr st.heap rest) :: fs₀, ?_, .next rfl ha ha' rfl rfl rfl⟩
      rw [hK', hK₂]
      rfl

/-- The operator is `and` or `or`: the frame gives way to one of that operator. -/
theorem shortCircuit_stepOn {tag : UINT} {env rest v : VALUE} (mk : VALUE → VALUE → Frame)
    (hmk : ∀ env rest, (mk env rest).savedEnv = some env
      ∧ (mk env rest).words = [env, rest, encU tag])
    (hK : K.contents = framesOn k fs₀) (ha : c.appCont = true)
    (h : (if typeOf rest == valTypeSymbol && rest == NIL then
        some (.running { c.resumed K with appCont := true, r := v }, st, false)
      else some (evalOperand io (c.resumed K) tag env rest st)) = some (o, st', g))
    (ho : o.goesOn c') : StepOn st g k (.applicationArgs [] env rest :: fs₀) c c' := by
  split at h
  · cases h
    obtain rfl := goesOn_running.mp ho
    exact ⟨fs₀, hK, .ret rfl ha rfl⟩
  · obtain ⟨hK', henv, ha'⟩ := evalOperand_goesOn (Option.some.inj h) ho
    subst henv
    refine ⟨mk _ (cdr st.heap rest) :: fs₀, ?_, .next rfl ha ha' rfl rfl (hmk _ _).1⟩
    rw [hK', framesOn_cons, (hmk _ _).2, ← hK]
    rfl

theorem applicationArg_stepOn {funArgs : List VALUE} {env rest : VALUE}
    (hK : K.contents = framesOn k fs₀ ++ funArgs) (ha : c.appCont = true)
    (h : applicationArg io (c.resumed K) c.r env (encU (BitVec.ofNat 32 funArgs.length)) rest st
      = (o, st', g))
    (ho : o.goesOn c') : StepOn st g k (.applicationArgs funArgs env rest :: fs₀) c c' := by
  unfold applicationArg at h
  split at h
  · cases h
    simp at ho
  · next K₁ hpush =>
    have hK₁ : K₁.contents = framesOn k fs₀ ++ (funArgs ++ [c.r]) := by
      rw [contents_pushU32 hpush, ← List.append_assoc, ← hK]
      rfl
    have hlen : funArgs.length < 2 ^ 28 := by
      have hsp := congrArg List.length hK
      have := K.sp_le
      have := K.size_lt
      rw [K.length_contents, List.length_append] at hsp
      omega
    split at h
    · split at h <;> cases h
      · simp at ho
      · next K₂ hpush₂ =>
        obtain rfl := goesOn_running.mp ho
        -- the vector is not empty, its first word is the operator
        obtain ⟨funWord, args, hargs⟩ := List.exists_cons_of_ne_nil
          (show funArgs ++ [c.r] ≠ [] by simp)
        have hcount : funArgs.length = args.length := by
          have := congrArg List.length hargs
          simpa using this
        refine ⟨.application funWord args :: fs₀, ?_, .ready rfl hargs ha rfl⟩
        have hK₂ := contents_pushAll hpush₂
        rw [hK₁, hargs, hcount] at hK₂
        simp [hK₂, Frame.words, Frame.payload, Frame.tag]
    · split at h <;> cases h
      · simp at ho
      · next K₂ hpush₂ =>
        obtain rfl := goesOn_running.mp ho
        have hcount : decU (encU (BitVec.ofNat 32 funArgs.length)) + 1#32
            = BitVec.ofNat 32 (funArgs ++ [c.r]).length := by
          apply BitVec.eq_of_toNat_eq
          rw [BitVec.toNat_add, decU_encU_ofNat hlen]
          simp
        refine ⟨.applicationArgs (funArgs ++ [c.r]) env (cdr st.heap rest) :: fs₀, ?_,
          .next rfl ha rfl rfl rfl rfl⟩
        have hK₂ := contents_pushAll hpush₂
        rw [hK₁, hcount] at hK₂
        simp [hK₂, Frame.words, Frame.payload, Frame.tag]

theorem contApplicationArgsCase_stepOn {funArgs : List VALUE} {env rest : VALUE}
    (hK : K.contents = framesOn k fs₀ ++ (Frame.applicationArgs funArgs env rest).payload)
    (ha : c.appCont = true)
    (hstray : typeOf c.r = valTypeSymbol → decSym c.r = symreprAnd ∨ decSym c.r = symreprOr →
      funArgs = [])
    (h : contApplicationArgsCase io (c.resumed K) st = some (o, st', g)) (ho : o.goesOn c') :
    StepOn st g k (.applicationArgs funArgs env rest :: fs₀) c c' := by
  obtain ⟨K₁, K₂, K₃, hpop₁, hpop₂, hpop₃, hK₃⟩ := popU32_three_of_contents (s := K)
    (k := framesOn k fs₀ ++ funArgs) (a := env) (b := encU (BitVec.ofNat 32 funArgs.length))
    (c := rest) (by rw [hK]; simp [Frame.payload])
  unfold contApplicationArgsCase at h
  simp only [EvalContext.resumed, hpop₁, hpop₂, hpop₃, Option.bind_eq_bind,
    Option.bind_some] at h
  split at h
  · next hand =>
    simp only [Bool.and_eq_true, beq_iff_eq] at hand
    obtain rfl := hstray hand.1 (.inl hand.2)
    rw [List.append_nil] at hK₃
    exact shortCircuit_stepOn .and (fun _ _ => ⟨rfl, rfl⟩) hK₃ ha h ho
  · split at h
    · next hor =>
      simp only [Bool.and_eq_true, beq_iff_eq] at hor
      obtain rfl := hstray hor.1 (.inr hor.2)
      rw [List.append_nil] at hK₃
      exact shortCircuit_stepOn .or (fun _ _ => ⟨rfl, rfl⟩) hK₃ ha h ho
    · exact applicationArg_stepOn hK₃ ha (Option.some.inj h) ho

theorem contBindToKeyRestCase_stepOn {exp rest env key : VALUE}
    (hK : K.contents = framesOn k fs₀ ++ (Frame.bindToKeyRest exp rest env key).payload)
    (ha : c.appCont = true)
    (h : contBindToKeyRestCase io (c.resumed K) st = some (o, st', g)) (ho : o.goesOn c') :
    StepOn st g k (.bindToKeyRest exp rest env key :: fs₀) c c' := by
  obtain ⟨K₁, K₂, K₃, hpop₁, hpop₂, hpop₃, hK₃⟩ := popU32_three_of_contents (s := K)
    (k := framesOn k fs₀ ++ [exp]) (a := rest) (b := env) (c := key)
    (by rw [hK]; simp [Frame.payload])
  unfold contBindToKeyRestCase at h
  simp only [EvalContext.resumed, hpop₁, hpop₂, hpop₃, Option.bind_eq_bind,
    Option.bind_some] at h
  obtain ⟨⟨_, h₁⟩, -, h⟩ := Option.bind_eq_some_iff.mp h
  simp only at h
  split at h
  · next hcons =>
    split at h <;> cases h
    · simp at ho
    · next K₄ hpush =>
      obtain rfl := goesOn_running.mp ho
      refine ⟨.bindToKeyRest exp (cdr h₁ rest) env (car h₁ (car h₁ rest)) :: fs₀, ?_,
        .next rfl ha rfl (by simp [Frame.isTail, hcons]) rfl rfl⟩
      have hK₄ := contents_pushAll hpush
      rw [hK₃] at hK₄
      simp [hK₄, Frame.words, Frame.payload, Frame.tag]
  · obtain ⟨K₄, hpop₄, hK₄, -⟩ := popU32_of_contents hK₃
    simp only [hpop₄, Option.bind_some] at h
    cases h
    obtain rfl := goesOn_running.mp ho
    exact ⟨fs₀, hK₄, .letLast rfl ha rfl⟩

theorem contIfCase_stepOn {elseBranch thenBranch : VALUE}
    (hK : K.contents = framesOn k fs₀ ++ (Frame.ifBranches elseBranch thenBranch).payload)
    (ha : c.appCont = true)
    (h : contIfCase (c.resumed K) st = some (o, st', g)) (ho : o.goesOn c') :
    StepOn st g k (.ifBranches elseBranch thenBranch :: fs₀) c c' := by
  obtain ⟨K₁, K₂, hpop₁, hpop₂, hK₂⟩ := popU32_two_of_contents hK
  unfold contIfCase at h
  simp only [EvalContext.resumed_K, hpop₁, hpop₂, Option.bind_eq_bind, Option.bind_some] at h
  split at h <;> cases h
  all_goals
    obtain rfl := goesOn_running.mp ho
    exact ⟨fs₀, hK₂, .ifBranch rfl ha rfl rfl⟩

theorem eq_nil_of_not_stray {funArgs : List VALUE} {env rest : VALUE}
    (hK : c.K.contents = framesOn k (.applicationArgs funArgs env rest :: fs₀))
    (ha : c.appCont = true) (hstray : strayShortCircuit c = false)
    (hty : typeOf c.r = valTypeSymbol) (hsym : decSym c.r = symreprAnd ∨ decSym c.r = symreprOr) :
    funArgs = [] := by
  have hwords : c.K.contents.reverse = encU contApplicationArgs :: rest
      :: encU (BitVec.ofNat 32 funArgs.length) :: env :: (framesOn k fs₀ ++ funArgs).reverse := by
    rw [hK]
    simp [Frame.words, Frame.payload, Frame.tag]
  have hlen : funArgs.length < 2 ^ 28 := by
    have hsp := congrArg List.length hwords
    have := c.K.sp_le
    have := c.K.size_lt
    simp only [List.length_reverse, c.K.length_contents, List.length_cons,
      List.length_append] at hsp
    omega
  have htag : decU (encU contApplicationArgs) = contApplicationArgs := by decide
  unfold strayShortCircuit at hstray
  rw [hwords] at hstray
  simp only [ha, htag, hty, beq_self_eq_true, Bool.true_and, Bool.and_true, Bool.and_eq_false_iff,
    Bool.or_eq_false_iff, beq_eq_false_iff_ne, bne_eq_false_iff_eq] at hstray
  rcases hstray with hzero | hsyms
  · have hcount := decU_encU_ofNat hlen
    rw [hzero] at hcount
    exact List.length_eq_zero_iff.mp hcount.symm
  · rcases hsym with hand | hor
    · exact absurd hand hsyms.1
    · exact absurd hor hsyms.2

theorem applyContinuation_stepOn {f : Frame} (hK : c.K.contents = framesOn k (f :: fs₀))
    (ha : c.appCont = true) (hdone : c.done = false) (hstray : strayShortCircuit c = false)
    (h : applyContinuation pf io c st = some (o, st', g)) (ho : o.goesOn c') :
    StepOn st g k (f :: fs₀) c c' := by
  have hK' : c.K.contents = framesOn k fs₀ ++ f.payload ++ [encU f.tag] := by
    rw [hK, framesOn_cons, Frame.words, List.append_assoc]
  obtain ⟨K, hpop, hK₁, -⟩ := popU32_of_contents hK'
  unfold applyContinuation at h
  simp only [hpop, decU_encU_tag, Option.bind_eq_bind, Option.bind_some] at h
  cases f with
  | done => exact advanceCtx_stepOn hpop hK ha (Option.some.inj h) ho
  | setGlobalEnv key => exact contSetGlobalEnvCase_stepOn hK₁ ha hdone h ho
  | bindToKeyRest exp rest env key => exact contBindToKeyRestCase_stepOn hK₁ ha h ho
  | ifBranches elseBranch thenBranch => exact contIfCase_stepOn hK₁ ha h ho
  | prognRest env rest => exact contPrognRestCase_stepOn hK₁ ha h ho
  | application funWord args => exact contApplicationCase_stepOn hK₁ ha h ho
  | applicationArgs funArgs env rest =>
    exact contApplicationArgsCase_stepOn hK₁ ha (eq_nil_of_not_stray hK ha hstray) h ho
  | and env rest => exact contAndCase_stepOn hK₁ ha h ho
  | or env rest => exact contOrCase_stepOn hK₁ ha h ho
  | wait cid => exact contWaitCase_stepOn hK₁ ha h ho
  | spawnAll env rest => exact contSpawnAllCase_stepOn hK₁ ha h ho

/-- **Every step is a step on frames**, unless an operand short-circuits where it should not. -/
theorem stepCtx_stepOn (hK : c.K.contents = framesOn k fs) (hfs : c.appCont = true → fs ≠ [])
    (hdone : c.done = false) (hstray : strayShortCircuit c = false)
    (h : stepCtx pf io c st = some (o, st', g)) (ho : o.goesOn c') : StepOn st g k fs c c' := by
  unfold stepCtx at h
  cases ha : c.appCont with
  | false =>
    rw [ha, if_neg (by simp)] at h
    exact evalExp_stepOn hK ha h ho
  | true =>
    rw [ha, if_pos rfl] at h
    obtain ⟨f, fs₀, rfl⟩ := List.exists_cons_of_ne_nil (hfs ha)
    exact applyContinuation_stepOn hK ha hdone hstray h ho

end LispBM
