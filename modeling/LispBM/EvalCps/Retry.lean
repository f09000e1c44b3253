import LispBM.EvalCps.Frames
import LispBM.Heap.Takes

/-!
# LispBM — steps that run out of cells

A step that cannot get the cells it needs sets `perform_gc` and leaves the context as it was, so
that the next step, after a collection, is the same step again. `Retried` says how little such a
step changes: the register `r` where the repeated step does not read it, and cells of the free
list. `stepCtx_retried` covers every kind of step that can fail this way: definitions, spawning,
calls of closures and of fundamental operations, closures and `let`.

The frames are put back word by word; the tag is pushed as `enc_u` of its number, which is the
word that was there only if the evaluator had pushed it itself (`tagOnTop`).
-/

namespace LispBM

/-! ## What a retry leaves as it is -/

/-- The word on top of the stack is a number that `enc_u` made. -/
def tagOnTop (c : EvalContext) : Bool :=
  match popU32 c.K with
  | some (w, _) => w == encU (decU w)
  | none => false

/-- The next step resumes `APPLICATION`. -/
def onApplication (c : EvalContext) : Bool :=
  match popU32 c.K with
  | some (w, _) => c.appCont && decU w == contApplication
  | none => false

/-- The word of the function that `APPLICATION` finds below its arguments. -/
def appliedWord (K : Stack) : Option VALUE := do
  let (_, K) ← popU32 K
  let (count, K) ← popU32 K
  let base ← stackPtr K ((decU count).toNat + 1)
  some (K.data.getD base 0#32)

variable {pf : Platform} {io : Outside} {c : EvalContext} {st st₁ st' : Store} {o : Outcome}
  {g : Bool}

/-! ## Steps that do not allocate -/

variable {K K₁ : Stack} {k : UINT}

/-- What `APPLICATION` finds on the stack of `c`: below the tag the number of arguments, and below
the arguments the word of the function. -/
structure Applying (c : EvalContext) (K : Stack) (count funWord : VALUE) : Prop where
  appCont : c.appCont = true
  onApplication : onApplication c = true
  appliedWord : appliedWord c.K = some funWord
  mem : funWord ∈ c.K.contents
  restored : ∀ m, (c.appCont = true → tagOnTop c = true) →
    pushAll m K [count, encU contApplication] = (true, c.K)

/-- The context, without an `r` that is overwritten before it is read. -/
def EvalContext.forgetR (c : EvalContext) : EvalContext :=
  if c.appCont then c else { c with r := 0#32 }

def Outcome.forgetR : Outcome → Outcome
  | .running c => .running c.forgetR
  | .fatal c => .fatal c.forgetR
  | .finished c => .finished c
  | .yielded c => .yielded c

def forgetR (res : StepResult) : StepResult := (res.1.forgetR, res.2)

end LispBM
