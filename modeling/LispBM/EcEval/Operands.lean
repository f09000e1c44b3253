import LispBM.EcEval.Discipline
import LispBM.Heap.Lists
import LispBM.Lib.Operands

/-!
# LispBM — the operands of a form in the explicit-control evaluator

The steps that a form makes between the evaluations of its operands. The registers and the stack
at the delivery of an operand are known from `reads_of_delivered`; what has to be asked for is
that the evaluation of an operand leaves the lists alone that its form keeps on the stack.
-/

namespace LispBM

namespace EcEval

open FrameStack Machine

/-- A push has failed, or there are no cells even after a collection. -/
def Exhausted (t : State) : Prop :=
  t.pushLost = true
    ∨ t.es = .evalContinuation ∧ t.cont = Continuation.contError.enc ∧ t.val = encSym symreprMerror

/-- The machine makes a step and goes on, if there is memory for it. -/
def GoesOn (pf : Platform) (s : State) : Prop :=
  s.done = false
    ∧ ∀ m, ∃ t, ecEvalIteration pf m s = some t ∧ (Exhausted t ∨ Undisturbed t)

/-- The form that was dispatched on the stack `k` is being evaluated. -/
def FormLive (pf : Platform) (k : List UINT) (s : State) : Prop :=
  GoesOn pf s ∧ ¬(s.es = .evalContinuation ∧ s.S.contents.length ≤ k.length)

/-- `e` is dispatched in the environment `E`, above the stack `k`. -/
structure Evaluates (k : List UINT) (E e : VALUE) (s : State) : Prop where
  es : s.es = .evalDispatch
  done : s.done = false
  pushLost : s.pushLost = false
  exp : s.exp = e
  env : s.env = E
  below : k <+: s.S.contents

/-- The value `v` is handed to the continuation `c`, with the stack `k`. -/
structure ReturnsTo (k : List UINT) (c v : VALUE) (s : State) : Prop where
  es : s.es = .evalContinuation
  done : s.done = false
  pushLost : s.pushLost = false
  cont : s.cont = c
  stack : s.S.contents = k
  val : s.val = v

/-- The evaluation from `s` to `t` has changed none of the cells of the lists on the stack above
`k`. -/
def KeepsLists (k : List UINT) (s t : State) : Prop :=
  ∀ w ∈ s.S.contents.drop k.length, ∀ ws is, ListOf s.store.heap w ws is →
    ∀ i ∈ is, t.store.heap.cell i = s.store.heap.cell i

/-- The value of an operand. -/
def OperandValue (k : List UINT) (s t : State) (v : VALUE) : Prop :=
  t.val = v ∧ t.done = false ∧ t.pushLost = false ∧ KeepsLists k s t

section

variable {pf : Platform} {k : List UINT} {s t : State} {c E v : VALUE}

theorem not_undisturbed_of_exhausted (h : Exhausted t) : ¬Undisturbed t := by
  rintro ⟨hlost, hcont⟩
  rcases h with h | ⟨hes, herror, -⟩
  · rw [hlost] at h
    exact absurd h (by decide)
  · exact hcont hes herror

/-- A step that goes on, whatever `malloc` does, if there is memory for it. -/
theorem leads_of_step {live P : State → Prop} (hdone : s.done = false)
    (hlive : GoesOn pf s → live s)
    (h : ∀ m, ∃ t, ecEvalIteration pf m s = some t
      ∧ (Exhausted t ∨ Undisturbed t ∧ (ecMachine pf).Leads live P t)) :
    (ecMachine pf).Leads live P s := by
  refine .next (hlive ⟨hdone, fun m => ?_⟩) fun t ht => ?_
  · obtain ⟨t, hstep, hmem | ⟨hquiet, -⟩⟩ := h m
    · exact ⟨t, hstep, .inl hmem⟩
    · exact ⟨t, hstep, .inr hquiet⟩
  · obtain ⟨-, hquiet, m, hstep⟩ := ht
    obtain ⟨t', hstep', hrest⟩ := h m
    obtain rfl := Option.some.inj (hstep'.symm.trans hstep)
    rcases hrest with hmem | ⟨-, hleads⟩
    · exact absurd hquiet (not_undisturbed_of_exhausted hmem)
    · exact hleads

/-- An operand is delivered to the frame it was dispatched with. -/
theorem reads_of_delivers {f : Frame} {val : State → State → VALUE → Prop}
    (hs : Dispatched k c E f s) (hdel : (ecMachine pf).Delivers val s v t) :
    t.es = .evalContinuation ∧ Reads k c t [f] := by
  obtain ⟨hcont, hstack⟩ := reads_of_delivered hs.es hdel.run
    ⟨hdel.returning, Nat.le_of_eq (congrArg List.length hdel.stack)⟩
  have hes : t.es = .evalContinuation := hdel.returning
  refine ⟨hes, .of_frame ?_ (hcont.trans hs.cont) (by simp [hes])⟩
  exact hstack.trans hs.stack

/-- Above the stack of the form there is its frame. -/
theorem not_delivered_of_reads {f : Frame} (hr : Reads k c t [f]) :
    ¬(t.es = .evalContinuation ∧ t.S.contents.length ≤ k.length) := by
  rintro ⟨-, hle⟩
  have hpos := List.length_pos_of_ne_nil (f.words_ne_nil c [])
  have hstack : t.S.contents = k ++ f.words c [] := hr.stack
  rw [hstack, List.length_append] at hle
  omega

/-- A form gets the value of an operand. -/
theorem between_of_reads {ε υ : Type*} {F : Form State ε υ} {f : Frame}
    (hF : F.live = FormLive pf k) (hes : t.es = .evalContinuation) (hr : Reads k c t [f])
    (hgo : GoesOn pf t) : (ecMachine pf).Between F t := by
  refine ⟨hF ▸ ⟨hgo, not_delivered_of_reads hr⟩, fun hevaluating => ?_⟩
  exact absurd (hes.symm.trans hevaluating.1) (by decide)

theorem Dispatched.below {f : Frame} (hs : Dispatched k c E f s) : k <+: s.S.contents := by
  rw [hs.stack]
  exact List.prefix_append _ _

theorem Dispatched.evaluates {f : Frame} (hs : Dispatched k c E f s) (hdone : s.done = false)
    (hlost : s.pushLost = false) : Evaluates k E s.exp s :=
  ⟨hs.es, hdone, hlost, rfl, hs.env, hs.below⟩

/-- The frame of the operand is above `k`. -/
theorem KeepsLists.listOf {f : Frame} {w : VALUE} {ws : List VALUE} {is : List Nat}
    (h : KeepsLists k s t) (hs : Dispatched k c E f s) (hw : w ∈ f.onStack c)
    (hlist : ListOf s.store.heap w ws is) : ListOf t.store.heap w ws is := by
  apply hlist.congr
  apply h w _ ws is hlist
  rw [hs.stack, List.drop_left]
  exact hw

theorem undisturbed_of_dispatch (hes : t.es = .evalDispatch) (hlost : t.pushLost = false) :
    Undisturbed t :=
  ⟨hlost, fun h => absurd (hes.symm.trans h) (by decide)⟩

theorem expKindOf_cons {h : HeapState} {exp : VALUE} (hty : typeOf exp = ptrTypeCons) :
    expKindOf h exp = expKindOfCons h exp := by
  have hsym : (ptrTypeCons == valTypeSymbol) = false := by decide
  simp only [expKindOf, hty, hsym, Bool.false_and, Bool.false_eq_true, if_false]
  rw [if_neg (by decide), if_pos (by decide)]

/-- The error continuation has no frame. -/
theorem Dispatched.cont_ne_error {f : Frame} (hs : Dispatched k c E f s) :
    s.cont ≠ Continuation.contError.enc := by
  have hne : ∀ kind : Continuation, kind ≠ .contError → kind.enc ≠ Continuation.contError.enc := by
    intro kind
    cases kind <;> decide
  rw [hs.cont]
  apply hne
  cases f <;> exact Continuation.noConfusion

/-- A step that a value takes to its continuation. -/
theorem ecEvalIteration_of_reads {m : Malloc} {f : Frame} (hr : Reads k c s [f])
    (hs : s.es = .evalContinuation) :
    ecEvalIteration pf m s = continuationCase m s f.continuation := by
  rw [← continuationSwitch_of_frame hr hs]
  unfold ecEvalIteration
  rw [hs]

end

end EcEval

end LispBM
