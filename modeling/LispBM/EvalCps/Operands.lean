import LispBM.EvalCps.Frames
import LispBM.Heap.Lists
import LispBM.Lib.Operands

/-!
# LispBM — the operands of a form in the concurrent evaluator

The steps that a form makes between the evaluations of its operands, for the forms that keep what
is left of their operands in a frame: `and`, `or`, applications and `progn`. The globals change
under a context only while it waits, for its next turn or for a collection (`Continues`); what
may happen to them meanwhile is a parameter.
-/

namespace LispBM

open FrameStack Machine

/-! ## The machine -/

/-- The context and the globals at its next step. `R` is what other contexts and the collector may
do to the globals while the context waits. -/
inductive Continues (R : Store → Store → Prop) :
    Outcome → Store → Bool → EvalContext × Store → Prop where
  | atOnce {c : EvalContext} {st : Store} : Continues R (.running c) st false (c, st)
  | collected {c : EvalContext} {st st' : Store} (h : R st st') :
      Continues R (.running c) st true (c, st')
  | resumed {c : EvalContext} {st st' : Store} {g : Bool} (h : R st st') :
      Continues R (.yielded c) st g (c, st')

/-- The steps of one context. -/
def contextMachine (pf : Platform) (R : Store → Store → Prop) :
    Machine (EvalContext × Store) UINT where
  step s t := s.1.done = false
    ∧ ∃ io o st' g, stepCtx pf io s.1 s.2 = some (o, st', g) ∧ Continues R o st' g t
  stack s := s.1.K.contents
  evaluating s := s.1.appCont = false
  returning s := s.1.appCont = true

/-- A push has failed. -/
def OutOfStack (o : Outcome) : Prop := ∃ c, o = fatalOnFail c ∨ o = fof c

/-- The context makes a step and goes on, unless its stack is full. -/
def GoesOn (pf : Platform) (s : EvalContext × Store) : Prop :=
  s.1.done = false
    ∧ ∀ io, ∃ o st' g, stepCtx pf io s.1 s.2 = some (o, st', g)
      ∧ (OutOfStack o ∨ ∃ c', o.goesOn c')

/-- The form that was started on the stack `k` is being evaluated. -/
def FormLive (pf : Platform) (k : List UINT) (s : EvalContext × Store) : Prop :=
  GoesOn pf s ∧ ¬(s.1.appCont = true ∧ s.1.K.contents.length ≤ k.length)

section

variable {pf : Platform} {R : Store → Store → Prop} {k : List UINT} {s t : EvalContext × Store}
  {o : Outcome} {st : Store}

theorem Continues.running {c : EvalContext} (h : Continues R (.running c) st false t) :
    t = (c, st) := by
  cases h
  rfl

theorem not_continues_of_outOfStack {g : Bool} (ho : OutOfStack o) : ¬Continues R o st g t := by
  obtain ⟨c, rfl | rfl⟩ := ho
  · intro h
    cases h
  · intro h
    cases h

/-- A step that goes on at once, whatever the outside contributes, or overflows the stack. -/
theorem leads_of_storeStep {live P : EvalContext × Store → Prop} (hdone : s.1.done = false)
    (hlive : GoesOn pf s → live s)
    (h : ∀ io, ∃ o st, stepCtx pf io s.1 s.2 = some (o, st, false)
      ∧ (OutOfStack o ∨ ∃ c', o = .running c'
        ∧ (contextMachine pf R).Leads live P (c', st))) :
    (contextMachine pf R).Leads live P s := by
  refine .next (hlive ⟨hdone, fun io => ?_⟩) fun t ht => ?_
  · obtain ⟨o, st, hstep, hfull | ⟨c', rfl, -⟩⟩ := h io
    · exact ⟨o, _, _, hstep, .inl hfull⟩
    · exact ⟨_, _, _, hstep, .inr ⟨c', goesOn_running.mpr rfl⟩⟩
  · obtain ⟨-, io, o, st', g, hstep, hcont⟩ := ht
    obtain ⟨o', st, hstep', hrest⟩ := h io
    obtain ⟨rfl, rfl, rfl⟩ : o' = o ∧ st = st' ∧ false = g := by
      have := Option.some.inj (hstep'.symm.trans hstep)
      simpa using this
    rcases hrest with hfull | ⟨c', rfl, hleads⟩
    · exact absurd hcont (not_continues_of_outOfStack hfull)
    · rw [hcont.running]
      exact hleads

/-- A step that leaves the globals as they are. -/
theorem leads_of_step {live P : EvalContext × Store → Prop} (hdone : s.1.done = false)
    (hlive : GoesOn pf s → live s)
    (h : ∀ io, ∃ o, stepCtx pf io s.1 s.2 = some (o, s.2, false)
      ∧ (OutOfStack o ∨ ∃ c', o = .running c'
        ∧ (contextMachine pf R).Leads live P (c', s.2))) :
    (contextMachine pf R).Leads live P s := by
  apply leads_of_storeStep hdone hlive
  intro io
  obtain ⟨o, hstep⟩ := h io
  exact ⟨o, s.2, hstep⟩

/-- With a frame above `k`, the form is being evaluated. -/
theorem formLive_of_frame {f : Frame} (hK : s.1.K.contents = k ++ f.words) (hgo : GoesOn pf s) :
    FormLive pf k s := by
  refine ⟨hgo, ?_⟩
  rintro ⟨-, hle⟩
  have hpos := List.length_pos_of_ne_nil f.words_ne_nil
  rw [hK, List.length_append] at hle
  omega

/-- A form gets the value of an operand. -/
theorem between_of_frame {ε υ : Type*} {F : Form (EvalContext × Store) ε υ} {f : Frame}
    (hF : F.live = FormLive pf k) (ha : s.1.appCont = true) (hK : s.1.K.contents = k ++ f.words)
    (hgo : GoesOn pf s) : (contextMachine pf R).Between F s := by
  refine ⟨hF ▸ formLive_of_frame hK hgo, fun hevaluating => ?_⟩
  exact absurd (ha.symm.trans hevaluating) (by decide)

end

/-! ## States of a form -/

/-- The context is about to evaluate `e` in the environment `E`, above the stack `k`. -/
structure Evaluates (k : List UINT) (E e : VALUE) (s : EvalContext × Store) : Prop where
  appCont : s.1.appCont = false
  done : s.1.done = false
  exp : s.1.currExp = e
  env : s.1.currEnv = E
  below : k <+: s.1.K.contents

/-- The context is about to hand `v` to what is on top of the stack `k`. -/
structure ReturnsTo (k : List UINT) (v : VALUE) (s : EvalContext × Store) : Prop where
  appCont : s.1.appCont = true
  done : s.1.done = false
  stack : s.1.K.contents = k
  val : s.1.r = v

/-- The word below the topmost tag: in the frames of forms with operands, the operands that are
left. -/
def restWord (c : EvalContext) : VALUE := c.K.contents.reverse.getD 1 0#32

/-- The evaluation from `s` to `t` has changed none of the cells of the operands that are left. -/
def KeepsRest (s t : EvalContext × Store) : Prop :=
  ∀ ws is, ListOf s.2.heap (restWord s.1) ws is → ∀ i ∈ is, t.2.heap.cell i = s.2.heap.cell i

/-- The value of an operand. -/
def OperandValue (s t : EvalContext × Store) (v : VALUE) : Prop :=
  t.1.r = v ∧ t.1.done = false ∧ KeepsRest s t

/-! ## The steps of a form -/

section

variable {pf : Platform} {io : Outside} {R : Store → Store → Prop} {k : List UINT} {c : EvalContext}
  {st : Store} {E : VALUE}

/-- A value is handed to the frame on top of the stack. -/
theorem stepCtx_of_frame {f : Frame} (ha : c.appCont = true) (hK : c.K.contents = k ++ f.words) :
    ∃ K, popU32 c.K = some (encU f.tag, K) ∧ K.contents = k ++ f.payload
      ∧ ∀ pf io st, stepCtx pf io c st = contSwitch pf io f.tag (c.resumed K) st := by
  have hK' : c.K.contents = k ++ f.payload ++ [encU f.tag] := by
    rw [hK, Frame.words, List.append_assoc]
  obtain ⟨K, hpop, hK₁, -⟩ := popU32_of_contents hK'
  refine ⟨K, hpop, hK₁, fun pf io st => ?_⟩
  unfold stepCtx applyContinuation
  rw [if_pos ha, hpop]
  simp only [Option.bind_eq_bind, Option.bind_some, decU_encU_tag]
  rfl

/-- An application is about to evaluate its operator. -/
structure AtOperator (k : List UINT) (E head rest : VALUE) (c : EvalContext) : Prop where
  appCont : c.appCont = false
  done : c.done = false
  exp : c.currExp = head
  env : c.currEnv = E
  stack : c.K.contents = k ++ (Frame.applicationArgs [] E rest).words

/-- The head of a form that `evaluation_step` does not treat as an application. -/
def isSpecialForm (head : VALUE) : Bool :=
  typeOf head == valTypeSymbol
    && (decSym head == symreprQuote || decSym head == symreprDefine || decSym head == symreprProgn
      || decSym head == symreprSpawn || decSym head == symreprLambda || decSym head == symreprIf
      || decSym head == symreprLet)

theorem stepCtx_cons (ha : c.appCont = false) (hexp : typeOf c.currExp = ptrTypeCons) :
    stepCtx pf io c st = evalForm io c st := by
  unfold stepCtx evalExp
  simp only [ha, hexp, Bool.false_eq_true, if_false]
  rw [if_neg (by decide), if_neg (by decide), if_neg (by decide), if_pos (by decide)]

theorem evalForm_application (hhead : isSpecialForm (car st.heap c.currExp) = false) :
    evalForm io c st = some (dispatch io c
      [c.currEnv, encU 0#32, cdr st.heap c.currExp, encU contApplicationArgs]
      (car st.heap c.currExp) c.currEnv st) := by
  unfold evalForm
  simp only [isSpecialForm, Bool.and_eq_false_iff, Bool.or_eq_false_iff] at hhead
  rcases hhead with hty | ⟨⟨⟨⟨⟨⟨hquote, hdefine⟩, hprogn⟩, hspawn⟩, hlambda⟩, hif⟩, hlet⟩
  · simp [hty]
  · simp [hquote, hdefine, hprogn, hspawn, hlambda, hif, hlet]

/-- The first step of an application. -/
theorem stepCtx_application (ha : c.appCont = false) (hd : c.done = false)
    (hexp : typeOf c.currExp = ptrTypeCons)
    (hhead : isSpecialForm (car st.heap c.currExp) = false) :
    ∃ o, stepCtx pf io c st = some (o, st, false)
      ∧ (OutOfStack o ∨ ∃ c', o = .running c' ∧ AtOperator c.K.contents c.currEnv
          (car st.heap c.currExp) (cdr st.heap c.currExp) c') := by
  rw [stepCtx_cons ha hexp, evalForm_application hhead]
  unfold dispatch
  rcases hpush : pushAll io.malloc c.K
      [c.currEnv, encU 0#32, cdr st.heap c.currExp, encU contApplicationArgs] with ⟨ok, K⟩
  cases ok with
  | false => exact ⟨_, rfl, .inl ⟨_, .inr rfl⟩⟩
  | true =>
    refine ⟨_, rfl, .inr ⟨_, rfl, ha, hd, rfl, rfl, ?_⟩⟩
    rw [contents_pushAll hpush]
    rfl

/-- A form starts with the evaluation of its operator. -/
theorem leads_of_application {P : EvalContext × Store → Prop} {s : EvalContext × Store}
    (ha : s.1.appCont = false) (hd : s.1.done = false) (hexp : typeOf s.1.currExp = ptrTypeCons)
    (hhead : isSpecialForm (car s.2.heap s.1.currExp) = false)
    (h : ∀ c', AtOperator s.1.K.contents s.1.currEnv (car s.2.heap s.1.currExp)
      (cdr s.2.heap s.1.currExp) c' →
      (contextMachine pf R).Leads (FormLive pf k) P (c', s.2)) :
    (contextMachine pf R).Leads (FormLive pf k) P s := by
  apply leads_of_step hd (fun hgo => ⟨hgo, by simp [ha]⟩)
  intro io
  obtain ⟨o, hstep, hfull | ⟨c', rfl, hat⟩⟩ := @stepCtx_application pf io _ _ ha hd hexp hhead
  · exact ⟨o, hstep, .inl hfull⟩
  · exact ⟨_, hstep, .inr ⟨c', rfl, h c' hat⟩⟩

/-- The symbol of a short-circuiting operator is its own value. -/
theorem stepCtx_special (ha : c.appCont = false) (hspecial : isSpecial c.currExp = true) :
    stepCtx pf io c st
      = some (.running { c with r := c.currExp, appCont := true }, st, false) := by
  have hty : typeOf c.currExp = valTypeSymbol := by
    rw [isSpecial, Bool.and_eq_true, beq_iff_eq] at hspecial
    exact hspecial.1
  unfold stepCtx evalExp evalSymbol
  simp only [ha, hty, hspecial, Bool.false_eq_true, if_false, beq_self_eq_true, if_true,
    Bool.true_or]
  rfl

end

end LispBM
