import LispBM.EcEval.Operands
import LispBM.EvalCps.ShortCircuit

/-!
# LispBM — `and`, `or` and `if` in both evaluators

In `ec_eval` the two operators are special forms with continuations of their own. The functions
that dispatch them set a value for the form without operands, but do not return: they go on like
all others, and evaluate `nil` as the first operand.

* `connective_inOrder`, `or_inOrder` — with operands, and for `or` also without, the operands are
  evaluated in order;
* `shortCircuits_iff` — the operators and `if` follow one law in both evaluators, except for `if`
  in `eval_cps` on values other than `nil` and `t`, and for `(and)` in `ec_eval`.
-/

namespace LispBM

namespace EcEval

open FrameStack Machine

def connectiveFrame : Connective → VALUE → VALUE → Frame
  | .and => .and
  | .or => .or

/-- The law of an operator in the environment `E`, above the stack `k` and for the continuation
`c`. -/
def connectiveForm (op : Connective) (pf : Platform) (k : List UINT) (c E : VALUE) :
    Form State VALUE VALUE where
  live := FormLive pf k
  starts := Evaluates k E
  val := OperandValue k
  stops v := op.stops v = true
  exit v u := ∃ w, Connective.SameValue v w ∧ ReturnsTo k c w u
  finish vs u := ∃ w, Connective.SameValue (vs.getLastD op.unit) w ∧ ReturnsTo k c w u

/-- A form with the symbol `sym` for operator is dispatched. -/
structure AtForm (sym : UINT) (operands : List VALUE) (s : State) : Prop where
  es : s.es = .evalDispatch
  done : s.done = false
  pushLost : s.pushLost = false
  cont : s.cont ≠ Continuation.contError.enc
  list : ∃ is, ListOf s.store.heap s.exp (encSym sym :: operands) is

section

variable {pf : Platform} {m : Malloc} {k : List UINT} {s t : State} {c E E' rest v : VALUE}
  {es vs : List VALUE} {is : List Nat} {op : Connective}

@[simp] theorem onStack_connectiveFrame (op : Connective) (c E rest : VALUE) :
    (connectiveFrame op E rest).onStack c = [c, E, rest] := by
  cases op <;> rfl

/-- The operands `es` are left, with the frame of the operator on the stack; or the form has its
value. -/
def AtOperand (op : Connective) (pf : Platform) (k : List UINT) (c E : VALUE) :
    List VALUE → List VALUE → State → Prop
  | [], vs, s => (connectiveForm op pf k c E).finish vs s
  | e :: es, _, s => ∃ rest is, Dispatched k c E (connectiveFrame op E rest) s
      ∧ Evaluates k E e s ∧ ListOf s.store.heap rest es is

theorem dispatched_connectiveFrame (hes : t.es = .evalDispatch) (henv : t.env = E)
    (hS : t.S.contents = k ++ [c, E, rest])
    (hcont : t.cont = (connectiveFrame op E rest).continuation.enc) :
    Dispatched k c E (connectiveFrame op E rest) t := by
  refine ⟨hes, henv, ?_, hcont, Frame.awaits_of_savedEnv (by cases op <;> rfl)⟩
  rw [hS, onStack_connectiveFrame]

/-- The continuation of the operator, with its frame popped. -/
theorem contShortCircuit_step (hr : Reads k c s [connectiveFrame op E rest])
    (hes : s.es = .evalContinuation) (hdone : s.done = false) (hlost : s.pushLost = false)
    (hc : c ≠ Continuation.contError.enc) (hlist : ListOf s.store.heap rest es is) :
    ∃ t, ecEvalIteration pf m s = some t ∧ Undisturbed t
      ∧ if op.stops s.val || es.isEmpty then ReturnsTo k c s.val t
        else AtOperand op pf k c E es vs t := by
  rw [ecEvalIteration_of_reads hr hes]
  have hcase : continuationCase m s (connectiveFrame op E rest).continuation
      = contShortCircuitCase (connectiveFrame op E rest).continuation op.stops m s := by
    cases op <;> rfl
  have hstack : s.S.contents = k ++ [c, E, rest] := by
    have := hr.stack
    simpa [framesOn, layout, Frame.words, Frame.top] using this
  obtain ⟨S₁, S₂, S₃, hpop₁, hpop₂, hpop₃, hS₃⟩ := popU32_three_of_contents hstack
  rw [hcase]
  unfold contShortCircuitCase
  simp only [hpop₁, hpop₂, Option.bind_eq_bind, Option.bind_some, hlist.isSymbolNil_eq]
  cases hstop : op.stops s.val || es.isEmpty with
  | true =>
    simp only [hpop₃, Option.bind_some, if_true]
    exact ⟨_, rfl, ⟨hlost, fun _ => hc⟩, rfl, hdone, hlost, rfl, hS₃, rfl⟩
  | false =>
    cases es with
    | nil => simp at hstop
    | cons e es =>
      have hroom : S₂.sp + 2 ≤ S₂.data.length := by
        have := sp_popU32 hpop₁
        have := sp_popU32 hpop₂
        have := s.S.sp_le
        rw [data_popU32 hpop₂, data_popU32 hpop₁]
        omega
      obtain ⟨S, hpush, hS⟩ := @exists_pushAll_of_room m _ ([E, cdr s.store.heap rest]) hroom
      rw [contents_of_popU32 hpop₃, hS₃, List.append_assoc] at hS
      cases hlist with
      | cons hty hrest =>
        simp only [State.push, hpush, Bool.false_eq_true, if_false, hlost, Bool.not_true,
          Bool.or_false]
        refine ⟨_, rfl, undisturbed_of_dispatch rfl rfl, cdr s.store.heap rest, _,
          dispatched_connectiveFrame rfl rfl hS (by cases op <;> rfl), ?_, hrest⟩
        exact ⟨rfl, hdone, rfl, rfl, rfl, hS ▸ List.prefix_append _ _⟩

/-- `AND` and `OR`, from the delivery of an operand on. -/
theorem AtOperand.next {e : VALUE} (h : AtOperand op pf k c E (e :: es) vs s)
    (hc : c ≠ Continuation.contError.enc)
    (hdel : (ecMachine pf).Delivers (OperandValue k) s v t) :
    (ecMachine pf).Leads ((ecMachine pf).Between (connectiveForm op pf k c E))
      (fun u => (connectiveForm op pf k c E).stops v ∧ (connectiveForm op pf k c E).exit v u
        ∨ ¬(connectiveForm op pf k c E).stops v ∧ AtOperand op pf k c E es (vs ++ [v]) u) t := by
  obtain ⟨rest, is, hdisp, -, hlist⟩ := h
  obtain ⟨hes, hr⟩ := reads_of_delivers hdisp hdel
  obtain ⟨rfl, hdone, hlost, hkeeps⟩ := hdel.val
  have hmem : rest ∈ (connectiveFrame op E rest).onStack c := by simp
  have hlist' := hkeeps.listOf hdisp hmem hlist
  apply leads_of_step hdone (between_of_reads rfl hes hr)
  intro m
  obtain ⟨u, hstep, hquiet, hnext⟩ :=
    @contShortCircuit_step pf m _ _ _ _ _ _ (vs ++ [t.val]) _ _ hr hes hdone hlost hc hlist'
  refine ⟨u, hstep, .inr ⟨hquiet, .here ?_⟩⟩
  cases hstops : op.stops t.val with
  | true =>
    rw [hstops, Bool.true_or, if_pos rfl] at hnext
    exact .inl ⟨hstops, t.val, .inl rfl, hnext⟩
  | false =>
    rw [hstops, Bool.false_or] at hnext
    have hnot : ¬(connectiveForm op pf k c E).stops t.val := by
      show ¬op.stops t.val = true
      rw [hstops]
      decide
    refine .inr ⟨hnot, ?_⟩
    cases es with
    | nil =>
      refine ⟨t.val, ?_, hnext⟩
      rw [List.getLastD_concat]
      exact .inl rfl
    | cons e es => exact hnext

theorem head_tail_of_listOf {h : HeapState} (hlist : ListOf h rest es is) :
    car h rest = es.headD NIL ∧ ∃ js, ListOf h (cdr h rest) es.tail js := by
  cases hlist with
  | nil => exact ⟨rfl, [], .nil⟩
  | cons _ hrest => exact ⟨rfl, _, hrest⟩

/-- The kind of a form with the operator. -/
theorem dispatchSwitch_connective (hty : typeOf s.exp = ptrTypeCons)
    (hhead : car s.store.heap s.exp = encSym op.sym) :
    dispatchSwitch pf m s
      = some (evalShortCircuit (connectiveFrame op s.env rest).continuation op.unit m s) := by
  unfold dispatchSwitch
  rw [expKindOf_cons hty]
  unfold expKindOfCons
  rw [hhead]
  cases op with
  | and => rfl
  | or => rfl

theorem evalShortCircuit_regs (kind : Continuation) (v : VALUE) (m : Malloc) (s : State) :
    (evalShortCircuit kind v m s).exp = car s.store.heap (cdr s.store.heap s.exp)
      ∧ (evalShortCircuit kind v m s).done = s.done
      ∧ (evalShortCircuit kind v m s).store = s.store := by
  simp only [evalShortCircuit]
  split <;> exact ⟨rfl, rfl, rfl⟩

theorem evalShortCircuit_pushLost (kind : Continuation) (v : VALUE) (hlost : s.pushLost = false)
    (hroom : s.S.sp + 3 ≤ s.S.data.length) : (evalShortCircuit kind v m s).pushLost = false := by
  simp only [evalShortCircuit]
  split <;> simp [State.push, hlost, pushAll_of_room, hroom]

/-- `eval_and` and `eval_or`: the first operand, which is `nil` if there is none. -/
theorem evalShortCircuit_step (h : AtForm op.sym es s) :
    ∃ t, ecEvalIteration pf m s = some t
      ∧ (t.pushLost = true ∧ s.S.data.length < s.S.sp + 3 ∨ Undisturbed t
      ∧ ∃ rest is, Dispatched s.S.contents s.cont s.env (connectiveFrame op s.env rest) t
        ∧ Evaluates s.S.contents s.env (es.headD NIL) t
        ∧ ListOf t.store.heap rest es.tail is) := by
  obtain ⟨is, hlist⟩ := h.list
  obtain ⟨hty, hhead, js, -, hrest⟩ := hlist.uncons
  obtain ⟨hfirst, js', htail⟩ := head_tail_of_listOf hrest
  have hiter : ecEvalIteration pf m s = dispatchSwitch pf m s := by
    unfold ecEvalIteration
    rw [h.es]
  rw [hiter, @dispatchSwitch_connective _ _ _ (cdr s.store.heap (cdr s.store.heap s.exp)) _ hty
    hhead]
  refine ⟨_, rfl, ?_⟩
  have hdisp := evalShortCircuit_dispatched (s := s) (m := m) (v := op.unit)
    (f := connectiveFrame op s.env (cdr s.store.heap (cdr s.store.heap s.exp)))
    (by cases op <;> rfl) (by simp)
  generalize (connectiveFrame op s.env (cdr s.store.heap (cdr s.store.heap s.exp))).continuation
    = kind at hdisp ⊢
  obtain ⟨hexp, hdone, hstore⟩ := evalShortCircuit_regs kind op.unit m s
  cases hlost : (evalShortCircuit kind op.unit m s).pushLost with
  | true =>
    refine .inl ⟨rfl, Nat.lt_of_not_le fun hroom => ?_⟩
    rw [evalShortCircuit_pushLost kind op.unit h.pushLost hroom] at hlost
    exact absurd hlost (by decide)
  | false =>
    have hdisp := hdisp hlost
    refine .inr ⟨undisturbed_of_dispatch hdisp.es hlost, _, js', hdisp, ?_, ?_⟩
    · rw [← hfirst, ← hexp]
      exact hdisp.evaluates (hdone.trans h.done) hlost
    · rw [hstore]
      exact htail

/-- The step of an expression that is its own value. -/
theorem ecEvalIteration_nil (hes : s.es = .evalDispatch) (hexp : s.exp = NIL) :
    ecEvalIteration pf m s = some (evalSelfEvaluating s) := by
  unfold ecEvalIteration dispatchSwitch expKindOf
  rw [hes, hexp]
  rfl

/-- Without operands: `nil` is evaluated in their place. -/
theorem leads_noOperands (hdisp : Dispatched k c E (connectiveFrame op E rest) s)
    (heval : Evaluates k E NIL s) (hlist : ListOf s.store.heap rest [] is)
    (hc : c ≠ Continuation.contError.enc) :
    (ecMachine pf).Leads (FormLive pf k) (ReturnsTo k c NIL) s := by
  apply leads_of_step heval.done (fun hgo => ⟨hgo, by simp [heval.es]⟩)
  intro m
  refine ⟨_, ecEvalIteration_nil heval.es heval.exp,
    .inr ⟨⟨heval.pushLost, fun _ => hdisp.cont_ne_error⟩, ?_⟩⟩
  have hr : Reads k c (evalSelfEvaluating s) [connectiveFrame op E rest] :=
    .of_frame hdisp.stack hdisp.cont (by simp [evalSelfEvaluating])
  have hdone : (evalSelfEvaluating s).done = false := heval.done
  apply leads_of_step hdone (fun hgo => ⟨hgo, not_delivered_of_reads hr⟩)
  intro m
  obtain ⟨u, hstep, hquiet, hnext⟩ := @contShortCircuit_step pf m _ _ _ _ _ _ [] _ _ hr rfl
    hdone heval.pushLost hc hlist
  rw [List.isEmpty_nil, Bool.or_true, if_pos rfl] at hnext
  refine ⟨u, hstep, .inr ⟨hquiet, .here ?_⟩⟩
  have hval : (evalSelfEvaluating s).val = NIL := heval.exp
  rw [hval] at hnext
  exact hnext

theorem not_returnsTo_of_dispatch (hes : s.es = .evalDispatch) :
    ¬(connectiveForm op pf k c E).finish vs s := by
  rintro ⟨w, -, hret⟩
  exact absurd (hes.symm.trans hret.es) (by decide)

theorem not_returnsTo_of_reads (hr : Reads k c s [connectiveFrame op E rest]) :
    ¬(connectiveForm op pf k c E').finish vs s := by
  rintro ⟨w, -, hret⟩
  exact not_delivered_of_reads hr ⟨hret.es, Nat.le_of_eq (congrArg List.length hret.stack)⟩

/-- **`and` and `or` evaluate their operands in order** if there are any, and `or` is right also
without. -/
theorem connective_inOrder (h : AtForm op.sym es s) (hop : op = .and → es ≠ []) :
    (ecMachine pf).Leads (FormLive pf s.S.contents)
      ((ecMachine pf).InOrder (connectiveForm op pf s.S.contents s.cont s.env) es []) s := by
  apply leads_of_step h.done (fun hgo => ⟨hgo, by simp [h.es]⟩)
  intro m
  obtain ⟨t, hstep, ⟨hlost, -⟩ | ⟨hquiet, rest, is, hdisp, heval, hlist⟩⟩ :=
    @evalShortCircuit_step pf m _ _ _ h
  · exact ⟨t, hstep, .inl (.inl hlost)⟩
  refine ⟨t, hstep, .inr ⟨hquiet, ?_⟩⟩
  cases es with
  | nil =>
    apply (leads_noOperands hdisp heval hlist h.cont).mono
    intro u hu
    cases op with
    | and => exact absurd rfl (hop rfl)
    | or => exact ⟨NIL, .inl rfl, hu⟩
  | cons e es =>
    refine .here (InOrder.of_invariant (I := AtOperand op pf s.S.contents s.cont s.env) ?_ ?_ ?_
      ⟨rest, is, hdisp, heval, hlist⟩)
    · exact fun _ _ hI => hI
    · intro e es vs u hI
      obtain ⟨rest, is, -, heval, -⟩ := hI
      exact heval
    · exact fun _ _ _ _ _ _ hI hdel => hI.next h.cont hdel

/-! ## `if` -/

/-- `if` takes the value `v` for what the operators take it for: the machine goes on with the else
branch if `v` is `nil`, and with the other one if not. -/
def BranchesOnNil (pf : Platform) (v : VALUE) : Prop :=
  ∀ (s : State) (k : List UINT) (c E unev : VALUE), Reads k c s [.branch E unev] →
    s.es = .evalContinuation → s.val = v → ∀ m, ∃ t, ecEvalIteration pf m s = some t
      ∧ t.es = .evalDispatch ∧ t.S.contents = k ∧ t.cont = c ∧ t.env = E
      ∧ t.exp = if isSymbolNil v then car s.store.heap (cdr s.store.heap unev)
          else car s.store.heap unev

theorem branchesOnNil (pf : Platform) (v : VALUE) : BranchesOnNil pf v := by
  intro s k c E unev hr hes hval m
  obtain ⟨S₁, S₂, S₃, hpop₁, hpop₂, hpop₃, hS₃⟩ :=
    popU32_three_of_contents (show s.S.contents = k ++ [c, E, unev] from hr.stack)
  rw [ecEvalIteration_of_reads hr hes]
  show ∃ t, contBranchCase s = some t ∧ _
  unfold contBranchCase
  simp only [hpop₁, hpop₂, hpop₃, Option.bind_eq_bind, Option.bind_some, hval]
  exact ⟨_, rfl, rfl, hS₃, rfl, rfl, rfl⟩

end

/-! ## The law in both evaluators -/

/-- `and` and `or` are the short-circuiting operators for the operands `es`, and `if` shares their
notion of truth for the value `v`. -/
structure ShortCircuits (pf : Platform) (op : Connective) (es : List VALUE) (v : VALUE) : Prop where
  evalCps : ∀ (R : Store → Store → Prop) (s : EvalContext × Store), LispBM.AtForm op.sym es s →
    (contextMachine pf R).Leads (LispBM.FormLive pf s.1.K.contents)
      ((contextMachine pf R).InOrder (op.form pf s.1.K.contents s.1.currEnv) es []) s
  evalCpsIf : LispBM.BranchesOnNil pf v
  ecEval : ∀ s : State, AtForm op.sym es s →
    (ecMachine pf).Leads (FormLive pf s.S.contents)
      ((ecMachine pf).InOrder (connectiveForm op pf s.S.contents s.cont s.env) es []) s
  ecEvalIf : BranchesOnNil pf v

section

variable {pf : Platform} {s : State}

/-- `(and)` has the value `nil`. -/
theorem not_inOrder_and_noOperands (h : AtForm symreprAnd [] s)
    (hroom : s.S.sp + 3 ≤ s.S.data.length) :
    ¬(ecMachine pf).Leads (FormLive pf s.S.contents)
      ((ecMachine pf).InOrder (connectiveForm .and pf s.S.contents s.cont s.env) [] []) s := by
  intro hleads
  obtain ⟨t, hstep, ⟨-, hfull⟩ | ⟨hquiet, rest, is, hdisp, heval, hlist⟩⟩ :=
    @evalShortCircuit_step pf plainOutside.malloc _ _ .and h
  · omega
  -- the form is dispatched, then `nil`, and `nil` is handed to `AND`
  have hleads := hleads.of_step (not_returnsTo_of_dispatch h.es) ⟨h.done, hquiet, _, hstep⟩
  have hnil := @ecEvalIteration_nil pf plainOutside.malloc _ heval.es heval.exp
  have hquiet : Undisturbed (evalSelfEvaluating t) :=
    ⟨heval.pushLost, fun _ => hdisp.cont_ne_error⟩
  have hleads := hleads.of_step (t := evalSelfEvaluating t) (not_returnsTo_of_dispatch heval.es)
    ⟨heval.done, hquiet, _, hnil⟩
  have hr : Reads s.S.contents s.cont (evalSelfEvaluating t) [connectiveFrame .and s.env rest] :=
    .of_frame hdisp.stack hdisp.cont (by simp [evalSelfEvaluating])
  have hdone : (evalSelfEvaluating t).done = false := heval.done
  obtain ⟨u, hstep', hquiet', hnext⟩ := @contShortCircuit_step pf plainOutside.malloc _ _ _ _ _ _
    [] _ _ hr rfl hdone heval.pushLost h.cont hlist
  have hret : ReturnsTo s.S.contents s.cont (evalSelfEvaluating t).val u := by
    rw [List.tail_nil, List.isEmpty_nil, Bool.or_true, if_pos rfl] at hnext
    exact hnext
  have hleads := hleads.of_step (not_returnsTo_of_reads hr) ⟨hdone, hquiet', _, hstep'⟩
  obtain ⟨w, hw, hret'⟩ := hleads.of_not_live fun hlive => hlive.2
    ⟨hret.es, Nat.le_of_eq (congrArg List.length hret.stack)⟩
  have hwnil : w = NIL := (hret'.val.symm.trans hret.val).trans heval.exp
  rw [hwnil] at hw
  -- but `t` was due
  rcases hw with hsame | ⟨htrue, -⟩
  · exact absurd hsame (by decide)
  · exact absurd htrue (by decide)

theorem shortCircuits_of_operands (op : Connective) (es : List VALUE) (v : VALUE)
    (hes : op = .and → es ≠ []) (hv : isSymbolNil v = true ∨ isSymbolTrue v = true) :
    ShortCircuits pf op es v where
  evalCps _ _ h := LispBM.connective_inOrder h
  evalCpsIf := (branchesOnNil_iff pf v).mpr hv
  ecEval _ h := connective_inOrder h hes
  ecEvalIf := branchesOnNil pf v

/-- `(and)`, as the only expression of a program. -/
theorem exists_and_noOperands :
    ∃ s, AtForm symreprAnd [] s ∧ s.S.sp + 3 ≤ s.S.data.length := by
  have h : (startAlone 48 [.list [.sym symreprAnd]]).map (fun s =>
      decide (s.es = .evalDispatch ∧ s.done = false ∧ s.pushLost = false
        ∧ s.cont ≠ Continuation.contError.enc ∧ s.S.sp + 3 ≤ s.S.data.length)
        && isListOf s.store.heap s.exp [encSym symreprAnd] [ptrIx s.exp]) = some true := by
    decide +kernel
  obtain ⟨s, -, h⟩ := Option.map_eq_some_iff.mp h
  rw [Bool.and_eq_true] at h
  obtain ⟨hes, hdone, hlost, hcont, hroom⟩ := of_decide_eq_true h.1
  exact ⟨s, ⟨hes, hdone, hlost, hcont, _, listOf_of_isListOf h.2⟩, hroom⟩

/-- **Short-circuit semantics**: the evaluators agree with it, except for `(and)` in `ec_eval` and
for `if` on values other than `nil` and `t` in `eval_cps`. -/
theorem shortCircuits_iff (pf : Platform) (op : Connective) (es : List VALUE) (v : VALUE) :
    ShortCircuits pf op es v
      ↔ (op = .and → es ≠ []) ∧ (isSymbolNil v = true ∨ isSymbolTrue v = true) := by
  constructor
  · intro h
    refine ⟨?_, (branchesOnNil_iff pf v).mp h.evalCpsIf⟩
    rintro rfl rfl
    obtain ⟨s, hform, hroom⟩ := exists_and_noOperands
    exact not_inOrder_and_noOperands hform hroom (h.ecEval s hform)
  · rintro ⟨hes, hv⟩
    exact shortCircuits_of_operands op es v hes hv

/-- The condition 5 of an `if` is not `nil`, and `eval_cps` takes the else branch. -/
theorem not_shortCircuits_number :
    ¬∀ (op : Connective) (es : List VALUE) (v : VALUE), ShortCircuits plainPlatform op es v := by
  intro h
  have hif := (branchesOnNil_iff plainPlatform (encI 5#32)).mp (h .or [] (encI 5#32)).evalCpsIf
  exact absurd hif (by decide)

end

end EcEval

end LispBM
