import LispBM.EvalCps.Arguments
import LispBM.EvalCps.ShortCircuit

/-!
# LispBM — lists without an end in the concurrent evaluator (`src/eval_cps.c`)

`progn`, `and`, `or` and applications take their operands from a list by `car` and `cdr`, one frame
after the other, and know its end by a comparison with `nil`. Of an atom `car` and `cdr` give the
symbol for a type error, and of this symbol the same again: it is an operand, it evaluates to
itself, and another one follows.

* `Walk` — the operands that `car` and `cdr` find;
* `progn_inOrder` — `progn` evaluates the operands of a proper list in order;
* `ends_of_application`, `ends_of_refused` — where the evaluation ends with an error;
* `keepsOn_of_walks` — where it goes on for ever, or returns a value;
* `endsAsListed_iff` — over an improper list, an error ends an application, which runs out of stack,
  and little else.
-/

namespace LispBM

open FrameStack Machine

/-! ## The operands of a list -/

/-- From `v` on, `car` and `cdr` find the operands `ws`, in the cells `is`, and then `d`. No pointer
to a cell is the number of an error symbol. -/
inductive Walk (h : HeapState) : VALUE → List VALUE → VALUE → List Nat → Prop where
  | stop {d : VALUE} (hd : isPtr d = false) : Walk h d [] d []
  | step {v d : VALUE} {ws : List VALUE} {is : List Nat} (hv : isPtr v = true)
      (hword : symreprIsError v = false) (hrest : Walk h (cdr h v) ws d is) :
      Walk h v (car h v :: ws) d (ptrIx v :: is)

section

variable {h h' : HeapState} {v d : VALUE} {ws : List VALUE} {is : List Nat}

theorem symreprIsError_of_cons (hty : typeOf v = ptrTypeCons) : symreprIsError v = false := by
  by_contra hne
  rw [Bool.not_eq_false] at hne
  simp only [symreprIsError, Bool.or_eq_true, beq_iff_eq] at hne
  rcases hne with ((((rfl | rfl) | rfl) | rfl) | rfl) | rfl <;> exact absurd hty (by decide)

theorem Walk.of_atom (hw : Walk h v ws d is) (hv : isPtr v = false) : ws = [] ∧ d = v := by
  cases hw with
  | stop => exact ⟨rfl, rfl⟩
  | step hptr => exact absurd (hptr.symm.trans hv) (by decide)

/-- A walk that ends in `nil` is one over a proper list. -/
theorem Walk.listOf (hw : Walk h v ws d is) (hd : d = NIL) : ListOf h v ws is := by
  induction hw with
  | stop =>
    subst hd
    exact .nil
  | @step v d ws is hv _ hrest ih =>
    apply ListOf.cons _ (ih hd)
    by_contra hty
    -- after a pointer to anything else comes the error symbol
    have hcdr : cdr h v = encSym symreprTerror := by rw [cdr_of_isPtr hv, if_neg hty]
    have hend := (hrest.of_atom (by rw [hcdr]; exact isPtr_encSym _)).2
    rw [hcdr, hd] at hend
    exact absurd hend (by decide)

theorem Walk.congr (hw : Walk h v ws d is) (hcell : ∀ i ∈ is, h'.cell i = h.cell i) :
    Walk h' v ws d is := by
  induction hw with
  | stop hd => exact .stop hd
  | @step v d ws is hv hword _ ih =>
    have hi := hcell (ptrIx v) List.mem_cons_self
    have hcar : car h' v = car h v := by rw [car_of_isPtr hv, car_of_isPtr hv, hi]
    have hcdr : cdr h' v = cdr h v := by rw [cdr_of_isPtr hv, cdr_of_isPtr hv, hi]
    rw [← hcar]
    apply Walk.step hv hword
    rw [hcdr]
    exact ih fun i hmem => hcell i (List.mem_cons_of_mem _ hmem)

theorem Walk.of_nil (hw : Walk h v ws d is) (hws : ws = []) : v = d := by
  cases hw with
  | stop => rfl
  | step => exact absurd hws (by simp)

theorem Walk.ne_nil (hw : Walk h v ws d is) (hd : d ≠ NIL) : v ≠ NIL := by
  cases hw with
  | stop => exact hd
  | step hv => exact ne_nil_of_isPtr hv

/-- What the test for the end of the list finds. -/
theorem isNil_of_ne (hv : v ≠ NIL) : (typeOf v == valTypeSymbol && v == NIL) = false := by
  rw [Bool.and_eq_false_iff, beq_eq_false_iff_ne (b := NIL)]
  exact .inr hv

theorem car_atom (hd : isPtr d = false) (hne : d ≠ NIL) : car h d = encSym symreprTerror := by
  unfold car
  rw [isNil_of_ne hne, hd, if_neg (by decide), if_neg (by decide)]

theorem cdr_atom (hd : isPtr d = false) (hne : d ≠ NIL) : cdr h d = encSym symreprTerror := by
  have hty : (typeOf d == ptrTypeCons) = false := by
    rw [beq_eq_false_iff_ne]
    intro hty
    exact absurd (isPtr_of_typeOf_cons hty) (by rw [hd]; decide)
  unfold cdr
  rw [isNil_of_ne hne, hty, if_neg (by decide), if_neg (by decide)]

/-- **After every operand of an improper list there is another one**, and behind the end of the list
it is the error symbol. -/
theorem Walk.next (hw : Walk h v ws d is) (hd : d ≠ NIL) :
    ∃ ws' d' is', Walk h (cdr h v) ws' d' is' ∧ d' ≠ NIL
      ∧ (ws = car h v :: ws' ∧ d' = d
        ∨ ws = [] ∧ car h v = encSym symreprTerror ∧ ws' = [] ∧ d' = encSym symreprTerror) := by
  cases hw with
  | step hv hword hrest => exact ⟨_, d, _, hrest, hd, .inl ⟨rfl, rfl⟩⟩
  | stop hatom =>
    rw [cdr_atom hatom hd]
    exact ⟨[], _, [], .stop (isPtr_encSym _), by decide, .inr ⟨rfl, car_atom hatom hd, rfl, rfl⟩⟩

end

/-! ## `progn` -/

/-- The law of `progn` above the stack `k`. The last operand is evaluated in place of the form, in
the environment that the one before it has left. -/
def prognForm (pf : Platform) (k : List UINT) : Form (EvalContext × Store) VALUE VALUE where
  live := FormLive pf k
  starts e s := ∃ E, Evaluates k E e s
  val := OperandValue
  stops _ := False
  exit _ _ := False
  finish vs u := ReturnsTo k (vs.getLastD NIL) u

/-- The operands `es` are left in a frame, or the last one is evaluated in place of the form; or the
form has its value. -/
def AtProgn (k : List UINT) : List VALUE → List VALUE → EvalContext × Store → Prop
  | [], vs, s => ReturnsTo k (vs.getLastD NIL) s
  | e :: es, _, s => (∃ E, Evaluates k E e s)
      ∧ ((∃ E rest is, s.1.K.contents = k ++ (Frame.prognRest E rest).words
          ∧ ListOf s.2.heap rest es is)
        ∨ es = [] ∧ s.1.K.contents = k)

section

variable {pf : Platform} {io : Outside} {R : Store → Store → Prop} {k : List UINT} {c : EvalContext}
  {st : Store} {E rest v : VALUE} {es vs : List VALUE} {is : List Nat} {s t : EvalContext × Store}

/-- `PROGN_REST`. There is room for another frame where the popped one was. -/
theorem stepCtx_prognRest (ha : c.appCont = true)
    (hK : c.K.contents = k ++ (Frame.prognRest E rest).words) :
    ∃ K K', K.contents = k ∧ K'.contents = k ++ (Frame.prognRest E (cdr st.heap rest)).words
      ∧ stepCtx pf io c st
        = if typeOf rest == valTypeSymbol && rest == NIL then
            some (.running { c.resumed K with appCont := true }, st, false)
          else if symreprIsError rest then some (errorCtx (c.resumed K) rest, st, false)
          else if isLastForm st rest then
            some (.running { c.resumed K with currExp := car st.heap rest }, st, false)
          else some (.running { c.resumed K' with currExp := car st.heap rest, currEnv := E }, st,
            false) := by
  obtain ⟨K, hpop, hK₁, hstep⟩ := stepCtx_of_frame ha hK
  obtain ⟨K₁, K₂, hpop₁, hpop₂, hK₂⟩ := popU32_two_of_contents (s := K) (k := k)
    (a := E) (b := rest)
    hK₁
  -- Three words were popped, so three can be pushed.
  have hroom : K₂.sp + 3 ≤ K₂.data.length := by
    have := sp_popU32 hpop
    have := sp_popU32 hpop₁
    have := sp_popU32 hpop₂
    have := c.K.sp_le
    rw [data_popU32 hpop₂, data_popU32 hpop₁, data_popU32 hpop]
    omega
  obtain ⟨K', hpush, hK'⟩ := @exists_pushAll_of_room io.malloc K₂
    [E, cdr st.heap rest, encU contPrognRest] hroom
  have hcase : contSwitch pf io (Frame.prognRest E rest).tag (c.resumed K) st
      = contPrognRestCase io (c.resumed K) st := rfl
  refine ⟨K₂, K', hK₂, by rw [hK', hK₂]; rfl, ?_⟩
  rw [hstep, hcase]
  unfold contPrognRestCase isLastForm
  simp only [EvalContext.resumed, hpop₁, hpop₂, hpush, Option.bind_eq_bind, Option.bind_some]

theorem ListOf.eq_nil (hl : ListOf st.heap NIL es is) : es = [] := by
  cases es with
  | nil => rfl
  | cons e es => exact absurd hl.uncons.1 (by decide)

theorem ListOf.nil_eq (hl : ListOf st.heap rest [] is) : rest = NIL := by
  cases hl
  rfl

/-- A value is handed to `progn`. -/
theorem progn_step (ha : c.appCont = true) (hd : c.done = false)
    (hK : c.K.contents = k ++ (Frame.prognRest E rest).words) (hlist : ListOf st.heap rest es is) :
    ∃ c', stepCtx pf io c st = some (.running c', st, false)
      ∧ AtProgn k es (vs ++ [c.r]) (c', st) := by
  obtain ⟨K, K', hk, hk', hstep⟩ := @stepCtx_prognRest pf io k c st E rest ha hK
  rw [hstep]
  cases hlist with
  | nil =>
    refine ⟨_, rfl, rfl, hd, hk, ?_⟩
    rw [List.getLastD_concat]
    rfl
  | @cons _ es is hty hrest =>
    rw [isNil_of_ne (ne_nil_of_isPtr (isPtr_of_typeOf_cons hty)), if_neg (by decide),
      symreprIsError_of_cons hty, if_neg (by decide)]
    -- The last form is evaluated without a frame, any other one with the frame put back.
    by_cases hlast : cdr st.heap rest = NIL
    · rw [hlast] at hrest
      have htail : isLastForm st rest = true := by
        unfold isLastForm
        rw [hlast]
        decide
      rw [htail, if_pos rfl]
      refine ⟨_, rfl, ⟨c.currEnv, rfl, hd, rfl, rfl, ?_⟩, .inr ⟨hrest.eq_nil, hk⟩⟩
      show k <+: K.contents
      rw [hk]
    · have htail : isLastForm st rest = false := isNil_of_ne hlast
      rw [htail, if_neg (by decide)]
      refine ⟨_, rfl, ⟨E, rfl, hd, rfl, rfl, ?_⟩, .inl ⟨E, _, _, hk', hrest⟩⟩
      show k <+: K'.contents
      rw [hk']
      exact List.prefix_append _ _

/-- What one delivery does. -/
theorem AtProgn.next {e : VALUE} (h : AtProgn k (e :: es) vs s)
    (hdel : (contextMachine pf R).Delivers OperandValue s v t) :
    (contextMachine pf R).Leads ((contextMachine pf R).Between (prognForm pf k))
      (AtProgn k es (vs ++ [v])) t := by
  obtain ⟨-, hframe⟩ := h
  obtain ⟨rfl, hdone, hkeeps⟩ := hdel.val
  rcases hframe with ⟨E, rest, is, hK, hlist⟩ | ⟨rfl, hK⟩
  · have hKt : t.1.K.contents = k ++ (Frame.prognRest E rest).words := hdel.stack.trans hK
    have hrest : restWord s.1 = rest := by
      rw [restWord, hK]
      simp [Frame.words, Frame.payload]
    have hlist' : ListOf t.2.heap rest es is := by
      apply hlist.congr
      rw [← hrest] at hlist
      exact hkeeps es is hlist
    apply leads_of_step hdone (between_of_frame rfl hdel.returning hKt)
    intro io
    obtain ⟨c', hstep, hnext⟩ := @progn_step pf io _ _ _ _ _ _ vs _ hdel.returning hdone hKt hlist'
    exact ⟨_, hstep, .inr ⟨c', rfl, .here hnext⟩⟩
  · -- the value of the last operand is that of the form
    apply Leads.here
    refine ⟨hdel.returning, hdone, hdel.stack.trans hK, ?_⟩
    rw [List.getLastD_concat]

/-! ### The form -/

theorem stepCtx_progn (ha : c.appCont = false) (hexp : typeOf c.currExp = ptrTypeCons)
    (hhead : car st.heap c.currExp = encSym symreprProgn) :
    stepCtx pf io c st = some (evalProgn io c st) := by
  rw [stepCtx_cons ha hexp]
  unfold evalForm
  rw [hhead]
  rfl

/-- `progn` with an operand, or with what it takes for one. -/
theorem evalProgn_of_rest (hrest : cdr st.heap c.currExp = rest) (hne : rest ≠ NIL)
    (hok : symreprIsError rest = false) :
    evalProgn io c st = dispatch io c (Frame.prognRest c.currEnv (cdr st.heap rest)).words
      (car st.heap rest) c.currEnv st := by
  unfold evalProgn
  simp only [hrest, isNil_of_ne hne, hok, Bool.false_eq_true, if_false]
  rfl

theorem progn_start (hrest : cdr st.heap c.currExp = rest) (ha : c.appCont = false)
    (hd : c.done = false)
    (hlist : ListOf st.heap rest es is) :
    ∃ o, evalProgn io c st = (o, st, false)
      ∧ (OutOfStack o ∨ ∃ c', o = .running c' ∧ AtProgn c.K.contents es [] (c', st)) := by
  cases es with
  | nil =>
    unfold evalProgn
    rw [hrest, hlist.nil_eq, if_pos (by decide)]
    exact ⟨_, rfl, .inr ⟨_, rfl, rfl, hd, rfl, rfl⟩⟩
  | cons e es =>
    obtain ⟨hty, hcar, js, -, htail⟩ := hlist.uncons
    have hne : rest ≠ NIL := ne_nil_of_isPtr (isPtr_of_typeOf_cons hty)
    rw [evalProgn_of_rest hrest hne (symreprIsError_of_cons hty)]
    unfold dispatch
    rcases hpush : pushAll io.malloc c.K (Frame.prognRest c.currEnv (cdr st.heap rest)).words
      with ⟨ok, K⟩
    cases ok with
    | false => exact ⟨_, rfl, .inl ⟨_, .inr rfl⟩⟩
    | true =>
      have hK := contents_pushAll hpush
      refine ⟨_, rfl, .inr ⟨_, rfl, ⟨c.currEnv, ha, hd, hcar, rfl, ?_⟩, .inl ⟨_, _, js, hK, htail⟩⟩⟩
      show c.K.contents <+: K.contents
      rw [hK]
      exact List.prefix_append _ _

/-- **`progn` evaluates its operands in order.** -/
theorem progn_inOrder (h : AtForm symreprProgn es s) :
    (contextMachine pf R).Leads (FormLive pf s.1.K.contents)
      ((contextMachine pf R).InOrder (prognForm pf s.1.K.contents) es []) s := by
  obtain ⟨is, hlist⟩ := h.list
  obtain ⟨hty, hhead, js, -, hrest⟩ := hlist.uncons
  apply leads_of_step h.done fun hgo => ⟨hgo, by simp [h.appCont]⟩
  intro io
  rw [stepCtx_progn h.appCont hty hhead]
  obtain ⟨o, hstep, hfull | ⟨c', rfl, hstart⟩⟩ := @progn_start io _ _ _ _ _ rfl h.appCont
    h.done hrest
  · exact ⟨o, congrArg some hstep, .inl hfull⟩
  · refine ⟨_, congrArg some hstep, .inr ⟨c', rfl, .here ?_⟩⟩
    refine InOrder.of_invariant (I := AtProgn s.1.K.contents) ?_ ?_ ?_ hstart
    · exact fun _ _ hI => hI
    · exact fun _ _ _ _ hI => hI.1
    · exact fun _ _ _ _ _ _ hI hdel => (hI.next hdel).mono fun _ hw => .inr ⟨id, hw⟩

end

/-! ## The forms -/

/-- The forms that walk over their operands. An application is one whose head is not the symbol of a
special form. -/
inductive Operation where
  | progn
  | connective (op : Connective)
  | application (f : VALUE) (hf : isSpecialForm f = false)

namespace Operation

def head : Operation → VALUE
  | progn => encSym symreprProgn
  | connective op => encSym op.sym
  | application f _ => f

def isApplication : Operation → Bool
  | application _ _ => true
  | _ => false

/-- What is evaluated for a form over the list `es`: the operator of an application as well. -/
def operands : Operation → List VALUE → List VALUE
  | application f _, es => f :: es
  | _, es => es

/-- The frame that waits for the value of an operand, with the values `vs` on the stack. -/
def frame : Operation → List VALUE → VALUE → VALUE → Frame
  | progn, _, E, rest => .prognRest E rest
  | connective op, _, E, rest => op.frame E rest
  | application _ _, vs, E, rest => .applicationArgs vs E rest

/-- The law of the form over a proper list. -/
def form (op : Operation) (pf : Platform) (k : List UINT) (E : VALUE) :
    Form (EvalContext × Store) VALUE VALUE :=
  match op with
  | progn => prognForm pf k
  | connective op => op.form pf k E
  | application _ _ => argumentsForm pf k E fun v => isConnective v = false

/-- `progn` tests what is left of the list for an error, but asks for the number of an error symbol
and not for the symbol. -/
def refuses : Operation → VALUE → Bool
  | progn, d => symreprIsError d
  | _, _ => false

/-- The frame with which the form starts. -/
def entry (op : Operation) (s : EvalContext × Store) : Frame :=
  match op with
  | progn => .prognRest s.1.currEnv (cdr s.2.heap (cdr s.2.heap s.1.currExp))
  | _ => .applicationArgs [] s.1.currEnv (cdr s.2.heap s.1.currExp)

/-- What is evaluated first. -/
def first (op : Operation) (s : EvalContext × Store) : VALUE :=
  match op with
  | progn => car s.2.heap (cdr s.2.heap s.1.currExp)
  | op => op.head

/-- There is no room for the first frame, nor for a larger stack. -/
def NoRoom (op : Operation) (s : EvalContext × Store) : Prop :=
  ∀ m : Malloc, (pushAll m s.1.K (op.entry s).words).1 = false

/-- The form is done with its operands: the operator of an application is about to be called with
their values, and the other forms return a value. What a call comes to is up to the operator. -/
def Completed (op : Operation) (k : List UINT) (s : EvalContext × Store) : Prop :=
  match op with
  | application _ _ => ∃ f args, Calling k f args s
  | _ => ∃ v, ReturnsTo k v s

end Operation

/-- The context is about to evaluate a form over a list in which `car` and `cdr` find `es` and then
`d`. -/
structure AtOperation (op : Operation) (es : List VALUE) (d : VALUE) (s : EvalContext × Store) :
    Prop where
  appCont : s.1.appCont = false
  done : s.1.done = false
  form : typeOf s.1.currExp = ptrTypeCons
  head : car s.2.heap s.1.currExp = op.head
  walk : ∃ is, Walk s.2.heap (cdr s.2.heap s.1.currExp) es d is

/-- The evaluation from `s` to `t` has changed none of the cells in which operands are left. -/
def KeepsWalk (s t : EvalContext × Store) : Prop :=
  ∀ ws d is, Walk s.2.heap (restWord s.1) ws d is → ∀ i ∈ is, t.2.heap.cell i = s.2.heap.cell i

/-- The operand that is about to be evaluated in `s` has a value. -/
def HasValue (pf : Platform) (R : Store → Store → Prop) (F : Form (EvalContext × Store) VALUE VALUE)
    (s : EvalContext × Store) : Prop :=
  (contextMachine pf R).Leads (fun u => F.live u ∧ (contextMachine pf R).Enabled u)
    (fun u => ∃ v,
      (contextMachine pf R).Delivers (fun s t v => F.val s t v ∧ KeepsWalk s t) s v u) s

/-- `error_ctx` or a failed push ends the context. -/
def Fails (o : Outcome) : Prop :=
  OutOfStack o ∨ ∃ c v, symreprIsError v = true ∧ o = errorCtx c v

/-- The form that was started on the stack `k` is being evaluated, or fails. -/
def Within (pf : Platform) (k : List UINT) (s : EvalContext × Store) : Prop :=
  s.1.done = false
    ∧ (∀ io, ∃ o st' g, stepCtx pf io s.1 s.2 = some (o, st', g) ∧ (Fails o ∨ ∃ c', o.goesOn c'))
    ∧ ¬(s.1.appCont = true ∧ s.1.K.contents.length ≤ k.length)

/-- Over a proper list, the operands are evaluated by the law of the form, up to the call of an
application or the value of another form. Over any other list the evaluation ends with an error. -/
def EndsAsListed (pf : Platform) (R : Store → Store → Prop) (op : Operation) (es : List VALUE)
    (d : VALUE) (s : EvalContext × Store) : Prop :=
  if d = NIL then
    (contextMachine pf R).Leads (op.form pf s.1.K.contents s.1.currEnv).live
        ((contextMachine pf R).InOrder (op.form pf s.1.K.contents s.1.currEnv) (op.operands es)
          []) s
      ∧ (contextMachine pf R).Leads (op.form pf s.1.K.contents s.1.currEnv).live
        (op.Completed s.1.K.contents) s
  else (contextMachine pf R).Ends (Within pf s.1.K.contents) s

/-! ## Steps -/

section

variable {pf : Platform} {io : Outside} {R : Store → Store → Prop} {k : List UINT} {c : EvalContext}
  {st : Store} {E rest e d : VALUE} {es vs ws : List VALUE} {is : List Nat}
  {s t u : EvalContext × Store} {op : Operation}

theorem Operation.restWord_of_frame
    (hK : c.K.contents = k ++ (op.frame vs E rest).words) : restWord c = rest := by
  cases op with
  | progn => rw [restWord, hK]; simp [Operation.frame, Frame.words, Frame.payload]
  | connective op => exact restWord_of_words hK
  | application f hf => exact restWord_of_applicationArgs hK

theorem Operation.live_eq : (op.form pf k E).live = FormLive pf k := by
  cases op <;> rfl

theorem Operation.starts_of_evaluates (h : Evaluates k E e s) : (op.form pf k E).starts e s := by
  cases op with
  | progn => exact ⟨E, h⟩
  | connective op => exact h
  | application f hf => exact h

theorem Operation.completed_of_over (h : (op.form pf k E).Over s) : op.Completed k s := by
  cases op with
  | progn =>
    obtain ⟨v, hstop, -⟩ | ⟨vs, hret⟩ := h
    · exact hstop.elim
    · exact ⟨_, hret⟩
  | connective op =>
    obtain ⟨v, -, w, -, hret⟩ | ⟨vs, w, -, hret⟩ := h
    · exact ⟨w, hret⟩
    · exact ⟨w, hret⟩
  | application f hf =>
    obtain ⟨v, hstop, -⟩ | ⟨vs, f, args, -, hcall⟩ := h
    · exact hstop.elim
    · exact ⟨f, args, hcall⟩

theorem Operation.operandValue {v : VALUE} (h : (op.form pf k E).val s t v) :
    OperandValue s t v := by
  cases op with
  | progn => exact h
  | connective op => exact h
  | application f hf => exact h.1

/-- The state after a next operand was found in `rest`. -/
structure NextOperand (op : Operation) (k : List UINT) (E : VALUE) (vs : List VALUE) (rest : VALUE)
    (s : EvalContext × Store) : Prop where
  evaluates : Evaluates k E (car s.2.heap rest) s
  stack : s.1.K.contents = k ++ (op.frame vs E (cdr s.2.heap rest)).words

/-- `progn` takes the next operand, unless it takes the rest for an error. -/
theorem progn_round (ha : c.appCont = true) (hd : c.done = false)
    (hK : c.K.contents = k ++ (Frame.prognRest E rest).words) (hne : rest ≠ NIL)
    (hcdr : cdr st.heap rest ≠ NIL) :
    if symreprIsError rest then ∃ c', stepCtx pf io c st = some (errorCtx c' rest, st, false)
    else ∃ c', stepCtx pf io c st = some (.running c', st, false)
      ∧ NextOperand .progn k E [] rest (c', st) := by
  obtain ⟨K, K', -, hK', hstep⟩ := @stepCtx_prognRest pf io k c st E rest ha hK
  have htail : isLastForm st rest = false := isNil_of_ne hcdr
  simp only [isNil_of_ne hne, htail, Bool.false_eq_true, if_false] at hstep
  rw [hstep]
  cases symreprIsError rest with
  | true => exact ⟨_, rfl⟩
  | false =>
    refine ⟨_, rfl, ⟨rfl, hd, rfl, rfl, ?_⟩, hK'⟩
    show k <+: K'.contents
    rw [hK']
    exact List.prefix_append _ _

/-- `and` and `or` have their value or take the next operand. -/
theorem connective_round {op : Connective} (ha : c.appCont = true) (hd : c.done = false)
    (hK : c.K.contents = k ++ (op.frame E rest).words) (hne : rest ≠ NIL) :
    ∃ c', stepCtx pf io c st = some (.running c', st, false)
      ∧ ((∃ v, ReturnsTo k v (c', st)) ∨ NextOperand (.connective op) k E [] rest (c', st)) := by
  obtain ⟨K, w, hK', hroom, -, hstep⟩ := @stepCtx_connective pf io k c st E rest op ha hK
  rw [hstep, isNil_of_ne hne, Bool.or_false]
  cases op.stops c.r with
  | true => exact ⟨_, rfl, .inl ⟨w, rfl, hd, hK', rfl⟩⟩
  | false =>
    obtain ⟨c', hnext, heval, hstack⟩ := @evalOperand_running io k (c.resumed K) st E rest op hK'
      hroom rfl hd
    exact ⟨c', congrArg some hnext, .inr ⟨heval, hstack⟩⟩

/-- The operator of an application was `and` or `or`. -/
theorem operator_round {op : Connective} (ha : c.appCont = true) (hd : c.done = false)
    (hr : c.r = encSym op.sym) (hK : c.K.contents = k ++ (Frame.applicationArgs [] E rest).words)
    (hne : rest ≠ NIL) :
    ∃ c', stepCtx pf io c st = some (.running c', st, false)
      ∧ NextOperand (.connective op) k E [] rest (c', st) := by
  obtain ⟨K, hK', hroom, hstep⟩ := @stepCtx_operator pf io k c st E rest op ha hr hK
  obtain ⟨c', hnext, heval, hstack⟩ := @evalOperand_running io k (c.resumed K) st E rest op hK'
    hroom rfl hd
  rw [hstep, isNil_of_ne hne]
  exact ⟨c', congrArg some hnext, heval, hstack⟩

/-- An application takes the next operand, as long as there is room for the values. -/
theorem application_round {f : VALUE} {hf : isSpecialForm f = false} (ha : c.appCont = true)
    (hd : c.done = false) (hK : c.K.contents = k ++ (Frame.applicationArgs vs E rest).words)
    (hr : isConnective c.r = false) (hne : rest ≠ NIL) :
    ∃ o, stepCtx pf io c st = some (o, st, false)
      ∧ (OutOfStack o ∨ ∃ c', o = .running c'
        ∧ NextOperand (.application f hf) k E (vs ++ [c.r]) rest (c', st)) := by
  obtain ⟨K, hK', hstep⟩ := @stepCtx_argument pf io k c st E rest vs ha hK hr
  obtain ⟨o, happ, hnext⟩ := @applicationArg_running io k (c.resumed K) st E rest vs hK' rfl hd
    (isNil_of_ne hne)
  refine ⟨o, hstep.trans (congrArg some happ), ?_⟩
  rcases hnext with hfull | ⟨c', ho, heval, hstack⟩
  · exact .inl hfull
  · exact .inr ⟨c', ho, heval, hstack⟩

/-! ## Rounds -/

theorem not_continues_of_fails {o : Outcome} {g : Bool} (ho : Fails o) :
    ¬Continues R o st g t := by
  rcases ho with hfull | ⟨c, v, -, rfl⟩
  · exact not_continues_of_outOfStack hfull
  · intro h
    cases h

/-- A step that fails or goes on at once. -/
theorem within_of_step {Q : EvalContext × Store → Prop} (hd : s.1.done = false)
    (hpending : ¬(s.1.appCont = true ∧ s.1.K.contents.length ≤ k.length))
    (h : ∀ io, ∃ o, stepCtx pf io s.1 s.2 = some (o, s.2, false)
      ∧ (Fails o ∨ ∃ c', o = .running c' ∧ Q (c', s.2))) :
    Within pf k s ∧ ∀ w, (contextMachine pf R).step s w → Q w := by
  refine ⟨⟨hd, fun io => ?_, hpending⟩, fun w hw => ?_⟩
  · obtain ⟨o, hstep, hnext⟩ := h io
    refine ⟨o, _, _, hstep, hnext.imp_right ?_⟩
    rintro ⟨c', rfl, -⟩
    exact ⟨c', goesOn_running.mpr rfl⟩
  · obtain ⟨-, io, o, st', g, hstep, hcont⟩ := hw
    obtain ⟨o', hstep', hnext⟩ := h io
    obtain ⟨rfl, rfl, rfl⟩ : o' = o ∧ s.2 = st' ∧ false = g := by
      have := Option.some.inj (hstep'.symm.trans hstep)
      simpa using this
    rcases hnext with hfails | ⟨c', rfl, hQ⟩
    · exact absurd hcont (not_continues_of_fails hfails)
    · rw [hcont.running]
      exact hQ

/-- A step that goes on at once, whatever comes from outside. -/
theorem enabled_of_running {Q : EvalContext × Store → Prop} (hd : s.1.done = false)
    (h : ∀ io, ∃ c', stepCtx pf io s.1 s.2 = some (.running c', s.2, false) ∧ Q (c', s.2)) :
    (contextMachine pf R).Enabled s ∧ ∀ w, (contextMachine pf R).step s w → Q w := by
  constructor
  · obtain ⟨c', hstep, -⟩ := h plainOutside
    exact ⟨(c', s.2), hd, plainOutside, _, _, _, hstep, .atOnce⟩
  · rintro w ⟨-, io, o, st', g, hstep, hcont⟩
    obtain ⟨c', hstep', hQ⟩ := h io
    cases hstep'.symm.trans hstep
    rw [hcont.running]
    exact hQ

theorem within_of_formLive (h : FormLive pf k s) : Within pf k s := by
  obtain ⟨⟨hd, hstep⟩, hpending⟩ := h
  refine ⟨hd, fun io => ?_, hpending⟩
  obtain ⟨o, st', g, hres, hnext⟩ := hstep io
  exact ⟨o, st', g, hres, hnext.imp_left .inl⟩

theorem not_within_of_returns {v : VALUE} (h : ReturnsTo k v s) : ¬Within pf k s :=
  fun hwithin => hwithin.2.2 ⟨h.appCont, by rw [h.stack]⟩

/-- The operands `ws` and then `d` are left in a frame above the values `vs`, and each of the
operands has a value when its turn comes. -/
structure Waits (pf : Platform) (R : Store → Store → Prop) (s₀ : EvalContext × Store)
    (op : Operation) (k : List UINT) (E : VALUE) (vs ws : List VALUE) (d : VALUE)
    (t : EvalContext × Store) : Prop where
  reach : (contextMachine pf R).Reaches s₀ t
  frame : ∃ rest is, t.1.K.contents = k ++ (op.frame vs E rest).words ∧ Walk t.2.heap rest ws d is
  values : ∀ e ∈ ws, ∀ u, (contextMachine pf R).Reaches s₀ u → (op.form pf k E).starts e u →
    HasValue pf R (op.form pf k E) u
  improper : d ≠ NIL

/-- A value is about to be handed to the frame. -/
structure Receives (pf : Platform) (R : Store → Store → Prop) (s₀ : EvalContext × Store)
    (op : Operation) (k : List UINT) (E : VALUE) (vs ws : List VALUE) (d : VALUE)
    (t : EvalContext × Store) : Prop extends Waits pf R s₀ op k E vs ws d t where
  appCont : t.1.appCont = true
  done : t.1.done = false
  takes : op.isApplication = true → isConnective t.1.r = false

/-- An operand is about to be evaluated. -/
structure Walks (pf : Platform) (R : Store → Store → Prop) (s₀ : EvalContext × Store)
    (op : Operation) (k : List UINT) (E : VALUE) (vs ws : List VALUE) (d : VALUE)
    (t : EvalContext × Store) : Prop extends Waits pf R s₀ op k E vs ws d t where
  valued : HasValue pf R (op.form pf k E) t

variable {s₀ : EvalContext × Store}

/-- The operand is evaluated. -/
theorem Walks.leads (h : Walks pf R s₀ op k E vs ws d t) :
    (contextMachine pf R).Leads (fun u => FormLive pf k u ∧ (contextMachine pf R).Enabled u)
      (Receives pf R s₀ op k E vs ws d) t := by
  have hvalued := h.valued
  unfold HasValue at hvalued
  rw [Operation.live_eq] at hvalued
  apply (hvalued.reaches h.reach).mono
  intro u hu
  obtain ⟨⟨v, hdel⟩, hreach⟩ := hu
  obtain ⟨hval, hkeeps⟩ := hdel.val
  obtain ⟨hr, hdone, -⟩ := op.operandValue hval
  obtain ⟨rest, is, hK, hwalk⟩ := h.frame
  refine ⟨⟨hreach, ⟨rest, is, hdel.stack.trans hK, hwalk.congr ?_⟩, h.values, h.improper⟩,
    hdel.returning, hdone, ?_⟩
  · rw [← op.restWord_of_frame hK] at hwalk
    exact hkeeps _ _ is hwalk
  · intro happ
    cases op with
    | application f hf =>
      rw [hr]
      exact hval.2
    | _ => exact absurd happ Bool.false_ne_true

/-- An operand that evaluates to itself has a value. -/
theorem hasValue_of_self {v : VALUE} (h : Evaluates k E v s)
    (hself : ∀ io, stepCtx pf io s.1 s.2
      = some (.running { s.1 with r := s.1.currExp, appCont := true }, s.2, false))
    (hv : op.isApplication = true → isConnective v = false) :
    HasValue pf R (op.form pf k E) s := by
  obtain ⟨henabled, hnext⟩ := @enabled_of_running pf R s
    (fun w => w = ({ s.1 with r := s.1.currExp, appCont := true }, s.2)) h.done
    fun io => ⟨_, hself io, rfl⟩
  have hlive : FormLive pf k s := by
    refine ⟨⟨h.done, fun io => ?_⟩, ?_⟩
    · exact ⟨_, _, _, hself io, .inr ⟨_, goesOn_running.mpr rfl⟩⟩
    · rw [h.appCont]
      simp
  unfold HasValue
  rw [Operation.live_eq]
  refine .next ⟨hlive, henabled⟩ fun t ht => .here ⟨v, ?_⟩
  obtain rfl := hnext t ht
  have hdone : s.1.done = false := h.done
  have hval : OperandValue s ({ s.1 with r := s.1.currExp, appCont := true }, s.2) v :=
    ⟨h.exp, hdone, fun _ _ _ _ _ => rfl⟩
  refine ⟨.tail .refl ?_ ht, rfl, rfl, ?_, fun _ _ _ _ _ _ => rfl⟩
  · -- nothing is delivered while the operand is evaluated
    intro hdel
    exact absurd (hdel.1.symm.trans h.appCont) (by decide)
  · cases op with
    | progn => exact hval
    | connective op => exact hval
    | application f hf => exact ⟨hval, hv rfl⟩

theorem stepCtx_integer (ha : c.appCont = false) (hty : typeOf c.currExp = valTypeI) :
    stepCtx pf io c st
      = some (.running { c with r := c.currExp, appCont := true }, st, false) := by
  unfold stepCtx evalExp
  rw [ha, if_neg (by decide), hty]
  rfl

/-- The error symbol is its own value. -/
theorem hasValue_typeError (h : Evaluates k E (encSym symreprTerror) s) :
    HasValue pf R (op.form pf k E) s := by
  refine hasValue_of_self h (fun io => ?_) fun _ => by decide
  exact stepCtx_special h.appCont (by rw [h.exp]; decide)

/-- A next operand has a value as well: it is an element of the list, or behind its end the error
symbol. -/
theorem NextOperand.walks {vs' : List VALUE} (hnext : NextOperand op k E vs' rest u)
    (hwalk : Walk u.2.heap rest ws d is) (hd : d ≠ NIL)
    (hreach : (contextMachine pf R).Reaches s₀ u)
    (hvalues : ∀ e ∈ ws, ∀ u, (contextMachine pf R).Reaches s₀ u → (op.form pf k E).starts e u →
      HasValue pf R (op.form pf k E) u) :
    ∃ ws' d', Walks pf R s₀ op k E vs' ws' d' u
      ∧ (d' = d ∧ ws'.length < ws.length ∨ ws = [] ∧ ws' = [] ∧ d' = encSym symreprTerror) := by
  obtain ⟨ws', d', is', hrest, hd', hcases⟩ := hwalk.next hd
  have hstack : ∃ rest is, u.1.K.contents = k ++ (op.frame vs' E rest).words
      ∧ Walk u.2.heap rest ws' d' is := ⟨_, is', hnext.stack, hrest⟩
  rcases hcases with ⟨rfl, rfl⟩ | ⟨rfl, hcar, rfl, rfl⟩
  · refine ⟨ws', d', ⟨⟨hreach, hstack, ?_, hd'⟩, ?_⟩, .inl ⟨rfl, Nat.lt_succ_self _⟩⟩
    · exact fun e he => hvalues e (List.mem_cons_of_mem _ he)
    · exact hvalues _ List.mem_cons_self u hreach (op.starts_of_evaluates hnext.evaluates)
  · refine ⟨[], _, ⟨⟨hreach, hstack, fun e he => absurd he (List.not_mem_nil), hd'⟩, ?_⟩,
      .inr ⟨rfl, rfl, rfl⟩⟩
    have heval := hnext.evaluates
    rw [hcar] at heval
    exact hasValue_typeError heval

theorem Receives.pending (h : Receives pf R s₀ op k E vs ws d t) :
    ¬(t.1.appCont = true ∧ t.1.K.contents.length ≤ k.length) := by
  obtain ⟨rest, is, hK, -⟩ := h.frame
  rintro ⟨-, hle⟩
  have hpos := List.length_pos_of_ne_nil (op.frame vs E rest).words_ne_nil
  rw [hK, List.length_append] at hle
  omega

/-- The values of an application do not fill more than the stack. -/
theorem Receives.length_lt {f : VALUE} {hf : isSpecialForm f = false}
    (h : Receives pf R s₀ (.application f hf) k E vs ws d t) : vs.length < 2 ^ 28 := by
  obtain ⟨rest, is, hK, -⟩ := h.frame
  have hlen := congrArg List.length hK
  have hsp := t.1.K.sp_le
  have hsize := t.1.K.size_lt
  rw [Stack.length_contents, List.length_append] at hlen
  simp only [Operation.frame, Frame.words, Frame.payload, List.length_append, List.length_cons]
    at hlen
  omega

/-- The next operand after a step that has taken it from the frame. -/
theorem Receives.next {vs' : List VALUE} (h : Receives pf R s₀ op k E vs ws d t)
    (hwalk : Walk t.2.heap rest ws d is) (hstep : (contextMachine pf R).step t u)
    (hu : u.2 = t.2 ∧ NextOperand op k E vs' rest u) :
    ∃ ws' d', Walks pf R s₀ op k E vs' ws' d' u
      ∧ (d' = d ∧ ws'.length < ws.length ∨ ws = [] ∧ ws' = [] ∧ d' = encSym symreprTerror) := by
  obtain ⟨hst, hnext⟩ := hu
  rw [← hst] at hwalk
  exact hnext.walks hwalk h.improper (h.reach.tail hstep) h.values

/-- **An application over an improper list fails**: every operand leaves a word on the stack, and
there are operands for ever. -/
theorem ends_of_application {f : VALUE} {hf : isSpecialForm f = false}
    (h : Walks pf R s₀ (.application f hf) k E vs ws d t) :
    (contextMachine pf R).Ends (Within pf k) t := by
  refine ends_of_round (B := fun n u => ∃ vs ws d, n = 2 ^ 28 - vs.length
    ∧ Walks pf R s₀ (.application f hf) k E vs ws d u) ?_ ⟨vs, ws, d, rfl, h⟩
  rintro n u ⟨vs, ws, d, rfl, hwalks⟩
  apply (hwalks.leads.mono_live fun _ hlive => within_of_formLive hlive.1).mono
  intro w hw
  obtain ⟨rest, is, hK, hwalk⟩ := hw.frame
  have hlt := hw.length_lt
  obtain ⟨hwithin, hnext⟩ := within_of_step (R := R)
    (Q := fun x => x.2 = w.2 ∧ NextOperand (.application f hf) k E (vs ++ [w.1.r]) rest x)
    hw.done hw.pending fun io => by
      obtain ⟨o, hstep, hres⟩ := @application_round pf io k w.1 w.2 E rest vs f hf
        hw.appCont hw.done
        hK (hw.takes rfl) (hwalk.ne_nil hw.improper)
      refine ⟨o, hstep, hres.imp .inl ?_⟩
      rintro ⟨c', ho, hnext⟩
      exact ⟨c', ho, rfl, hnext⟩
  refine ⟨hwithin, fun x hx => ?_⟩
  obtain ⟨ws', d', hwalks', -⟩ := hw.next hwalk hx (hnext x hx)
  refine ⟨2 ^ 28 - (vs ++ [w.1.r]).length, ?_, _, ws', d', rfl, hwalks'⟩
  rw [List.length_append, List.length_singleton]
  omega

/-- **`progn` fails over a list that ends in a value it takes for an error.** -/
theorem ends_of_refused (h : Walks pf R s₀ .progn k E [] ws d t) (hd : symreprIsError d = true) :
    (contextMachine pf R).Ends (Within pf k) t := by
  refine ends_of_round (B := fun n u => ∃ ws, n = ws.length ∧ Walks pf R s₀ .progn k E [] ws d u)
    ?_ ⟨ws, rfl, h⟩
  rintro n u ⟨ws, rfl, hwalks⟩
  apply (hwalks.leads.mono_live fun _ hlive => within_of_formLive hlive.1).mono
  intro w hw
  obtain ⟨rest, is, hK, hwalk⟩ := hw.frame
  have hne := hwalk.ne_nil hw.improper
  obtain ⟨_, _, _, hrest, hend, -⟩ := hwalk.next hw.improper
  obtain ⟨hwithin, hnext⟩ := within_of_step (R := R)
    (Q := fun x => symreprIsError rest = false ∧ x.2 = w.2 ∧ NextOperand .progn k E [] rest x)
    hw.done hw.pending fun io => by
      have hround := @progn_round pf io k w.1 w.2 E rest hw.appCont hw.done hK hne
        (hrest.ne_nil hend)
      cases hok : symreprIsError rest with
      | true =>
        rw [hok, if_pos rfl] at hround
        obtain ⟨c', hstep⟩ := hround
        exact ⟨_, hstep, .inl (.inr ⟨c', rest, hok, rfl⟩)⟩
      | false =>
        rw [hok, if_neg (by decide)] at hround
        obtain ⟨c', hstep, hnext⟩ := hround
        exact ⟨_, hstep, .inr ⟨c', rfl, rfl, rfl, hnext⟩⟩
  refine ⟨hwithin, fun x hx => ?_⟩
  obtain ⟨hok, hx'⟩ := hnext x hx
  obtain ⟨ws', d', hwalks', ⟨rfl, hlt⟩ | ⟨rfl, -⟩⟩ := hw.next hwalk hx hx'
  · exact ⟨_, hlt, ws', rfl, hwalks'⟩
  · -- behind the elements is the end, which is refused
    rw [← (hwalk.of_nil rfl), hok] at hd
    exact absurd hd (by decide)

theorem Walk.refuses_eq (hwalk : Walk st.heap rest ws d is) (hd : op.refuses d = false) :
    op.refuses rest = false := by
  cases op with
  | progn =>
    cases hwalk with
    | stop => exact hd
    | step _ hword => exact hword
  | _ => rfl

/-- The other forms go on from every frame. -/
theorem Receives.goesOn (h : Receives pf R s₀ op k E [] ws d t) (hop : op.isApplication = false)
    (hd : op.refuses d = false) (hK : t.1.K.contents = k ++ (op.frame [] E rest).words)
    (hwalk : Walk t.2.heap rest ws d is) :
    (contextMachine pf R).Enabled t ∧ ∀ u, (contextMachine pf R).step t u →
      (∃ v, ReturnsTo k v u) ∨ u.2 = t.2 ∧ NextOperand op k E [] rest u := by
  have hne := hwalk.ne_nil h.improper
  obtain ⟨_, _, _, hrest, hend, -⟩ := hwalk.next h.improper
  apply enabled_of_running h.done
  intro io
  cases op with
  | progn =>
    have hround := @progn_round pf io k t.1 t.2 E rest h.appCont h.done hK hne (hrest.ne_nil hend)
    have hok : symreprIsError rest = false := @Walk.refuses_eq _ _ _ _ _ .progn hwalk hd
    rw [hok, if_neg (by decide)] at hround
    obtain ⟨c', hstep, hnext⟩ := hround
    exact ⟨c', hstep, .inr ⟨rfl, hnext⟩⟩
  | connective op =>
    obtain ⟨c', hstep, hnext⟩ := @connective_round pf io k t.1 t.2 E rest op h.appCont h.done hK hne
    exact ⟨c', hstep, hnext.imp_right fun hnext => ⟨rfl, hnext⟩⟩
  | application f hf => exact absurd hop.symm Bool.false_ne_true

/-- **`progn`, `and` and `or` do not fail over an improper list**: they return a value, or go on for
ever. -/
theorem keepsOn_of_walks (h : Walks pf R s₀ op k E [] ws d t) (hop : op.isApplication = false)
    (hd : op.refuses d = false) :
    (contextMachine pf R).KeepsOn (fun u => ∃ v, ReturnsTo k v u) t := by
  refine keepsOn_of_round (B := fun u => (∃ v, ReturnsTo k v u)
    ∨ ∃ ws d, Walks pf R s₀ op k E [] ws d u ∧ op.refuses d = false) ?_ (.inr ⟨ws, d, h, hd⟩)
  rintro u (hret | ⟨ws, d, hwalks, hd⟩)
  · exact .here (.inl hret)
  · apply (hwalks.leads.mono_live fun _ hlive => hlive.2).mono
    intro w hw
    obtain ⟨rest, is, hK, hwalk⟩ := hw.frame
    obtain ⟨henabled, hsteps⟩ := hw.goesOn hop hd hK hwalk
    refine .inr ⟨henabled, fun x hx => ?_⟩
    rcases hsteps x hx with hret | hnext
    · exact .inl hret
    · obtain ⟨ws', d', hwalks', hcases⟩ := hw.next hwalk hx hnext
      refine .inr ⟨ws', d', hwalks', ?_⟩
      rcases hcases with ⟨rfl, -⟩ | ⟨-, -, rfl⟩
      · exact hd
      · -- the error symbol is not its own number
        cases op with
        | progn => decide
        | _ => rfl

/-! ## Entering the form -/

/-- The state after the first frame was pushed. -/
def Operation.entered (op : Operation) (s : EvalContext × Store) (K : Stack) :
    EvalContext × Store :=
  ({ s.1 with K := K, currExp := op.first s, currEnv := s.1.currEnv }, s.2)

/-- The first step of a form over an improper list. -/
theorem AtOperation.stepCtx_eq (h : AtOperation op es d s) (hd : d ≠ NIL)
    (hok : op.refuses (cdr s.2.heap s.1.currExp) = false) :
    stepCtx pf io s.1 s.2
      = some (dispatch io s.1 (op.entry s).words (op.first s) s.1.currEnv s.2) := by
  obtain ⟨is, hwalk⟩ := h.walk
  cases op with
  | progn =>
    rw [stepCtx_progn h.appCont h.form h.head,
      evalProgn_of_rest rfl (hwalk.ne_nil hd) hok]
    rfl
  | connective op =>
    have hspecial : isSpecialForm (encSym op.sym) = false := by cases op <;> decide
    have hhead : car s.2.heap s.1.currExp = encSym op.sym := h.head
    rw [stepCtx_cons h.appCont h.form, evalForm_application (by rw [hhead]; exact hspecial), hhead]
    rfl
  | application f hf =>
    have hhead : car s.2.heap s.1.currExp = f := h.head
    rw [stepCtx_cons h.appCont h.form, evalForm_application (by rw [hhead]; exact hf), hhead]
    rfl

/-- The first frame is pushed, if there is room for it. -/
theorem AtOperation.enters (h : AtOperation op es d s) (hd : d ≠ NIL)
    (hok : op.refuses (cdr s.2.heap s.1.currExp) = false) :
    Within pf k s ∧ ∀ t, (contextMachine pf R).step s t →
      ∃ (io : Outside) (K : Stack), pushAll io.malloc s.1.K (op.entry s).words = (true, K)
        ∧ t = op.entered s K := by
  apply within_of_step h.done (by simp [h.appCont])
  intro io
  rw [h.stepCtx_eq hd hok]
  unfold dispatch
  rcases hpush : pushAll io.malloc s.1.K (op.entry s).words with ⟨ok, K⟩
  cases ok with
  | false => exact ⟨_, rfl, .inl (.inl ⟨_, .inr rfl⟩)⟩
  | true => exact ⟨_, rfl, .inr ⟨_, rfl, io, K, hpush, rfl⟩⟩

/-- A form ends with an error if its evaluation does from the states after the first frame. -/
theorem AtOperation.ends (h : AtOperation op es d s) (hd : d ≠ NIL)
    (hok : op.refuses (cdr s.2.heap s.1.currExp) = false)
    (hentered : ∀ (io : Outside) K, pushAll io.malloc s.1.K (op.entry s).words = (true, K) →
      (contextMachine pf R).step s (op.entered s K) →
      (contextMachine pf R).Ends (Within pf k) (op.entered s K)) :
    (contextMachine pf R).Ends (Within pf k) s := by
  obtain ⟨hwithin, hnext⟩ := @h.enters pf R k _ _ _ _ hd hok
  apply Leads.next hwithin
  intro t ht
  obtain ⟨io, K, hpush, rfl⟩ := hnext t ht
  exact hentered io K hpush ht

/-- The whole list is taken for an error. -/
theorem AtOperation.refused (h : AtOperation op es d s) (hd : d ≠ NIL)
    (hok : op.refuses (cdr s.2.heap s.1.currExp) = true) :
    (contextMachine pf R).Ends (Within pf k) s := by
  cases op with
  | progn =>
    obtain ⟨is, hwalk⟩ := h.walk
    have hnil := isNil_of_ne (hwalk.ne_nil hd)
    have herr : symreprIsError (cdr s.2.heap s.1.currExp) = true := hok
    have hstep (io : Outside) : stepCtx pf io s.1 s.2
        = some (errorCtx s.1 (cdr s.2.heap s.1.currExp), s.2, false) := by
      rw [stepCtx_progn h.appCont h.form h.head]
      unfold evalProgn
      simp only [hnil, herr, Bool.false_eq_true, if_false, if_true]
    obtain ⟨hwithin, hnext⟩ := @within_of_step pf R k s (fun _ => False) h.done
      (by simp [h.appCont]) fun io => ⟨_, hstep io, .inl (.inr ⟨_, _, herr, rfl⟩)⟩
    exact .next hwithin fun t ht => (hnext t ht).elim
  | _ => exact absurd hok Bool.false_ne_true

/-- The first frame was pushed. -/
theorem AtOperation.step_entered (h : AtOperation op es d s) (hd : d ≠ NIL)
    (hok : op.refuses (cdr s.2.heap s.1.currExp) = false) {K : Stack}
    (hpush : pushAll io.malloc s.1.K (op.entry s).words = (true, K)) :
    (contextMachine pf R).step s (op.entered s K) := by
  have hstep := @h.stepCtx_eq pf io _ _ _ _ hd hok
  unfold dispatch at hstep
  rw [hpush] at hstep
  exact ⟨h.done, io, _, _, _, hstep, .atOnce⟩

theorem AtOperation.progn_walks (h : AtOperation .progn es d s) (hd : d ≠ NIL) {K : Stack}
    (hpush : pushAll io.malloc s.1.K (Operation.progn.entry s).words = (true, K))
    (hstep : (contextMachine pf R).step s (Operation.progn.entered s K))
    (hval : ∀ e ∈ es, ∀ t, (contextMachine pf R).Reaches s t →
      (Operation.progn.form pf s.1.K.contents s.1.currEnv).starts e t →
      HasValue pf R (Operation.progn.form pf s.1.K.contents s.1.currEnv) t) :
    ∃ ws' d', Walks pf R s .progn s.1.K.contents s.1.currEnv [] ws' d' (Operation.progn.entered s K)
      ∧ (d' = d ∧ ws'.length < es.length ∨ es = [] ∧ ws' = [] ∧ d' = encSym symreprTerror) := by
  obtain ⟨is, hwalk⟩ := h.walk
  have hK := contents_pushAll hpush
  have hnext : NextOperand .progn s.1.K.contents s.1.currEnv [] (cdr s.2.heap s.1.currExp)
      (Operation.progn.entered s K) := by
    refine ⟨⟨h.appCont, h.done, rfl, rfl, ?_⟩, hK⟩
    show s.1.K.contents <+: K.contents
    rw [hK]
    exact List.prefix_append _ _
  exact hnext.walks hwalk hd (.single hstep) hval

theorem AtOperation.application_walks {f : VALUE} {hf : isSpecialForm f = false}
    (h : AtOperation (.application f hf) es d s) (hd : d ≠ NIL) {K : Stack}
    (hpush : pushAll io.malloc s.1.K ((Operation.application f hf).entry s).words = (true, K))
    (hstep : (contextMachine pf R).step s ((Operation.application f hf).entered s K))
    (hval : ∀ e ∈ f :: es, ∀ t, (contextMachine pf R).Reaches s t →
      ((Operation.application f hf).form pf s.1.K.contents s.1.currEnv).starts e t →
      HasValue pf R ((Operation.application f hf).form pf s.1.K.contents s.1.currEnv) t) :
    Walks pf R s (.application f hf) s.1.K.contents s.1.currEnv [] es d
      ((Operation.application f hf).entered s K) := by
  obtain ⟨is, hwalk⟩ := h.walk
  have hK := contents_pushAll hpush
  refine ⟨⟨.single hstep, ⟨_, is, hK, hwalk⟩, ?_, hd⟩, ?_⟩
  · exact fun e he => hval e (List.mem_cons_of_mem _ he)
  · apply hval f List.mem_cons_self _ (.single hstep)
    refine ⟨h.appCont, h.done, rfl, rfl, ?_⟩
    show s.1.K.contents <+: K.contents
    rw [hK]
    exact List.prefix_append _ _

/-- `and` or `or` in operator position is its own value, and takes the operands over. -/
theorem AtOperation.connective_keepsOn {op : Connective}
    (h : AtOperation (.connective op) es d s) (hd : d ≠ NIL) {K : Stack}
    (hpush : pushAll io.malloc s.1.K ((Operation.connective op).entry s).words = (true, K))
    (hstep : (contextMachine pf R).step s ((Operation.connective op).entered s K))
    (hval : ∀ e ∈ es, ∀ t, (contextMachine pf R).Reaches s t →
      ((Operation.connective op).form pf s.1.K.contents s.1.currEnv).starts e t →
      HasValue pf R ((Operation.connective op).form pf s.1.K.contents s.1.currEnv) t) :
    (contextMachine pf R).KeepsOn (fun t => ∃ v, ReturnsTo s.1.K.contents v t)
      ((Operation.connective op).entered s K) := by
  obtain ⟨is, hwalk⟩ := h.walk
  have hK := contents_pushAll hpush
  have hspecial : isSpecial (encSym op.sym) = true := by cases op <;> decide
  obtain ⟨henabled, hself⟩ := @enabled_of_running pf R ((Operation.connective op).entered s K)
    (fun t => t = ({ ((Operation.connective op).entered s K).1 with
      r := encSym op.sym, appCont := true }, s.2)) h.done
    fun io => ⟨_, stepCtx_special h.appCont hspecial, rfl⟩
  -- First the operator is evaluated, to itself, and then its value meets the frame.
  refine .of_steps henabled fun t ht => ?_
  obtain rfl := hself t ht
  obtain ⟨henabled, hround⟩ := @enabled_of_running pf R ({ ((Operation.connective op).entered s K).1
      with r := encSym op.sym, appCont := true }, s.2)
    (fun u => u.2 = s.2 ∧ NextOperand (.connective op) s.1.K.contents s.1.currEnv []
      (cdr s.2.heap s.1.currExp) u) h.done fun io => by
      obtain ⟨c', hround, hnext⟩ := @operator_round pf io s.1.K.contents
        { ((Operation.connective op).entered s K).1 with r := encSym op.sym, appCont := true } s.2
        s.1.currEnv (cdr s.2.heap s.1.currExp) op rfl h.done rfl hK (hwalk.ne_nil hd)
      exact ⟨c', hround, rfl, hnext⟩
  refine .of_steps henabled fun u hu => ?_
  obtain ⟨hst, hnext⟩ := hround u hu
  have hwalk' : Walk u.2.heap (cdr s.2.heap s.1.currExp) es d is := by
    rw [hst]
    exact hwalk
  obtain ⟨ws', d', hwalks, -⟩ := hnext.walks hwalk' hd (((Relation.ReflTransGen.single hstep).tail
    ht).tail hu) hval
  exact keepsOn_of_walks hwalks rfl rfl

/-! ## Proper lists -/

theorem AtOperation.law (h : AtOperation op es NIL s) :
    (contextMachine pf R).Leads (FormLive pf s.1.K.contents)
      ((contextMachine pf R).InOrder (op.form pf s.1.K.contents s.1.currEnv) (op.operands es)
        []) s := by
  obtain ⟨is, hwalk⟩ := h.walk
  have hlist := ListOf.cons h.form (hwalk.listOf rfl)
  rw [h.head] at hlist
  cases op with
  | progn => exact progn_inOrder ⟨h.appCont, h.done, _, hlist⟩
  | connective op => exact connective_inOrder ⟨h.appCont, h.done, _, hlist⟩
  | application f hf =>
    apply (argumentsInOrder (C := fun v => isConnective v = false) (fun _ hv => hv)
      ⟨h.appCont, h.done, ⟨_, hlist⟩, hf⟩).mono
    intro u hu
    refine ⟨hu.1, fun v t hdel => ?_⟩
    have hdel' : (contextMachine pf R).Delivers OperandValue u v t :=
      ⟨hdel.run, hdel.returning, hdel.stack, hdel.val.1⟩
    exact (hu.2 v t hdel' hdel.val.2).mono fun _ hrest => .inr ⟨id, hrest⟩

/-- A form over a proper list whose operands have values gets done with them. -/
theorem AtOperation.completed (h : AtOperation op es NIL s)
    (hval : ∀ e ∈ op.operands es, ∀ t, (contextMachine pf R).Reaches s t →
      (op.form pf s.1.K.contents s.1.currEnv).starts e t →
      HasValue pf R (op.form pf s.1.K.contents s.1.currEnv) t) :
    (contextMachine pf R).Leads (op.form pf s.1.K.contents s.1.currEnv).live
      (op.Completed s.1.K.contents) s := by
  have hlaw := @h.law pf R
  rw [← Operation.live_eq (E := s.1.currEnv)] at hlaw
  apply (hlaw.reaches .refl).bind
  intro u hu
  refine (hu.1.leads hu.2 ?_).mono fun w hover => op.completed_of_over hover
  intro e he t hreach hstart
  apply ((hval e he t hreach hstart).mono_live fun _ hlive => hlive.1).mono
  intro w hw
  obtain ⟨v, hdel⟩ := hw
  exact ⟨v, hdel.run, hdel.returning, hdel.stack, hdel.val.1⟩

/-! ## Improper lists -/

/-- `progn`, `and` and `or` over an improper list, with room for the first frame and an end that is
not refused. -/
theorem AtOperation.keepsOn (h : AtOperation op es d s) (hd : d ≠ NIL)
    (hop : op.isApplication = false) (hrefuses : op.refuses d = false) (hroom : ¬op.NoRoom s)
    (hval : ∀ e ∈ op.operands es, ∀ t, (contextMachine pf R).Reaches s t →
      (op.form pf s.1.K.contents s.1.currEnv).starts e t →
      HasValue pf R (op.form pf s.1.K.contents s.1.currEnv) t) :
    (contextMachine pf R).KeepsOn (fun t => ∃ v, ReturnsTo s.1.K.contents v t) s := by
  obtain ⟨is, hwalk⟩ := h.walk
  have hok : op.refuses (cdr s.2.heap s.1.currExp) = false := hwalk.refuses_eq hrefuses
  unfold Operation.NoRoom at hroom
  push Not at hroom
  obtain ⟨m, hm⟩ := hroom
  have hpush : pushAll { plainOutside with malloc := m }.malloc s.1.K (op.entry s).words
      = (true, (pushAll m s.1.K (op.entry s).words).2) := Prod.ext (by simpa using hm) rfl
  refine .of_steps ⟨_, h.step_entered hd hok hpush⟩ fun t ht => ?_
  obtain ⟨io, K, hpush, rfl⟩ := (@h.enters pf R s.1.K.contents _ _ _ _ hd hok).2 t ht
  cases op with
  | progn =>
    obtain ⟨ws', d', hwalks, hcases⟩ := h.progn_walks hd hpush ht hval
    refine keepsOn_of_walks hwalks hop ?_
    rcases hcases with ⟨rfl, -⟩ | ⟨-, -, rfl⟩
    · exact hrefuses
    · decide
  | connective op => exact h.connective_keepsOn hd hpush ht hval
  | application f hf => exact absurd hop.symm Bool.false_ne_true

/-- An application runs out of stack, `progn` meets the end that it refuses, and a form without room
for its first frame does not even start. -/
theorem AtOperation.fails (h : AtOperation op es d s) (hd : d ≠ NIL)
    (hcond : op.isApplication = true ∨ op.refuses d = true ∨ op.NoRoom s)
    (hval : ∀ e ∈ op.operands es, ∀ t, (contextMachine pf R).Reaches s t →
      (op.form pf s.1.K.contents s.1.currEnv).starts e t →
      HasValue pf R (op.form pf s.1.K.contents s.1.currEnv) t) :
    (contextMachine pf R).Ends (Within pf s.1.K.contents) s := by
  obtain ⟨is, hwalk⟩ := h.walk
  rcases hcond with happ | hrefused | hroom
  · cases op with
    | application f hf =>
      exact h.ends hd rfl fun io K hpush hstep =>
        ends_of_application (h.application_walks hd hpush hstep hval)
    | _ => exact absurd happ Bool.false_ne_true
  · cases op with
    | progn =>
      cases hok : symreprIsError (cdr s.2.heap s.1.currExp) with
      -- The whole list of forms is the refused end already.
      | true => exact h.refused hd hok
      | false =>
        refine h.ends hd hok fun io K hpush hstep => ?_
        obtain ⟨ws', d', hwalks, ⟨rfl, -⟩ | ⟨rfl, -⟩⟩ := h.progn_walks hd hpush hstep hval
        · exact ends_of_refused hwalks hrefused
        · rw [hwalk.of_nil rfl] at hok
          exact absurd (hok.symm.trans hrefused) Bool.false_ne_true
    | _ => exact absurd hrefused Bool.false_ne_true
  · cases hok : op.refuses (cdr s.2.heap s.1.currExp) with
    | true => exact h.refused hd hok
    | false =>
      refine h.ends hd hok fun io K hpush _ => ?_
      have hfull := hroom io.malloc
      rw [hpush] at hfull
      exact absurd hfull Bool.noConfusion

/-- **Over a list that does not end in `nil`, an application fails and the other forms do not**, if
the operands have values: `progn`, `and` and `or` go on for ever or return a value, unless there is
no room for their first frame, or the list ends in a word that `progn` takes for an error. Over a
proper list every form evaluates its operands by its law, and gets done with them. -/
theorem endsAsListed_iff (h : AtOperation op es d s)
    (hval : ∀ e ∈ op.operands es, ∀ t, (contextMachine pf R).Reaches s t →
      (op.form pf s.1.K.contents s.1.currEnv).starts e t →
      HasValue pf R (op.form pf s.1.K.contents s.1.currEnv) t) :
    (EndsAsListed pf R op es d s
        ↔ d = NIL ∨ op.isApplication = true ∨ op.refuses d = true ∨ op.NoRoom s)
      ∧ (¬EndsAsListed pf R op es d s →
        (contextMachine pf R).KeepsOn (fun t => ∃ v, ReturnsTo s.1.K.contents v t) s) := by
  unfold EndsAsListed
  by_cases hd : d = NIL
  · subst hd
    have hlaw := @h.law pf R
    have hcompleted := h.completed hval
    rw [if_pos rfl, Operation.live_eq]
    rw [Operation.live_eq] at hcompleted
    exact ⟨⟨fun _ => .inl rfl, fun _ => ⟨hlaw, hcompleted⟩⟩, fun hnot =>
      absurd ⟨hlaw, hcompleted⟩ hnot⟩
  rw [if_neg hd]
  obtain ⟨is, hwalk⟩ := h.walk
  -- Where none of the reasons to fail is given, the form keeps on; with one of them it ends.
  have hkeeps (hnot : ¬(d = NIL ∨ op.isApplication = true ∨ op.refuses d = true ∨ op.NoRoom s)) :
      (contextMachine pf R).KeepsOn (fun t => ∃ v, ReturnsTo s.1.K.contents v t) s := by
    push Not at hnot
    obtain ⟨-, hop, hrefuses, hroom⟩ := hnot
    exact h.keepsOn hd (Bool.eq_false_of_not_eq_true hop) (Bool.eq_false_of_not_eq_true hrefuses)
      hroom hval
  refine ⟨⟨fun hends => by_contra fun hnot => ?_, ?_⟩, fun hnot => hkeeps fun hcond => hnot ?_⟩
  · refine (hkeeps hnot).not_ends ?_ hends
    rintro t ⟨v, hret⟩
    exact not_within_of_returns hret
  · rintro (hnil | hcond)
    · exact absurd hnil hd
    · exact h.fails hd hcond hval
  · rcases hcond with hnil | hcond
    · exact absurd hnil hd
    · exact h.fails hd hcond hval

/-- A context that is about to evaluate `(head 1 . 2)`. -/
def dottedOnes (head : VALUE) : EvalContext × Store :=
  let (rest, h) := cons (encI 1#32) (encI 2#32) (evalCpsInit 8).heap
  let (exp, h) := cons head rest h
  ({ program := NIL
     currExp := exp
     currEnv := NIL
     r := NIL
     done := false
     appCont := false
     K := ⟨List.replicate 8 0#32, 0, false, Nat.zero_le _, by decide⟩
     timestamp := 0#32
     sleepUs := 0#32
     id := 0#16 }, { evalCpsInit 8 with heap := h })

theorem walk_dottedOnes {head rest : VALUE}
    (hrest : cdr (dottedOnes head).2.heap (dottedOnes head).1.currExp = rest)
    (hptr : isPtr rest = true ∧ symreprIsError rest = false)
    (hcar : car (dottedOnes head).2.heap rest = encI 1#32)
    (hcdr : cdr (dottedOnes head).2.heap rest = encI 2#32) :
    Walk (dottedOnes head).2.heap (cdr (dottedOnes head).2.heap (dottedOnes head).1.currExp)
      [encI 1#32] (encI 2#32) [ptrIx rest] := by
  rw [hrest, ← hcar]
  refine .step hptr.1 hptr.2 ?_
  rw [hcdr]
  exact .stop (by decide)

/-- `(and 1 . 2)` does not come to an end, or only with a value; `(5 1 . 2)` fails. -/
theorem endsAsListed_iff_dottedOnes :
    ¬EndsAsListed plainPlatform (fun _ _ => True) (.connective .and) [encI 1#32] (encI 2#32)
        (dottedOnes (encSym symreprAnd))
      ∧ (contextMachine plainPlatform (fun _ _ => True)).KeepsOn
        (fun t => ∃ v, ReturnsTo (dottedOnes (encSym symreprAnd)).1.K.contents v t)
        (dottedOnes (encSym symreprAnd))
      ∧ EndsAsListed plainPlatform (fun _ _ => True) (.application (encI 5#32) (by decide))
        [encI 1#32] (encI 2#32) (dottedOnes (encI 5#32)) := by
  have hand : AtOperation (.connective .and) [encI 1#32] (encI 2#32)
      (dottedOnes (encSym symreprAnd)) :=
    ⟨rfl, rfl, by decide, by decide, _,
      walk_dottedOnes rfl (by decide) (by decide) (by decide)⟩
  have hfive : AtOperation (.application (encI 5#32) (by decide)) [encI 1#32] (encI 2#32)
      (dottedOnes (encI 5#32)) :=
    ⟨rfl, rfl, by decide, by decide, _,
      walk_dottedOnes rfl (by decide) (by decide) (by decide)⟩
  obtain ⟨hiff, hkeeps⟩ := @endsAsListed_iff plainPlatform (fun _ _ => True) _ _ _ _ hand
    fun e he t _ hstart => by
      obtain rfl := List.mem_singleton.mp he
      have heval : Evaluates _ _ (encI 1#32) t := hstart
      refine hasValue_of_self heval (fun io => stepCtx_integer heval.appCont ?_) fun _ => by decide
      rw [heval.exp]
      decide
  have hnot : ¬EndsAsListed plainPlatform (fun _ _ => True) (.connective .and) [encI 1#32]
      (encI 2#32) (dottedOnes (encSym symreprAnd)) := by
    rw [hiff]
    rintro (hnil | happ | hrefused | hroom)
    · exact absurd hnil (by decide)
    · exact absurd happ (by decide)
    · exact absurd hrefused (by decide)
    · exact absurd (hroom plainOutside.malloc) (by decide)
  refine ⟨hnot, hkeeps hnot, ?_⟩
  refine (endsAsListed_iff hfive fun e he t _ hstart => ?_).1.mpr (.inr (.inl rfl))
  have heval : Evaluates _ _ e t := hstart
  -- the operator is a number as well
  have hint : typeOf e = valTypeI ∧ isConnective e = false := by
    rcases List.mem_cons.mp he with rfl | he
    · decide
    · rw [List.mem_singleton.mp he]
      decide
  refine hasValue_of_self heval (fun io => stepCtx_integer heval.appCont ?_) fun _ => hint.2
  rw [heval.exp]
  exact hint.1

end

end LispBM
