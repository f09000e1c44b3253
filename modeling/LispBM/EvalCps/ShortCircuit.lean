import LispBM.EvalCps.Discipline
import LispBM.EvalCps.Operands

/-!
# LispBM — `and`, `or` and `if` in the concurrent evaluator (`src/eval_cps.c`)

`and` and `or` are symbols in operator position that `APPLICATION_ARGS` recognises when the
operator has been evaluated; it goes on with a frame of their own in place of that of the
application.

* `connective_inOrder` — the operands are evaluated from left to right in the environment of the
  form, up to the first one that decides;
* `branchesOnNil_iff` — `if` agrees with them about what is false for the values `nil` and `t`
  only: it takes its first branch for `t`, and the other one for everything else.
-/

namespace LispBM

open FrameStack Machine

/-! ## The two operators -/

inductive Connective where
  | and
  | or

namespace Connective

def sym : Connective → UINT
  | and => symreprAnd
  | or => symreprOr

/-- The value decides the form. -/
def stops : Connective → VALUE → Bool
  | and, v => isSymbolNil v
  | or, v => !isSymbolNil v

/-- The value without operands. -/
def unit : Connective → VALUE
  | and => encSym symreprTrue
  | or => encSym symreprNil

def frame : Connective → VALUE → VALUE → Frame
  | and => .and
  | or => .or

@[simp] theorem words_frame (op : Connective) (E rest : VALUE) :
    (op.frame E rest).words = [E, rest, encU (op.frame E rest).tag] := by
  cases op <;> rfl

/-- The code answers `nil` with a word of its own. -/
def SameValue (v w : VALUE) : Prop := w = v ∨ isSymbolNil v = true ∧ isSymbolNil w = true

/-- The law of the operator in the environment `E`, above the stack `k`. -/
def form (op : Connective) (pf : Platform) (k : List UINT) (E : VALUE) :
    Form (EvalContext × Store) VALUE VALUE where
  live := FormLive pf k
  starts := Evaluates k E
  val := OperandValue
  stops v := op.stops v = true
  exit v u := ∃ w, SameValue v w ∧ ReturnsTo k w u
  finish vs u := ∃ w, SameValue (vs.getLastD op.unit) w ∧ ReturnsTo k w u

end Connective

/-- The context is about to evaluate a form with the symbol `sym` for operator. -/
structure AtForm (sym : UINT) (es : List VALUE) (s : EvalContext × Store) : Prop where
  appCont : s.1.appCont = false
  done : s.1.done = false
  list : ∃ is, ListOf s.2.heap s.1.currExp (encSym sym :: es) is

/-! ## Steps -/

section

variable {pf : Platform} {io : Outside} {R : Store → Store → Prop} {k : List UINT} {c : EvalContext}
  {st : Store} {E rest e : VALUE} {es vs : List VALUE} {is : List Nat} {op : Connective}

/-- The operands `es` are left, with a frame of the operator on the stack; or the form has its
value. -/
def AtOperand (op : Connective) (pf : Platform) (k : List UINT) (E : VALUE) :
    List VALUE → List VALUE → EvalContext × Store → Prop
  | [], vs, s => (op.form pf k E).finish vs s
  | e :: es, _, s => ∃ rest is, Evaluates k E e s ∧ s.1.K.contents = k ++ (op.frame E rest).words
      ∧ ListOf s.2.heap rest es is

/-- An operand is evaluated, with a frame for the others. -/
theorem evalOperand_running (hK : c.K.contents = k) (hroom : c.K.sp + 3 ≤ c.K.data.length)
    (ha : c.appCont = false) (hd : c.done = false) :
    ∃ c', evalOperand io c (op.frame E rest).tag E rest st = (.running c', st, false)
      ∧ Evaluates k E (car st.heap rest) (c', st)
      ∧ c'.K.contents = k ++ (op.frame E (cdr st.heap rest)).words := by
  obtain ⟨K, hpush, hcontents⟩ := @exists_pushAll_of_room io.malloc _
    [E, cdr st.heap rest, encU (op.frame E rest).tag] hroom
  unfold evalOperand
  rw [hpush]
  have htag : (op.frame E rest).tag = (op.frame E (cdr st.heap rest)).tag := by cases op <;> rfl
  rw [hK] at hcontents
  refine ⟨_, rfl, ⟨ha, hd, rfl, rfl, ?_⟩, ?_⟩
  · rw [hcontents]
    exact List.prefix_append _ _
  · rw [hcontents, op.words_frame, htag]

theorem evalOperand_atOperand (hK : c.K.contents = k) (hroom : c.K.sp + 3 ≤ c.K.data.length)
    (ha : c.appCont = false) (hd : c.done = false) (hlist : ListOf st.heap rest (e :: es) is) :
    ∃ c', evalOperand io c (op.frame E rest).tag E rest st = (.running c', st, false)
      ∧ AtOperand op pf k E (e :: es) vs (c', st) := by
  obtain ⟨c', hstep, heval, hstack⟩ := @evalOperand_running io k c st E rest op hK hroom ha hd
  cases hlist with
  | cons hty hrest => exact ⟨c', hstep, _, _, heval, hstack, hrest⟩

theorem isSymbolNil_eq (v : VALUE) :
    (typeOf v == valTypeSymbol && decSym v == symreprNil) = isSymbolNil v := rfl

theorem not_isSymbolNil_eq (v : VALUE) :
    (typeOf v != valTypeSymbol || decSym v != symreprNil) = !isSymbolNil v := by
  rw [← isSymbolNil_eq, Bool.not_and]
  rfl

/-- No operand is left. -/
theorem ListOf.isNil_eq (hlist : ListOf st.heap rest es is) :
    (typeOf rest == valTypeSymbol && rest == NIL) = es.isEmpty := by
  cases hlist with
  | nil => rfl
  | cons hty _ =>
    have hcons : (ptrTypeCons == valTypeSymbol) = false := by decide
    rw [hty, hcons]
    rfl

/-- `AND` and `OR`, with their frames popped. -/
theorem contSwitch_connective {K K₁ K₂ : Stack} (hpop₁ : popU32 K = some (rest, K₁))
    (hpop₂ : popU32 K₁ = some (E, K₂)) :
    ∃ w, Connective.SameValue c.r w
      ∧ contSwitch pf io (op.frame E rest).tag (c.resumed K) st
        = if op.stops c.r || (typeOf rest == valTypeSymbol && rest == NIL) then
            some (.running { c.resumed K₂ with appCont := true, r := w }, st, false)
          else some (evalOperand io (c.resumed K₂) (op.frame E rest).tag E rest st) := by
  cases op with
  | and =>
    have hcase : contSwitch pf io (Connective.and.frame E rest).tag (c.resumed K) st
        = contAndCase io (c.resumed K) st := rfl
    have hstops : Connective.and.stops c.r = isSymbolNil c.r := rfl
    rw [hcase, hstops]
    unfold contAndCase
    simp only [EvalContext.resumed, hpop₁, hpop₂, Option.bind_eq_bind, Option.bind_some,
      isSymbolNil_eq]
    cases hr : isSymbolNil c.r with
    | true => exact ⟨encSym symreprNil, .inr ⟨hr, rfl⟩, by simp⟩
    | false => exact ⟨c.r, .inl rfl, by simp [Frame.tag, Connective.frame]⟩
  | or =>
    have hcase : contSwitch pf io (Connective.or.frame E rest).tag (c.resumed K) st
        = contOrCase io (c.resumed K) st := rfl
    have hstops : Connective.or.stops c.r = !isSymbolNil c.r := rfl
    rw [hcase, hstops]
    unfold contOrCase
    simp only [EvalContext.resumed, hpop₁, hpop₂, Option.bind_eq_bind, Option.bind_some,
      not_isSymbolNil_eq]
    cases hr : isSymbolNil c.r with
    | true => exact ⟨encSym symreprNil, .inr ⟨hr, rfl⟩, by simp [Frame.tag, Connective.frame]⟩
    | false => exact ⟨c.r, .inl rfl, by simp⟩

/-- A step from the frame of the operator, whatever is left of its operands. -/
theorem stepCtx_connective (ha : c.appCont = true)
    (hK : c.K.contents = k ++ (op.frame E rest).words) :
    ∃ K w, K.contents = k ∧ K.sp + 3 ≤ K.data.length ∧ Connective.SameValue c.r w
      ∧ stepCtx pf io c st
        = if op.stops c.r || (typeOf rest == valTypeSymbol && rest == NIL) then
            some (.running { c.resumed K with appCont := true, r := w }, st, false)
          else some (evalOperand io (c.resumed K) (op.frame E rest).tag E rest st) := by
  obtain ⟨K, hpop, hK₁, hstep⟩ := stepCtx_of_frame ha hK
  have hpayload : (op.frame E rest).payload = [E, rest] := by cases op <;> rfl
  rw [hpayload] at hK₁
  obtain ⟨K₁, K₂, hpop₁, hpop₂, hK₂⟩ := popU32_two_of_contents hK₁
  have hroom : K₂.sp + 3 ≤ K₂.data.length := by
    have := sp_popU32 hpop
    have := sp_popU32 hpop₁
    have := sp_popU32 hpop₂
    have := c.K.sp_le
    rw [data_popU32 hpop₂, data_popU32 hpop₁, data_popU32 hpop]
    omega
  obtain ⟨w, hw, hcase⟩ := @contSwitch_connective pf io c st _ _ op _ _ _ hpop₁ hpop₂
  exact ⟨K₂, w, hK₂, hroom, hw, (hstep pf io st).trans hcase⟩

/-- A step from the frame of the operator: the form has its value, if the one that is handed on
decides or is the last, or else the next operand is evaluated. -/
theorem connective_step (ha : c.appCont = true) (hd : c.done = false)
    (hK : c.K.contents = k ++ (op.frame E rest).words) (hlist : ListOf st.heap rest es is) :
    ∃ c', stepCtx pf io c st = some (.running c', st, false)
      ∧ if op.stops c.r || es.isEmpty then ∃ w, Connective.SameValue c.r w ∧ ReturnsTo k w (c', st)
        else AtOperand op pf k E es (vs ++ [c.r]) (c', st) := by
  obtain ⟨K, w, hK', hroom, hw, hstep⟩ := @stepCtx_connective pf io k c st E rest op ha hK
  rw [hstep, hlist.isNil_eq]
  cases hdone : op.stops c.r || es.isEmpty with
  | true => exact ⟨_, rfl, w, hw, rfl, hd, hK', rfl⟩
  | false =>
    cases es with
    | nil => simp at hdone
    | cons e es =>
      obtain ⟨c', hnext, hat⟩ := @evalOperand_atOperand pf io _ (c.resumed K) _ _ _ _ _
        (vs ++ [c.r]) _ op hK' hroom rfl hd hlist
      exact ⟨c', congrArg some hnext, hat⟩

/-- `APPLICATION_ARGS` with a short-circuiting operator. -/
theorem contSwitch_operator {K K₁ K₂ K₃ : Stack} {count : VALUE}
    (hr : c.r = encSym op.sym) (hpop₁ : popU32 K = some (rest, K₁))
    (hpop₂ : popU32 K₁ = some (count, K₂)) (hpop₃ : popU32 K₂ = some (E, K₃)) :
    contSwitch pf io contApplicationArgs (c.resumed K) st
      = if typeOf rest == valTypeSymbol && rest == NIL then
          some (.running { c.resumed K₃ with appCont := true, r := op.unit }, st, false)
        else some (evalOperand io (c.resumed K₃) (op.frame E rest).tag E rest st) := by
  have hcase : contSwitch pf io contApplicationArgs (c.resumed K) st
      = contApplicationArgsCase io (c.resumed K) st := rfl
  rw [hcase]
  unfold contApplicationArgsCase
  simp only [EvalContext.resumed, hpop₁, hpop₂, hpop₃, Option.bind_eq_bind, Option.bind_some, hr]
  cases op with
  | and =>
    have hand : (typeOf (encSym Connective.and.sym) == valTypeSymbol
        && decSym (encSym Connective.and.sym) == symreprAnd) = true := by decide
    rw [if_pos hand]
    rfl
  | or =>
    have hand : (typeOf (encSym Connective.or.sym) == valTypeSymbol
        && decSym (encSym Connective.or.sym) == symreprAnd) = false := by decide
    have hor : (typeOf (encSym Connective.or.sym) == valTypeSymbol
        && decSym (encSym Connective.or.sym) == symreprOr) = true := by decide
    rw [hand, if_neg (by decide), if_pos hor]
    rfl

/-- The operator has been evaluated. -/
theorem stepCtx_operator (ha : c.appCont = true) (hr : c.r = encSym op.sym)
    (hK : c.K.contents = k ++ (Frame.applicationArgs [] E rest).words) :
    ∃ K, K.contents = k ∧ K.sp + 3 ≤ K.data.length
      ∧ stepCtx pf io c st
        = if typeOf rest == valTypeSymbol && rest == NIL then
            some (.running { c.resumed K with appCont := true, r := op.unit }, st, false)
          else some (evalOperand io (c.resumed K) (op.frame E rest).tag E rest st) := by
  obtain ⟨K, hpop, hK₁, hstep⟩ := stepCtx_of_frame ha hK
  obtain ⟨K₁, K₂, K₃, hpop₁, hpop₂, hpop₃, hK₃⟩ := popU32_three_of_contents (s := K) (k := k)
    (a := E) (b := encU 0#32) (c := rest) hK₁
  have hroom : K₃.sp + 3 ≤ K₃.data.length := by
    have := sp_popU32 hpop
    have := sp_popU32 hpop₁
    have := sp_popU32 hpop₂
    have := sp_popU32 hpop₃
    have := c.K.sp_le
    rw [data_popU32 hpop₃, data_popU32 hpop₂, data_popU32 hpop₁, data_popU32 hpop]
    omega
  have hcase := @contSwitch_operator pf io c st _ _ op _ _ _ _ _ hr hpop₁ hpop₂ hpop₃
  exact ⟨K₃, hK₃, hroom, (hstep pf io st).trans hcase⟩

theorem connective_start (ha : c.appCont = true) (hd : c.done = false)
    (hr : c.r = encSym op.sym) (hK : c.K.contents = k ++ (Frame.applicationArgs [] E rest).words)
    (hlist : ListOf st.heap rest es is) :
    ∃ c', stepCtx pf io c st = some (.running c', st, false)
      ∧ AtOperand op pf k E es [] (c', st) := by
  obtain ⟨K, hK', hroom, hstep⟩ := @stepCtx_operator pf io k c st E rest op ha hr hK
  rw [hstep, hlist.isNil_eq]
  cases es with
  | nil => exact ⟨_, rfl, op.unit, .inl rfl, rfl, hd, hK', rfl⟩
  | cons e es =>
    obtain ⟨c', hnext, hat⟩ := @evalOperand_atOperand pf io _ (c.resumed K) _ _ _ _ _ [] _ op hK'
      hroom rfl hd hlist
    exact ⟨c', congrArg some hnext, hat⟩

end

/-! ## The law -/

section

variable {pf : Platform} {R : Store → Store → Prop} {k : List UINT} {E : VALUE} {es vs : List VALUE}
  {s : EvalContext × Store} {op : Connective}

theorem restWord_of_words {c : EvalContext} {rest : VALUE}
    (hK : c.K.contents = k ++ (op.frame E rest).words) : restWord c = rest := by
  rw [restWord, hK, op.words_frame]
  simp

/-- What one delivery does: the invariant of the operands that are left is kept. -/
theorem AtOperand.next {e v : VALUE} {t : EvalContext × Store}
    (h : AtOperand op pf k E (e :: es) vs s)
    (hdel : (contextMachine pf R).Delivers OperandValue s v t) :
    (contextMachine pf R).Leads ((contextMachine pf R).Between (op.form pf k E))
      (fun u => (op.form pf k E).stops v ∧ (op.form pf k E).exit v u
        ∨ ¬(op.form pf k E).stops v ∧ AtOperand op pf k E es (vs ++ [v]) u) t := by
  obtain ⟨rest, is, heval, hK, hlist⟩ := h
  obtain ⟨rfl, hdone, hkeeps⟩ := hdel.val
  have hKt : t.1.K.contents = k ++ (op.frame E rest).words := hdel.stack.trans hK
  have hlist' : ListOf t.2.heap rest es is := by
    apply hlist.congr
    rw [← restWord_of_words hK] at hlist
    exact hkeeps es is hlist
  apply leads_of_step hdone (between_of_frame rfl hdel.returning hKt)
  intro io
  obtain ⟨c', hstep, hnext⟩ := @connective_step pf io _ _ _ _ _ _ vs _ _ hdel.returning hdone
    hKt hlist'
  refine ⟨_, hstep, .inr ⟨c', rfl, .here ?_⟩⟩
  cases hstops : op.stops t.1.r with
  | true =>
    rw [hstops, Bool.true_or, if_pos rfl] at hnext
    exact .inl ⟨hstops, hnext⟩
  | false =>
    rw [hstops, Bool.false_or] at hnext
    have hnot : ¬(op.form pf k E).stops t.1.r := by
      show ¬op.stops t.1.r = true
      rw [hstops]
      decide
    refine .inr ⟨hnot, ?_⟩
    cases es with
    | nil =>
      obtain ⟨w, hw, hret⟩ := hnext
      refine ⟨w, ?_, hret⟩
      rw [List.getLastD_concat]
      exact hw
    | cons e es => exact hnext

/-- **`and` and `or` evaluate their operands in order**, up to the first one that decides. -/
theorem connective_inOrder (h : AtForm op.sym es s) :
    (contextMachine pf R).Leads (FormLive pf s.1.K.contents)
      ((contextMachine pf R).InOrder (op.form pf s.1.K.contents s.1.currEnv) es []) s := by
  obtain ⟨is, hlist⟩ := h.list
  obtain ⟨hty, hhead, js, -, hrest⟩ := hlist.uncons
  have hspecial : isSpecialForm (encSym op.sym) = false ∧ isSpecial (encSym op.sym) = true := by
    cases op <;> decide
  apply leads_of_application h.appCont h.done hty (by rw [hhead]; exact hspecial.1)
  intro c hat
  rw [hhead] at hat
  -- the operator is its own value
  apply leads_of_step hat.done (formLive_of_frame hat.stack)
  intro io
  have hself := @stepCtx_special pf io _ s.2 hat.appCont
    (by rw [hat.exp]; exact hspecial.2)
  refine ⟨_, hself, .inr ⟨_, rfl, ?_⟩⟩
  -- and takes the operands over
  apply leads_of_step hat.done (formLive_of_frame (f := .applicationArgs [] _ _) hat.stack)
  intro io
  obtain ⟨c', hstep, hstart⟩ := @connective_start pf io _
    ({ c with r := c.currExp, appCont := true }) s.2 _ _ _ _ op rfl hat.done hat.exp hat.stack hrest
  refine ⟨_, hstep, .inr ⟨c', rfl, .here ?_⟩⟩
  refine InOrder.of_invariant (I := AtOperand op pf s.1.K.contents s.1.currEnv) ?_ ?_ ?_ hstart
  · exact fun _ _ hI => hI
  · intro e es vs u hI
    obtain ⟨rest, is, heval, -⟩ := hI
    exact heval
  · exact fun _ _ _ _ _ _ hI hdel => hI.next hdel

/-! ## `if` -/

/-- `if` takes the value `v` for what the operators take it for: the context goes on with the else
branch if `v` is `nil`, and with the other one if not. -/
def BranchesOnNil (pf : Platform) (v : VALUE) : Prop :=
  ∀ (c : EvalContext) (st : Store) (k : List UINT) (elseBranch thenBranch : VALUE),
    c.appCont = true → c.K.contents = k ++ (Frame.ifBranches elseBranch thenBranch).words →
      c.r = v →
      ∀ io, ∃ c', stepCtx pf io c st = some (.running c', st, false) ∧ c'.K.contents = k
        ∧ c'.appCont = false
        ∧ c'.currExp = if isSymbolNil v then elseBranch else thenBranch

def isSymbolTrue (v : VALUE) : Bool := isSymbol v && decSym v == symreprTrue

theorem contIf_step {c : EvalContext} {st : Store} {io : Outside} {elseBranch thenBranch : VALUE}
    (ha : c.appCont = true)
    (hK : c.K.contents = k ++ (Frame.ifBranches elseBranch thenBranch).words) :
    ∃ c', stepCtx pf io c st = some (.running c', st, false) ∧ c'.K.contents = k
      ∧ c'.appCont = false
      ∧ c'.currExp = if isSymbolTrue c.r then thenBranch else elseBranch := by
  obtain ⟨K, hpop, hK₁, hstep⟩ := stepCtx_of_frame ha hK
  obtain ⟨K₁, K₂, hpop₁, hpop₂, hK₂⟩ := popU32_two_of_contents hK₁
  have hcase : contSwitch pf io contIf (c.resumed K) st = contIfCase (c.resumed K) st := rfl
  have htrue : (typeOf c.r == valTypeSymbol && decSym c.r == symreprTrue) = isSymbolTrue c.r := rfl
  rw [hstep]
  show ∃ c', contSwitch pf io contIf (c.resumed K) st = _ ∧ _
  rw [hcase]
  unfold contIfCase
  simp only [EvalContext.resumed, hpop₁, hpop₂, Option.bind_eq_bind, Option.bind_some, htrue]
  cases isSymbolTrue c.r with
  | true => exact ⟨_, rfl, hK₂, rfl, rfl⟩
  | false => exact ⟨_, rfl, hK₂, rfl, rfl⟩

/-- A context that is about to hand `v` to an `if` with the branches 0 and 1. -/
def ifContext (v : VALUE) : EvalContext where
  program := NIL
  currExp := NIL
  currEnv := NIL
  r := v
  done := false
  appCont := true
  K := ⟨(Frame.ifBranches 0#32 1#32).words, 3, false, le_rfl, by decide⟩
  timestamp := 0#32
  sleepUs := 0#32
  id := 0#16

/-- `if` and the operators agree about `nil` and `t`, and about no other value. -/
theorem branchesOnNil_iff (pf : Platform) (v : VALUE) :
    BranchesOnNil pf v ↔ isSymbolNil v = true ∨ isSymbolTrue v = true := by
  constructor
  · intro h
    obtain ⟨c', hstep, -, -, hexp⟩ :=
      h (ifContext v) (evalCpsInit 8) [] 0#32 1#32 rfl rfl rfl plainOutside
    obtain ⟨c'', hstep', -, -, hexp'⟩ := @contIf_step pf [] (ifContext v) (evalCpsInit 8)
      plainOutside 0#32 1#32 rfl rfl
    obtain rfl : c' = c'' := by
      have := Option.some.inj (hstep.symm.trans hstep')
      simpa using this
    rw [hexp] at hexp'
    cases hnil : isSymbolNil v with
    | true => exact .inl rfl
    | false =>
      cases htrue : isSymbolTrue v with
      | true => exact .inr rfl
      | false =>
        -- the first branch is due, and the other one is taken
        have hr : isSymbolTrue (ifContext v).r = false := htrue
        rw [hnil, hr] at hexp'
        exact absurd hexp' (by decide)
  · intro h c st k elseBranch thenBranch ha hK hr io
    obtain ⟨c', hstep, hK', ha', hexp⟩ := @contIf_step pf _ _ st io _ _ ha hK
    refine ⟨c', hstep, hK', ha', ?_⟩
    rw [hexp, hr]
    rcases h with hnil | htrue
    · have hnot : isSymbolTrue v = false := by
        simp only [isSymbolNil, isSymbolTrue, Bool.and_eq_true, beq_iff_eq] at hnil ⊢
        rw [hnil.2]
        simp [symreprNil, symreprTrue]
      rw [hnil, hnot]
      rfl
    · have hnot : isSymbolNil v = false := by
        simp only [isSymbolNil, isSymbolTrue, Bool.and_eq_true, beq_iff_eq] at htrue ⊢
        rw [htrue.2]
        simp [symreprNil, symreprTrue]
      rw [htrue, hnot]
      rfl

end

end LispBM
