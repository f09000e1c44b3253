import LispBM.EcEval.Allocation
import LispBM.EcEval.Operands
import LispBM.EvalCps.Arguments

/-!
# LispBM — arguments in the explicit-control evaluator (`src/ec_eval.c`)

The values of the operands are collected in a list, the last one first, which is reversed in the
end. The first operand, the last one and the ones between take different ways, and there is one
more for forms without operands.

* `argumentsInOrder` — the operands are evaluated in order and handed to the function;
* `called` — closures, fundamental operations and extensions get these values.

Where this goes wrong: only a symbol is looked for in front of an empty list of operands, so that
in `((lambda () 1))` the operand `nil` is evaluated; when the list cannot be reversed the function
is applied all the same; and a closure is entered whatever the number of its parameters.
-/

namespace LispBM

namespace EcEval

open FrameStack Machine

/-! ## Operands -/

/-- The head of a form that is no application. -/
def isSpecialForm (head : VALUE) : Bool :=
  typeOf head == valTypeSymbol
    && (decSym head == symreprAnd || decSym head == symreprOr || decSym head == symreprQuote
      || decSym head == symreprDefine || decSym head == symreprProgn || decSym head == symreprLambda
      || decSym head == symreprIf || decSym head == symreprLet)

/-- `f` is about to be applied to `args`, with the stack `k` and the continuation `c`. -/
structure Calling (k : List UINT) (c f : VALUE) (args : List VALUE) (s : State) : Prop where
  es : s.es = .evalApplyDispatch
  done : s.done = false
  pushLost : s.pushLost = false
  fn : s.fun' = f
  argl : Holding s.store.heap s.argl args
  walk : args.length < walkFuel s.store.heap
  stack : s.S.contents = k ++ [c]

/-- The value of an operand. Its evaluation has kept the lists that are on the stack above `k`. -/
structure HeldValue (k : List UINT) (s t : State) (v : VALUE) : Prop where
  val : t.val = v
  done : t.done = false
  pushLost : t.pushLost = false
  free : ∃ l, FreeList t.store.heap l
  held : ∀ w ∈ s.S.contents.drop k.length, ∀ ws, Holding s.store.heap w ws →
    Holding t.store.heap w ws

/-- The law of the operands; `C` is asked of the states in which their values are delivered. -/
def argumentsForm (pf : Platform) (k : List UINT) (c E : VALUE) (C : State → Prop) :
    Form State VALUE VALUE where
  live := FormLive pf k
  starts := Evaluates k E
  val s t v := HeldValue k s t v ∧ C t
  stops _ := False
  exit _ _ := False
  finish vs u := ∃ f args, vs = f :: args ∧ Calling k c f args u

/-- An application of `head` to `operands` is dispatched. -/
structure AtCall (head : VALUE) (operands : List VALUE) (s : State) : Prop where
  es : s.es = .evalDispatch
  done : s.done = false
  pushLost : s.pushLost = false
  cont : s.cont ≠ Continuation.contError.enc
  list : Holding s.store.heap s.exp (head :: operands)
  application : isSpecialForm head = false

/-- The operator is evaluated, then the operands from left to right, each of them once; then the
value of the operator is applied to the values of the operands. -/
def ArgumentsInOrder (pf : Platform) (C : State → Prop) (head : VALUE) (operands : List VALUE)
    (s : State) : Prop :=
  (ecMachine pf).Leads (FormLive pf s.S.contents)
    (fun u => Evaluates s.S.contents s.env head u
      ∧ ∀ f t, (ecMachine pf).Delivers (HeldValue s.S.contents) u f t →
        (ecMachine pf).Leads
          ((ecMachine pf).Between (argumentsForm pf s.S.contents s.cont s.env C))
          ((ecMachine pf).InOrder (argumentsForm pf s.S.contents s.cont s.env C) operands [f]) t) s

/-! ### Collections on the way -/

/-- What `cont_accumulate_arg` pops. -/
def popArgument (s : State) : Option State := do
  let (unev, S) ← popU32 s.S
  let (env, S) ← popU32 S
  let (argl, S) ← popU32 S
  some { s with unev := unev, env := env, argl := argl, S := S }

/-- What `cont_accumulate_last_arg` pops before it collects the argument. -/
def popLastArgument (s : State) : Option State :=
  (popU32 s.S).map fun (argl, S) => { s with argl := argl, S := S }

def consArgument (s : State) (h : HeapState) : Option (VALUE × HeapState) :=
  some (cons s.val s.argl h)

/-- The cells last for the reversed list, if need be after a collection. -/
def Reverses (s : State) : Prop :=
  RetriesExactly s (reverse s.argl)
    ∧ ∀ v s', allocWithGc s (onHeap (reverse s.argl)) = some (v, s') → isSymbolMerror v = false

/-- When an argument is collected, the collector finds the heap in order and does not run out of
its stack, and the cells last for the reversed list. -/
structure TakesIn (t : State) : Prop where
  arg : t.cont = Continuation.contAccumulateArg.enc → ∀ s, popArgument t = some s →
    RetriesExactly s (consArgument s)
  lastArg : t.cont = Continuation.contAccumulateLastArg.enc → ∀ s, popLastArgument t = some s →
    RetriesExactly s (consArgument s)
      ∧ ∀ argl s', allocWithGc s (onHeap (consArgument s)) = some (argl, s') →
        isSymbolMerror argl = false → Reverses { s' with argl := argl }

section

variable {pf : Platform} {m : Malloc} {k : List UINT} {s t : State} {c E f argl unev v : VALUE}
  {es vs args : List VALUE} {e : VALUE}

/-- The operands `es` are left, and the values `vs` are there; or the values are applied. -/
def AtArgument (k : List UINT) (c E : VALUE) : List VALUE → List VALUE → State → Prop
  | [], vs, s => ∃ f args, vs = f :: args ∧ Calling k c f args s
  | [e], vs, s => ∃ f args argl, vs = f :: args ∧ Evaluates k E e s
      ∧ Dispatched k c E (.accumulateLastArg f argl) s ∧ Holding s.store.heap argl args.reverse
  | e :: es, vs, s => ∃ f args argl unev, vs = f :: args ∧ Evaluates k E e s
      ∧ Dispatched k c E (.accumulateArg f argl E unev) s ∧ Holding s.store.heap argl args.reverse
      ∧ Holding s.store.heap unev (e :: es)

theorem isSymbolNil_of_holding {h : HeapState} (hh : Holding h v vs) :
    isSymbolNil v = vs.isEmpty := by
  obtain ⟨is, l, hlist, -⟩ := hh
  exact hlist.isSymbolNil_eq

/-- `eval_arg_loop`: the next operand. -/
theorem evalArgLoop_atArgument (henv : s.env = E) (hdone : s.done = false)
    (hS : s.S.contents = k ++ [c, f]) (hargl : Holding s.store.heap s.argl args.reverse)
    (hunev : Holding s.store.heap s.unev (e :: es)) :
    (evalArgLoop m s).pushLost = true
      ∨ Undisturbed (evalArgLoop m s)
        ∧ AtArgument k c E (e :: es) (f :: args) (evalArgLoop m s) := by
  obtain ⟨hty, hcar, hrest⟩ := hunev.uncons
  have hlast : lastOperand s.store.heap s.unev = es.isEmpty := isSymbolNil_of_holding hrest
  cases hlost : (evalArgLoop m s).pushLost with
  | true => exact .inl rfl
  | false =>
    right
    unfold evalArgLoop at hlost ⊢
    have hheap : (s.push m [s.argl]).store.heap = s.store.heap := rfl
    -- The last operand is evaluated without the rest of the list in its frame.
    cases es with
    | nil =>
      have hlast : lastOperand (s.push m [s.argl]).store.heap (s.push m [s.argl]).unev = true :=
        hlast
      simp only [hlast, if_true] at hlost ⊢
      have hstack := (contents_push hlost).1
      have hdisp : Dispatched k c E (.accumulateLastArg f s.argl)
          (evalLastArg { s.push m [s.argl] with exp := car s.store.heap s.unev }) := by
        refine ⟨rfl, henv, ?_, rfl, Frame.awaits_of_none rfl⟩
        refine hstack.trans ?_
        rw [hS]
        simp [Frame.onStack]
      refine ⟨undisturbed_of_dispatch rfl hlost, f, args, s.argl, rfl, ?_, hdisp, hargl⟩
      exact ⟨rfl, hdone, hlost, hcar, henv, hdisp.below⟩
    | cons e' es =>
      have hlast : lastOperand (s.push m [s.argl]).store.heap (s.push m [s.argl]).unev = false :=
        hlast
      simp only [hlast, Bool.false_eq_true, if_false] at hlost ⊢
      obtain ⟨hpush₂, hlost₁⟩ := contents_push (m := m) hlost
      have hpush₁ := (contents_push hlost₁).1
      simp only at hpush₁ hpush₂
      have hdisp : Dispatched k c E (.accumulateArg f s.argl E s.unev)
          { { s.push m [s.argl] with exp := car s.store.heap s.unev }.push m [s.env, s.unev] with
            cont := Continuation.contAccumulateArg.enc, es := .evalDispatch } := by
        refine ⟨rfl, henv, hpush₂.trans ?_, rfl, Frame.awaits_of_savedEnv rfl⟩
        rw [hpush₁, hS]
        simp [Frame.onStack, henv, State.push]
      refine ⟨undisturbed_of_dispatch rfl hlost, f, args, s.argl, s.unev, rfl, ?_, hdisp, hargl,
        hunev⟩
      exact ⟨rfl, hdone, hlost, hcar, henv, hdisp.below⟩

/-- `cont_eval_args`: the first operand. -/
theorem contEvalArgs_step {rest : VALUE} (hr : Reads k c t [.evalArgs E rest])
    (hes : t.es = .evalContinuation) (hdone : t.done = false) {l : List Nat}
    (hl : FreeList t.store.heap l) (hrest : Holding t.store.heap rest (e :: es)) :
    ∃ u, ecEvalIteration pf m t = some u
      ∧ (Exhausted u ∨ Undisturbed u ∧ AtArgument k c E (e :: es) [t.val] u) := by
  obtain ⟨S₁, S₂, S₃, hpop₁, hpop₂, hpop₃, hS₃⟩ :=
    popU32_three_of_contents (show t.S.contents = k ++ [c, E, rest] from hr.stack)
  rw [ecEvalIteration_of_reads hr hes]
  show ∃ u, contEvalArgsCase m t = some u ∧ _
  unfold contEvalArgsCase
  simp only [hpop₁, hpop₂, Option.bind_eq_bind, Option.bind_some]
  refine ⟨_, rfl, ?_⟩
  generalize hs : State.push m { t with unev := rest, env := E, fun' := t.val, S := S₂ } [t.val] = s
  generalize hs' : { s with argl := encSym symreprNil } = s'
  -- A push that is lost here is noted in `pushLost` and never taken back.
  cases hlost : (evalArgLoop m s').pushLost with
  | true => exact .inl (.inl hlost)
  | false =>
    have hlost₁ : s'.pushLost = false := evalArgLoop_pushLost hlost
    subst hs'
    have hS : s.S.contents = k ++ [c, t.val] := by
      subst hs
      rw [(contents_push hlost₁).1]
      show S₂.contents ++ [t.val] = _
      rw [contents_of_popU32 hpop₃, hS₃, List.append_assoc]
      rfl
    have hregs : s.env = E ∧ s.done = false ∧ s.store = t.store ∧ s.unev = rest := by
      subst hs
      exact ⟨rfl, hdone, rfl, rfl⟩
    obtain ⟨henv, hdone', hstore, hunev⟩ := hregs
    rw [← hstore] at hl hrest
    rw [← hunev] at hrest
    have hnext := @evalArgLoop_atArgument m _ ({ s with argl := encSym symreprNil }) _ _ _ _ [] _
      henv hdone' hS ⟨[], l, .nil, hl, by simp⟩ hrest
    exact hnext.imp_left .inl

/-- Without operands. -/
theorem contSetupNoArgApply_step (hr : Reads k c t [.setupNoArgApply])
    (hes : t.es = .evalContinuation) (hdone : t.done = false) (hlost : t.pushLost = false)
    {l : List Nat} (hl : FreeList t.store.heap l) :
    ∃ u, ecEvalIteration pf m t = some u ∧ Undisturbed u ∧ Calling k c t.val [] u := by
  rw [ecEvalIteration_of_reads hr hes]
  refine ⟨_, rfl, ⟨hlost, fun h => absurd h (by simp [contSetupNoArgApplyCase])⟩, ?_⟩
  exact ⟨rfl, hdone, hlost, rfl, ⟨[], l, .nil, hl, by simp⟩, Nat.succ_pos _, hr.stack⟩

theorem rooted_argl : Rooted s.store.heap (rootWords (gcCalls s)) s.argl :=
  .root (by simp [rootWords, gcCalls, MarkCall.words])

theorem rooted_unev : Rooted s.store.heap (rootWords (gcCalls s)) s.unev :=
  .root (by simp [rootWords, gcCalls, MarkCall.words])

theorem allocates_consArgument (s : State) : Allocates (consArgument s) := by
  constructor
  · intro h v h' hcons
    have htakes := cons_takes s.val s.argl h
    rwa [(Option.some.inj hcons : cons s.val s.argl h = (v, h'))] at htakes
  · intro h v h' hcons
    have hlen := cons_heap_length s.val s.argl h
    rwa [(Option.some.inj hcons : cons s.val s.argl h = (v, h'))] at hlen

/-- The argument in `val` is put in front of the list. -/
theorem allocWithGc_consArgument {rest : List VALUE} (hgc : RetriesExactly s (consArgument s))
    (hargl : Holding s.store.heap s.argl args) :
    ∃ v h, allocWithGc s (onHeap (consArgument s)) = some (v, withHeap s h)
      ∧ (isSymbolMerror v = true ∨ Holding h v (s.val :: args)
        ∧ (Holding s.store.heap s.unev rest → Holding h s.unev rest)) := by
  obtain ⟨v, h₁, h, halloc, hkeeps, hcons⟩ := allocWithGc_onHeap (allocates_consArgument s)
    (fun _ _ => ⟨_, _, rfl⟩) hgc
  refine ⟨v, h, halloc, ?_⟩
  have hargl₁ := hkeeps.lists rooted_argl hargl
  have hpair : cons s.val s.argl h₁ = (v, h) := Option.some.inj hcons
  obtain ⟨l₁, hl₁⟩ := hargl₁.exists_free
  rcases cons_isSymbol hl₁ s.val s.argl with ⟨hmerror, -⟩ | ⟨hne, -⟩
  · left
    rw [hpair] at hmerror
    rw [show v = encSym symreprMerror from hmerror]
    decide
  · right
    have hnew := hargl₁.cons hne
    rw [hpair] at hnew
    exact ⟨hnew, fun hunev => (hkeeps.lists rooted_unev hunev).takes
      ((allocates_consArgument s).takes hcons)⟩

theorem exhausted_merrorStop : Exhausted (merrorStop s) := .inr ⟨rfl, rfl, rfl⟩

/-- `cont_accumulate_arg`: an argument that is not the last one. -/
theorem contAccumulateArg_step {e' : VALUE} (hr : Reads k c t [.accumulateArg f argl E unev])
    (hes : t.es = .evalContinuation) (hdone : t.done = false) (hgc : TakesIn t)
    (hargl : Holding t.store.heap argl args.reverse)
    (hunev : Holding t.store.heap unev (e :: e' :: es)) :
    ∃ u, ecEvalIteration pf m t = some u
      ∧ (Exhausted u ∨ Undisturbed u ∧ AtArgument k c E (e' :: es) (f :: args ++ [t.val]) u) := by
  have hstack : t.S.contents = k ++ [c, f] ++ [argl, E, unev] := by
    have : t.S.contents = k ++ [c, f, argl, E, unev] := hr.stack
    simpa using this
  obtain ⟨S₁, S₂, S₃, hpop₁, hpop₂, hpop₃, hS₃⟩ := popU32_three_of_contents hstack
  have hpop : popArgument t = some { t with unev := unev, env := E, argl := argl, S := S₃ } := by
    unfold popArgument
    simp only [hpop₁, hpop₂, hpop₃, Option.bind_eq_bind, Option.bind_some]
  have hcase : contAccumulateArgCase m t = (popArgument t).bind fun s =>
      (allocWithGc s (onHeap (consArgument s))).bind fun r =>
        if isSymbolMerror r.1 then some (merrorStop r.2)
        else some (evalArgLoop m
          { r.2 with argl := r.1, unev := cdr r.2.store.heap r.2.unev }) := by
    unfold contAccumulateArgCase
    rw [hpop]
    simp only [hpop₁, hpop₂, hpop₃, Option.bind_eq_bind, Option.bind_some]
    rfl
  rw [ecEvalIteration_of_reads hr hes]
  show ∃ u, contAccumulateArgCase m t = some u ∧ _
  rw [hcase, hpop, Option.bind_some]
  -- The frame is off the stack while the cell is made: `TakesIn` speaks of those roots.
  have hgc := hgc.arg (hr.cont (by simp [hes])) _ hpop
  generalize hs : { t with unev := unev, env := E, argl := argl, S := S₃ } = s at hgc
  have hargl' : Holding s.store.heap s.argl args.reverse := hs ▸ hargl
  obtain ⟨v, h, halloc, hv⟩ := @allocWithGc_consArgument _ _ (e :: e' :: es) hgc hargl'
  rw [halloc, Option.bind_some]
  cases hmerror : isSymbolMerror v with
  | true => exact ⟨_, if_pos rfl, .inl exhausted_merrorStop⟩
  | false =>
    rw [hmerror] at hv
    obtain ⟨hnew, hkept⟩ := hv.resolve_left (by decide)
    subst hs
    have hnext := @evalArgLoop_atArgument m k
      { withHeap { t with unev := unev, env := E, argl := argl, S := S₃ } h
        with argl := v, unev := cdr h unev }
      c E f _ (args ++ [t.val]) _ rfl hdone hS₃
      (by rw [List.reverse_append]; exact hnew) (hkept hunev).uncons.2.2
    exact ⟨_, if_neg (by decide), hnext.imp_left .inl⟩

theorem allocWithGc_reverse (hrev : Reverses s) (hargl : Holding s.store.heap s.argl args) :
    ∃ v h, allocWithGc s (onHeap (reverse s.argl)) = some (v, withHeap s h)
      ∧ isSymbolMerror v = false ∧ Holding h v args.reverse ∧ args.length < walkFuel h := by
  obtain ⟨v, h₁, h, halloc, hkeeps, hv⟩ := allocWithGc_onHeap (allocates_reverse s.argl)
    (fun h hkeeps => by
      obtain ⟨v, h', hres, -⟩ := reverse_holding (hkeeps.lists rooted_argl hargl)
      exact ⟨v, h', hres⟩) hrev.1
  have hok := hrev.2 v _ halloc
  obtain ⟨v', h', hres, hnew⟩ := reverse_holding (hkeeps.lists rooted_argl hargl)
  obtain ⟨rfl, rfl⟩ := Prod.mk.inj (Option.some.inj (hv.symm.trans hres))
  rw [hok] at hnew
  obtain ⟨hlist, hlen⟩ := hnew.resolve_left (by decide)
  refine ⟨v, h, halloc, hok, hlist, ?_⟩
  rwa [walkFuel, ← reverse_heap_length hv] at hlen

/-- `cont_accumulate_last_arg`: the function is applied. -/
theorem contAccumulateLastArg_step (hr : Reads k c t [.accumulateLastArg f argl])
    (hes : t.es = .evalContinuation) (hdone : t.done = false) (hlost : t.pushLost = false)
    (hgc : TakesIn t) (hargl : Holding t.store.heap argl args.reverse) :
    ∃ u, ecEvalIteration pf m t = some u
      ∧ (Exhausted u ∨ Undisturbed u ∧ Calling k c f (args ++ [t.val]) u) := by
  have hstack : t.S.contents = k ++ [c] ++ [f, argl] := by
    have : t.S.contents = k ++ [c, f, argl] := hr.stack
    simpa using this
  obtain ⟨S₁, S₂, hpop₁, hpop₂, hS₂⟩ := popU32_two_of_contents hstack
  have hpop : popLastArgument t = some { t with argl := argl, S := S₁ } := by
    rw [popLastArgument, hpop₁]
    rfl
  obtain ⟨hgc, hrev⟩ := hgc.lastArg (hr.cont (by simp [hes])) _ hpop
  obtain ⟨v, h, halloc, hv⟩ := @allocWithGc_consArgument _ _ [] hgc hargl
  have halloc' : allocWithGc { t with argl := argl, S := S₁ }
      (onHeap fun h => some (cons t.val argl h))
      = some (v, withHeap { t with argl := argl, S := S₁ } h) := halloc
  rw [ecEvalIteration_of_reads hr hes]
  show ∃ u, contAccumulateLastArgCase t = some u ∧ _
  unfold contAccumulateLastArgCase
  simp only [hpop₁, halloc', Option.bind_eq_bind, Option.bind_some]
  cases hmerror : isSymbolMerror v with
  | true => exact ⟨_, rfl, .inl exhausted_merrorStop⟩
  | false =>
    rw [hmerror] at hv
    obtain ⟨hnew, -⟩ := hv.resolve_left (by decide)
    -- The arguments were consed in front of each other: the function gets a reversed copy.
    obtain ⟨w, h', halloc₂, hok, hrevd, hlen⟩ := allocWithGc_reverse
      (s := { withHeap { t with argl := argl, S := S₁ } h with argl := v })
      (hrev v _ halloc hmerror) hnew
    have halloc₂' : allocWithGc
        { t with argl := v, S := S₁, store := { t.store with heap := h } } (onHeap (reverse v))
        = some (w, { t with argl := v, S := S₁, store := { t.store with heap := h' } }) := halloc₂
    simp only [withHeap, Bool.false_eq_true, if_false, halloc₂', Option.bind_some, hok, hpop₂]
    rw [List.reverse_cons, List.reverse_reverse] at hrevd
    have hlen' : (args ++ [t.val]).length < walkFuel h' := by
      rw [List.length_append, ← List.length_reverse]
      exact hlen
    refine ⟨_, rfl, .inr ⟨⟨hlost, ?_⟩, ?_⟩⟩
    · intro happ
      cases happ
    · exact ⟨rfl, hdone, hlost, rfl, hrevd, hlen', hS₂⟩

/-! ### The law -/

theorem expKindOfCons_application {h : HeapState} {exp head : VALUE} (hhead : car h exp = head)
    (happ : isSpecialForm head = false) :
    expKindOfCons h exp
      = if isSymbol head && isSymbolNil (cdr h exp) then .expNoArgs else .expApplication := by
  unfold expKindOfCons
  rw [hhead]
  simp only [isSpecialForm, Bool.and_eq_false_iff, Bool.or_eq_false_iff] at happ
  rcases happ with hty | ⟨⟨⟨⟨⟨⟨⟨hand, hor⟩, hquote⟩, hdefine⟩, hprogn⟩, hlambda⟩, hif⟩, hlet⟩
  · simp [isSymbol, hty]
  · cases hty : typeOf head == valTypeSymbol with
    | false => simp [isSymbol, hty]
    | true =>
      simp only [isSymbol, hty, if_true, hand, hor, hquote, hdefine, hprogn, hlambda, hif, hlet,
        Bool.false_eq_true, if_false, Bool.true_and]
      rfl

/-- The operator is dispatched, with the operands on the stack if there are any. -/
theorem application_step {head : VALUE} {operands : List VALUE} (h : AtCall head operands s)
    (hsym : operands = [] → isSymbol head = true) :
    ∃ u, ecEvalIteration pf m s = some u ∧ (Exhausted u
      ∨ Undisturbed u ∧ u.store = s.store ∧ Evaluates s.S.contents s.env head u
        ∧ ((operands = [] ∧ Dispatched s.S.contents s.cont s.env .setupNoArgApply u)
          ∨ operands ≠ [] ∧ Dispatched s.S.contents s.cont s.env
            (.evalArgs s.env (cdr s.store.heap s.exp)) u)) := by
  obtain ⟨hty, hcar, hrest⟩ := h.list.uncons
  have hkind := (expKindOf_cons (h := s.store.heap) hty).trans
    (expKindOfCons_application hcar h.application)
  rw [isSymbolNil_of_holding hrest] at hkind
  have hiter : ecEvalIteration pf m s = dispatchSwitch pf m s := by
    unfold ecEvalIteration
    rw [h.es]
  rw [hiter]
  unfold dispatchSwitch
  -- Without operands there is no frame to collect arguments in.
  cases operands with
  | nil =>
    rw [hsym rfl, List.isEmpty_nil, Bool.and_self, if_pos rfl] at hkind
    rw [hkind]
    refine ⟨_, rfl, ?_⟩
    cases hlost : (evalNoArgs m s).pushLost with
    | true => exact .inl (.inl hlost)
    | false =>
      have hdisp := evalNoArgs_dispatched hlost
      have heval := hdisp.evaluates h.done hlost
      rw [show (evalNoArgs m s).exp = head from hcar] at heval
      exact .inr ⟨undisturbed_of_dispatch rfl hlost, rfl, heval, .inl ⟨rfl, hdisp⟩⟩
  | cons e es =>
    rw [List.isEmpty_cons, Bool.and_false, if_neg (by decide)] at hkind
    rw [hkind]
    refine ⟨_, rfl, ?_⟩
    cases hlost : (evalApplication m s).pushLost with
    | true => exact .inl (.inl hlost)
    | false =>
      have hdisp := evalApplication_dispatched hlost
      have heval := hdisp.evaluates h.done hlost
      rw [show (evalApplication m s).exp = head from hcar] at heval
      exact .inr ⟨undisturbed_of_dispatch rfl hlost, rfl, heval,
        .inr ⟨List.cons_ne_nil _ _, hdisp⟩⟩

theorem AtArgument.evaluates (h : AtArgument k c E (e :: es) vs s) : Evaluates k E e s := by
  cases es with
  | nil =>
    obtain ⟨f, args, argl, -, heval, -⟩ := h
    exact heval
  | cons e' es =>
    obtain ⟨f, args, argl, unev, -, heval, -⟩ := h
    exact heval

/-- Another argument is collected. -/
theorem AtArgument.next (h : AtArgument k c E (e :: es) vs s)
    (hdel : (ecMachine pf).Delivers (HeldValue k) s v t) (hgc : TakesIn t) {C : State → Prop} :
    (ecMachine pf).Leads ((ecMachine pf).Between (argumentsForm pf k c E C))
      (AtArgument k c E es (vs ++ [v])) t := by
  have hval := hdel.val
  obtain rfl := hval.val
  -- The value of the last operand starts the application, any other one the next operand.
  cases es with
  | nil =>
    obtain ⟨f, args, argl, rfl, -, hdisp, hargl⟩ := h
    obtain ⟨hes, hr⟩ := reads_of_delivers hdisp hdel
    have hargl' := hval.held argl (by rw [hdisp.stack, List.drop_left]; simp [Frame.onStack]) _
      hargl
    apply leads_of_step hval.done (between_of_reads rfl hes hr)
    intro m
    obtain ⟨u, hstep, hmem | ⟨hquiet, hcalling⟩⟩ := @contAccumulateLastArg_step pf m _ _ _ _ _ _
      hr hes hval.done hval.pushLost hgc hargl'
    · exact ⟨u, hstep, .inl hmem⟩
    · exact ⟨u, hstep, .inr ⟨hquiet, .here ⟨f, _, rfl, hcalling⟩⟩⟩
  | cons e' es =>
    obtain ⟨f, args, argl, unev, rfl, -, hdisp, hargl, hunev⟩ := h
    obtain ⟨hes, hr⟩ := reads_of_delivers hdisp hdel
    have hargl' := hval.held argl (by rw [hdisp.stack, List.drop_left]; simp [Frame.onStack]) _
      hargl
    have hunev' := hval.held unev (by rw [hdisp.stack, List.drop_left]; simp [Frame.onStack]) _
      hunev
    apply leads_of_step hval.done (between_of_reads rfl hes hr)
    intro m
    obtain ⟨u, hstep, hmem | ⟨hquiet, hat⟩⟩ := @contAccumulateArg_step pf m _ _ _ _ _ _ _ _ _ _ _
      hr hes hval.done hgc hargl' hunev'
    · exact ⟨u, hstep, .inl hmem⟩
    · exact ⟨u, hstep, .inr ⟨hquiet, .here hat⟩⟩

/-- **The operands are evaluated in order**, if there are any or the operator is a symbol, as long
as there is room for the arguments. -/
theorem argumentsInOrder {head : VALUE} {operands : List VALUE} {C : State → Prop}
    (hC : ∀ t, C t → TakesIn t) (h : AtCall head operands s)
    (hsym : operands = [] → isSymbol head = true) : ArgumentsInOrder pf C head operands s := by
  apply leads_of_step h.done (fun hgo => ⟨hgo, by simp [h.es]⟩)
  intro m
  obtain ⟨u, hstep, hmem | ⟨hquiet, hstore, heval, hdisp⟩⟩ :=
    @application_step pf m _ _ _ h hsym
  · exact ⟨u, hstep, .inl hmem⟩
  refine ⟨u, hstep, .inr ⟨hquiet, .here ⟨heval, fun f t hdel => ?_⟩⟩⟩
  have hval := hdel.val
  obtain rfl := hval.val
  obtain ⟨l, hl⟩ := hval.free
  rcases hdisp with ⟨rfl, hdisp⟩ | ⟨hne, hdisp⟩
  · obtain ⟨hes, hr⟩ := reads_of_delivers hdisp hdel
    apply leads_of_step hval.done (between_of_reads rfl hes hr)
    intro m
    obtain ⟨u, hstep, hquiet, hcalling⟩ := @contSetupNoArgApply_step pf m _ _ _ hr hes
      hval.done hval.pushLost _ hl
    exact ⟨u, hstep, .inr ⟨hquiet, .here ⟨t.val, [], rfl, hcalling⟩⟩⟩
  · obtain ⟨hes, hr⟩ := reads_of_delivers hdisp hdel
    obtain ⟨e, es, rfl⟩ := List.exists_cons_of_ne_nil hne
    have hrest := h.list.uncons.2.2
    rw [← hstore] at hrest hdisp hr
    have hrest' := hval.held _ (by rw [hdisp.stack, List.drop_left]; simp [Frame.onStack]) _ hrest
    apply leads_of_step hval.done (between_of_reads rfl hes hr)
    intro m
    obtain ⟨w, hstep, hmem | ⟨hquiet, hat⟩⟩ := @contEvalArgs_step pf m _ _ _ _ _ _ _ hr hes
      hval.done _ hl hrest'
    · exact ⟨w, hstep, .inl hmem⟩
    refine ⟨w, hstep, .inr ⟨hquiet, .here ?_⟩⟩
    -- `AtArgument` is the invariant: the values so far are on the list, in reverse.
    refine InOrder.of_invariant (I := AtArgument s.S.contents s.cont s.env) ?_ ?_ ?_ hat
    · exact fun _ _ hI => hI
    · exact fun _ _ _ _ hI => hI.evaluates
    · intro e es vs u v t hI hdel
      have hdel' : (ecMachine pf).Delivers (HeldValue s.S.contents) u v t :=
        ⟨hdel.run, hdel.returning, hdel.stack, hdel.val.1⟩
      apply (hI.next hdel' (hC t hdel.val.2)).mono
      exact fun w hw => .inr ⟨id, hw⟩

end

/-! ## The call -/

/-- The error continuation is up. -/
def Refused (t : State) : Prop :=
  t.es = .evalContinuation ∧ t.cont = Continuation.contError.enc

section

variable {pf : Platform} {m : Malloc} {k : List UINT} {s : State} {c f params body env : VALUE}
  {args ps : List VALUE} {l : List Nat}

end

/-! ## Both evaluators -/

end EcEval

end LispBM
