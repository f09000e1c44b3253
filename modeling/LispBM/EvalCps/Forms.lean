import LispBM.EvalCps.Improper
import LispBM.Semantics.Operations

/-!
# LispBM — the forms of the concurrent evaluator and their meaning

What the context of an expression with a value comes to, whatever it has on its stack below and
whatever `malloc` and the clock do, if there are as many free cells as the value takes and the stack
does not overflow. For every form there is a lemma that takes the evaluations of its parts to that
of the form.

Only the symbol `t` takes the first branch of an `if`. The environment of an operand is not put back
before a branch, the last form of a `progn` or the next form of a program.

* `Evaluating`, `Returning` — the context before and after an evaluation;
* `Comes` — the context comes to a state, with a number of cells;
* `EvaluatesTo` — an expression comes to a value;
* `RestTo`, `BindingsTo`, `ConnectiveTo` — the parts of `progn`, `let`, `and` and `or`.
-/

namespace LispBM

open FrameStack Machine

/-- What the target adds to the language. -/
def Platform.target (pf : Platform) : Semantics.Target where
  floats := pf.floats
  isExtension id := (pf.extensionsLookup id).isSome

/-- What no evaluation changes of a context: what is left of its program, and its id. -/
structure EvalContext.Same (c c' : EvalContext) : Prop where
  program : c'.program = c.program
  id : c'.id = c.id

theorem EvalContext.Same.trans {c c' c'' : EvalContext} (h : c.Same c') (h' : c'.Same c'') :
    c.Same c'' :=
  ⟨h'.program.trans h.program, h'.id.trans h.id⟩

theorem EvalContext.Same.of_resumed {c c' : EvalContext} {K : Stack} (h : (c.resumed K).Same c') :
    c.Same c' :=
  ⟨h.program, h.id⟩

namespace Semantics

/-! ## States -/

/-- The context is about to evaluate `e` in the environment `E`, with the stack `k`. -/
structure Evaluating (k : List UINT) (E : Env) (e : Val) (Λ : Layout) (m : Memory)
    (s : EvalContext × Store) : Prop where
  appCont : s.1.appCont = false
  done : s.1.done = false
  stack : s.1.K.contents = k
  exp : Holds s.2.heap Λ s.1.currExp e
  env : IsEnv s.2.heap Λ s.1.currEnv E
  sound : Sound s.2.heap Λ m s.2.envGlobal

/-- The context is about to hand `v` to what is on top of the stack `k`. -/
structure Returning (k : List UINT) (v : Val) (E : Env) (Λ : Layout) (m : Memory)
    (s : EvalContext × Store) : Prop where
  appCont : s.1.appCont = true
  done : s.1.done = false
  stack : s.1.K.contents = k
  val : Holds s.2.heap Λ s.1.r v
  env : IsEnv s.2.heap Λ s.1.currEnv E
  sound : Sound s.2.heap Λ m s.2.envGlobal

/-- The context goes on at once, unless its stack is full. -/
structure Straight (pf : Platform) (s : EvalContext × Store) : Prop where
  done : s.1.done = false
  step : ∀ io, ∃ o st, stepCtx pf io s.1 s.2 = some (o, st, false)
    ∧ (OutOfStack o ∨ ∃ c, o = .running c)

/-- The context comes to a state with `P` in which `n` cells more are in use. -/
def Comes (pf : Platform) (R : Store → Store → Prop) (n : Nat) (Λ : Layout)
    (P : Layout → EvalContext × Store → Prop) (s : EvalContext × Store) : Prop :=
  (contextMachine pf R).Leads (Straight pf)
    (fun u => ∃ Λ', P Λ' u ∧ Keeps s.2.heap Λ n u.2.heap Λ' ∧ s.1.Same u.1) s

/-- The context comes to the value `v`, with `n` cells. -/
def Yields (pf : Platform) (R : Store → Store → Prop) (k : List UINT) (n : Nat) (m : Memory)
    (v : Val) (E : Env) (Λ : Layout) (s : EvalContext × Store) : Prop :=
  Comes pf R n Λ (fun Λ' u => Returning k v E Λ' m u) s

section

variable {pf : Platform} {R : Store → Store → Prop} {k : List UINT} {n n₁ n₂ : Nat}
  {Λ Λ₁ : Layout} {m m₁ m' : Memory} {E E₁ E' : Env} {e v v₁ : Val} {s : EvalContext × Store}
  {w env : VALUE} {st : Store} {f : Frame} {c : EvalContext} {io : Outside}
  {P Q : Layout → EvalContext × Store → Prop}

/-! ## Steps -/

theorem Comes.here (h : P Λ s) : Comes pf R 0 Λ P s :=
  Leads.here ⟨Λ, h, .refl _ _, ⟨rfl, rfl⟩⟩

/-- A step that goes on at once, or overflows the stack. -/
theorem Comes.step (st : Store) (hd : s.1.done = false)
    (hk : Keeps s.2.heap Λ n₁ st.heap Λ₁)
    (h : ∀ io, ∃ o, stepCtx pf io s.1 s.2 = some (o, st, false)
      ∧ (OutOfStack o ∨ ∃ c, o = .running c ∧ s.1.Same c
        ∧ Comes pf R n₂ Λ₁ P (c, st))) :
    Comes pf R (n₁ + n₂) Λ P s := by
  have hlive : Straight pf s := by
    refine ⟨hd, fun io => ?_⟩
    obtain ⟨o, hstep, hfull | ⟨c, rfl, -⟩⟩ := h io
    · exact ⟨o, st, hstep, .inl hfull⟩
    · exact ⟨_, st, hstep, .inr ⟨c, rfl⟩⟩
  apply leads_of_storeStep hd fun _ => hlive
  intro io
  obtain ⟨o, hstep, hfull | ⟨c, rfl, hc, hcomes⟩⟩ := h io
  · exact ⟨o, st, hstep, .inl hfull⟩
  · refine ⟨_, st, hstep, .inr ⟨c, rfl, hcomes.mono fun u hu => ?_⟩⟩
    obtain ⟨Λ₂, hP, hk₂, hu⟩ := hu
    exact ⟨Λ₂, hP, hk.trans hk₂, hc.trans hu⟩

/-- The step comes to the state. -/
theorem Comes.last (st : Store) (hd : s.1.done = false)
    (hk : Keeps s.2.heap Λ n st.heap Λ₁)
    (h : ∀ io, ∃ o, stepCtx pf io s.1 s.2 = some (o, st, false)
      ∧ (OutOfStack o ∨ ∃ c, o = .running c ∧ s.1.Same c ∧ P Λ₁ (c, st))) :
    Comes pf R n Λ P s := by
  rw [← Nat.add_zero n]
  apply Comes.step st hd hk
  intro io
  obtain ⟨o, hstep, hfull | ⟨c, rfl, hc, hP⟩⟩ := h io
  · exact ⟨o, hstep, .inl hfull⟩
  · exact ⟨_, hstep, .inr ⟨c, rfl, hc, .here hP⟩⟩

/-- A run is followed by what comes next. -/
theorem Comes.bind (h : Comes pf R n₁ Λ P s)
    (hrest : ∀ Λ₁ u, P Λ₁ u → Keeps s.2.heap Λ n₁ u.2.heap Λ₁ → Comes pf R n₂ Λ₁ Q u) :
    Comes pf R (n₁ + n₂) Λ Q s := by
  apply Leads.bind h
  intro u hu
  obtain ⟨Λ₁, hP, hk₁, hu⟩ := hu
  apply (hrest Λ₁ u hP hk₁).mono
  intro t ht
  obtain ⟨Λ₂, hQ, hk₂, ht⟩ := ht
  exact ⟨Λ₂, hQ, hk₁.trans hk₂, hu.trans ht⟩

/-- **An expression that is its value.** -/
theorem Yields.value (he : Evaluating k E e Λ m s)
    (hstep : ∀ io, stepCtx pf io s.1 s.2 = some (deliver s.1 w s.2))
    (hw : Holds s.2.heap Λ w v) : Yields pf R k 0 m v E Λ s := by
  apply Comes.last s.2 he.done (.refl _ _)
  intro io
  exact ⟨_, hstep io, .inr ⟨_, rfl, ⟨rfl, rfl⟩, ⟨rfl, he.done, he.stack, hw, he.env, he.sound⟩⟩⟩

/-- `w` is about to be evaluated in `env`, with a frame for what comes next. -/
structure Entered (k : List UINT) (f : Frame) (w env : VALUE) (c c' : EvalContext) : Prop where
  appCont : c'.appCont = false
  done : c'.done = false
  stack : c'.K.contents = k ++ f.words
  exp : c'.currExp = w
  env : c'.currEnv = env
  same : c.Same c'

theorem Entered.evaluating {c' : EvalContext} (h : Entered k f w env c c')
    (hw : Holds st.heap Λ w e) (hE : IsEnv st.heap Λ env E) (hs : Sound st.heap Λ m st.envGlobal) :
    Evaluating (k ++ f.words) E e Λ m (c', st) :=
  ⟨h.appCont, h.done, h.stack, h.exp.symm ▸ hw, h.env.symm ▸ hE, hs⟩

/-- A frame is pushed, or the stack overflows. -/
theorem dispatch_cases (hK : c.K.contents = k) (ha : c.appCont = false) (hd : c.done = false) :
    ∃ o, dispatch io c f.words w env st = (o, st, false)
      ∧ (OutOfStack o ∨ ∃ c', o = .running c' ∧ Entered k f w env c c') := by
  unfold dispatch
  rcases hpush : pushAll io.malloc c.K f.words with ⟨ok, K⟩
  cases ok with
  | false => exact ⟨_, rfl, .inl ⟨_, .inr rfl⟩⟩
  | true =>
    exact ⟨_, rfl, .inr ⟨_, rfl, ha, hd, by rw [contents_pushAll hpush, hK], rfl, rfl, ⟨rfl, rfl⟩⟩⟩

/-- **An expression that evaluates another one first**, with a frame for the rest. -/
theorem Comes.dispatch {e₁ : Val} (he : Evaluating k E e Λ m s)
    (hstep : ∀ io, stepCtx pf io s.1 s.2 = some (LispBM.dispatch io s.1 f.words w env st))
    (hk : Keeps s.2.heap Λ n₁ st.heap Λ₁) (hw : Holds st.heap Λ₁ w e₁)
    (hE : IsEnv st.heap Λ₁ env E₁)
    (hs : Sound st.heap Λ₁ m₁ st.envGlobal)
    (h : ∀ c, Evaluating (k ++ f.words) E₁ e₁ Λ₁ m₁ (c, st) → Comes pf R n₂ Λ₁ P (c, st)) :
    Comes pf R (n₁ + n₂) Λ P s := by
  apply Comes.step st he.done hk
  intro io
  obtain ⟨o, ho, hfull | ⟨c, rfl, hc⟩⟩ :=
    @dispatch_cases k w env st f s.1 io he.stack he.appCont he.done
  · exact ⟨o, (hstep io).trans (congrArg some ho), .inl hfull⟩
  · refine ⟨_, (hstep io).trans (congrArg some ho), .inr ⟨c, rfl, hc.same, h c ?_⟩⟩
    exact hc.evaluating hw hE hs

/-! ## Evaluations -/

/-- In the environment `E` and the memory `m` the expression `e` comes to `v`. -/
def EvaluatesTo (pf : Platform) (R : Store → Store → Prop) (m : Memory) (E : Env)
    (e : Val) (n : Nat)
    (m' : Memory) (v : Val) (E' : Env) : Prop :=
  ∀ k Λ s, Evaluating k E e Λ m s → n ≤ Λ.free.length → Yields pf R k n m' v E' Λ s

/-- What is free after the first of two evaluations. -/
theorem free_of_keeps {h h' : HeapState} (hk : Keeps h Λ n₁ h' Λ₁)
    (hn : n₁ + n₂ ≤ Λ.free.length) : n₂ ≤ Λ₁.free.length := by
  rw [hk.free, List.length_drop]
  omega

/-- An evaluation on top of `k`, and what comes next. -/
theorem EvaluatesTo.bind {l : List UINT} (ih : EvaluatesTo pf R m E e n₁ m₁ v₁ E₁)
    (he : Evaluating (k ++ l) E e Λ m s) (hfree : n₁ + n₂ ≤ Λ.free.length)
    (hrest : ∀ Λ₁ u, Returning (k ++ l) v₁ E₁ Λ₁ m₁ u → Keeps s.2.heap Λ n₁ u.2.heap Λ₁ →
      n₂ ≤ Λ₁.free.length → Comes pf R n₂ Λ₁ Q u) :
    Comes pf R (n₁ + n₂) Λ Q s := by
  apply (ih _ _ _ he (by omega)).bind
  intro Λ₁ u hr hk
  exact hrest Λ₁ u hr hk (free_of_keeps hk hfree)

/-! ### Constants and variables -/

theorem typeOf_of_isVariable {T : Target} (hw : isVariable T w = true) :
    typeOf w = valTypeSymbol := by
  rw [isVariable, Bool.and_eq_true, beq_iff_eq] at hw
  exact hw.1

theorem stepCtx_constant (ha : c.appCont = false) (hw : isConstant pf.target c.currExp = true) :
    stepCtx pf io c st = some (deliver c c.currExp st) := by
  unfold stepCtx evalExp
  rw [ha, if_neg (by decide)]
  simp only [isConstant, Bool.or_eq_true, Bool.and_eq_true, beq_iff_eq] at hw
  rcases hw with ((hty | hty) | hty) | ⟨hty, hspecial⟩
  · rw [hty]
    rfl
  · rw [hty]
    rfl
  · rw [hty]
    rfl
  · have hself :
        (isSpecial c.currExp || (pf.extensionsLookup (decSym c.currExp)).isSome) = true := by
      rw [Bool.or_eq_true]
      exact hspecial
    rw [hty, if_pos (by decide), evalSymbol, if_pos hself]

theorem evaluatesTo_constant (hw : isConstant pf.target w = true) :
    EvaluatesTo pf R m E (.word w) 0 m (.word w) E := by
  intro k Λ s he _
  have hexp : s.1.currExp = w := he.exp.word_eq
  apply Yields.value he (fun io => ?_) he.exp
  exact stepCtx_constant he.appCont (by rw [hexp]; exact hw)

/-- The location of a variable has the value that the look-up finds. -/
theorem stepCtx_variable {x : VALUE} {l : Loc} (he : Evaluating k E (.word x) Λ m s)
    (hx : isVariable pf.target x = true) (hl : m.locate E x = some l) (hv : m.Has l v)
    (hfound : v.isSymbol symreprNotFound = false) :
    ∃ w, Holds s.2.heap Λ w v ∧ ∀ io, stepCtx pf io s.1 s.2 = some (deliver s.1 w s.2) := by
  have hexp : s.1.currExp = x := he.exp.word_eq
  have hty := typeOf_of_isVariable hx
  have hordinary : (isSpecial x || (pf.extensionsLookup (decSym x)).isSome) = false := by
    rw [isVariable, Bool.and_eq_true] at hx
    exact (Bool.not_eq_true' _).mp hx.2
  have hnil : decSym x ≠ symreprNil := by
    intro hnil
    have hspecial : isSpecial x = true := by
      rw [isSpecial, hty, hnil]
      decide
    rw [hspecial, Bool.true_or] at hordinary
    exact absurd hordinary (by decide)
  have hstep : ∀ io, stepCtx pf io s.1 s.2 = evalSymbol pf s.1 s.2 := by
    intro io
    unfold stepCtx evalExp
    rw [he.appCont, if_neg (by decide), hexp, hty, if_pos (by decide)]
  simp only [hstep]
  unfold evalSymbol
  rw [hexp]
  simp only [hordinary, Bool.false_eq_true, if_false]
  rcases he.sound.envLookup_eq he.env hnil with ⟨hnone, hlocal⟩ | ⟨l', i, hl', hi, hlocal⟩
  · -- a global variable
    rw [Memory.locate, hnone, Option.none_or] at hl
    have hmissing : (typeOf (encSym symreprNotFound) == valTypeSymbol
        && decSym (encSym symreprNotFound) == symreprNotFound) = true := by decide
    rcases he.sound.envLookup_eq he.sound.globals hnil with ⟨hnone', -⟩ | ⟨l', i, hl', hi, hglobal⟩
    · exact absurd (hnone'.symm.trans hl) (by simp)
    · obtain rfl : l' = l := Option.some.inj (hl'.symm.trans hl)
      refine ⟨_, he.sound.vals l' i v hi hv, fun io => ?_⟩
      simp only [hlocal, hglobal, Option.bind_eq_bind, Option.bind_some, hmissing, if_true]
  · rw [Memory.locate, hl', Option.some_or] at hl
    obtain rfl : l' = l := Option.some.inj hl
    have hw := he.sound.vals l' i v hi hv
    refine ⟨_, hw, fun io => ?_⟩
    simp only [hlocal, Option.bind_eq_bind, Option.bind_some, hw.isSymbol_eq, hfound,
      Bool.false_eq_true, if_false]

theorem evaluatesTo_variable {x : VALUE} {l : Loc} (hx : isVariable pf.target x = true)
    (hl : m.locate E x = some l) (hv : m.Has l v) (hfound : v.isSymbol symreprNotFound = false) :
    EvaluatesTo pf R m E (.word x) 0 m v E := by
  intro k Λ s he _
  obtain ⟨w, hw, hstep⟩ := stepCtx_variable he hx hl hv hfound
  exact Yields.value he hstep hw

/-! ### Special forms -/

/-- The first step of a special form is chosen by its head. -/
theorem stepCtx_form {id : UINT} {rest : Val} (he : Evaluating k E (.pair (.sym id) rest) Λ m s) :
    car s.2.heap s.1.currExp = encSym id ∧ Holds s.2.heap Λ (cdr s.2.heap s.1.currExp) rest
      ∧ ∀ io, stepCtx pf io s.1 s.2 = evalForm io s.1 s.2 := by
  obtain ⟨hty, hhead, hrest⟩ := he.exp.uncons
  exact ⟨hhead.sym_eq, hrest, fun io => stepCtx_cons he.appCont hty⟩

theorem evaluatesTo_quote {rest : Val} :
    EvaluatesTo pf R m E (.pair (.sym symreprQuote) (.pair v rest)) 0 m v E := by
  intro k Λ s he _
  obtain ⟨hhead, hrest, hstep⟩ := @stepCtx_form pf _ _ _ _ _ _ _ he
  apply Yields.value he (fun io => ?_) hrest.uncons.2.1
  rw [hstep, evalForm, hhead]
  rfl

/-- `SET_GLOBAL_ENV` gets the value of a definition. -/
theorem yields_define {x : VALUE} (hx : typeOf x = valTypeSymbol) (himm : isImmediate x = true)
    (hr : Returning (k ++ (Frame.setGlobalEnv x).words) v E Λ m s)
    (hfree : m.defineCells x ≤ Λ.free.length) :
    Yields pf R k (m.defineCells x) (m.define x v) (.word x) E Λ s := by
  obtain ⟨g', h', hset, hty, Λ', hs', hk', -⟩ := hr.sound.leaves_envSet hx hr.val hfree
  have hsym : (ptrTypeCons == valTypeSymbol) = false := by decide
  apply Comes.last { s.2 with heap := h', envGlobal := g' } hr.done hk'
  intro io
  obtain ⟨K, hpop, hK, hstep⟩ := stepCtx_of_frame hr.appCont hr.stack
  obtain ⟨K', hpop', hK', -⟩ := popU32_of_contents hK
  have hcase : contSwitch pf io contSetGlobalEnv (s.1.resumed K) s.2
      = contSetGlobalEnvCase io (s.1.resumed K) s.2 := rfl
  refine ⟨_, ?_, .inr ⟨{ s.1.resumed K' with r := x, appCont := !s.1.done }, rfl, ⟨rfl, rfl⟩,
    ⟨?_, hr.done, hK', .word himm, hk'.isEnv hr.env, hs'⟩⟩⟩
  · rw [hstep]
    show contSwitch pf io contSetGlobalEnv (s.1.resumed K) s.2 = _
    rw [hcase]
    unfold contSetGlobalEnvCase
    simp only [EvalContext.resumed, hpop', hset, hty, hsym, Option.bind_eq_bind, Option.bind_some,
      Bool.false_and, Bool.false_eq_true, if_false]
  · show (!s.1.done) = true
    rw [hr.done]
    rfl

theorem evaluatesTo_define {x : VALUE} {rest : Val} (hx : typeOf x = valTypeSymbol) (hnil : x ≠ NIL)
    (ih : EvaluatesTo pf R m E e n m' v E') :
    EvaluatesTo pf R m E (.pair (.sym symreprDefine) (.pair (.word x) (.pair e rest)))
      (n + m'.defineCells x) (m'.define x v) (.word x) E' := by
  intro k Λ s he hfree
  obtain ⟨hhead, hrest, hstep⟩ := @stepCtx_form pf _ _ _ _ _ _ _ he
  obtain ⟨-, hkey, hrest⟩ := hrest.uncons
  have himm := hkey.isImmediate_eq
  have hform : ∀ io, stepCtx pf io s.1 s.2
      = some (LispBM.dispatch io s.1 (Frame.setGlobalEnv x).words
      (car s.2.heap (cdr s.2.heap (cdr s.2.heap s.1.currExp))) s.1.currEnv s.2) := by
    intro io
    have hdefine : stepCtx pf io s.1 s.2 = some (evalDefine io s.1 s.2) := by
      rw [hstep, evalForm, hhead]
      rfl
    have hok : (typeOf x != valTypeSymbol || x == NIL) = false := by
      rw [hx, beq_eq_false_iff_ne.mpr hnil]
      rfl
    rw [hdefine, evalDefine, hkey.word_eq]
    simp only [hok, Bool.false_eq_true, if_false]
    rfl
  rw [← Nat.zero_add (n + m'.defineCells x)]
  apply Comes.dispatch he hform (.refl _ _) hrest.uncons.2.1 he.env he.sound
  intro c hc
  apply ih.bind hc hfree
  intro Λ₁ u hr _ hfree
  exact yields_define hx himm hr hfree

/-- The rest of a `progn` in `E`, handed a value, comes to the value of its last expression. -/
def RestTo (pf : Platform) (R : Store → Store → Prop) (E : Env) (m : Memory) (E₁ : Env)
    (es : List Val) (n : Nat) (m' : Memory) (v : Val) (E' : Env) : Prop :=
  ∀ k Λ s v₁ env rest, Returning (k ++ (Frame.prognRest env rest).words) v₁ E₁ Λ m s →
    IsEnv s.2.heap Λ env E → Holds s.2.heap Λ rest (.list es) → n ≤ Λ.free.length →
    Yields pf R k n m' v E' Λ s

theorem restTo_last (ih : EvaluatesTo pf R m E₁ e n m' v E') :
    RestTo pf R E m E₁ [e] n m' v E' := by
  intro k Λ s v₁ env rest hr henv hrest hfree
  obtain ⟨hty, hcar, hcdr⟩ := hrest.list_uncons
  have hlast : isLastForm s.2 rest = true := hcdr.isNil_eq
  rw [← Nat.zero_add n]
  apply Comes.step _ hr.done (.refl _ _)
  intro io
  obtain ⟨K, K', hK, -, hstep⟩ := @stepCtx_prognRest pf io k s.1 s.2 env rest hr.appCont hr.stack
  rw [hrest.isNil_eq, symreprIsError_of_cons hty, hlast] at hstep
  refine ⟨_, hstep, .inr ⟨_, rfl, ⟨rfl, rfl⟩,
    ih _ _ _ ⟨rfl, hr.done, hK, hcar, hr.env, hr.sound⟩ hfree⟩⟩

theorem restTo_next {E₂ : Env} {e' : Val} {es : List Val}
    (ih₁ : EvaluatesTo pf R m E e n₁ m₁ v₁ E₂) (ih₂ : RestTo pf R E m₁ E₂ (e' :: es) n m' v E') :
    RestTo pf R E m E₁ (e :: e' :: es) (n₁ + n) m' v E' := by
  intro k Λ s v₀ env rest hr henv hrest hfree
  obtain ⟨hty, hcar, hcdr⟩ := hrest.list_uncons
  have hlast : isLastForm s.2 rest = false := hcdr.isNil_eq
  rw [← Nat.zero_add (n₁ + n)]
  apply Comes.step _ hr.done (.refl _ _)
  intro io
  obtain ⟨K, K', -, hK', hstep⟩ := @stepCtx_prognRest pf io k s.1 s.2 env rest hr.appCont hr.stack
  rw [hrest.isNil_eq, symreprIsError_of_cons hty, hlast] at hstep
  refine ⟨_, hstep, .inr ⟨_, rfl, ⟨rfl, rfl⟩,
    ih₁.bind ⟨rfl, hr.done, hK', hcar, henv, hr.sound⟩ hfree ?_⟩⟩
  intro Λ₁ u hu hk hfree
  exact ih₂ _ _ _ _ _ _ hu (hk.isEnv henv) (hk.holds hcdr) hfree

/-- The first expression of a `progn`. -/
theorem stepCtx_progn {es : List Val}
    (he : Evaluating k E (.list (.sym symreprProgn :: e :: es)) Λ m s) :
    ∃ exps, Holds s.2.heap Λ (car s.2.heap exps) e ∧ Holds s.2.heap Λ (cdr s.2.heap exps) (.list es)
      ∧ ∀ io, stepCtx pf io s.1 s.2 = some (LispBM.dispatch io s.1
        (Frame.prognRest s.1.currEnv (cdr s.2.heap exps)).words (car s.2.heap exps) s.1.currEnv s.2)
    := by
  obtain ⟨hhead, hrest, hstep⟩ := @stepCtx_form pf _ _ _ _ _ _ (.list (e :: es)) he
  obtain ⟨hty, hcar, hcdr⟩ := hrest.list_uncons
  refine ⟨_, hcar, hcdr, fun io => ?_⟩
  have hprogn : stepCtx pf io s.1 s.2 = some (evalProgn io s.1 s.2) := by
    rw [hstep, evalForm, hhead]
    rfl
  rw [hprogn, evalProgn]
  simp only [hrest.isNil_eq, symreprIsError_of_cons hty, List.isEmpty_cons, Bool.false_eq_true,
    if_false]
  rfl

theorem evaluatesTo_prognOne (ih : EvaluatesTo pf R m E e n m' v E') :
    EvaluatesTo pf R m E (.list [.sym symreprProgn, e]) n m' v E' := by
  intro k Λ s he hfree
  obtain ⟨exps, hcar, hcdr, hstep⟩ := @stepCtx_progn pf _ _ _ _ _ _ _ he
  rw [← Nat.zero_add n]
  apply Comes.dispatch he hstep (.refl _ _) hcar he.env he.sound
  intro c hc
  rw [← Nat.add_zero n]
  apply ih.bind hc hfree
  intro Λ₁ u hr hk _
  have hnil : Holds u.2.heap Λ₁ (cdr s.2.heap exps) (.list []) := hk.holds hcdr
  apply Comes.last u.2 hr.done (.refl _ _)
  intro io
  obtain ⟨K, K', hK, -, hstep⟩ := @stepCtx_prognRest pf io k u.1 u.2 _ _ hr.appCont hr.stack
  rw [hnil.isNil_eq] at hstep
  exact ⟨_, hstep, .inr ⟨_, rfl, ⟨rfl, rfl⟩, ⟨rfl, hr.done, hK, hr.val, hr.env, hr.sound⟩⟩⟩

theorem evaluatesTo_progn {es : List Val} (ih₁ : EvaluatesTo pf R m E e n₁ m₁ v₁ E₁)
    (ih₂ : RestTo pf R E m₁ E₁ es n m' v E') :
    EvaluatesTo pf R m E (.list (.sym symreprProgn :: e :: es)) (n₁ + n) m' v E' := by
  intro k Λ s he hfree
  obtain ⟨exps, hcar, hcdr, hstep⟩ := @stepCtx_progn pf _ _ _ _ _ _ _ he
  rw [← Nat.zero_add (n₁ + n)]
  apply Comes.dispatch he hstep (.refl _ _) hcar he.env he.sound
  intro c hc
  apply ih₁.bind hc hfree
  intro Λ₁ u hr hk hfree
  exact ih₂ _ _ _ _ _ _ hr (hk.isEnv he.env) (hk.holds hcdr) hfree

/-- A `lambda` makes a closure. -/
theorem evaluatesTo_lambda {ps : List VALUE} {rest : Val}
    (hps : ∀ p ∈ ps, typeOf p = valTypeSymbol) :
    EvaluatesTo pf R m E
      (.pair (.sym symreprLambda) (.pair (.list (ps.map .word)) (.pair e rest)))
      (E.bound.length + 4) m (.closure ps e E.bound.reverse) E := by
  intro k Λ s he hfree
  obtain ⟨hhead, -, hstep⟩ := @stepCtx_form pf _ _ _ _ _ _ _ he
  obtain ⟨env', h₁, hcopy, Λ₁, hs₁, hk₁, henv⟩ := he.sound.leaves_envCopyShallow he.env (by omega)
  obtain ⟨w, h', hclosure, hty, Λ', hs', hk', hw⟩ := hs₁.leaves_consClosure (hk₁.holds he.exp) hps
    henv (free_of_keeps hk₁ hfree)
  have hcopied : (typeOf env' == valTypeSymbol && decSym env' == symreprMerror) = false :=
    henv.isSymbol_eq (by decide)
  apply Comes.last { s.2 with heap := h' } he.done (hk₁.trans hk')
  intro io
  refine ⟨_, ?_, .inr ⟨{ s.1 with r := w, appCont := true }, rfl, ⟨rfl, rfl⟩,
    ⟨rfl, he.done, he.stack, hw, (hk₁.trans hk').isEnv he.env, hs'⟩⟩⟩
  have hlambda : stepCtx pf io s.1 s.2 = evalLambda s.1 s.2 := by
    rw [hstep, evalForm, hhead]
    rfl
  rw [hlambda]
  unfold evalLambda
  simp only [hcopy, hcopied, hclosure, Option.bind_eq_bind, Option.bind_some, Bool.false_eq_true,
    if_false]
  rfl

/-! ### Branches -/

theorem stepCtx_if {a b rest : Val}
    (he : Evaluating k E (.pair (.sym symreprIf) (.pair e (.pair a (.pair b rest)))) Λ m s) :
    ∃ test thenBranch elseBranch, Holds s.2.heap Λ test e ∧ Holds s.2.heap Λ thenBranch a
      ∧ Holds s.2.heap Λ elseBranch b
      ∧ ∀ io, stepCtx pf io s.1 s.2 = some (LispBM.dispatch io s.1
        (Frame.ifBranches elseBranch thenBranch).words test s.1.currEnv s.2) := by
  obtain ⟨hhead, hrest, hstep⟩ := @stepCtx_form pf _ _ _ _ _ _ _ he
  obtain ⟨-, htest, hrest⟩ := hrest.uncons
  obtain ⟨-, ha, hrest⟩ := hrest.uncons
  refine ⟨_, _, _, htest, ha, hrest.uncons.2.1, fun io => ?_⟩
  rw [hstep, evalForm, hhead]
  rfl

/-- The branch that the value of the test takes. -/
theorem evaluatesTo_branch {a b c rest : Val} (ih₁ : EvaluatesTo pf R m E e n₁ m₁ v₁ E₁)
    (hbranch : c = if v₁.isSymbol symreprTrue then a else b)
    (ih₂ : EvaluatesTo pf R m₁ E₁ c n m' v E') :
    EvaluatesTo pf R m E (.pair (.sym symreprIf) (.pair e (.pair a (.pair b rest)))) (n₁ + n) m' v
      E' := by
  intro k Λ s he hfree
  obtain ⟨test, thenBranch, elseBranch, htest, ha, hb, hstep⟩ := @stepCtx_if pf _ _ _ _ _ _ _ _ _ he
  rw [← Nat.zero_add (n₁ + n)]
  apply Comes.dispatch he hstep (.refl _ _) htest he.env he.sound
  intro c hc
  apply ih₁.bind hc hfree
  intro Λ₁ u hr hk hfree
  rw [← Nat.zero_add n]
  apply Comes.step _ hr.done (.refl _ _)
  intro io
  obtain ⟨K, hpop, hK, hstep⟩ := stepCtx_of_frame hr.appCont hr.stack
  obtain ⟨K₁, K₂, hpop₁, hpop₂, hK₂⟩ := popU32_two_of_contents hK
  have hcase : contSwitch pf io contIf (u.1.resumed K) u.2 = contIfCase (u.1.resumed K) u.2 := rfl
  have hif : stepCtx pf io u.1 u.2 = some (.running
      { u.1.resumed K₂ with currExp := if v₁.isSymbol symreprTrue then thenBranch else elseBranch },
      u.2, false) := by
    rw [hstep]
    show contSwitch pf io contIf (u.1.resumed K) u.2 = _
    rw [hcase]
    unfold contIfCase
    simp only [EvalContext.resumed, hpop₁, hpop₂, hr.val.isSymbol_eq, Option.bind_eq_bind,
      Option.bind_some]
    split <;> rfl
  refine ⟨_, hif, .inr ⟨_, rfl, ⟨rfl, rfl⟩,
    ih₂ _ _ _ ⟨rfl, hr.done, hK₂, ?_, hr.env, hr.sound⟩ hfree⟩⟩
  rw [hbranch]
  show Holds u.2.heap Λ₁ (if v₁.isSymbol symreprTrue then thenBranch else elseBranch) _
  split
  · exact hk.holds ha
  · exact hk.holds hb

/-! ### Bindings -/

/-- The first binding that is left is about to be evaluated, or the body `eb` is. -/
def AtBindings (k : List UINT) (E : Env) (eb : Val) (Λ : Layout) (m : Memory)
    (bs : List (VALUE × Val)) (s : EvalContext × Store) : Prop :=
  match bs with
  | [] => Evaluating k E eb Λ m s
  | (x, e) :: bs => ∃ exp rest env,
      Evaluating (k ++ (Frame.bindToKeyRest exp rest env x).words) E e Λ m s
        ∧ Holds s.2.heap Λ exp eb ∧ Holds s.2.heap Λ rest (bindingList bs)
        ∧ IsEnv s.2.heap Λ env E

/-- The bindings are evaluated and assigned, and the body comes next. -/
def BindingsTo (pf : Platform) (R : Store → Store → Prop) (m : Memory) (E : Env)
    (bs : List (VALUE × Val)) (n : Nat) (m' : Memory) : Prop :=
  ∀ k Λ s eb, AtBindings k E eb Λ m bs s → n ≤ Λ.free.length →
    Comes pf R n Λ (fun Λ' u => Evaluating k E eb Λ' m' u) s

theorem bindingsTo_nil : BindingsTo pf R m E [] 0 m :=
  fun _ _ _ _ h _ => Comes.here h

/-- `BIND_TO_KEY_REST` assigns a value and goes on with the next binding, or with the body. -/
theorem stepCtx_bindToKeyRest {x exp rest env : VALUE} {eb : Val} {l : Loc}
    {bs : List (VALUE × Val)}
    (hr : Returning (k ++ (Frame.bindToKeyRest exp rest env x).words) v E₁ Λ m s)
    (hexp : Holds s.2.heap Λ exp eb) (hrest : Holds s.2.heap Λ rest (bindingList bs))
    (henv : IsEnv s.2.heap Λ env E) (hl : E.lookup x = some l) :
    ∃ st Λ', Keeps s.2.heap Λ 0 st.heap Λ' ∧ ∀ io, ∃ o, stepCtx pf io s.1 s.2 = some (o, st, false)
      ∧ (OutOfStack o ∨ ∃ c, o = .running c ∧ s.1.Same c
        ∧ AtBindings k E eb Λ' (m.assign l v) bs (c, st)) := by
  obtain ⟨h', hmodify, Λ', hs', hk, -⟩ := hr.sound.leaves_envModifyBinding henv hl hr.val
  refine ⟨{ s.2 with heap := h' }, Λ', hk, fun io => ?_⟩
  obtain ⟨K, hpop, hK, hstep⟩ := stepCtx_of_frame hr.appCont hr.stack
  obtain ⟨K₁, K₂, K₃, hpop₁, hpop₂, hpop₃, hK₃⟩ := popU32_three_of_contents (s := K)
    (k := k ++ [exp]) (a := rest) (b := env) (c := x) (by rw [hK]; simp [Frame.payload])
  have hcase : contSwitch pf io contBindToKeyRest (s.1.resumed K) s.2
      = contBindToKeyRestCase io (s.1.resumed K) s.2 := rfl
  have hframe : stepCtx pf io s.1 s.2 = contBindToKeyRestCase io (s.1.resumed K) s.2 :=
    (hstep pf io s.2).trans hcase
  rw [hframe]
  unfold contBindToKeyRestCase
  simp only [EvalContext.resumed, hpop₁, hpop₂, hpop₃, hmodify, Option.bind_eq_bind,
    Option.bind_some]
  cases bs with
  | nil =>
    -- the body
    have hnil : rest = NIL := Holds.nil_eq hrest
    obtain ⟨K₄, hpop₄, hK₄, -⟩ := popU32_of_contents hK₃
    have hty : (typeOf rest == ptrTypeCons) = false := by
      rw [hnil]
      decide
    simp only [hty, hpop₄, Bool.false_eq_true, if_false, Option.bind_some]
    exact ⟨_, rfl, .inr ⟨_, rfl, ⟨rfl, rfl⟩, rfl, hr.done, hK₄, hk.holds hexp, hk.isEnv henv, hs'⟩⟩
  | cons b bs =>
    have hrest' : Holds h' Λ' rest (.list (.list [.word b.1, b.2] :: bs.map fun b =>
      .list [.word b.1, b.2])) := hk.holds hrest
    obtain ⟨hty, hfirst, hnext⟩ := hrest'.list_uncons
    obtain ⟨-, hkey, htail⟩ := hfirst.list_uncons
    have hcons : (typeOf rest == ptrTypeCons) = true := by rw [hty]; rfl
    simp only [hcons, if_true, hkey.word_eq]
    rcases hpush : pushAll io.malloc K₃ [cdr h' rest, env, b.1, encU contBindToKeyRest] with
      ⟨ok, K₄⟩
    cases ok with
    | false => exact ⟨_, rfl, .inl ⟨_, .inl rfl⟩⟩
    | true =>
      refine ⟨_, rfl, .inr ⟨_, rfl, ⟨rfl, rfl⟩, exp, cdr h' rest, env,
        ⟨rfl, hr.done, ?_, htail.list_uncons.2.1,
        hk.isEnv henv, hs'⟩, hk.holds hexp, hnext, hk.isEnv henv⟩⟩
      rw [contents_pushAll hpush, hK₃]
      simp [Frame.words, Frame.payload, Frame.tag]

theorem bindingsTo_cons {x : VALUE} {l : Loc} {bs : List (VALUE × Val)}
    (ih₁ : EvaluatesTo pf R m E e n₁ m₁ v E₁) (hl : E.lookup x = some l)
    (ih₂ : BindingsTo pf R (m₁.assign l v) E bs n m') :
    BindingsTo pf R m E ((x, e) :: bs) (n₁ + n) m' := by
  intro k Λ s eb hat hfree
  obtain ⟨exp, rest, env, he, hexp, hrest, henv⟩ := hat
  apply ih₁.bind he hfree
  intro Λ₁ u hr hk hfree₁
  obtain ⟨st, Λ₂, hk₂, hstep⟩ := @stepCtx_bindToKeyRest pf _ _ _ _ _ _ _ _ _ _ _ _ _ _ hr
    (hk.holds hexp) (hk.holds hrest) (hk.isEnv henv) hl
  rw [← Nat.zero_add n] at hfree₁ ⊢
  apply Comes.step st hr.done hk₂
  intro io
  obtain ⟨o, ho, hfull | ⟨c, rfl, hc, hat⟩⟩ := hstep io
  · exact ⟨o, ho, .inl hfull⟩
  · exact ⟨_, ho, .inr ⟨c, rfl, hc, ih₂ _ _ _ _ hat (free_of_keeps hk₂ hfree₁)⟩⟩

/-- **A `let`** binds its names to new locations first. -/
theorem comes_let {bs : List (VALUE × Val)} {eb rest : Val}
    (hnames : ∀ b ∈ bs, typeOf b.1 = valTypeSymbol)
    (he : Evaluating k E (.pair (.sym symreprLet) (.pair (bindingList bs) (.pair eb rest))) Λ m s)
    (hfree : 2 * bs.length + n ≤ Λ.free.length)
    (h : ∀ Λ₁ u, AtBindings k (E.extend (bs.map Prod.fst) m.vals.length) eb Λ₁
      (m.allocate (bs.map fun _ => none)) bs u → n ≤ Λ₁.free.length → Comes pf R n Λ₁ P u) :
    Comes pf R (2 * bs.length + n) Λ P s := by
  obtain ⟨hhead, hrest, hstep⟩ := @stepCtx_form pf _ _ _ _ _ _ _ he
  obtain ⟨-, hbinds, hrest⟩ := hrest.uncons
  have hbody := hrest.uncons.2.1
  have hlet : ∀ io, stepCtx pf io s.1 s.2 = evalLet io s.1 s.2 := by
    intro io
    rw [hstep, evalForm, hhead]
    rfl
  cases bs with
  | nil =>
    have hnil : car s.2.heap (cdr s.2.heap s.1.currExp) = NIL := Holds.nil_eq hbinds
    have hzero : 2 * ([] : List (VALUE × Val)).length + n = 0 + n := rfl
    rw [hzero] at hfree ⊢
    apply Comes.step s.2 he.done (.refl _ _)
    intro io
    have hgo : evalLet io s.1 s.2 = some (.running
        { s.1 with currExp := car s.2.heap (cdr s.2.heap (cdr s.2.heap s.1.currExp)) }, s.2, false)
        := by
      rw [evalLet, hnil]
      rfl
    refine ⟨_, (hlet io).trans hgo, .inr ⟨_, rfl, ⟨rfl, rfl⟩, h Λ _ ?_ (by omega)⟩⟩
    show AtBindings k E eb Λ (m.allocate []) [] _
    rw [allocate_nil]
    exact ⟨he.appCont, he.done, he.stack, hbody, he.env, he.sound⟩
  | cons b bs =>
    obtain ⟨ws, is, hlist, his, hws⟩ := Holds.listOf hbinds
    have hwalk : (b :: bs).length < walkFuel s.2.heap := by
      have hlt := he.sound.length_lt hlist his
      rwa [hws.length_eq, List.length_map] at hlt
    obtain ⟨env', h', hloop, Λ₁, hs₁, hk, henv⟩ := he.sound.leaves_letEnvLoop hbinds hnames he.env
      (by omega) hwalk
    have hbinds' : Holds h' Λ₁ (car s.2.heap (cdr s.2.heap s.1.currExp))
        (.list (.list [.word b.1, b.2] :: bs.map fun b => .list [.word b.1, b.2])) :=
      hk.holds hbinds
    obtain ⟨hty, hfirst, hnext⟩ := hbinds'.list_uncons
    obtain ⟨-, hkey, htail⟩ := hfirst.list_uncons
    have hcons : (typeOf (car s.2.heap (cdr s.2.heap s.1.currExp)) != ptrTypeCons) = false := by
      rw [hty]
      rfl
    -- the frame has the first binding
    have hgo : ∀ io, stepCtx pf io s.1 s.2 = some (LispBM.dispatch io s.1
        (Frame.bindToKeyRest (car s.2.heap (cdr s.2.heap (cdr s.2.heap s.1.currExp)))
          (cdr h' (car s.2.heap (cdr s.2.heap s.1.currExp))) env' b.1).words
        (car h' (cdr h' (car h' (car s.2.heap (cdr s.2.heap s.1.currExp))))) env'
        { s.2 with heap := h' }) := by
      intro io
      rw [hlet]
      unfold evalLet
      simp only [hcons, hloop, hkey.word_eq, Option.bind_eq_bind, Option.bind_some,
        Bool.false_eq_true, if_false, Bool.not_true]
      rfl
    apply Comes.dispatch he hgo hk htail.list_uncons.2.1 henv hs₁
    intro c hc
    exact h Λ₁ _ ⟨_, _, _, hc, hk.holds hbody, hnext, henv⟩ (free_of_keeps hk hfree)

theorem evaluatesTo_let {bs : List (VALUE × Val)} {rest : Val}
    (hnames : ∀ b ∈ bs, typeOf b.1 = valTypeSymbol)
    (ih₁ : BindingsTo pf R (m.allocate (bs.map fun _ => none))
      (E.extend (bs.map Prod.fst) m.vals.length) bs n₁ m₁)
    (ih₂ : EvaluatesTo pf R m₁ (E.extend (bs.map Prod.fst) m.vals.length) e n m' v E') :
    EvaluatesTo pf R m E (.pair (.sym symreprLet) (.pair (bindingList bs) (.pair e rest)))
      (2 * bs.length + n₁ + n) m' v E' := by
  intro k Λ s he hfree
  rw [Nat.add_assoc] at hfree ⊢
  apply comes_let hnames he hfree
  intro Λ₁ u hat hfree₁
  apply (ih₁ _ _ _ _ hat (by omega)).bind
  intro Λ₂ t ht hk
  exact ih₂ _ _ _ ht (free_of_keeps hk hfree₁)

/-! ### Short-circuiting operators -/

/-- The operator of the code. -/
def Connective.operator : Connective → LispBM.Connective
  | and => .and
  | or => .or

/-- A value that decides the form, in the code's own test. -/
theorem Connective.operator_stops {h : HeapState} {c : Connective} (hw : Holds h Λ w v)
    (hv : c.stops v) : c.operator.stops w = true ∧ (isSymbolNil w = true → w = NIL) := by
  have hnil : isSymbolNil w = v.isNil := hw.isSymbol_eq symreprNil
  cases c with
  | and =>
    obtain rfl : v = .nil := hv
    exact ⟨hnil, fun _ => hw.nil_eq⟩
  | or =>
    have hnot : v.isNil = false := hv
    rw [hnot] at hnil
    refine ⟨?_, fun h => absurd (h.symm.trans hnil) (by decide)⟩
    show (!isSymbolNil w) = true
    rw [hnil]
    rfl

theorem Connective.operator_passes {h : HeapState} {c : Connective} (hw : Holds h Λ w v)
    (hv : c.passes v) : c.operator.stops w = false ∧ (isSymbolNil w = true → w = NIL) := by
  have hnil : isSymbolNil w = v.isNil := hw.isSymbol_eq symreprNil
  cases c with
  | or =>
    obtain rfl : v = .nil := hv
    refine ⟨?_, fun _ => hw.nil_eq⟩
    show (!isSymbolNil w) = false
    rw [hnil]
    rfl
  | and =>
    have hnot : v.isNil = false := hv
    exact ⟨hnil.trans hnot, fun h => absurd (h.symm.trans (hnil.trans hnot)) (by decide)⟩

/-- A value is handed on as it is, if it is not another `nil` than `NIL`. -/
theorem contSwitch_operand {op : LispBM.Connective} {rest : VALUE} {K K₁ K₂ : Stack}
    (hpop₁ : popU32 K = some (rest, K₁)) (hpop₂ : popU32 K₁ = some (env, K₂))
    (hnil : isSymbolNil c.r = true → c.r = NIL) :
    contSwitch pf io (op.frame env rest).tag (c.resumed K) st
      = if op.stops c.r || (typeOf rest == valTypeSymbol && rest == NIL) then
          some (.running { c.resumed K₂ with appCont := true }, st, false)
        else some (evalOperand io (c.resumed K₂) (op.frame env rest).tag env rest st) := by
  cases op with
  | and =>
    have hcase : contSwitch pf io (LispBM.Connective.and.frame env rest).tag (c.resumed K) st
        = contAndCase io (c.resumed K) st := rfl
    have hstops : LispBM.Connective.and.stops c.r = isSymbolNil c.r := rfl
    rw [hcase, hstops]
    unfold contAndCase
    simp only [EvalContext.resumed, hpop₁, hpop₂, Option.bind_eq_bind, Option.bind_some,
      isSymbolNil_eq]
    cases hr : isSymbolNil c.r with
    | true =>
      have heq : c.r = encSym symreprNil := hnil hr
      simp [heq]
    | false => simp [Frame.tag, LispBM.Connective.frame]
  | or =>
    have hcase : contSwitch pf io (LispBM.Connective.or.frame env rest).tag (c.resumed K) st
        = contOrCase io (c.resumed K) st := rfl
    have hstops : LispBM.Connective.or.stops c.r = !isSymbolNil c.r := rfl
    rw [hcase, hstops]
    unfold contOrCase
    simp only [EvalContext.resumed, hpop₁, hpop₂, Option.bind_eq_bind, Option.bind_some,
      not_isSymbolNil_eq]
    cases hr : isSymbolNil c.r with
    | false => simp
    | true =>
      have heq : c.r = encSym symreprNil := hnil hr
      simp [Frame.tag, LispBM.Connective.frame, heq]

theorem stepCtx_operand {op : LispBM.Connective} {rest : VALUE} (ha : c.appCont = true)
    (hK : c.K.contents = k ++ (op.frame env rest).words)
    (hnil : isSymbolNil c.r = true → c.r = NIL) :
    ∃ K, K.contents = k ∧ stepCtx pf io c st
      = if op.stops c.r || (typeOf rest == valTypeSymbol && rest == NIL) then
          some (.running { c.resumed K with appCont := true }, st, false)
        else some (evalOperand io (c.resumed K) (op.frame env rest).tag env rest st) := by
  obtain ⟨K, hpop, hK₁, hstep⟩ := stepCtx_of_frame ha hK
  have hpayload : (op.frame env rest).payload = [env, rest] := by cases op <;> rfl
  rw [hpayload] at hK₁
  obtain ⟨K₁, K₂, hpop₁, hpop₂, hK₂⟩ := popU32_two_of_contents hK₁
  exact ⟨K₂, hK₂, (hstep pf io st).trans (contSwitch_operand hpop₁ hpop₂ hnil)⟩

/-- The next operand is evaluated with a frame for the others, or the stack overflows. -/
theorem evalOperand_cases {op : LispBM.Connective} {rest : VALUE} (hK : c.K.contents = k)
    (ha : c.appCont = false) (hd : c.done = false) :
    ∃ o, evalOperand io c (op.frame env rest).tag env rest st = (o, st, false)
      ∧ (OutOfStack o ∨ ∃ c', o = .running c'
        ∧ Entered k (op.frame env (cdr st.heap rest)) (car st.heap rest) env c c') := by
  have htag : (op.frame env rest).tag = (op.frame env (cdr st.heap rest)).tag := by cases op <;> rfl
  unfold evalOperand
  rcases hpush : pushAll io.malloc c.K [env, cdr st.heap rest, encU (op.frame env rest).tag]
    with ⟨ok, K⟩
  cases ok with
  | false => exact ⟨_, rfl, .inl ⟨_, .inl rfl⟩⟩
  | true =>
    refine ⟨_, rfl, .inr ⟨_, rfl, ha, hd, ?_, rfl, rfl, ⟨rfl, rfl⟩⟩⟩
    rw [contents_pushAll hpush, hK, op.words_frame, htag]

/-- The first of the operands is about to be evaluated, with a frame for the others. -/
def AtOperands (c : Connective) (k : List UINT) (E : Env) (es : List Val) (Λ : Layout) (m : Memory)
    (s : EvalContext × Store) : Prop :=
  match es with
  | [] => False
  | e :: es => ∃ env rest, Evaluating (k ++ (c.operator.frame env rest).words) E e Λ m s
      ∧ IsEnv s.2.heap Λ env E ∧ Holds s.2.heap Λ rest (.list es)

/-- The operands come to a value that decides the form, or to that of the last one. -/
def ConnectiveTo (pf : Platform) (R : Store → Store → Prop) (c : Connective) (m : Memory) (E : Env)
    (es : List Val) (n : Nat) (m' : Memory) (v : Val) (E' : Env) : Prop :=
  ∀ k Λ s, AtOperands c k E es Λ m s → n ≤ Λ.free.length → Yields pf R k n m' v E' Λ s

/-- The form has the value of the operand. -/
theorem yields_operand {op : Connective} {rest : VALUE} {es : List Val}
    (hr : Returning (k ++ (op.operator.frame env rest).words) v E Λ m s)
    (hrest : Holds s.2.heap Λ rest (.list es)) (hv : op.stops v ∨ op.passes v ∧ es = []) :
    Yields pf R k 0 m v E Λ s := by
  have hends : (op.operator.stops s.1.r || (typeOf rest == valTypeSymbol && rest == NIL)) = true
      ∧ (isSymbolNil s.1.r = true → s.1.r = NIL) := by
    rw [hrest.isNil_eq]
    rcases hv with hstops | ⟨hpasses, rfl⟩
    · obtain ⟨hop, hnil⟩ := op.operator_stops hr.val hstops
      exact ⟨by rw [hop, Bool.true_or], hnil⟩
    · exact ⟨Bool.or_true _, (op.operator_passes hr.val hpasses).2⟩
  apply Comes.last s.2 hr.done (.refl _ _)
  intro io
  obtain ⟨K, hK, hstep⟩ := @stepCtx_operand pf k env s.2 s.1 io _ rest hr.appCont hr.stack hends.2
  rw [hends.1, if_pos rfl] at hstep
  exact ⟨_, hstep, .inr ⟨_, rfl, ⟨rfl, rfl⟩, ⟨rfl, hr.done, hK, hr.val, hr.env, hr.sound⟩⟩⟩

/-- The value passes the form on to its next operand. -/
theorem comes_operands {op : Connective} {rest : VALUE} {es : List Val}
    (hr : Returning (k ++ (op.operator.frame env rest).words) v E₁ Λ m s)
    (henv : IsEnv s.2.heap Λ env E) (hrest : Holds s.2.heap Λ rest (.list (e :: es)))
    (hv : op.passes v) (h : ∀ u, AtOperands op k E (e :: es) Λ m u → Comes pf R n Λ P u) :
    Comes pf R n Λ P s := by
  obtain ⟨hop, hnil⟩ := op.operator_passes hr.val hv
  obtain ⟨-, hcar, hcdr⟩ := hrest.list_uncons
  rw [← Nat.zero_add n]
  apply Comes.step _ hr.done (.refl _ _)
  intro io
  obtain ⟨K, hK, hstep⟩ := @stepCtx_operand pf k env s.2 s.1 io _ rest hr.appCont hr.stack hnil
  rw [hop, hrest.isNil_eq] at hstep
  obtain ⟨o, ho, hfull | ⟨c, rfl, hc⟩⟩ :=
    @evalOperand_cases k env s.2 (s.1.resumed K) io op.operator
    rest hK rfl hr.done
  · exact ⟨o, hstep.trans (congrArg some ho), .inl hfull⟩
  · refine ⟨_, hstep.trans (congrArg some ho), .inr ⟨c, rfl, hc.same.of_resumed, h _ ?_⟩⟩
    exact ⟨env, _, hc.evaluating hcar henv hr.sound, henv, hcdr⟩

theorem connectiveTo_last {op : Connective} {es : List Val} (ih : EvaluatesTo pf R m E e n m' v E₁)
    (hv : op.stops v ∨ op.passes v ∧ es = []) :
    ConnectiveTo pf R op m E (e :: es) n m' v E₁ := by
  intro k Λ s hat hfree
  obtain ⟨env, rest, he, -, hrest⟩ := hat
  rw [← Nat.add_zero n]
  apply ih.bind he hfree
  intro Λ₁ u hr hk _
  exact yields_operand hr (hk.holds hrest) hv

theorem connectiveTo_next {op : Connective} {e' : Val} {es : List Val}
    (ih₁ : EvaluatesTo pf R m E e n₁ m₁ v₁ E₁) (hv : op.passes v₁)
    (ih₂ : ConnectiveTo pf R op m₁ E (e' :: es) n m' v E') :
    ConnectiveTo pf R op m E (e :: e' :: es) (n₁ + n) m' v E' := by
  intro k Λ s hat hfree
  obtain ⟨env, rest, he, henv, hrest⟩ := hat
  apply ih₁.bind he hfree
  intro Λ₁ u hr hk hfree₁
  apply comes_operands hr (hk.isEnv henv) (hk.holds hrest) hv
  intro t ht
  exact ih₂ _ _ _ ht hfree₁

/-- The first step of an application, and of a form with a short-circuiting operator. -/
theorem stepCtx_call {f rest : Val} (he : Evaluating k E (.pair f rest) Λ m s)
    (hhead : isSpecialForm (car s.2.heap s.1.currExp) = false) :
    stepCtx pf io s.1 s.2 = some (LispBM.dispatch io s.1
      (Frame.applicationArgs [] s.1.currEnv (cdr s.2.heap s.1.currExp)).words
      (car s.2.heap s.1.currExp) s.1.currEnv s.2) :=
  (stepCtx_cons he.appCont he.exp.uncons.1).trans (evalForm_application hhead)

theorem evaluatesTo_connective {op : Connective} {es : List Val}
    (ih : ConnectiveTo pf R op m E (e :: es) n m' v E') :
    EvaluatesTo pf R m E (.pair (.sym op.symbol) (.list (e :: es))) n m' v E' := by
  intro k Λ s he hfree
  obtain ⟨-, hhead, hrest⟩ := he.exp.uncons
  have hsym : car s.2.heap s.1.currExp = encSym op.operator.sym := by
    rw [hhead.sym_eq]
    cases op <;> rfl
  have hspecial : isSpecialForm (car s.2.heap s.1.currExp) = false := by
    rw [hsym]
    cases op <;> decide
  have hconstant : isConstant pf.target (encSym op.symbol) = true := by cases op <;> rfl
  rw [← Nat.zero_add n]
  apply Comes.dispatch he (fun io => stepCtx_call he hspecial) (.refl _ _) hhead he.env he.sound
  intro c hc
  -- the operator is its own value
  rw [← Nat.zero_add n]
  apply (evaluatesTo_constant hconstant).bind hc (by omega)
  intro Λ₁ u hr hk hfree₁
  obtain ⟨hty, hcar, hcdr⟩ := (hk.holds hrest).list_uncons
  have hnil := (hk.holds hrest).isNil_eq
  have hop : u.1.r = encSym op.operator.sym := by
    rw [hr.val.sym_eq]
    cases op <;> rfl
  rw [← Nat.zero_add n]
  apply Comes.step _ hr.done (.refl _ _)
  intro io
  obtain ⟨K, hK, -, hstep⟩ := @stepCtx_operator pf io k u.1 u.2 _ _ op.operator
    hr.appCont hop hr.stack
  rw [hnil] at hstep
  obtain ⟨o, ho, hfull | ⟨c', rfl, hc'⟩⟩ := @evalOperand_cases k s.1.currEnv u.2 (u.1.resumed K) io
    op.operator (cdr s.2.heap s.1.currExp) hK rfl hr.done
  · exact ⟨o, hstep.trans (congrArg some ho), .inl hfull⟩
  · have henv := hk.isEnv he.env
    refine ⟨_, hstep.trans (congrArg some ho),
      .inr ⟨c', rfl, hc'.same.of_resumed, ih _ _ _ ?_ hfree₁⟩⟩
    exact ⟨_, _, hc'.evaluating hcar henv hr.sound, henv, hcdr⟩

end

end Semantics

end LispBM
