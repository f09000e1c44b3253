import LispBM.EvalCps.Forms

/-!
# LispBM — the concurrent evaluator and the meaning of programs

The context of an expression with a value comes to this value, and the heap is that of the memory
after it.

* `ArgumentsTo`, `AppliesTo` — the parts of an application;
* `evaluatesTo` — evaluation, by induction on how the expression got its value.
-/

namespace LispBM

section

variable {pf : Platform} {io : Outside} {k : List UINT} {s : EvalContext × Store} {w : VALUE}

/-! ## States of a call -/

theorem Calling.applies {args : List VALUE} (hc : Calling k w args s) : Applies s.1 w args :=
  ⟨hc.appCont, k, hc.stack⟩

/-- A stack has no room for more words. -/
theorem Calling.length_lt {args : List VALUE} (hc : Calling k w args s) : args.length < 2 ^ 32 := by
  have hlen := congrArg List.length hc.stack
  have hle := s.1.K.sp_le
  have hlt := s.1.K.size_lt
  rw [s.1.K.length_contents, List.length_append, Frame.words, Frame.payload, List.length_append,
    List.length_append, List.length_cons] at hlen
  omega

/-- The words of the call are dropped. -/
theorem Calling.drop {args : List VALUE} {K : Stack} {count : VALUE} {above : List VALUE}
    (hc : Calling k w args s) (hat : AtApplication pf io s.1 s.2 w args K count above) :
    (stackDrop K (args.length + 1)).contents = k := by
  obtain ⟨k', hdrop, hK⟩ := hat.drop
  exact hdrop.trans (List.append_cancel_right (hK.symm.trans hc.stack))

/-- `APPLICATION` of `eval`. -/
theorem Calling.eval {a : VALUE} {args : List VALUE}
    (hc : Calling k (encSym symreprEval) (a :: args) s) :
    ∃ K, K.contents = k ∧ ∀ pf io, stepCtx pf io s.1 s.2
      = some (.running { s.1.resumed K with currExp := a }, s.2, false) := by
  have hK₀ : s.1.K.contents = (k ++ encSym symreprEval :: a :: args)
      ++ [encU (BitVec.ofNat 32 (a :: args).length), encU contApplication] := by
    rw [hc.stack]
    simp [Frame.words, Frame.payload, Frame.tag]
  obtain ⟨K, K₁, hpop, hpop₁, hK₁⟩ := popU32_two_of_contents hK₀
  obtain ⟨hn, hbase, hfun, hargs, hdrop⟩ := @application_words k _ [] _ _ _ rfl hK₁
  rw [framesOn_nil] at hbase hfun hargs hdrop
  refine ⟨stackDrop K₁ ((a :: args).length + 1), hdrop, fun pf io => ?_⟩
  have hstep : stepCtx pf io s.1 s.2 = contApplicationCase pf io (s.1.resumed K) s.2 := by
    unfold stepCtx applyContinuation
    rw [if_pos hc.appCont, hpop]
    rfl
  -- the first argument
  have hfirst : (K₁.data.drop (k.length + 1)).getD 0 0#32 = a := by
    cases hdata : K₁.data.drop (k.length + 1) with
    | nil =>
      rw [hdata] at hargs
      cases hargs
    | cons b bs =>
      rw [hdata, List.length_cons, List.take_succ_cons] at hargs
      exact (List.cons.inj hargs).1
  have htypes : (typeOf (encSym symreprEval) == ptrTypeCons) = false
      ∧ (typeOf (encSym symreprEval) == valTypeSymbol) = true
      ∧ (decSym (encSym symreprEval) == symreprYield) = false
      ∧ (decSym (encSym symreprEval) == symreprWait) = false
      ∧ (decSym (encSym symreprEval) == symreprEval) = true := by decide
  rw [hstep]
  unfold contApplicationCase
  simp only [EvalContext.resumed, hpop₁, hn, hbase, hfun, hfirst, htypes, Option.bind_eq_bind,
    Option.bind_some, Bool.and_false, Bool.and_self, Bool.false_eq_true, if_false, if_true]

end

namespace Semantics

open FrameStack Machine

section

variable {pf : Platform} {R : Store → Store → Prop} {k ws : List UINT} {n n₁ n₂ : Nat}
  {Λ Λ₁ : Layout} {m m₁ m₂ m' : Memory} {E E₁ E₂ E' : Env} {e f v v₁ : Val} {es vs gs : List Val}
  {s : EvalContext × Store} {w env rest : VALUE} {st st' : Store} {c c' : EvalContext}
  {io : Outside}
  {g : Bool} {P Q : Layout → EvalContext × Store → Prop}

/-! ## Operands -/

/-- The context is about to apply the first of the values to the others. -/
structure Applying (k : List UINT) (gs : List Val) (E : Env) (Λ : Layout) (m : Memory)
    (s : EvalContext × Store) : Prop where
  call : ∃ f args, Calling k f args s ∧ List.Forall₂ (Holds s.2.heap Λ) (f :: args) gs
  env : IsEnv s.2.heap Λ s.1.currEnv E
  sound : Sound s.2.heap Λ m s.2.envGlobal

/-- The operands that are left come to their values, which are then applied. -/
def ArgumentsTo (pf : Platform) (R : Store → Store → Prop) (E : Env) (m : Memory) (E₁ : Env)
    (es : List Val) (n : Nat) (m' : Memory) (vs : List Val) (E' : Env) : Prop :=
  ∀ k Λ s v env rest ws gs, Returning (k ++ (Frame.applicationArgs ws env rest).words) v E₁ Λ m s →
    v.isConnective = false → List.Forall₂ (Holds s.2.heap Λ) ws gs → IsEnv s.2.heap Λ env E →
    Holds s.2.heap Λ rest (.list es) → n ≤ Λ.free.length →
    Comes pf R n Λ (fun Λ' u => Applying k (gs ++ v :: vs) E' Λ' m' u) s

theorem Holds.isConnective_eq {h : HeapState} (hw : Holds h Λ w v) :
    LispBM.isConnective w = v.isConnective := by
  show (typeOf w == valTypeSymbol && (decSym w == symreprAnd || decSym w == symreprOr))
    = (v.isSymbol symreprAnd || (v.isSymbol symreprOr || false))
  rw [← hw.isSymbol_eq, ← hw.isSymbol_eq, Bool.and_or_distrib_left, Bool.or_false]

theorem Holds.isSpecialForm_eq {h : HeapState} (hw : Holds h Λ w f) (hf : f.isFormHead = false) :
    isSpecialForm w = false := by
  simp only [Val.isFormHead, List.any_cons, List.any_nil, Bool.or_eq_false_iff,
    ← hw.isSymbol_eq] at hf
  obtain ⟨hquote, hdefine, hprogn, hspawn, hlambda, hif, hlet, -⟩ := hf
  simp only [isSpecialForm, Bool.and_or_distrib_left, hquote, hdefine, hprogn, hspawn, hlambda, hif,
    hlet, Bool.or_false]

/-- What `APPLICATION_ARGS` leaves as it is. -/
theorem applicationArg_keeps {arg count : VALUE}
    (h : applicationArg io c arg env count rest st = (.running c', st', g)) :
    c.Same c' ∧ ((typeOf rest == valTypeSymbol && rest == NIL) = true →
      c'.currEnv = c.currEnv) := by
  unfold applicationArg at h
  rcases hpush : pushU32 io.malloc c.K arg with ⟨ok, K⟩
  rw [hpush] at h
  cases ok with
  | false => cases h
  | true =>
    cases hnil : typeOf rest == valTypeSymbol && rest == NIL with
    | true =>
      simp only [hnil, if_true] at h
      rcases hpush₂ : pushAll io.malloc K [count, encU contApplication] with ⟨ok, K₂⟩
      rw [hpush₂] at h
      cases ok with
      | false => cases h
      | true =>
        cases h
        exact ⟨⟨rfl, rfl⟩, fun _ => rfl⟩
    | false =>
      simp only [hnil, Bool.false_eq_true, if_false] at h
      rcases hpush₂ : pushAll io.malloc K
        [env, encU (decU count + 1#32), cdr st.heap rest, encU contApplicationArgs] with ⟨ok, K₂⟩
      rw [hpush₂] at h
      cases ok with
      | false => cases h
      | true =>
        cases h
        exact ⟨⟨rfl, rfl⟩, fun h => absurd h (by decide)⟩

theorem argumentsTo_nil : ArgumentsTo pf R E m E₁ [] 0 m [] E₁ := by
  intro k Λ s v env rest ws gs hr hv hws _ hrest _
  have hnil : rest = NIL := hrest.nil_eq
  have hcon : LispBM.isConnective s.1.r = false := hr.val.isConnective_eq.trans hv
  apply Comes.last s.2 hr.done (.refl _ _)
  intro io
  obtain ⟨K, hK, hstep⟩ := @stepCtx_argument pf io k s.1 s.2 env rest ws hr.appCont hr.stack hcon
  obtain ⟨o, ho, hfull | ⟨c', rfl, f, args, hargs, hcall⟩⟩ := @applicationArg_atArgument io k
    (s.1.resumed K) s.2 env rest [] ws [] hK rfl hr.done (hnil ▸ .nil)
  · exact ⟨o, hstep.trans (congrArg some ho), .inl hfull⟩
  · obtain ⟨hkeeps, henv⟩ := applicationArg_keeps ho
    have hsame : c'.currEnv = s.1.currEnv := henv (by rw [hnil]; rfl)
    refine ⟨_, hstep.trans (congrArg some ho),
      .inr ⟨c', rfl, hkeeps.of_resumed, ⟨⟨f, args, hcall, ?_⟩,
      hsame ▸ hr.env, hr.sound⟩⟩⟩
    rw [← hargs]
    exact List.rel_append hws (.cons hr.val .nil)

theorem argumentsTo_cons (ih₁ : EvaluatesTo pf R m E e n₁ m₁ v₁ E₂) (hv₁ : v₁.isConnective = false)
    (ih₂ : ArgumentsTo pf R E m₁ E₂ es n m' vs E') :
    ArgumentsTo pf R E m E₁ (e :: es) (n₁ + n) m' (v₁ :: vs) E' := by
  intro k Λ s v env rest ws gs hr hv hws henv hrest hfree
  obtain ⟨hty, hcar, hcdr⟩ := hrest.list_uncons
  have hcon : LispBM.isConnective s.1.r = false := hr.val.isConnective_eq.trans hv
  rw [← Nat.zero_add (n₁ + n)]
  apply Comes.step s.2 hr.done (.refl _ _)
  intro io
  obtain ⟨K, hK, hstep⟩ := @stepCtx_argument pf io k s.1 s.2 env rest ws hr.appCont hr.stack hcon
  obtain ⟨o, ho, hfull | ⟨c', rfl, heval, hK'⟩⟩ :=
    @applicationArg_running io k (s.1.resumed K) s.2 env
    rest ws hK rfl hr.done hrest.isNil_eq
  · exact ⟨o, hstep.trans (congrArg some ho), .inl hfull⟩
  · have he : Evaluating (k ++ (Frame.applicationArgs (ws ++ [s.1.r]) env
        (cdr s.2.heap rest)).words)
        E e Λ m (c', s.2) :=
      ⟨heval.appCont, heval.done, hK', heval.exp.symm ▸ hcar, heval.env.symm ▸ henv, hr.sound⟩
    refine ⟨_, hstep.trans (congrArg some ho),
      .inr ⟨c', rfl, (applicationArg_keeps ho).1.of_resumed,
      ih₁.bind he hfree ?_⟩⟩
    intro Λ₁ u hu hk hfree₁
    have hvals := List.rel_append (hk.forall_holds hws) (.cons (hk.holds hr.val) .nil)
    have hgo := ih₂ _ _ _ _ _ _ _ _ hu hv₁ hvals (hk.isEnv henv) (hk.holds hcdr) hfree₁
    rwa [List.append_assoc] at hgo

/-! ## Calls -/

/-- The first of the values, applied to the others, comes to `v`. -/
def AppliesTo (pf : Platform) (R : Store → Store → Prop) (m : Memory) (E : Env) (f : Val)
    (vs : List Val) (n : Nat) (m' : Memory) (v : Val) (E' : Env) : Prop :=
  ∀ k Λ s, Applying k (f :: vs) E Λ m s → n ≤ Λ.free.length → Yields pf R k n m' v E' Λ s

/-- **A fundamental operation.** -/
theorem appliesTo_fundamental (hp : Primitive pf.target w vs n v) (hv : v.isFailure = false) :
    AppliesTo pf R m E (.word w) vs n m v E := by
  intro k Λ s happ hfree
  obtain ⟨u, args, hc, hws⟩ := happ.call
  obtain ⟨hu, hargs⟩ := List.forall₂_cons.mp hws
  obtain rfl : u = w := hu.word_eq
  obtain ⟨hfund, hcontrol⟩ := hp.isFundamental_eq
  have hnot : isControl u = false := by
    simp only [isControlSymbol, List.any_cons, List.any_nil, Bool.or_eq_false_iff] at hcontrol
    obtain ⟨heval, hyield, hwait, -⟩ := hcontrol
    rw [isControl, heval, hyield, hwait, Bool.or_self, Bool.or_self, Bool.and_false]
  simp only [Val.isFailure, List.any_cons, List.any_nil, Bool.or_eq_false_iff] at hv
  obtain ⟨heerror, hmerror, -⟩ := hv
  have hlen := hc.length_lt
  obtain ⟨r, h', hexec, Λ', hs', hk, hr⟩ := hp.leaves happ.sound hargs hfree hlen s.2.symbols
  apply Comes.last { s.2 with heap := h' } hc.done hk
  intro io
  obtain ⟨K, count, above, hat⟩ := hc.applies.atApplication pf io s.2
  have hdrop := hc.drop hat
  have hcount := hat.count_eq
  refine ⟨_, ?_, .inr ⟨{ s.1.resumed K with
      K := stackDrop K (args.length + 1), appCont := true, r := r }, rfl, ⟨rfl, rfl⟩,
    ⟨rfl, hc.done, hdrop, hr, hk.isEnv happ.env, hs'⟩⟩⟩
  have hword : decU count = BitVec.ofNat 32 args.length := by
    apply BitVec.eq_of_toNat_eq
    rw [hcount, BitVec.toNat_ofNat, Nat.mod_eq_of_lt hlen]
  have hexec' : fundamentalExec pf.floats (args ++ above) (decU count) u s.2.symbols s.2.heap
      = some (r, h', s.2.symbols) := by
    rw [hword]
    exact hexec above
  rw [hat.fundamental hfund hnot]
  unfold applyFundamental
  simp only [hexec', hr.isSymbol_eq, heerror, hmerror, Option.bind_eq_bind, Option.bind_some,
    Bool.false_eq_true, if_false, hcount]
  rfl

/-- **A closure** gets its arguments as new locations. -/
theorem appliesTo_closure {ps : List VALUE} (hlen : ps.length = vs.length)
    (ih : EvaluatesTo pf R (m.allocate (vs.map some)) (E₁.extend ps m.vals.length) e n m' v E') :
    AppliesTo pf R m E (.closure ps e E₁) vs (vs.length + 2 * ps.length + n) m' v E' := by
  intro k Λ s happ hfree
  obtain ⟨u, args, hc, hws⟩ := happ.call
  obtain ⟨hu, hargs⟩ := List.forall₂_cons.mp hws
  cases hu with
  | @closure _ params body env _ _ _ is js hlist his hparams hjs hps hbody henv =>
    have hnil : Holds s.2.heap Λ NIL .nil := .word (by decide)
    have hsame : args.reverse.length = vs.length := by rw [List.length_reverse, hargs.length_eq]
    have hall := happ.sound.leaves_consAll (List.rel_reverse hargs) hnil (by omega)
    rw [List.reverse_reverse, hsame] at hall
    obtain ⟨Λ₁, hs₁, hk₁, hargl⟩ := hall
    rcases hcons : consAll args.reverse NIL s.2.heap with ⟨argl, h₁⟩
    rw [hcons] at hs₁ hk₁ hargl
    have hparams₁ : ListOf h₁ params ps js := hparams.congr fun j hj => hk₁.cells j (hjs j hj)
    have hjs₁ : ∀ j ∈ js, Λ₁.Data h₁ j := fun j hj => hk₁.data (hjs j hj)
    obtain ⟨env', h', hbuild, Λ', hs', hk', henv'⟩ := hs₁.leaves_envBuildParamsArgs hparams₁ hjs₁
      hargl hlen hps (hk₁.isEnv henv) (by rw [hk₁.free, List.length_drop]; omega)
    -- the parts of the closure, and the lengths that are compared
    obtain ⟨hty, hcar, hcadr, hcaddr⟩ :=
      fields_of_listOf (hlist.congr fun i hi => hk₁.cells i (his i hi))
    obtain ⟨us, ks, hargList, hks, hus⟩ := hargl.listOf
    have hna : LispBM.length h₁ argl = some ps.length := by
      rw [hs₁.length_eq hargList hks, hus.length_eq, hlen]
    have hnone : (args.length != 0 && typeOf argl == valTypeSymbol) = false := by
      cases hargs with
      | nil => rfl
      | cons =>
        rw [hargl.list_uncons.1]
        exact Bool.and_false _
    apply Comes.step { s.2 with heap := h' } hc.done (hk₁.trans hk')
    intro io
    obtain ⟨K, count, above, hat⟩ := hc.applies.atApplication pf io s.2
    have hdrop := hc.drop hat
    refine ⟨_, ?_, .inr ⟨{ s.1.resumed K with
        K := stackDrop K (args.length + 1), currExp := body, currEnv := env' }, rfl, ⟨rfl, rfl⟩,
      ih _ _ _ ⟨rfl, hc.done, hdrop, (hk₁.trans hk').holds hbody, henv', hs'⟩
        (free_of_keeps (hk₁.trans hk') hfree)⟩⟩
    have herror : (typeOf env' == valTypeSymbol && decSym env' == symreprMerror) = false
        ∧ (typeOf env' == valTypeSymbol && decSym env' == symreprFatalError) = false :=
      ⟨henv'.isSymbol_eq (by decide), henv'.isSymbol_eq (by decide)⟩
    rw [hat.closure hty]
    unfold applyClosure
    simp only [hcons, hnone, hcar, hcadr, hcaddr, hs₁.length_eq hparams₁ hjs₁, hna, hbuild, herror,
      Option.bind_eq_bind, Option.bind_some, bne_self_eq_false, Bool.false_eq_true, if_false]
    rfl

/-- `eval` evaluates its first argument once more. -/
theorem appliesTo_eval (ih : EvaluatesTo pf R m E e n m' v E') :
    AppliesTo pf R m E (.sym symreprEval) (e :: vs) n m' v E' := by
  intro k Λ s happ hfree
  obtain ⟨u, args, hc, hws⟩ := happ.call
  obtain ⟨hu, hargs⟩ := List.forall₂_cons.mp hws
  obtain rfl : u = encSym symreprEval := hu.sym_eq
  cases hargs with
  | @cons a _ args _ ha _ =>
    obtain ⟨K, hK, hstep⟩ := hc.eval
    rw [← Nat.zero_add n]
    apply Comes.step s.2 hc.done (.refl _ _)
    intro io
    exact ⟨_, hstep pf io, .inr ⟨_, rfl, ⟨rfl, rfl⟩,
      ih _ _ _ ⟨rfl, hc.done, hK, ha, happ.env, happ.sound⟩ (by omega)⟩⟩

/-- **An application** evaluates its operator and its operands, and makes the call. -/
theorem evaluatesTo_application {a : Val} (hf : f.isFormHead = false)
    (ih₁ : EvaluatesTo pf R m E f n₁ m₁ a E₁) (ha : a.isConnective = false)
    (ih₂ : ArgumentsTo pf R E m₁ E₁ es n₂ m₂ vs E₂) (ih₃ : AppliesTo pf R m₂ E₂ a vs n m' v E') :
    EvaluatesTo pf R m E (.pair f (.list es)) (n₁ + n₂ + n) m' v E' := by
  intro k Λ s he hfree
  obtain ⟨-, hhead, hrest⟩ := he.exp.uncons
  have hform := hhead.isSpecialForm_eq hf
  rw [Nat.add_assoc] at hfree ⊢
  rw [← Nat.zero_add (n₁ + (n₂ + n))]
  apply Comes.dispatch he (fun io => stepCtx_call he hform) (.refl _ _) hhead he.env he.sound
  intro c hc
  apply ih₁.bind hc hfree
  intro Λ₁ u hr hk hfree₁
  apply (ih₂ _ _ _ _ _ _ _ _ hr ha .nil (hk.isEnv he.env) (hk.holds hrest) (by omega)).bind
  intro Λ₂ t ht hk₂
  exact ih₃ _ _ _ ht (free_of_keeps hk₂ hfree₁)

end

/-! ## Evaluation -/

theorem EvalConnective.exists_cons {T : Target} {c : Connective} {m m' : Memory} {E E' : Env}
    {es : List Val} {n : Nat} {v : Val} (h : EvalConnective T c m E es n m' v E') :
    ∃ e es', es = e :: es' := by
  cases h with
  | decided => exact ⟨_, _, rfl⟩
  | last => exact ⟨_, _, rfl⟩
  | next => exact ⟨_, _, rfl⟩

section

variable {pf : Platform} {R : Store → Store → Prop}

mutual

/-- **The context of an expression with a value comes to this value.** -/
theorem evaluatesTo {m m' : Memory} {E E' : Env} {e v : Val} {n : Nat}
    (h : Eval pf.target m E e n m' v E') : EvaluatesTo pf R m E e n m' v E' := by
  match h with
  | .constant hw => exact evaluatesTo_constant hw
  | .var hx hl hv hfound => exact evaluatesTo_variable hx hl hv hfound
  | .quote => exact evaluatesTo_quote
  | .define hx hnil he => exact evaluatesTo_define hx hnil (evaluatesTo he)
  | .prognOne he => exact evaluatesTo_prognOne (evaluatesTo he)
  | .progn he hrest => exact evaluatesTo_progn (evaluatesTo he) (restTo hrest)
  | .lambda hps => exact evaluatesTo_lambda hps
  | .ifThen he hthen ha =>
    exact evaluatesTo_branch (evaluatesTo he) (if_pos hthen).symm (evaluatesTo ha)
  | .ifElse he helse hb =>
    have hv := ne_true_of_eq_false helse
    exact evaluatesTo_branch (evaluatesTo he) (if_neg hv).symm (evaluatesTo hb)
  | .letrec hnames hE₁ hbs he =>
    have ih₁ := bindingsTo hbs
    have ih₂ := evaluatesTo he
    cases hE₁
    exact evaluatesTo_let hnames ih₁ ih₂
  | .connective hes =>
    have ih := connectiveTo hes
    obtain ⟨e, es, rfl⟩ := hes.exists_cons
    exact evaluatesTo_connective ih
  | .application hf heval hg hes happly =>
    exact evaluatesTo_application hf (evaluatesTo heval) hg (argumentsTo hes) (appliesTo happly)

theorem restTo {m m' : Memory} {E E₁ E' : Env} {es : List Val} {v : Val} {n : Nat}
    (h : EvalRest pf.target E m E₁ es n m' v E') :
    RestTo pf R E m E₁ es n m' v E' := by
  match h with
  | .last he => exact restTo_last (evaluatesTo he)
  | .next he hrest => exact restTo_next (evaluatesTo he) (restTo hrest)

theorem bindingsTo {m m' : Memory} {E : Env} {bs : List (VALUE × Val)} {n : Nat}
    (h : EvalBindings pf.target m E bs n m') : BindingsTo pf R m E bs n m' := by
  match h with
  | .nil => exact bindingsTo_nil
  | .cons he hl hbs => exact bindingsTo_cons (evaluatesTo he) hl (bindingsTo hbs)

theorem connectiveTo {op : Connective} {m m' : Memory} {E E' : Env} {es : List Val} {v : Val}
    {n : Nat} (h : EvalConnective pf.target op m E es n m' v E') :
    ConnectiveTo pf R op m E es n m' v E' := by
  match h with
  | .decided he hv => exact connectiveTo_last (evaluatesTo he) (.inl hv)
  | .last he hv => exact connectiveTo_last (evaluatesTo he) (.inr ⟨hv, rfl⟩)
  | .next he hv hes => exact connectiveTo_next (evaluatesTo he) hv (connectiveTo hes)

theorem argumentsTo {m m' : Memory} {E E₁ E' : Env} {es vs : List Val} {n : Nat}
    (h : EvalArgs pf.target E m E₁ es n m' vs E') :
    ArgumentsTo pf R E m E₁ es n m' vs E' := by
  match h with
  | .nil => exact argumentsTo_nil
  | .cons he hv hes => exact argumentsTo_cons (evaluatesTo he) hv (argumentsTo hes)

theorem appliesTo {m m' : Memory} {E E' : Env} {f v : Val} {vs : List Val} {n : Nat}
    (h : Apply pf.target m E f vs n m' v E') : AppliesTo pf R m E f vs n m' v E' := by
  match h with
  | .fundamental hf hv => exact appliesTo_fundamental hf hv
  | .closure hlen he => exact appliesTo_closure hlen (evaluatesTo he)
  | .eval he => exact appliesTo_eval (evaluatesTo he)

end

end

end Semantics

end LispBM
