import LispBM.EvalCps.Arguments
import LispBM.Fundamental.Arguments
import LispBM.Lib.Turns
import LispBM.QqExpand.Expansion

/-!
# LispBM — the value of a quasiquotation

The reader expands a quasiquotation into code, and the evaluator runs the code. What comes out is
the template with its holes filled: the expressions in them are evaluated from left to right, each
of them once and in the environment of the quasiquotation, and nothing else of the program is.

* `Template.fills` — the template filled in, by what the expressions contribute;
* `quasiquoteWork` — what the evaluation of an expression in a hole may do;
* `code_yields` — the value of the code for a template;
* `quasiquote_fills` — expansion and evaluation together.

`append` and `list` find the values of their arguments on the stack, where `APPLICATION_ARGS` has
looked at them; `isSignal` are the values that do not get that far or not further.
-/

namespace LispBM

open FrameStack Machine Structures

/-! ## The template filled in -/

/-- An expression in a template, and whether the words of its value are spliced in. -/
structure Hole where
  exp : VALUE
  spliced : Bool
deriving DecidableEq, Repr

namespace Template

/-- The holes from left to right. For a splice in the place of a cdr there is no code. -/
def holes : Position → Template → List Hole
  | _, leaf _ => []
  | _, unquote e => [⟨e, false⟩]
  | .expression, splice _ => []
  | .element, splice e => [⟨e, true⟩]
  | _, pair a d => holes .element a ++ holes .expression d

/-- What the template puts in its place, if the holes contribute the words `xss`. -/
def fills (h : HeapState) : Position → Template → List (List VALUE) → List VALUE → Prop
  | _, leaf w, xss, xs => xss = [] ∧ xs = [w]
  | _, unquote _, xss, xs => xss = [xs]
  | .expression, splice _, xss, xs => xss = [] ∧ xs = [encSym symreprRerror]
  | .element, splice _, xss, xs => xss = [xs]
  | _, pair a d, xss, xs => ∃ r items b is as bs, xs = [r] ∧ ListTo h b r items is ∧ xss = as ++ bs
      ∧ fills h .element a as items ∧ fills h .expression d bs [b]

end Template

/-- A value that the evaluator takes for an operator or for a failure when it gets it. -/
def isSignal (v : VALUE) : Bool :=
  isConnective v || (typeOf v == valTypeSymbol && (decSym v == symreprEerror
    || decSym v == symreprMerror))

namespace Template

/-- The template is not one of these values, nor is a cdr in it. -/
def isTame : Position → Template → Bool
  | .expression, leaf w => !isSignal w
  | _, pair a d => isTame .element a && isTame .expression d
  | _, _ => true

/-- `r` is the value of the code. The code for an element makes a list of what it contributes. -/
def value (p : Position) (T : Template) (xss : List (List VALUE)) (r : VALUE) (h : HeapState) :
    Prop :=
  ∃ xs, T.fills h p xss xs ∧ match p with
    | .expression => xs = [r]
    | .element => IsList h r xs

end Template

/-! ## Holes -/

/-- There is a free list without a cell under `ws`. -/
def Secure (ws : List VALUE) (h : HeapState) : Prop := ∃ l, FreeList h l ∧ Occupied h l ws

/-- The value of an expression in a hole contributes the words `xs`. The evaluation has left alone
what is on the stack. -/
structure HoleValue (o : Hole) (s t : EvalContext × Store) (xs : List VALUE) : Prop where
  done : t.1.done = false
  quiet : isSignal t.1.r = false
  words : if o.spliced then IsList t.2.heap t.1.r xs else xs = [t.1.r]
  intact : Intact s.1.K.contents s.2.heap t.2.heap
  secure : Secure (t.1.r :: s.1.K.contents) t.2.heap

/-- A call of `append` or `list` puts the words `ws` in front of `b`. -/
inductive Builder (h : HeapState) : VALUE → List VALUE → List VALUE → VALUE → Prop where
  | append {x b : VALUE} {ws : List VALUE} (hlist : IsList h x ws) :
      Builder h (encSym symAppend) [x, b] ws b
  | list (x : VALUE) : Builder h (encSym symList) [x] [x] NIL

/-- The call that is next needs more cells than there are free ones. The evaluator will collect
garbage and try again. -/
def Starved (s : EvalContext × Store) : Prop :=
  ∃ k f args ws b l, Calling k f args s ∧ Builder s.2.heap f args ws b ∧ FreeList s.2.heap l
    ∧ l.length < ws.length

/-- What the expansion puts in the heads of its code. -/
def codeHeads : List VALUE := [encSym symreprQuote, encSym symAppend, encSym symList]

/-- An expression of the expansion. -/
def IsGenerated (h : HeapState) (v : VALUE) : Prop :=
  v ∈ encSym symreprRerror :: codeHeads ∨ typeOf v = ptrTypeCons ∧ car h v ∈ codeHeads

/-- The code for a quasiquotation that is evaluated in the environment `E` above the stack `k`. -/
def quasiquoteWork (pf : Platform) (k : List UINT) (E : VALUE) :
    Work (EvalContext × Store) Hole (List VALUE) where
  own s := FormLive pf k s ∧ (s.1.appCont = false → IsGenerated s.2.heap s.1.currExp)
  halted := Starved
  starts o := Evaluates k E o.exp
  val := HoleValue

/-- The context is about to evaluate `e` in the environment `E`, with the stack `k`. -/
structure Begins (k : List UINT) (E e : VALUE) (s : EvalContext × Store) : Prop where
  appCont : s.1.appCont = false
  done : s.1.done = false
  exp : s.1.currExp = e
  env : s.1.currEnv = E
  stack : s.1.K.contents = k
  secure : Secure (e :: E :: k) s.2.heap

/-- The code that was started in `s` has a value with the property `P`, of which nothing is free. -/
def Delivers (k : List UINT) (s : EvalContext × Store)
    (P : List (List VALUE) → VALUE → HeapState → Prop) (xss : List (List VALUE))
    (u : EvalContext × Store) : Prop :=
  ∃ r, ReturnsTo k r u ∧ P xss r u.2.heap ∧ isSignal r = false
    ∧ Intact k s.2.heap u.2.heap ∧ Secure (r :: k) u.2.heap

section

variable {h h' : HeapState} {v b r x E : VALUE} {ws us xs vs es : List VALUE} {k k₀ : List UINT}
  {T : Template} {p : Position} {xss : List (List VALUE)} {pf : Platform}
  {R : Store → Store → Prop} {s t u : EvalContext × Store} {hs : List Hole}
  {Q : List (List VALUE) → EvalContext × Store → Prop}

/-- What is under words in use is in use. -/
theorem Secure.mono (hsec : Secure ws h)
    (hus : ∀ w ∈ us, ∀ i, Under h w i → ∃ v ∈ ws, Under h v i) : Secure us h := by
  obtain ⟨l, hl, huse⟩ := hsec
  refine ⟨l, hl, fun w hw i hi => ?_⟩
  obtain ⟨v, hv, hi⟩ := hus w hw i hi
  exact huse v hv i hi

theorem Secure.subset (hsec : Secure ws h) (hus : us ⊆ ws) : Secure us h :=
  hsec.mono fun w hw _ hi => ⟨w, hus hw, hi⟩

/-- The words of a frame that have something under them. -/
theorem under_of_mem_words {rest w : VALUE} {i : Nat}
    (hw : w ∈ (Frame.applicationArgs vs E rest).words) (hi : Under h w i) :
    ∃ x ∈ rest :: E :: vs, Under h x i := by
  have hnumber : ∀ n : UINT, ¬Under h (encU n) i := by
    intro n hn
    have hty : typeOf (encU n) = valTypeU := typeOf_shift n (by decide)
    have hatom : Occupied h [i] [encU n] := occupied_atom (by rw [hty]; decide)
    exact (hatom _ List.mem_cons_self i hn).2 List.mem_cons_self
  simp only [Frame.words, Frame.payload, List.mem_append, List.mem_cons, List.not_mem_nil,
    or_false] at hw
  rcases hw with (hw | rfl | rfl | rfl) | rfl
  · exact ⟨w, by simp [hw], hi⟩
  · exact ⟨_, by simp, hi⟩
  · exact absurd hi (hnumber _)
  · exact ⟨_, by simp, hi⟩
  · exact absurd hi (hnumber _)

theorem isSignal_of_isList (hlist : IsList h v ws) : isSignal v = false := by
  obtain ⟨is, hlist⟩ := hlist
  cases hlist with
  | nil => decide
  | cons hty _ =>
    have hcons : (ptrTypeCons == valTypeSymbol) = false := by decide
    rw [isSignal, isConnective, hty, hcons]
    rfl

theorem isConnective_of_quiet (hv : isSignal v = false) : isConnective v = false := by
  rw [isSignal, Bool.or_eq_false_iff] at hv
  exact hv.1

/-- What was filled in stays what it is. -/
theorem fills_congr : ∀ {T : Template} {p : Position} {xss : List (List VALUE)} {xs : List VALUE},
    T.fills h p xss xs → Intact xs h h' → T.fills h' p xss xs := by
  intro T
  induction T with
  | leaf w =>
    intro p xss xs hfills _
    cases p <;> exact hfills
  | unquote e =>
    intro p xss xs hfills _
    cases p <;> exact hfills
  | splice e =>
    intro p xss xs hfills _
    cases p <;> exact hfills
  | pair a d iha ihd =>
    intro p xss xs hfills hkeep
    have hpair : ∃ r items b is as bs, xs = [r] ∧ ListTo h b r items is ∧ xss = as ++ bs
        ∧ a.fills h .element as items ∧ d.fills h .expression bs [b] := by
      cases p <;> exact hfills
    obtain ⟨r, items, b, is, as, bs, rfl, hlist, rfl, ha, hd⟩ := hpair
    have hr := hkeep r List.mem_cons_self
    have hres : ∃ r' items b is as' bs', [r] = [r'] ∧ ListTo h' b r' items is
        ∧ as ++ bs = as' ++ bs' ∧ a.fills h' .element as' items
          ∧ d.fills h' .expression bs' [b] := by
      refine ⟨r, items, b, is, as, bs, rfl, ?_, rfl, iha ha ?_, ihd hd ?_⟩
      · exact hlist.congr fun i hi => hr i (listTo_under_cell hlist hi)
      · exact fun w hw i hi => hr i (listTo_under_word hlist hw hi)
      · intro w hw i hi
        rw [List.mem_singleton.mp hw] at hi
        exact hr i (listTo_under_end hlist hi)
    cases p <;> exact hres

/-! ## The steps of the code -/

theorem formLive_of_frames_below (hk : k₀ <+: k) (hlive : FormLive pf k s) : FormLive pf k₀ s := by
  refine ⟨hlive.1, fun hret => hlive.2 ⟨hret.1, hret.2.trans hk.length_le⟩⟩

/-- A state in which an expression of the code is about to be evaluated. -/
theorem own_of_begins (hb : Begins k E v s) (hgen : IsGenerated s.2.heap v) (hgo : GoesOn pf s) :
    (quasiquoteWork pf k₀ E).own s := by
  refine ⟨⟨hgo, ?_⟩, fun _ => ?_⟩
  · rintro ⟨hret, -⟩
    exact absurd (hret.symm.trans hb.appCont) (by decide)
  · rw [hb.exp]
    exact hgen

/-- A state in which a value is about to be handed to a frame. -/
theorem own_of_frame {f : Frame} (hk : k₀ <+: k) (ha : s.1.appCont = true)
    (hK : s.1.K.contents = k ++ f.words) (hgo : GoesOn pf s) :
    (quasiquoteWork pf k₀ E).own s := by
  refine ⟨formLive_of_frames_below hk (formLive_of_frame hK hgo), fun hev => ?_⟩
  exact absurd (ha.symm.trans hev) (by decide)

/-- A step of the code. -/
theorem inTurn_of_step (hd : s.1.done = false)
    (hown : GoesOn pf s → (quasiquoteWork pf k₀ E).own s)
    (h : ∀ io, ∃ o st, stepCtx pf io s.1 s.2 = some (o, st, false)
      ∧ (OutOfStack o ∨ ∃ c', o = .running c'
        ∧ (contextMachine pf R).InTurn (quasiquoteWork pf k₀ E) hs Q (c', st))) :
    (contextMachine pf R).InTurn (quasiquoteWork pf k₀ E) hs Q s := by
  apply InTurn.of_leads
  apply leads_of_storeStep hd hown
  intro io
  obtain ⟨o, st, hstep, hfull | ⟨c', rfl, hnext⟩⟩ := h io
  · exact ⟨o, st, hstep, .inl hfull⟩
  · exact ⟨_, st, hstep, .inr ⟨c', rfl, .here (.inr hnext)⟩⟩

/-- A quoted word is its own value. -/
theorem inTurn_quote (hb : Begins k E v s) (hlist : IsList s.2.heap v [encSym symreprQuote, x])
    (h : ∀ c', ReturnsTo k x (c', s.2) →
      (contextMachine pf R).InTurn (quasiquoteWork pf k₀ E) hs Q (c', s.2)) :
    (contextMachine pf R).InTurn (quasiquoteWork pf k₀ E) hs Q s := by
  obtain ⟨hty, hcar⟩ := hlist.head_eq
  have hgen : IsGenerated s.2.heap v := .inr ⟨hty, by rw [hcar]; simp [codeHeads]⟩
  apply inTurn_of_step hb.done (own_of_begins hb hgen)
  intro io
  have hstep : stepCtx pf io s.1 s.2 = some (deliver s.1 x s.2) := by
    rw [stepCtx_cons hb.appCont (by rw [hb.exp]; exact hty)]
    unfold evalForm
    rw [hb.exp]
    simp only [hcar, hlist.second_eq]
    rfl
  exact ⟨_, _, hstep, .inr ⟨_, rfl, h _ ⟨rfl, hb.done, hb.stack, rfl⟩⟩⟩

/-- So is a symbol of the expansion. -/
theorem inTurn_symbol (hb : Begins k E v s) (hv : v ∈ encSym symreprRerror :: codeHeads)
    (h : ∀ c', ReturnsTo k v (c', s.2) →
      (contextMachine pf R).InTurn (quasiquoteWork pf k₀ E) hs Q (c', s.2)) :
    (contextMachine pf R).InTurn (quasiquoteWork pf k₀ E) hs Q s := by
  apply inTurn_of_step hb.done (own_of_begins hb (.inl hv))
  intro io
  have hspecial : isSpecial s.1.currExp = true := by
    rw [hb.exp]
    simp only [codeHeads, List.mem_cons, List.not_mem_nil, or_false] at hv
    rcases hv with rfl | rfl | rfl | rfl <;> decide
  have hstep := @stepCtx_special pf io _ s.2 hb.appCont hspecial
  exact ⟨_, _, hstep, .inr ⟨_, rfl, h _ ⟨rfl, hb.done, hb.stack, hb.exp⟩⟩⟩

/-- The value of an argument, with another argument after it. -/
theorem inTurn_argument {rest e : VALUE} (hk : k₀ <+: k)
    (hret : ReturnsTo (k ++ (Frame.applicationArgs vs E rest).words) r u)
    (hr : isConnective r = false) (hlist : IsList u.2.heap rest (e :: es))
    (hsec : Secure (r :: (k ++ (Frame.applicationArgs vs E rest).words)) u.2.heap)
    (h : ∀ c' rest', IsList u.2.heap rest' es →
      Begins (k ++ (Frame.applicationArgs (vs ++ [r]) E rest').words) E e (c', u.2) →
      (contextMachine pf R).InTurn (quasiquoteWork pf k₀ E) hs Q (c', u.2)) :
    (contextMachine pf R).InTurn (quasiquoteWork pf k₀ E) hs Q u := by
  obtain ⟨hty, hcar⟩ := hlist.head_eq
  obtain ⟨is, hwords⟩ := hlist
  obtain ⟨-, -, js, -, hrest⟩ := hwords.uncons
  have hnil : (typeOf rest == valTypeSymbol && rest == NIL) = false := by
    rw [hty]
    rfl
  apply inTurn_of_step hret.done (own_of_frame hk hret.appCont hret.stack)
  intro io
  obtain ⟨K, hK, hstep⟩ := @stepCtx_argument pf io k u.1 u.2 E rest vs hret.appCont hret.stack
    (by rw [hret.val]; exact hr)
  obtain ⟨o, happ, hfull | ⟨c', rfl, heval, hK'⟩⟩ :=
    @applicationArg_running io k (u.1.resumed K) u.2 E rest vs hK rfl hret.done hnil
  · exact ⟨o, _, hstep.trans (congrArg some happ), .inl hfull⟩
  refine ⟨_, _, hstep.trans (congrArg some happ), .inr ⟨c', rfl, h c' (cdr u.2.heap rest)
    ⟨js, hrest⟩ ⟨heval.appCont, heval.done, heval.exp.trans hcar, heval.env, ?_, ?_⟩⟩⟩
  · rw [hK']
    show _ = k ++ (Frame.applicationArgs (vs ++ [r]) E (cdr u.2.heap rest)).words
    rw [← hret.val]
    rfl
  · -- the new words are under the old ones
    have hrestmem : rest ∈ (Frame.applicationArgs vs E rest).words := by
      simp [Frame.words, Frame.payload]
    have hEmem : E ∈ (Frame.applicationArgs vs E rest).words := by
      simp [Frame.words, Frame.payload]
    have hvs : ∀ w ∈ vs, w ∈ (Frame.applicationArgs vs E rest).words := by
      intro w hw
      simp [Frame.words, Frame.payload, hw]
    apply hsec.mono
    intro w hw i hi
    rcases List.mem_cons.mp hw with rfl | hw
    · exact ⟨rest, by simp [hrestmem], .car hty (hcar ▸ hi)⟩
    rcases List.mem_cons.mp hw with rfl | hw
    · exact ⟨w, by simp [hEmem], hi⟩
    rcases List.mem_append.mp hw with hw | hw
    · exact ⟨w, by simp [hw], hi⟩
    · obtain ⟨x, hx, hi⟩ := under_of_mem_words hw hi
      rcases List.mem_cons.mp hx with rfl | hx
      · exact ⟨rest, by simp [hrestmem], .cdr hty hi⟩
      rcases List.mem_cons.mp hx with rfl | hx
      · exact ⟨x, by simp [hEmem], hi⟩
      rcases List.mem_append.mp hx with hx | hx
      · exact ⟨x, by simp [hvs x hx], hi⟩
      · rw [List.mem_singleton.mp hx] at hi
        exact ⟨r, List.mem_cons_self, hi⟩

/-- The value of the last argument. -/
theorem inTurn_lastArgument {f rest : VALUE} {args : List VALUE} (hk : k₀ <+: k)
    (hret : ReturnsTo (k ++ (Frame.applicationArgs vs E rest).words) r u)
    (hr : isConnective r = false) (hlist : IsList u.2.heap rest []) (hargs : vs ++ [r] = f :: args)
    (h : ∀ c', Calling k f args (c', u.2) →
      (contextMachine pf R).InTurn (quasiquoteWork pf k₀ E) hs Q (c', u.2)) :
    (contextMachine pf R).InTurn (quasiquoteWork pf k₀ E) hs Q u := by
  obtain ⟨is, hwords⟩ := hlist
  apply inTurn_of_step hret.done (own_of_frame hk hret.appCont hret.stack)
  intro io
  obtain ⟨o, hstep, hfull | ⟨c', rfl, f', args', hargs', hcall⟩⟩ := @argument_step pf io k u.1 u.2 E
    rest _ vs _ hret.appCont hret.done hret.stack (by rw [hret.val]; exact hr) hwords
  · exact ⟨o, _, hstep, .inl hfull⟩
  · rw [hret.val, hargs] at hargs'
    obtain ⟨rfl, rfl⟩ := List.cons.inj hargs'
    exact ⟨_, _, hstep, .inr ⟨c', rfl, h c' hcall⟩⟩

/-- A call starts with the evaluation of its operator, which is a symbol, and goes on to its first
argument. -/
theorem inTurn_call {f e : VALUE} (hk : k₀ <+: k) (hb : Begins k E v s)
    (hf : f = encSym symAppend ∨ f = encSym symList) (hlist : IsList s.2.heap v (f :: e :: es))
    (h : ∀ c' rest, IsList s.2.heap rest es →
      Begins (k ++ (Frame.applicationArgs [f] E rest).words) E e (c', s.2) →
      (contextMachine pf R).InTurn (quasiquoteWork pf k₀ E) hs Q (c', s.2)) :
    (contextMachine pf R).InTurn (quasiquoteWork pf k₀ E) hs Q s := by
  obtain ⟨hty, hcar⟩ := hlist.head_eq
  have hhead : f ∈ encSym symreprRerror :: codeHeads := by
    rcases hf with rfl | rfl <;> simp [codeHeads]
  have hgen : IsGenerated s.2.heap v := by
    right
    rw [hcar]
    rcases hf with rfl | rfl <;> exact ⟨hty, by simp [codeHeads]⟩
  have happlication : isSpecialForm (car s.2.heap s.1.currExp) = false := by
    rw [hb.exp, hcar]
    rcases hf with rfl | rfl <;> decide
  have hatom : typeOf f ≠ ptrTypeCons := by
    rcases hf with rfl | rfl <;> decide
  have hconn : isConnective f = false := by
    rcases hf with rfl | rfl <;> decide
  apply inTurn_of_step hb.done (own_of_begins hb hgen)
  intro io
  obtain ⟨o, hstep, hfull | ⟨c', rfl, hat⟩⟩ := @stepCtx_application pf io s.1 s.2 hb.appCont hb.done
    (by rw [hb.exp]; exact hty) happlication
  · exact ⟨o, _, hstep, .inl hfull⟩
  rw [hb.exp, hb.env, hb.stack, hcar] at hat
  -- what is under the frame is under the call
  have hsec : Secure (f :: E :: (k ++ (Frame.applicationArgs [] E (cdr s.2.heap v)).words))
      s.2.heap := by
    apply hb.secure.mono
    intro w hw i hi
    have hf' : ∀ j, ¬Under s.2.heap f j := fun j hj =>
      ((occupied_atom hatom : Occupied s.2.heap [j] [f]) f List.mem_cons_self j hj).2
        List.mem_cons_self
    rcases List.mem_cons.mp hw with rfl | hw
    · exact absurd hi (hf' i)
    rcases List.mem_cons.mp hw with rfl | hw
    · exact ⟨w, by simp, hi⟩
    rcases List.mem_append.mp hw with hw | hw
    · exact ⟨w, by simp [hw], hi⟩
    · obtain ⟨x, hx, hi⟩ := under_of_mem_words hw hi
      simp only [List.mem_cons, List.not_mem_nil, or_false] at hx
      rcases hx with rfl | rfl
      · exact ⟨v, by simp, .cdr hty hi⟩
      · exact ⟨x, by simp, hi⟩
  refine ⟨_, _, hstep, .inr ⟨c', rfl, ?_⟩⟩
  have hbegins : Begins (k ++ (Frame.applicationArgs [] E (cdr s.2.heap v)).words) E f (c', s.2) :=
    ⟨hat.appCont, hat.done, hat.exp, hat.env, hat.stack, hsec⟩
  apply inTurn_symbol hbegins hhead
  intro c'' hret
  have hrest : IsList s.2.heap (cdr s.2.heap v) (e :: es) := by
    obtain ⟨is, hwords⟩ := hlist
    obtain ⟨-, -, js, -, hrest⟩ := hwords.uncons
    exact ⟨js, hrest⟩
  exact inTurn_argument hk hret hconn hrest (hsec.subset (by simp)) h

/-! ## The calls -/

theorem Builder.makes {f : VALUE} {args : List VALUE} {l : List Nat} (hb : Builder h f args ws b)
    (hl : FreeList h l) (huse : Occupied h l args) (hn : ws.length ≤ l.length) (fo : FloatOps)
    (st : SymbolTable) :
    ∃ r h', fundamentalExec fo args (BitVec.ofNat 32 args.length) f st h = some (r, h', st)
      ∧ Makes h l ws b r h' := by
  cases hb with
  | @append x b ws hlist =>
    obtain ⟨is, hlist⟩ := hlist
    have hx : Occupied h l [x] := huse.subset (by simp)
    have hexec := append_eq fo st hl hlist (hx.cells hlist.listTo) b
    exact ⟨_, _, hexec, makes_consAll hl hn (hx.words hlist.listTo) (huse.subset (by simp))⟩
  | list x =>
    have hshort : [x].length < 2 ^ 32 := by
      rw [List.length_singleton]
      decide
    exact ⟨_, _, list_eq fo st hshort, makes_consAll hl hn huse occupied_nil⟩

theorem Builder.symbol {f : VALUE} {args : List VALUE} (hb : Builder h f args ws b) :
    isFundamental f = true ∧ isControl f = false
      ∧ minArgs (decSym f) ≤ (BitVec.ofNat 32 args.length).toNat := by
  cases hb with
  | append => exact ⟨by decide, by decide, Nat.zero_le _⟩
  | list => exact ⟨by decide, by decide, Nat.zero_le _⟩

/-- What is built in front of a value is no signal if the value is none. -/
theorem isSignal_of_makes {l : List Nat} (hm : Makes h l ws b r h') (hb : isSignal b = false) :
    isSignal r = false := by
  cases ws with
  | nil =>
    obtain ⟨is, hlist⟩ := hm.list
    cases hlist with
    | nil => exact hb
  | cons w ws =>
    have hty := hm.pointer (List.cons_ne_nil _ _)
    have hcons : (ptrTypeCons == valTypeSymbol) = false := by decide
    rw [isSignal, isConnective, hty, hcons]
    rfl

/-- `APPLICATION`, for a call with enough free cells. -/
theorem stepCtx_build {f : VALUE} {args : List VALUE} {l : List Nat} (hcall : Calling k f args s)
    (hl : FreeList s.2.heap l) (huse : Occupied s.2.heap l args)
    (hb : Builder s.2.heap f args ws b) (hn : ws.length ≤ l.length) (hquiet : isSignal b = false)
    (io : Outside) :
    ∃ c' st' r, stepCtx pf io s.1 s.2 = some (.running c', st', false) ∧ ReturnsTo k r (c', st')
      ∧ Makes s.2.heap l ws b r st'.heap := by
  have happ : Applies s.1 f args := ⟨hcall.appCont, k, hcall.stack⟩
  obtain ⟨K, count, above, hat⟩ := happ.atApplication pf io s.2
  obtain ⟨k', hdrop, hK'⟩ := hat.drop
  have hk : k' = k := List.append_cancel_right (hK'.symm.trans hcall.stack)
  obtain ⟨hfund, hcontrol, hmin⟩ := hb.symbol
  have hcount : decU count = BitVec.ofNat 32 args.length := by
    apply BitVec.eq_of_toNat_eq
    rw [← hat.count_eq, BitVec.toNat_ofNat, Nat.mod_eq_of_lt (decU count).isLt]
  obtain ⟨r, h', hexec, hmakes⟩ := hb.makes hl huse hn pf.floats s.2.symbols
  -- what lies above the arguments on the stack is not read
  have hexec' : fundamentalExec pf.floats (args ++ above) (BitVec.ofNat 32 args.length) f
      s.2.symbols s.2.heap = some (r, h', s.2.symbols) := by
    rw [← hexec]
    apply readsOnlyArgs_of_minArgs hmin
    intro i hi
    rw [← hcount, hat.count_eq] at hi
    rw [List.getD_eq_getElem?_getD, List.getD_eq_getElem?_getD, List.getElem?_append_left hi]
  obtain ⟨hmerror, heerror⟩ : (typeOf r == valTypeSymbol && decSym r == symreprMerror) = false
      ∧ (typeOf r == valTypeSymbol && decSym r == symreprEerror) = false := by
    have hr := isSignal_of_makes hmakes hquiet
    rw [isSignal, Bool.or_eq_false_iff, Bool.and_or_distrib_left, Bool.or_eq_false_iff] at hr
    exact ⟨hr.2.2, hr.2.1⟩
  refine ⟨{ s.1.resumed K with K := stackDrop K (args.length + 1), appCont := true, r := r },
    { s.2 with heap := h' }, r, ?_, ⟨rfl, hcall.done, hdrop.trans hk, rfl⟩, hmakes⟩
  rw [hat.fundamental hfund hcontrol]
  unfold applyFundamental
  simp only [hcount, hexec', Option.bind_eq_bind, Option.bind_some, hmerror, heerror,
    Bool.false_eq_true, if_false]
  rw [← hcount, hat.count_eq]
  rfl

/-- A call, unless it has to wait for a collection. -/
theorem inTurn_build {f : VALUE} {args : List VALUE} (hk : k₀ <+: k) (hcall : Calling k f args s)
    (hb : Builder s.2.heap f args ws b) (hquiet : isSignal b = false)
    (hsec : Secure (k ++ args) s.2.heap)
    (h : ∀ c' st' r is, ReturnsTo k r (c', st') → ListTo st'.heap b r ws is → isSignal r = false →
      Intact (k ++ args) s.2.heap st'.heap → Secure (r :: k) st'.heap →
      (contextMachine pf R).InTurn (quasiquoteWork pf k₀ E) hs Q (c', st')) :
    (contextMachine pf R).InTurn (quasiquoteWork pf k₀ E) hs Q s := by
  obtain ⟨l, hl, huse⟩ := hsec
  by_cases hn : ws.length ≤ l.length
  · apply inTurn_of_step hcall.done (own_of_frame hk hcall.appCont hcall.stack)
    intro io
    obtain ⟨c', st', r, hstep, hret, hmakes⟩ := @stepCtx_build _ _ _ pf s _ _ _ hcall hl
      (huse.subset (List.subset_append_right _ _)) hb hn hquiet io
    obtain ⟨is, hlist⟩ := hmakes.list
    have hocc : Occupied st'.heap (l.drop ws.length) (r :: k) :=
      hmakes.occupied.append ((hmakes.grows.occupied huse).subset (List.subset_append_left _ _))
    exact ⟨_, st', hstep, .inr ⟨c', rfl, h c' st' r is hret hlist (isSignal_of_makes hmakes hquiet)
      (huse.intact hmakes.grows.kept) ⟨_, hmakes.grows.free, hocc⟩⟩⟩
  · apply InTurn.of_leads
    exact .here (.inl ⟨k, f, args, ws, b, l, hcall, hb, hl, Nat.lt_of_not_le hn⟩)

/-! ## The values of the code -/

theorem Delivers.mono {P P' : List (List VALUE) → VALUE → HeapState → Prop}
    (hy : Delivers k s P xss u) (hP : ∀ r h, P xss r h → P' xss r h) : Delivers k s P' xss u := by
  obtain ⟨r, hret, hPr, hrest⟩ := hy
  exact ⟨r, hret, hP r _ hPr, hrest⟩

/-- A hole has the value of its expression. -/
theorem yields_hole (o : Hole) (hk : k₀ <+: k) (hb : Begins k E o.exp s) :
    (contextMachine pf R).InTurn (quasiquoteWork pf k₀ E) [o]
      (Delivers k s fun xss r h => ∃ xs, xss = [xs] ∧ if o.spliced then IsList h r xs else xs = [r])
      s := by
  have hstarts : Evaluates k₀ E o.exp s := by
    refine ⟨hb.appCont, hb.done, hb.exp, hb.env, ?_⟩
    rw [hb.stack]
    exact hk
  apply InTurn.single hstarts
  intro xs u hdel
  have hv : HoleValue o s u xs := hdel.val
  have hret : ReturnsTo k u.1.r u := ⟨hdel.returning, hv.done, hdel.stack.trans hb.stack, rfl⟩
  have hintact := hv.intact
  have hsec := hv.secure
  rw [hb.stack] at hintact hsec
  exact .nil ⟨u.1.r, hret, ⟨xs, rfl, hv.words⟩, hv.quiet, hintact, hsec⟩

/-- The value of a call of `list`. -/
theorem yields_list {P : List (List VALUE) → VALUE → HeapState → Prop} (hk : k₀ <+: k)
    (hb : Begins k E v s) (hlist : IsList s.2.heap v [encSym symList, x])
    (hP : ∀ xss r h h', P xss r h → Intact [r] h h' → P xss r h')
    (hx : ∀ k₁ c', k₀ <+: k₁ → Begins k₁ E x (c', s.2) →
      (contextMachine pf R).InTurn (quasiquoteWork pf k₀ E) hs
        (Delivers k₁ (c', s.2) P) (c', s.2)) :
    (contextMachine pf R).InTurn (quasiquoteWork pf k₀ E) hs
      (Delivers k s fun xss y h => ∃ r, IsList h y [r] ∧ P xss r h) s := by
  apply inTurn_call hk hb (.inr rfl) hlist
  intro c' rest hrest hbegins
  rw [← List.append_nil hs]
  apply (hx _ c' (hk.trans (List.prefix_append _ _)) hbegins).bind
  intro xss u hyields
  obtain ⟨r, hret, hPr, hquiet, hintact, hsec⟩ := hyields
  have hrest' : IsList u.2.heap rest [] := by
    obtain ⟨is, hwords⟩ := hrest
    cases hwords
    exact ⟨[], .nil⟩
  apply inTurn_lastArgument hk hret (isConnective_of_quiet hquiet) hrest' rfl
  intro c₂ hcall
  have hsec' : Secure (k ++ [r]) u.2.heap := by
    apply hsec.subset
    intro w hw
    rcases List.mem_append.mp hw with hw | hw
    · simp [hw]
    · rw [List.mem_singleton.mp hw]
      exact List.mem_cons_self
  apply inTurn_build hk hcall (.list r) (by decide) hsec'
  intro c₃ st' y is hret' hlist' hquiet' hintact' hsec''
  apply InTurn.nil
  refine ⟨y, hret', ⟨r, ⟨is, hlist'.listOf⟩, ?_⟩, hquiet', ?_, hsec''⟩
  · rw [List.append_nil]
    exact hP _ _ _ _ hPr (hintact'.subset (List.subset_append_right _ _))
  · have hbefore : Intact k s.2.heap u.2.heap := hintact.subset (List.subset_append_left _ _)
    exact hbefore.trans (hintact'.subset (List.subset_append_left _ _))

/-- The value of a call of `append`. -/
theorem yields_append {y z : VALUE} {hs' : List Hole}
    {A : List (List VALUE) → List VALUE → HeapState → Prop}
    {B : List (List VALUE) → VALUE → HeapState → Prop} (hk : k₀ <+: k) (hb : Begins k E v s)
    (hlist : IsList s.2.heap v [encSym symAppend, y, z])
    (hA : ∀ as items h h', A as items h → Intact items h h' → A as items h')
    (hB : ∀ bs b h h', B bs b h → Intact [b] h h' → B bs b h')
    (hy : ∀ k₁ c', k₀ <+: k₁ → Begins k₁ E y (c', s.2) →
      (contextMachine pf R).InTurn (quasiquoteWork pf k₀ E) hs
        (Delivers k₁ (c', s.2) fun as r h => ∃ items, A as items h ∧ IsList h r items) (c', s.2))
    (hz : ∀ k₂ u, k₀ <+: k₂ → Begins k₂ E z u → Intact [z] s.2.heap u.2.heap →
      (contextMachine pf R).InTurn (quasiquoteWork pf k₀ E) hs' (Delivers k₂ u B) u) :
    (contextMachine pf R).InTurn (quasiquoteWork pf k₀ E) (hs ++ hs')
      (Delivers k s fun xss r h => ∃ items b is as bs, ListTo h b r items is ∧ xss = as ++ bs
        ∧ A as items h ∧ B bs b h) s := by
  apply inTurn_call hk hb (.inl rfl) hlist
  intro c' rest hrest hbegins
  apply (hy _ c' (hk.trans (List.prefix_append _ _)) hbegins).bind
  intro as u hyields
  obtain ⟨r, hret, ⟨items, hAr, hitems⟩, hquiet, hintact, hsec⟩ := hyields
  -- the second argument is still the code that it was
  have hrestmem : rest ∈ (Frame.applicationArgs [encSym symAppend] E rest).words := by
    simp [Frame.words, Frame.payload]
  have hrest' : IsList u.2.heap rest [z] :=
    hrest.congr (hintact rest (List.mem_append_right _ hrestmem))
  have hz' : Intact [z] s.2.heap u.2.heap := by
    intro w hw i hi
    rw [List.mem_singleton.mp hw] at hi
    exact hintact rest (List.mem_append_right _ hrestmem) i (hrest.under (by simp) hi)
  apply inTurn_argument hk hret (isConnective_of_quiet hquiet) hrest' hsec
  intro c₂ rest₂ hrest₂ hbegins₂
  rw [← List.append_nil hs']
  apply (hz _ (c₂, u.2) (hk.trans (List.prefix_append _ _)) hbegins₂ hz').bind
  intro bs t hyields₂
  obtain ⟨b, hret₂, hBb, hquiet₂, hintact₂, hsec₂⟩ := hyields₂
  have hnil : IsList t.2.heap rest₂ [] := by
    obtain ⟨is, hwords⟩ := hrest₂
    cases hwords
    exact ⟨[], .nil⟩
  apply inTurn_lastArgument hk hret₂ (isConnective_of_quiet hquiet₂) hnil rfl
  intro c₃ hcall
  have hrmem : r ∈ k ++ (Frame.applicationArgs ([encSym symAppend] ++ [r]) E rest₂).words := by
    simp [Frame.words, Frame.payload]
  have hr := hintact₂ r hrmem
  have hitems' : IsList t.2.heap r items := hitems.congr hr
  have hsec' : Secure (k ++ [r, b]) t.2.heap := by
    apply hsec₂.subset
    intro w hw
    simp only [List.mem_append, List.mem_cons, List.not_mem_nil, or_false] at hw
    rcases hw with hw | rfl | rfl
    · exact List.mem_cons_of_mem _ (List.mem_append_left _ hw)
    · exact List.mem_cons_of_mem _ hrmem
    · exact List.mem_cons_self
  apply inTurn_build hk hcall (.append hitems') hquiet₂ hsec'
  intro c₄ st' x is hret' hlist' hquiet' hintact' hsec''
  apply InTurn.nil
  refine ⟨x, hret', ⟨items, b, is, as, bs, hlist', ?_, ?_, ?_⟩, hquiet', ?_, hsec''⟩
  · rw [List.append_nil]
  · -- the words of the first argument were left alone twice
    have h₁ : Intact items u.2.heap t.2.heap := fun w hw i hi => hr i (hitems.under hw hi)
    have h₂ : Intact items t.2.heap st'.heap := fun w hw i hi =>
      hintact' r (by simp) i (hitems'.under hw hi)
    exact hA _ _ _ _ hAr (h₁.trans h₂)
  · exact hB _ _ _ _ hBb (hintact'.subset (by simp))
  · have h₁ : Intact k s.2.heap u.2.heap := hintact.subset (List.subset_append_left _ _)
    have h₂ : Intact k u.2.heap t.2.heap := hintact₂.subset (List.subset_append_left _ _)
    exact (h₁.trans h₂).trans (hintact'.subset (List.subset_append_left _ _))

/-! ## Templates -/

theorem value_congr (hv : T.value p xss r h) (hkeep : Intact [r] h h') : T.value p xss r h' := by
  obtain ⟨xs, hfills, hr⟩ := hv
  cases p with
  | expression =>
    refine ⟨xs, fills_congr hfills ?_, hr⟩
    rw [hr]
    exact hkeep
  | element =>
    have hlist : IsList h r xs := hr
    refine ⟨xs, fills_congr hfills fun w hw i hi => ?_, hlist.congr (hkeep r List.mem_cons_self)⟩
    exact hkeep r List.mem_cons_self i (hlist.under hw hi)

theorem yields_leaf {w : VALUE} (hb : Begins k E v s) (hcode : (Template.leaf w).code s.2.heap p v)
    (htame : (Template.leaf w).isTame p = true) :
    (contextMachine pf R).InTurn (quasiquoteWork pf k₀ E) []
      (Delivers k s ((Template.leaf w).value p))
      s := by
  cases p with
  | expression =>
    have hlist : IsList s.2.heap v [encSym symreprQuote, w] := hcode
    apply inTurn_quote hb hlist
    intro c' hret
    have hsec : Secure (w :: k) s.2.heap := by
      apply hb.secure.mono
      intro x hx i hi
      rcases List.mem_cons.mp hx with rfl | hx
      · exact ⟨v, by simp, hlist.under (by simp) hi⟩
      · exact ⟨x, by simp [hx], hi⟩
    have hquiet : isSignal w = false := by simpa [Template.isTame] using htame
    exact .nil ⟨w, hret, ⟨[w], ⟨rfl, rfl⟩, rfl⟩, hquiet, .refl _ _, hsec⟩
  | element =>
    obtain ⟨q, hlist, hq⟩ := hcode
    apply inTurn_quote hb hlist
    intro c' hret
    have hsec : Secure (q :: k) s.2.heap := by
      apply hb.secure.mono
      intro x hx i hi
      rcases List.mem_cons.mp hx with rfl | hx
      · exact ⟨v, by simp, hlist.under (by simp) hi⟩
      · exact ⟨x, by simp [hx], hi⟩
    exact .nil ⟨q, hret, ⟨[w], ⟨rfl, rfl⟩, hq⟩, isSignal_of_isList hq, .refl _ _, hsec⟩

theorem yields_unquote {e : VALUE} (hk : k₀ <+: k) (hb : Begins k E v s)
    (hcode : (Template.unquote e).code s.2.heap p v) :
    (contextMachine pf R).InTurn (quasiquoteWork pf k₀ E) [⟨e, false⟩]
      (Delivers k s ((Template.unquote e).value p)) s := by
  cases p with
  | expression =>
    obtain rfl : v = e := hcode
    apply (yields_hole ⟨v, false⟩ hk hb).mono
    intro xss u hy
    apply hy.mono
    intro r h hxs
    obtain ⟨xs, rfl, hxs⟩ := hxs
    exact ⟨xs, rfl, hxs⟩
  | element =>
    have hlist : IsList s.2.heap v [encSym symList, e] := hcode
    apply (yields_list (P := fun xss r _ => xss = [[r]]) hk hb hlist (fun _ _ _ _ h _ => h) ?_).mono
    · intro xss u hy
      apply hy.mono
      intro y h hr
      obtain ⟨r, hlist', rfl⟩ := hr
      exact ⟨[r], rfl, hlist'⟩
    · intro k₁ c' hk₁ hb₁
      apply (yields_hole ⟨e, false⟩ hk₁ hb₁).mono
      intro xss u hy
      apply hy.mono
      intro r h hxs
      obtain ⟨xs, rfl, hxs⟩ := hxs
      have hone : xs = [r] := hxs
      rw [hone]

theorem yields_splice {e : VALUE} (hk : k₀ <+: k) (hb : Begins k E v s)
    (hcode : (Template.splice e).code s.2.heap p v) :
    (contextMachine pf R).InTurn (quasiquoteWork pf k₀ E) ((Template.splice e).holes p)
      (Delivers k s ((Template.splice e).value p)) s := by
  cases p with
  | expression =>
    obtain rfl : v = encSym symreprRerror := hcode
    apply inTurn_symbol hb List.mem_cons_self
    intro c' hret
    have hsec : Secure (encSym symreprRerror :: k) s.2.heap := by
      apply hb.secure.subset
      intro w hw
      rcases List.mem_cons.mp hw with rfl | hw <;> simp [*]
    exact .nil ⟨_, hret, ⟨_, ⟨rfl, rfl⟩, rfl⟩, by decide, .refl _ _, hsec⟩
  | element =>
    obtain rfl : v = e := hcode
    apply (yields_hole ⟨v, true⟩ hk hb).mono
    intro xss u hy
    apply hy.mono
    intro r h hxs
    obtain ⟨xs, rfl, hxs⟩ := hxs
    exact ⟨xs, rfl, hxs⟩

/-- **The code for a template has the template filled in for its value.** -/
theorem code_yields : ∀ {T : Template} {p : Position} {k : List UINT} {v : VALUE}
    {s : EvalContext × Store}, k₀ <+: k → Begins k E v s → T.code s.2.heap p v →
    T.isTame p = true →
    (contextMachine pf R).InTurn (quasiquoteWork pf k₀ E) (T.holes p)
      (Delivers k s (T.value p)) s := by
  intro T
  induction T with
  | leaf w =>
    intro p k v s _ hb hcode htame
    have hholes : (Template.leaf w).holes p = [] := by cases p <;> rfl
    rw [hholes]
    exact yields_leaf hb hcode htame
  | unquote e =>
    intro p k v s hk hb hcode _
    have hholes : (Template.unquote e).holes p = [⟨e, false⟩] := by cases p <;> rfl
    rw [hholes]
    exact yields_unquote hk hb hcode
  | splice e =>
    intro p k v s hk hb hcode _
    exact yields_splice hk hb hcode
  | pair a d iha ihd =>
    -- the code that an expression is, or that the call of `list` has for its argument
    have hpair : ∀ {k : List UINT} {v : VALUE} {s : EvalContext × Store}, k₀ <+: k →
        Begins k E v s → (Template.pair a d).code s.2.heap .expression v →
        a.isTame .element = true → d.isTame .expression = true →
        (contextMachine pf R).InTurn (quasiquoteWork pf k₀ E)
          (a.holes .element ++ d.holes .expression)
          (Delivers k s ((Template.pair a d).value .expression)) s := by
      intro k v s hk hb hcode hta htd
      obtain ⟨y, z, hlist, hy, hz⟩ := hcode
      have hA : ∀ as items h h', a.fills h .element as items → Intact items h h' →
          a.fills h' .element as items := fun _ _ _ _ hf hkeep => fills_congr hf hkeep
      have hB : ∀ bs b h h', d.value .expression bs b h → Intact [b] h h' →
          d.value .expression bs b h' := fun _ _ _ _ hv hkeep => value_congr hv hkeep
      apply (yields_append hk hb hlist hA hB ?_ ?_).mono
      · intro xss u hyields
        apply hyields.mono
        intro r h hr
        obtain ⟨items, b, is, as, bs, hbuilt, rfl, ha, xs, hd, rfl⟩ := hr
        exact ⟨[r], ⟨r, items, b, is, as, bs, rfl, hbuilt, rfl, ha, hd⟩, rfl⟩
      · intro k₁ c' hk₁ hb₁
        exact iha hk₁ hb₁ hy hta
      · intro k₂ u hk₂ hb₂ hkeep
        exact ihd hk₂ hb₂ (code_congr hz (hkeep z List.mem_cons_self)) htd
    intro p k v s hk hb hcode htame
    cases p with
    | expression =>
      rw [Template.isTame, Bool.and_eq_true] at htame
      exact hpair hk hb hcode htame.1 htame.2
    | element =>
      rw [Template.isTame, Bool.and_eq_true] at htame
      obtain ⟨x, hlist, hcall⟩ := hcode
      have hP : ∀ xss r h h', (Template.pair a d).value .expression xss r h → Intact [r] h h' →
          (Template.pair a d).value .expression xss r h' :=
        fun _ _ _ _ hv hkeep => value_congr hv hkeep
      apply (yields_list hk hb hlist hP ?_).mono
      · intro xss u hyields
        apply hyields.mono
        intro y h hy
        obtain ⟨r, hy, xs, hfills, rfl⟩ := hy
        exact ⟨[r], hfills, hy⟩
      · intro k₁ c' hk₁ hb₁
        exact hpair hk₁ hb₁ hcall htame.1 htame.2

/-- **Quasiquotation.** The expansion of a template is code for it. When this is evaluated, the
expressions in the holes are evaluated from left to right in the environment of the quasiquotation,
each of them once, and the value is the template filled in with what they contribute: their values,
or the words of these. -/
theorem quasiquote_fills {q : VALUE} {l : List Nat} (hl : FreeList h l) (hq : IsTemplate h q T)
    (huse : Occupied h l [q]) (hn : T.cost .expression ≤ l.length)
    (htame : T.isTame .expression = true) :
    ∃ v h', qqExpand q h = some (v, h') ∧ FreeList h' (l.drop (T.cost .expression))
      ∧ (∀ j, j ∉ l → h'.cell j = h.cell j)
      ∧ ∀ pf R k E s, Begins k E v s → Intact [v] h' s.2.heap →
        (contextMachine pf R).InTurn (quasiquoteWork pf k E) (T.holes .expression)
          (Delivers k s fun xss r g => T.fills g .expression xss [r]) s := by
  obtain ⟨v, h', hexpand, hexp⟩ := qqExpand_spec hl hq huse hn
  refine ⟨v, h', hexpand, hexp.grows.free, hexp.grows.kept, fun pf R k E s hb hkeep => ?_⟩
  have hcode := code_congr hexp.code (hkeep v List.mem_cons_self)
  apply (code_yields (List.prefix_refl k) hb hcode htame).mono
  intro xss u hyields
  apply hyields.mono
  intro r g hvalue
  obtain ⟨xs, hfills, rfl⟩ := hvalue
  exact hfills

end

/-- A heap with the list of a number and of the words of a list. -/
def spliceHeap : HeapState :=
  let h := heapInit 15 (List.replicate 15 ⟨0#32, 0#32⟩) ⟨[], [], 0#32, 0#32, 0#32⟩
  let h := (cons (encSym 0x1000#32) NIL h).2
  let h := (cons (encSym symreprCommaat) (cellPtr 0) h).2
  let h := (cons (cellPtr 1) NIL h).2
  (cons (encI 1#32) (cellPtr 2) h).2

def spliceTemplate : Template :=
  .pair (.leaf (encI 1#32)) (.pair (.splice (encSym 0x1000#32)) (.leaf NIL))

theorem quasiquote_fills_spliceHeap :
    ∃ v h', qqExpand (cellPtr 3) spliceHeap = some (v, h')
      ∧ FreeList h' ([4, 5, 6, 7, 8, 9, 10, 11, 12, 13, 14].drop (spliceTemplate.cost .expression))
      ∧ (∀ j, j ∉ [4, 5, 6, 7, 8, 9, 10, 11, 12, 13, 14] → h'.cell j = spliceHeap.cell j)
      ∧ ∀ pf R k E s, Begins k E v s → Intact [v] h' s.2.heap →
        (contextMachine pf R).InTurn (quasiquoteWork pf k E) (spliceTemplate.holes .expression)
          (Delivers k s fun xss r g => spliceTemplate.fills g .expression xss [r]) s := by
  have hl : FreeList spliceHeap [4, 5, 6, 7, 8, 9, 10, 11, 12, 13, 14] :=
    freeList_of_isFreeList (by decide)
  have hhole : ListOf spliceHeap (cellPtr 1) [encSym symreprCommaat, encSym 0x1000#32] [1, 0] :=
    listOf_of_isListOf (by decide)
  have hlist : ListOf spliceHeap (cellPtr 3) [encI 1#32, cellPtr 1] [3, 2] :=
    listOf_of_isListOf (by decide)
  have hq : IsTemplate spliceHeap (cellPtr 3) spliceTemplate := by
    apply IsTemplate.pair (by decide) (by decide) (by decide) (.leaf (by decide))
    exact .pair (by decide) (by decide) (by decide) (.splice ⟨_, hhole⟩) (.leaf (by decide))
  have hatom : ∀ w, w = encI 1#32 ∨ w = encSym symreprCommaat ∨ w = encSym 0x1000#32 →
      Occupied spliceHeap [4, 5, 6, 7, 8, 9, 10, 11, 12, 13, 14] [w] := by
    rintro w (rfl | rfl | rfl) <;> exact occupied_atom (by decide)
  have huse₁ := occupied_of_listTo hhole.listTo (by decide)
    ((hatom _ (.inr (.inl rfl))).append (hatom _ (.inr (.inr rfl)))) occupied_nil
  have huse := occupied_of_listTo hlist.listTo (by decide) ((hatom _ (.inl rfl)).append huse₁)
    occupied_nil
  exact quasiquote_fills hl hq huse (by decide) (by decide)

end LispBM
