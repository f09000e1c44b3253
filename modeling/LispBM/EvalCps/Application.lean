import LispBM.EvalCps.Runs
import LispBM.Heap.Builders
import LispBM.Heap.Run

/-!
# LispBM — what the concurrent evaluator applies (`src/eval_cps.c`)

Only functions are to be applied: closures, fundamental operations, `eval`, `yield` and `wait`,
and the symbols of registered extensions. The `APPLICATION` continuation does not look whether it
has one of these. Any list counts as a closure ("it better be"), and any other word is looked up
among the extensions by its payload bits.

* `onlyFunctionsApplied_iff` — the values that are refused all the same. A list is refused if it
  happens to have another number of parameters than there are arguments, and a word that is no
  list if no extension happens to have its payload for an id.

A list is not looked at before there are cells for the list of the arguments. An application
without them is put back to wait for a collection, so what becomes of it is decided an iteration
later (`EndsRefused`); if the collection does not help, the context is finished with
`out_of_memory`.
-/

namespace LispBM

/-! ## Specification -/

/-- A list of the symbol `closure`, a parameter list, a body and an environment. -/
def IsClosure (h : HeapState) (f : VALUE) : Prop :=
  ∃ params body env is ps js, ListOf h f [encSym symreprClosure, params, body, env] is
    ∧ ListOf h params ps js

/-- The symbol of a fundamental operation, `eval`, `yield` or `wait`, or of an extension. -/
def isFunctionSymbol (pf : Platform) (f : VALUE) : Bool :=
  typeOf f == valTypeSymbol
    && (isFundamental f || decSym f == symreprEval || decSym f == symreprYield
      || decSym f == symreprWait || (pf.extensionsLookup (decSym f)).isSome)

def IsFunction (pf : Platform) (h : HeapState) (f : VALUE) : Prop :=
  IsClosure h f ∨ isFunctionSymbol pf f = true

/-- The context is about to apply `f` to `args`. -/
structure Applies (c : EvalContext) (f : VALUE) (args : List VALUE) : Prop where
  appCont : c.appCont = true
  stack : ∃ k, c.K.contents = k ++ (Frame.application f args).words

/-- The step puts the context on the done list, with the result `v`. -/
def EndsWith (c : EvalContext) (st : Store) (s' : EvalState) (v : VALUE) : Prop :=
  s'.ctxRunning = none ∧ ∃ c', s'.ctxDone = c' :: st.ctxDone ∧ c'.id = c.id ∧ c'.r = v

/-- The running context ends with `eval_error`: in iteration `n`, or, if that puts the same
application back and asks for a collection, in a later one. -/
inductive EndsRefused (pf : Platform) (io : Nat → Outside) :
    Nat → EvalContext → Store → GcFlags → Prop where
  | now {n : Nat} {c : EvalContext} {st : Store} {flags flags' : GcFlags} {s' : EvalState}
      (h : evaluationStep pf (io n) c st flags = some (s', flags'))
      (hend : EndsWith c st s' (encSym symreprEerror)) : EndsRefused pf io n c st flags
  | later {n : Nat} {c c' : EvalContext} {st : Store} {flags flags' : GcFlags} {s' : EvalState}
      (h : evaluationStep pf (io n) c st flags = some (s', flags'))
      (hrunning : s'.ctxRunning = some c') (hgc : flags'.performGc = true)
      (hback : c'.appCont = true ∧ c'.K = c.K)
      (hrest : EndsRefused pf io (n + 1) c' s'.toStore flags') : EndsRefused pf io n c st flags

/-- Nothing but a function is applied: with anything else in function position the context ends
with `eval_error`. -/
def OnlyFunctionsApplied (pf : Platform) (io : Nat → Outside) (c : EvalContext) (st : Store)
    (flags : GcFlags) (f : VALUE) : Prop :=
  ¬IsFunction pf st.heap f → EndsRefused pf io 0 c st flags

/-- The cells that a walk along a list reads. -/
inductive Visits (h : HeapState) : VALUE → Nat → Prop where
  | here {v : VALUE} (hv : isPtr v = true) : Visits h v (ptrIx v)
  | rest {v : VALUE} {i : Nat} (hv : typeOf v = ptrTypeCons) (hi : Visits h (cdr h v) i) :
      Visits h v i

/-- None of the cells of `f` and of what it has for a parameter list is free. -/
def InUse (h : HeapState) (l : List Nat) (f : VALUE) : Prop :=
  ∀ i ∈ l, ¬Visits h f i ∧ ¬Visits h (car h (cdr h f)) i

/-- There are `n` cells for the list of the arguments when the application is repeated after a
collection, which keeps what can be reached from the context; a step that begins with a
collection has no second try. -/
def EnoughCells (c : EvalContext) (st : Store) (flags : GcFlags) (f : VALUE) (n : Nat) : Prop :=
  n ≤ {i | i < st.heap.heapSize
    ∧ ¬LiveFor st (if flags.performGc then c else { c with r := f }) i}.ncard

/-- `f` is a function or looks unlike one to the code. -/
def Refusable (pf : Platform) (c : EvalContext) (st : Store) (flags : GcFlags) (f : VALUE)
    (args : List VALUE) : Prop :=
  IsFunction pf st.heap f
    ∨ typeOf f = ptrTypeCons ∧ EnoughCells c st flags f args.length
      ∧ (∃ n, length st.heap (car st.heap (cdr st.heap f)) = some n ∧ n ≠ args.length)
    ∨ typeOf f ≠ ptrTypeCons ∧ pf.extensionsLookup (decSym f) = none

/-- A collection in this state finds the heap in order and marks everything there is. -/
structure CollectsAll (c : EvalContext) (st : Store) : Prop where
  ready : ∃ l, GcReady st.heap (gcCalls st c) l
  marked : ∀ oks h', collect (gcCalls st c) st.heap = some (oks, h') → ∀ ok ∈ oks, ok = true

/-- The heap is in order, also for the collections that the application needs. Where the raw word
of a boxed number or an array stands in the place of the parameters of `f`, it is no pointer to
cells that nothing else refers to. -/
structure ApplyReady (pf : Platform) (io : Outside) (c : EvalContext) (st : Store)
    (flags : GcFlags) (f : VALUE) : Prop where
  retry : RetryReady c st flags
  second : isLeafType (typeOf (cdr st.heap f)) = true →
    ∀ i, Visits st.heap (car st.heap (cdr st.heap f)) i → LiveFor st { c with r := f } i
  collects : flags.performGc = true → CollectsAll c st
  collectsAgain : ∀ s' c', evaluationStep pf io c st flags = some (s', ⟨true, false⟩) →
    s'.ctxRunning = some c' → CollectsAll c' s'.toStore

/-! ## The list of the arguments -/

section

variable {h h' : HeapState} {l : List Nat} {v f : VALUE}

theorem car_of_visits (hcell : ∀ i, Visits h v i → h'.cell i = h.cell i) : car h' v = car h v := by
  cases hv : isPtr v with
  | true => rw [car_of_isPtr hv, car_of_isPtr hv, hcell _ (.here hv)]
  | false => simp only [car, hv, Bool.false_eq_true, if_false]

theorem cdr_of_visits (hcell : ∀ i, Visits h v i → h'.cell i = h.cell i) : cdr h' v = cdr h v := by
  cases hv : isPtr v with
  | true => rw [cdr_of_isPtr hv, cdr_of_isPtr hv, hcell _ (.here hv)]
  | false =>
    have hty : (typeOf v == ptrTypeCons) = false := by
      rw [beq_eq_false_iff_ne]
      intro hty
      rw [isPtr_of_typeOf_cons hty] at hv
      exact absurd hv (by decide)
    simp only [cdr, hty, Bool.false_eq_true, if_false]

/-- The length of a list depends on its cells only. -/
theorem lengthLoop_congr : ∀ {n k : Nat} {v : VALUE},
    (∀ i, Visits h v i → h'.cell i = h.cell i) → lengthLoop h' n v k = lengthLoop h n v k := by
  intro n
  induction n with
  | zero => intro k v _; rfl
  | succ n ih =>
    intro k v hcell
    unfold lengthLoop
    split
    · next hty =>
      rw [cdr_of_visits hcell]
      exact ih fun i hi => hcell i (.rest (by simpa using hty) hi)
    · rfl

/-- What is no pointer has no word in its car. -/
theorem isPtr_car_of_not_isPtr (hv : isPtr v = false) : isPtr (car h v) = false := by
  unfold car
  rw [hv]
  split
  · exact hv
  · exact isPtr_encSym _

theorem isPtr_of_visits {i : Nat} (hi : Visits h v i) : isPtr v = true := by
  cases hi with
  | here hv => exact hv
  | rest hv _ => exact isPtr_of_typeOf_cons hv

/-- A walk over the same cells is the same walk. -/
theorem visits_of_cells_eq {i : Nat} (hi : Visits h' v i)
    (hcell : ∀ j, Visits h v j → h'.cell j = h.cell j) : Visits h v i := by
  induction hi with
  | here hv => exact .here hv
  | @rest v i hv _ ih =>
    have hcdr : cdr h' v = cdr h v := cdr_of_visits hcell
    rw [hcdr] at ih
    exact .rest hv (ih fun j hj => hcell j (.rest hv hj))

/-- A walk from a word that can be reached stays among the cells that can. -/
theorem live_of_visits {roots : List VALUE} (hd : MarkDomain h (ReachableWord h roots)) {i : Nat}
    (hi : Visits h v i) : ReachableWord h roots v → Live h roots i := by
  induction hi with
  | @here v hp =>
    intro hv
    have hnode := hd.node_of_isPtr hv hp
    obtain ⟨r, hr, hrv⟩ := hv
    exact ⟨r, hr, v, hrv, hnode⟩
  | @rest v i hty _ ih =>
    intro hv
    have hp := isPtr_of_typeOf_cons hty
    refine ih (hv.field ?_)
    rw [traceFields_of_cons hty, cdr_of_isPtr hp, hty]
    simp

/-- The cells of `f` and of what it has for a parameter list can be reached. -/
def Kept (h : HeapState) (roots : List VALUE) (f : VALUE) : Prop :=
  ∀ i, Visits h f i ∨ Visits h (car h (cdr h f)) i → Live h roots i

theorem kept_of_root {roots : List VALUE} (hd : MarkDomain h (ReachableWord h roots))
    (hf : typeOf f = ptrTypeCons) (hroot : f ∈ roots)
    (hsecond : isLeafType (typeOf (cdr h f)) = true →
      ∀ i, Visits h (car h (cdr h f)) i → Live h roots i) :
    Kept h roots f := by
  have hreach : ReachableWord h roots f := ⟨f, hroot, .refl⟩
  have hcdr : ReachableWord h roots (cdr h f) := by
    refine hreach.field ?_
    rw [traceFields_of_cons hf, cdr_of_isPtr (isPtr_of_typeOf_cons hf), hf]
    simp
  rintro i (hi | hi)
  · exact live_of_visits hd hi hreach
  · cases hleaf : isLeafType (typeOf (cdr h f)) with
    | true => exact hsecond hleaf i hi
    | false =>
      have hp : isPtr (cdr h f) = true := by
        by_contra hnp
        have hcar := isPtr_of_visits hi
        rw [Bool.not_eq_true] at hnp
        rw [isPtr_car_of_not_isPtr hnp] at hcar
        exact absurd hcar (by simp)
      refine live_of_visits hd hi (hcdr.field ?_)
      simp [traceFields, isHeapPtr, hp, hd.noIndirection _ hcdr hp, hleaf]

/-- In a heap with the same cells for what can be reached, `f` has the parameters it had, and is
in use. -/
theorem Kept.transport {roots : List VALUE} {l' : List Nat} (hk : Kept h roots f)
    (hf : typeOf f = ptrTypeCons)
    (hcell : ∀ i, Live h roots i → i ∉ l' ∧ h'.cell i = h.cell i)
    (hlen : h'.heap.length = h.heap.length) :
    InUse h' l' f ∧ length h' (car h' (cdr h' f)) = length h (car h (cdr h f)) := by
  have hcdr : cdr h' f = cdr h f := cdr_of_visits fun i hi => (hcell i (hk i (.inl hi))).2
  have hcar : car h' (cdr h f) = car h (cdr h f) := car_of_visits fun i hi =>
    (hcell i (hk i (.inl (.rest hf hi)))).2
  have hfuel : walkFuel h' = walkFuel h := congrArg (· + 1) hlen
  refine ⟨fun i hil => ⟨fun hi => ?_, fun hi => ?_⟩, ?_⟩
  · have hlive := hk i (.inl (visits_of_cells_eq hi fun j hj => (hcell j (hk j (.inl hj))).2))
    exact (hcell i hlive).1 hil
  · rw [hcdr, hcar] at hi
    have hlive := hk i (.inr (visits_of_cells_eq hi fun j hj => (hcell j (hk j (.inr hj))).2))
    exact (hcell i hlive).1 hil
  · rw [hcdr, hcar, length, length, hfuel]
    exact lengthLoop_congr fun i hi => (hcell i (hk i (.inr hi))).2

/-- Filling free cells does not change the parameter list of a value that is in use. -/
theorem params_congr (hf : typeOf f = ptrTypeCons) (huse : InUse h l f)
    (hcell : ∀ i, i ∉ l → h'.cell i = h.cell i) (hlen : h'.heap.length = h.heap.length) :
    length h' (car h' (cdr h' f)) = length h (car h (cdr h f)) := by
  have hcdr : cdr h' f = cdr h f := cdr_of_visits fun i hi =>
    hcell i fun hil => (huse i hil).1 hi
  have hcar : car h' (cdr h f) = car h (cdr h f) := car_of_visits fun i hi =>
    hcell i fun hil => (huse i hil).1 (.rest hf hi)
  have hfuel : walkFuel h' = walkFuel h := congrArg (· + 1) hlen
  rw [hcdr, hcar, length, length, hfuel]
  exact lengthLoop_congr fun i hi => hcell i fun hil => (huse i hil).2 hi

theorem envBuildParamsArgsLoop_heap_length : ∀ {n : Nat} {param arg env v : VALUE}
    {h h' : HeapState}, envBuildParamsArgsLoop n param arg env h = some (v, h') →
    h'.heap.length = h.heap.length := by
  intro n
  induction n with
  | zero => intro param arg env v h h' hres; cases hres
  | succ n ih =>
    intro param arg env v h h' hres
    rw [envBuildParamsArgsLoop] at hres
    split at hres
    · have hlen := cons_heap_length (car h param) (car h arg) h
      rcases hc : cons (car h param) (car h arg) h with ⟨entry, h₁⟩
      rw [hc] at hres hlen
      simp only at hres hlen
      split at hres
      · cases hres
        exact hlen
      · have hlen₁ := cons_heap_length entry env h₁
        rcases hc₁ : cons entry env h₁ with ⟨env₁, h₂⟩
        rw [hc₁] at hres hlen₁
        simp only at hres hlen₁
        split at hres
        · cases hres
          exact hlen₁.trans hlen
        · exact (ih hres).trans (hlen₁.trans hlen)
    · cases hres
      rfl

theorem envBuildParamsArgs_heap_length {params args env : VALUE}
    (hres : envBuildParamsArgs params args env h = some (v, h')) :
    h'.heap.length = h.heap.length := by
  unfold envBuildParamsArgs at hres
  obtain ⟨np, -, hres⟩ := Option.bind_eq_some_iff.mp hres
  obtain ⟨na, -, hres⟩ := Option.bind_eq_some_iff.mp hres
  split at hres
  · cases hres
    rfl
  · exact envBuildParamsArgsLoop_heap_length hres

/-- Consing makes no heap larger. -/
theorem consAll_extent : ∀ (ws : List VALUE) (v : VALUE) (h : HeapState),
    (consAll ws v h).2.heap.length = h.heap.length
      ∧ (consAll ws v h).2.heapSize = h.heapSize := by
  intro ws
  induction ws with
  | nil => exact fun v h => ⟨rfl, rfl⟩
  | cons w ws ih =>
    intro v h
    rw [consAll]
    simp only
    split
    · simp
    · simpa using ih (cons w v h).1 (cons w v h).2

/-- The list of the arguments, as the code makes it and looks at it. -/
theorem consAll_args (args : List VALUE) (hl : FreeList h l) :
    (l.length < args.length ∧ (consAll args.reverse NIL h).1 = encSym symreprMerror)
      ∨ ∃ js, ListOf (consAll args.reverse NIL h).2 (consAll args.reverse NIL h).1 args js
        ∧ args.length ≤ l.length
        ∧ (args.length != 0 && typeOf (consAll args.reverse NIL h).1 == valTypeSymbol) = false
        ∧ length (consAll args.reverse NIL h).2 (consAll args.reverse NIL h).1 = some args.length
        ∧ (consAll args.reverse NIL h).2.heap.length = h.heap.length := by
  rcases @consAll_builds NIL args.reverse [] NIL [] _ _ hl .nil (by simp) with hfull | ⟨hlen, hall⟩
  · rw [List.length_reverse] at hfull
    exact .inl hfull
  have hlist := hall.list.listOf
  rw [List.length_reverse] at hlen
  rw [List.reverse_reverse, List.append_nil, List.append_nil] at hlist
  refine .inr ⟨_, hlist, hlen, ?_, ?_, hall.length⟩
  · cases args with
    | nil => rfl
    | cons a args =>
      have hcons : (ptrTypeCons == valTypeSymbol) = false := by decide
      rw [hall.pointer (by simp), hcons, Bool.and_false]
  · have hwalk : args.length < walkFuel (consAll args.reverse NIL h).2 := by
      refine hlist.length_lt_walkFuel (fun j hj => ?_) ?_
      · rw [hall.size]
        exact hl.chain.lt j (List.mem_of_mem_take (List.mem_reverse.mp hj))
      · rw [hall.size, hall.length]
        exact hl.fits
    rw [length, hlist.lengthLoop_eq hwalk, Nat.zero_add]

end

/-! ## The step -/

section

variable {pf : Platform} {io : Outside} {c : EvalContext} {st : Store} {l : List Nat} {f : VALUE}
  {args : List VALUE}

/-- `eval`, `yield` and `wait`, which `APPLICATION` handles itself. -/
def isControl (f : VALUE) : Bool :=
  typeOf f == valTypeSymbol
    && (decSym f == symreprYield || decSym f == symreprWait || decSym f == symreprEval)

/-- The context as the parts of `APPLICATION` get it, and the step in terms of them. -/
structure AtApplication (pf : Platform) (io : Outside) (c : EvalContext) (st : Store) (f : VALUE)
    (args : List VALUE) (K : Stack) (count : VALUE) (above : List VALUE) : Prop where
  back : pushAll io.malloc K [count, encU contApplication] = (true, c.K)
  closure : typeOf f = ptrTypeCons →
    stepCtx pf io c st = applyClosure io (c.resumed K) count f args st
  fundamental : isFundamental f = true → isControl f = false →
    stepCtx pf io c st = applyFundamental pf io (c.resumed K) count f (args ++ above) st
  other : typeOf f ≠ ptrTypeCons → isFundamental f = false → isControl f = false →
    stepCtx pf io c st = some (applyExtension pf io (c.resumed K) count f (args ++ above) st)
  count_eq : (decU count).toNat = args.length
  drop : ∃ k, (stackDrop K (args.length + 1)).contents = k
    ∧ c.K.contents = k ++ (Frame.application f args).words

theorem Applies.atApplication (h : Applies c f args) (pf : Platform) (io : Outside) (st : Store) :
    ∃ K count above, AtApplication pf io c st f args K count above := by
  obtain ⟨k, hK⟩ := h.stack
  have hK₀ : c.K.contents = (k ++ f :: args)
      ++ [encU (BitVec.ofNat 32 args.length), encU contApplication] := by
    rw [hK]
    simp [Frame.words, Frame.payload, Frame.tag]
  obtain ⟨K, K₁, hpop, hpop₁, hK₁⟩ := popU32_two_of_contents hK₀
  obtain ⟨hn, hbase, hfun, hargs, hdrop⟩ := @application_words k _ [] _ _ _ rfl hK₁
  rw [framesOn_nil] at hbase hfun hargs hdrop
  have hstep : stepCtx pf io c st = contApplicationCase pf io (c.resumed K) st := by
    unfold stepCtx applyContinuation
    rw [if_pos h.appCont, hpop]
    rfl
  -- The arguments are the words right above the base; what was above them stays.
  have habove : args ++ (K₁.data.drop (k.length + 1)).drop args.length
      = K₁.data.drop (k.length + 1) := by
    have hsplit := List.take_append_drop args.length (K₁.data.drop (k.length + 1))
    rwa [hargs] at hsplit
  refine ⟨K₁, _, (K₁.data.drop (k.length + 1)).drop args.length,
    pushAll_popU32_two hpop hpop₁, ?_, ?_, ?_, hn, k, hdrop, hK⟩
  -- A list: it is taken for a closure.
  · intro hf
    rw [hstep]
    unfold contApplicationCase
    simp only [EvalContext.resumed, hpop₁, hn, hbase, hfun, hargs, hf, Option.bind_eq_bind,
      Option.bind_some, beq_self_eq_true, if_true]
  -- A fundamental is applied in place, the stack as it is.
  · intro hfund hcontrol
    have hty : typeOf f = valTypeSymbol := by
      rw [isFundamental, Bool.and_eq_true, Bool.and_eq_true, beq_iff_eq] at hfund
      exact hfund.1.1
    have hcons : (valTypeSymbol == ptrTypeCons) = false := by decide
    rw [hstep, habove]
    unfold contApplicationCase
    simp only [isControl, hty, beq_self_eq_true, Bool.true_and, Bool.or_eq_false_iff] at hcontrol
    simp only [EvalContext.resumed, hpop₁, hn, hbase, hfun, Option.bind_eq_bind, Option.bind_some,
      hty, hcons, hcontrol, hfund, beq_self_eq_true, Bool.true_and, Bool.false_eq_true, if_false,
      if_true]
  -- Any other word has to be the symbol of an extension.
  · intro hf hfund hcontrol
    rw [hstep, habove]
    unfold contApplicationCase
    simp only [EvalContext.resumed, hpop₁, hn, hbase, hfun, Option.bind_eq_bind, Option.bind_some,
      beq_false_of_ne hf]
    simp only [isControl, Bool.and_eq_false_iff, Bool.or_eq_false_iff] at hcontrol
    rcases hcontrol with hty | ⟨⟨hyield, hwait⟩, heval⟩
    · simp [hty]
    · simp [hfund, heval, hyield, hwait]

theorem of_not_isFunctionSymbol (hf : isFunctionSymbol pf f = false) :
    isFundamental f = false ∧ isControl f = false := by
  simp only [isFunctionSymbol, Bool.and_eq_false_iff, Bool.or_eq_false_iff] at hf
  unfold isControl
  rcases hf with hty | ⟨⟨⟨⟨hfund, heval⟩, hyield⟩, hwait⟩, -⟩
  · simp [isFundamental, hty]
  · simp [hfund, heval, hyield, hwait]

/-- A step that does not end its context. -/
def KeepsRunning (res : Option StepResult) : Prop :=
  ∀ o st' g, res = some (o, st', g) → ∃ c', (o.settle st').ctxRunning = some c'

theorem keepsRunning_retry {ctx : EvalContext} {count w : VALUE} {st : Store} :
    KeepsRunning (some (retryApplication io ctx count w st)) := by
  intro o st' g h
  unfold retryApplication at h
  split at h <;> cases h <;> exact ⟨_, rfl⟩

/-- What becomes of an application of a list, by the number of free cells and of parameters. -/
theorem applyClosure_cases {ctx : EvalContext} {count : VALUE} (hl : FreeList st.heap l)
    (hf : typeOf f = ptrTypeCons) (huse : InUse st.heap l f) :
    (l.length < args.length ∧ applyClosure io ctx count f args st
        = some (retryApplication io ctx count f
          { st with heap := (consAll args.reverse NIL st.heap).2 }))
      ∨ args.length ≤ l.length
        ∧ ((∃ n, length st.heap (car st.heap (cdr st.heap f)) = some n ∧ n ≠ args.length)
            ∧ (∃ h, applyClosure io ctx count f args st
              = some (errorCtx ctx (encSym symreprEerror), { st with heap := h }, false))
          ∨ (∀ n, length st.heap (car st.heap (cdr st.heap f)) = some n → n = args.length)
            ∧ KeepsRunning (applyClosure io ctx count f args st)) := by
  obtain ⟨-, -, -, hcell⟩ := consAll_takes args.reverse NIL st.heap l hl
  have hcases := consAll_args args hl
  unfold applyClosure
  rcases hcons : consAll args.reverse NIL st.heap with ⟨argList, h₁⟩
  rw [hcons] at hcases hcell
  simp only at hcell hcases ⊢
  -- The arguments are consed before the parameters are looked at, in this order.
  rcases hcases with ⟨hlen, rfl⟩ | ⟨js, hlist, hlen, hmade, hna, hheap⟩
  · refine .inl ⟨hlen, if_pos ?_⟩
    rw [typeOf_encSym, beq_self_eq_true, Bool.and_true, bne_iff_ne]
    omega
  · refine .inr ⟨hlen, ?_⟩
    have hparams := params_congr hf huse hcell hheap
    rw [hmade, if_neg (by decide)]
    simp only [hparams, hna, Option.bind_eq_bind]
    cases hnp : length st.heap (car st.heap (cdr st.heap f)) with
    | none => exact .inr ⟨by simp, by simp [KeepsRunning]⟩
    | some np =>
      simp only [Option.bind_some, Option.some.injEq]
      by_cases hne : np = args.length
      · refine .inr ⟨fun n hn => hn ▸ hne, ?_⟩
        rw [hne, bne_self_eq_false, if_neg (by decide)]
        -- The numbers agree: the body runs, or the environment needs a collection.
        intro o st' g hres
        obtain ⟨⟨localEnv, h₂⟩, -, hres⟩ := Option.bind_eq_some_iff.mp hres
        simp only at hres
        split at hres
        · exact keepsRunning_retry o st' g hres
        · split at hres <;> cases hres <;> exact ⟨_, rfl⟩
      · refine .inl ⟨⟨np, rfl, hne⟩, h₁, ?_⟩
        rw [if_pos (by simpa using hne)]

/-- Whatever becomes of the application of a list, it takes cells off the free list. -/
theorem applyClosure_takes {ctx : EvalContext} {count : VALUE} {o : Outcome} {st' : Store}
    {g : Bool} (h : applyClosure io ctx count f args st = some (o, st', g)) :
    Takes st.heap st'.heap ∧ st'.heap.heap.length = st.heap.heap.length
      ∧ st' = { st with heap := st'.heap }
      ∧ (g = true → (o, st', true) = retryApplication io ctx count f st') := by
  have htakes := consAll_takes args.reverse NIL st.heap
  have hextent := (consAll_extent args.reverse NIL st.heap).1
  have hretry : ∀ {st₁ : Store}, some (retryApplication io ctx count f st₁) = some (o, st', g) →
      st' = st₁ ∧ (g = true → (o, st', true) = retryApplication io ctx count f st') := by
    intro st₁ h
    obtain rfl : st' = st₁ := by
      unfold retryApplication at h
      split at h <;> cases h <;> rfl
    exact ⟨rfl, fun hg => hg ▸ (Option.some.inj h).symm⟩
  -- Two of the ways out retry, one refuses, and the others go on with the body.
  unfold applyClosure at h
  simp only [Option.bind_eq_bind] at h
  split at h
  · obtain ⟨rfl, hres⟩ := hretry h
    exact ⟨htakes, hextent, rfl, hres⟩
  · obtain ⟨np, -, h⟩ := Option.bind_eq_some_iff.mp h
    obtain ⟨na, -, h⟩ := Option.bind_eq_some_iff.mp h
    split at h
    · cases h
      exact ⟨htakes, hextent, rfl, fun hg => absurd hg (by simp)⟩
    · obtain ⟨⟨localEnv, h₂⟩, henv, h⟩ := Option.bind_eq_some_iff.mp h
      have htakes₂ := htakes.trans (envBuildParamsArgs_takes henv)
      have hextent₂ := (envBuildParamsArgs_heap_length henv).trans hextent
      simp only at h
      split at h
      · obtain ⟨rfl, hres⟩ := hretry h
        exact ⟨htakes₂, hextent₂, rfl, hres⟩
      · split at h <;> cases h <;> exact ⟨htakes₂, hextent₂, rfl, fun hg => absurd hg (by simp)⟩

/-- A word that is no list runs an extension, unless none has its payload for an id. -/
theorem keepsRunning_applyExtension {ctx : EvalContext} {count : VALUE} {words : List VALUE}
    (hext : pf.extensionsLookup (decSym f) ≠ none) :
    KeepsRunning (some (applyExtension pf io ctx count f words st)) := by
  unfold applyExtension
  cases hlookup : pf.extensionsLookup (decSym f) with
  | none => exact absurd hlookup hext
  | some ext =>
    intro o st' g h
    simp only at h
    split at h
    · exact keepsRunning_retry o st' g h
    · cases h
      exact ⟨_, rfl⟩

end

/-! ## Iterations -/

section

variable {pf : Platform} {io : Nat → Outside} {n : Nat} {c c' : EvalContext} {st st₁ : Store}
  {flags flags' : GcFlags} {s' : EvalState} {l : List Nat} {f : VALUE} {args : List VALUE}

/-- With both flags set the context ends with `out_of_memory`. -/
theorem not_endsRefused_of_kill (h₁ : flags.performGc = true) (h₂ : flags.lastIterationGc = true) :
    ¬EndsRefused pf io n c st flags := by
  intro hr
  cases hr with
  | now h hend =>
    rw [evaluationStep_of_kill h₁ h₂] at h
    cases h
    obtain ⟨-, c', hdone, -, hr⟩ := hend
    have hkilled : encSym symreprMerror = c'.r := congrArg EvalContext.r (List.cons.inj hdone).1
    exact absurd (hkilled.trans hr) (by decide)
  | later h hrunning _ _ _ =>
    rw [evaluationStep_of_kill h₁ h₂] at h
    cases h
    cases hrunning

theorem not_endsRefused_of_none (h : evaluationStep pf (io n) c st flags = none) :
    ¬EndsRefused pf io n c st flags := by
  intro hr
  cases hr with
  | now h₁ _ =>
    rw [h] at h₁
    cases h₁
  | later h₁ _ _ _ _ =>
    rw [h] at h₁
    cases h₁

/-- Whether a context that is still the running one is refused is decided by the next iteration. -/
theorem endsRefused_iff_of_running
    (h : evaluationStep pf (io n) c st flags = some (s', flags'))
    (hrunning : s'.ctxRunning = some c') :
    EndsRefused pf io n c st flags ↔ flags'.performGc = true ∧ (c'.appCont = true ∧ c'.K = c.K)
      ∧ EndsRefused pf io (n + 1) c' s'.toStore flags' := by
  constructor
  · intro hr
    cases hr with
    | now h₁ hend =>
      cases h.symm.trans h₁
      rw [hend.1] at hrunning
      cases hrunning
    | later h₁ hrunning₁ hgc hback hrest =>
      cases h.symm.trans h₁
      cases hrunning.symm.trans hrunning₁
      exact ⟨hgc, hback, hrest⟩
  · exact fun ⟨hgc, hback, hrest⟩ => .later h hrunning hgc hback hrest

/-- The iteration is a step on a heap that was just collected. -/
def StepsAfterGc (pf : Platform) (io : Outside) (c : EvalContext) (st : Store) (flags : GcFlags)
    (st₁ : Store) : Prop :=
  evaluationStep pf io c st flags
      = (stepCtx pf io c st₁).map (fun (o, st₂, g) => (o.settle st₂, ⟨g, true⟩))
    ∧ st₁.ctxDone = st.ctxDone

/-- A step that does not begin with a collection. -/
theorem evaluationStep_of_not_performGc (pf : Platform) (io : Outside) (c : EvalContext)
    (st : Store) (last : Bool) :
    evaluationStep pf io c st ⟨false, last⟩
      = (stepCtx pf io c st).map fun (o, st₂, g) => (o.settle st₂, ⟨g, false⟩) := by
  rw [evaluationStep, if_neg (by simp), gcIfDue, if_neg (by simp)]
  simp only [Option.bind_eq_bind, Option.bind_some]
  cases stepCtx pf io c st <;> rfl

/-- A step after a collection that does not end the context is the last one, or the one before it
is finished with `out_of_memory`. -/
theorem not_endsRefused_of_keepsRunning (h : StepsAfterGc pf (io n) c st flags st₁)
    (hkeeps : KeepsRunning (stepCtx pf (io n) c st₁)) : ¬EndsRefused pf io n c st flags := by
  cases hstep : stepCtx pf (io n) c st₁ with
  | none =>
    exact not_endsRefused_of_none (by rw [h.1, hstep]; rfl)
  | some res =>
    obtain ⟨o, st', g⟩ := res
    obtain ⟨c', hrunning⟩ := hkeeps o st' g hstep
    have hev : evaluationStep pf (io n) c st flags = some (o.settle st', ⟨g, true⟩) := by
      rw [h.1, hstep]
      rfl
    rw [endsRefused_iff_of_running hev hrunning]
    rintro ⟨hgc, -, hrest⟩
    exact not_endsRefused_of_kill hgc rfl hrest

/-- An `eval_error` ends the context. -/
theorem endsRefused_of_errorCtx {ctx : EvalContext}
    (hev : evaluationStep pf (io n) c st flags
      = some ((errorCtx ctx (encSym symreprEerror)).settle st₁, flags'))
    (hid : ctx.id = c.id) (hdone : st₁.ctxDone = st.ctxDone) :
    EndsRefused pf io n c st flags := by
  refine .now hev ⟨rfl, { ctx with r := encSym symreprEerror }, ?_, hid, rfl⟩
  show _ :: st₁.ctxDone = _
  rw [hdone]

/-- **An application of a list after a collection** is refused, or never will be. -/
theorem endsRefused_list_after_gc (happ : Applies c f args) (hf : typeOf f = ptrTypeCons)
    (hl : FreeList st₁.heap l) (huse : InUse st₁.heap l f)
    (h : StepsAfterGc pf (io n) c st flags st₁) :
    EndsRefused pf io n c st flags ↔ args.length ≤ l.length
      ∧ ∃ k, length st₁.heap (car st₁.heap (cdr st₁.heap f)) = some k ∧ k ≠ args.length := by
  obtain ⟨K, count, above, hat⟩ := happ.atApplication pf (io n) st₁
  have hstep := hat.closure hf
  rcases @applyClosure_cases (io n) _ _ _ args (c.resumed K) count hl hf huse with
    ⟨hlen, hretry⟩ | ⟨hlen, ⟨harity, h₂, hrefused⟩ | ⟨harity, hkeeps⟩⟩
  · refine iff_of_false (not_endsRefused_of_keepsRunning h ?_) (fun hnot => by omega)
    rw [hstep, hretry]
    exact keepsRunning_retry
  · have hev : evaluationStep pf (io n) c st flags
        = some ((errorCtx (c.resumed K) (encSym symreprEerror)).settle { st₁ with heap := h₂ },
          ⟨false, true⟩) := by
      rw [h.1, hstep, hrefused]
      rfl
    exact iff_of_true (endsRefused_of_errorCtx hev rfl h.2) ⟨hlen, harity⟩
  · refine iff_of_false (not_endsRefused_of_keepsRunning h ?_) ?_
    · rw [hstep]
      exact hkeeps
    · rintro ⟨-, k, hk, hne⟩
      exact hne (harity k hk)

theorem length_eq_ncard {P : Nat → Prop} {l : List Nat} (hnodup : l.Nodup)
    (hmem : ∀ i, i ∈ l ↔ P i) : l.length = {i | P i}.ncard := by
  have hset : {i | P i} = (l.toFinset : Set Nat) := by
    ext i
    simp [hmem]
  rw [hset, Set.ncard_coe_finset, List.toFinset_card_of_nodup hnodup]

theorem length_le_ncard {n : Nat} {P : Nat → Prop} {l : List Nat} (hnodup : l.Nodup)
    (hmem : ∀ i ∈ l, i < n ∧ P i) : l.length ≤ {i | i < n ∧ P i}.ncard := by
  have hfinite : {i | i < n ∧ P i}.Finite := (Set.finite_lt_nat n).subset fun i hi => hi.1
  rw [← List.toFinset_card_of_nodup hnodup, ← Set.ncard_coe_finset]
  exact Set.ncard_le_ncard (fun i hi => hmem i (List.mem_toFinset.mp hi)) hfinite

/-- **The heap after a collection**: what the context can reach is kept, and all else is free. -/
theorem CollectsAll.collected (hc : CollectsAll c st) (pf : Platform) (io : Outside) :
    ∃ h₁ l₁, StepsAfterGc pf io c st ⟨true, false⟩ { st with heap := h₁ } ∧ FreeList h₁ l₁
      ∧ h₁.heap.length = st.heap.heap.length
      ∧ (∀ i, LiveFor st c i → i ∉ l₁ ∧ h₁.cell i = st.heap.cell i)
      ∧ l₁.length = {i | i < st.heap.heapSize ∧ ¬LiveFor st c i}.ncard := by
  obtain ⟨l, hready⟩ := hc.ready
  obtain ⟨⟨oks, h₁⟩, hcollect⟩ := Option.isSome_iff_exists.mp hready.collect_isSome
  have hexact := hready.exact_of_collect hcollect (hc.marked oks h₁ hcollect)
  obtain ⟨l₁, hchain, hnodup, hfree⟩ := hexact.free
  refine ⟨h₁, l₁, ⟨evaluationStep_of_collect hcollect, rfl⟩, ⟨hchain, hnodup, ?_, ?_⟩,
    hexact.heap_length, fun i hi => ⟨fun hl => ((hfree i).mp hl).2 hi, hexact.live i hi⟩,
    length_eq_ncard hnodup hfree⟩
  · rw [hexact.heapSize, hexact.heap_length]
    exact hready.fits
  · rw [hexact.heapSize]
    exact hready.addressable

/-- The operator is on the stack, so a context that has it in `r` reaches no more. -/
theorem Applies.mem_rootWords (happ : Applies c f args) {v : VALUE}
    (hv : v ∈ rootWords (gcCalls st { c with r := f })) : v ∈ rootWords (gcCalls st c) := by
  obtain ⟨k, hK⟩ := happ.stack
  have hf : f ∈ c.K.contents := by
    rw [hK]
    simp [Frame.words, Frame.payload]
  exact @mem_rootWords_of_r c { c with r := f } st rfl (.inr hf) v hv

/-- What `f` consists of can be reached from a context that has it in `r`. -/
theorem ApplyReady.kept {io : Outside} (hr : ApplyReady pf io c st flags f)
    (happ : Applies c f args) (hf : typeOf f = ptrTypeCons) :
    Kept st.heap (rootWords (gcCalls st { c with r := f })) f := by
  obtain ⟨l, hready⟩ := hr.retry.heap
  refine kept_of_root ?_ hf (by simp [rootWords, gcCalls, ctxMarkCalls, MarkCall.words]) hr.second
  refine hready.domain.mono ?_ fun v hv w hw => hv.field hw
  rintro v ⟨r, hr, hrv⟩
  exact ⟨r, happ.mem_rootWords hr, hrv⟩

/-- The words that an application put back leaves are the ones it found. -/
theorem AtApplication.retry_eq {io : Outside} {K : Stack} {count : VALUE} {above : List VALUE}
    (hat : AtApplication pf io c st f args K count above) (happ : c.appCont = true) (st' : Store) :
    retryApplication io (c.resumed K) count f st' = (.running { c with r := f }, st', true) := by
  unfold retryApplication
  simp only [EvalContext.resumed, hat.back]
  simp only [← happ]

/-- **An application that was put back** is refused if it is after the collection; what it has
taken is garbage. -/
theorem endsRefused_put_back {last : Bool} {st' : Store} (happ : Applies c f args)
    (hr : ApplyReady pf (io 0) c st ⟨false, last⟩ f) (hf : typeOf f = ptrTypeCons)
    (hev : evaluationStep pf (io 0) c st ⟨false, last⟩
      = some ((Outcome.running { c with r := f }).settle st', ⟨true, false⟩))
    (htakes : Takes st.heap st'.heap) (hlen : st'.heap.heap.length = st.heap.heap.length)
    (hst : st' = { st with heap := st'.heap }) :
    EndsRefused pf io 0 c st ⟨false, last⟩
      ↔ args.length ≤ {i | i < st'.heap.heapSize ∧ ¬LiveFor st { c with r := f } i}.ncard
        ∧ ∃ k, length st.heap (car st.heap (cdr st.heap f)) = some k ∧ k ≠ args.length := by
  obtain ⟨l, hready⟩ := hr.retry.heap
  obtain ⟨-, -, -, hcell⟩ := htakes l hready.freeList
  have hc : CollectsAll { c with r := f } st' := hr.collectsAgain _ _ hev rfl
  obtain ⟨h₁, l₁, hafter, hl₁, hlen₁, hkept, hcount⟩ := hc.collected pf (io 1)
  have happ' : Applies { c with r := f } f args := ⟨happ.appCont, happ.stack⟩
  have hcells : ∀ i, LiveFor st { c with r := f } i → st'.heap.cell i = st.heap.cell i := by
    intro i hi
    refine hcell i fun hil => hready.disjoint i hil ?_
    exact hi.mono fun v hv => happ.mem_rootWords hv
  -- the step has changed neither the roots nor what they reach
  have hcalls : gcCalls st' { c with r := f } = gcCalls st { c with r := f } := by
    rw [hst]
    rfl
  have hlive : ∀ i, LiveFor st' { c with r := f } i ↔ LiveFor st { c with r := f } i := by
    intro i
    rw [LiveFor, hcalls]
    exact live_of_cells_eq hcells
  have hcells₁ : ∀ i, LiveFor st { c with r := f } i →
      i ∉ l₁ ∧ h₁.cell i = st.heap.cell i := by
    intro i hi
    obtain ⟨hfree, hcell₁⟩ := hkept i ((hlive i).mpr hi)
    exact ⟨hfree, hcell₁.trans (hcells i hi)⟩
  obtain ⟨huse, harity⟩ := (hr.kept happ hf).transport hf hcells₁ (hlen₁.trans hlen)
  have hagain : EndsRefused pf io 1 _ _ _ ↔ _ :=
    endsRefused_list_after_gc happ' hf hl₁ huse hafter
  rw [harity, hcount] at hagain
  simp only [hlive] at hagain
  rw [endsRefused_iff_of_running hev rfl]
  constructor
  · exact fun h => hagain.mp h.2.2
  · exact fun h => ⟨rfl, ⟨happ.appCont, rfl⟩, hagain.mpr h⟩

/-- **Which lists are refused.** -/
theorem endsRefused_list_iff (happ : Applies c f args)
    (hr : ApplyReady pf (io 0) c st flags f) (hf : typeOf f = ptrTypeCons) :
    EndsRefused pf io 0 c st flags ↔ EnoughCells c st flags f args.length
      ∧ ∃ k, length st.heap (car st.heap (cdr st.heap f)) = some k ∧ k ≠ args.length := by
  have hk := hr.kept happ hf
  have hsub : ∀ i, LiveFor st { c with r := f } i → LiveFor st c i :=
    fun i hi => hi.mono fun v hv => happ.mem_rootWords hv
  obtain ⟨perform, last⟩ := flags
  cases perform with
  | true =>
    -- the collection comes first, and there is no second one
    obtain rfl : last = false := by simpa using hr.retry.notKilled
    obtain ⟨h₁, l₁, hafter, hl₁, hlen, hkept, hcount⟩ := (hr.collects rfl).collected pf (io 0)
    obtain ⟨huse, harity⟩ := hk.transport hf (fun i hi => hkept i (hsub i hi)) hlen
    rw [endsRefused_list_after_gc happ hf hl₁ huse hafter, harity, hcount]
    rfl
  | false =>
    obtain ⟨l, hready⟩ := hr.retry.heap
    have hl := hready.freeList
    have hdisjoint : ∀ i, LiveFor st { c with r := f } i → i ∉ l :=
      fun i hi hil => hready.disjoint i hil (hsub i hi)
    obtain ⟨huse, -⟩ := hk.transport hf
      (fun i hi => ⟨hdisjoint i hi, Eq.refl (st.heap.cell i)⟩) rfl
    obtain ⟨K, count, above, hat⟩ := happ.atApplication pf (io 0) st
    have hev := evaluationStep_of_not_performGc pf (io 0) c st last
    rw [hat.closure hf] at hev
    rcases @applyClosure_cases (io 0) _ _ _ args (c.resumed K) count hl hf huse with
      ⟨-, hretry⟩ | ⟨hlen, ⟨harity, h₂, hrefused⟩ | ⟨harity, hkeeps⟩⟩
    · rw [hretry, hat.retry_eq happ.appCont] at hev
      obtain ⟨hlen, hsize⟩ := consAll_extent args.reverse NIL st.heap
      rw [endsRefused_put_back happ hr hf hev (consAll_takes args.reverse NIL st.heap) hlen rfl,
        hsize]
      rfl
    · have hends : evaluationStep pf (io 0) c st ⟨false, last⟩
          = some ((errorCtx (c.resumed K) (encSym symreprEerror)).settle { st with heap := h₂ },
            ⟨false, false⟩) := by
        rw [hev, hrefused]
        rfl
      refine iff_of_true (endsRefused_of_errorCtx hends rfl rfl) ⟨?_, harity⟩
      exact hlen.trans (length_le_ncard hl.nodup fun i hi =>
        ⟨hl.chain.lt i hi, fun hlive => hdisjoint i hlive hi⟩)
    · refine iff_of_false ?_ fun ⟨_, k, hk', hne⟩ => hne (harity k hk')
      cases hres : applyClosure (io 0) (c.resumed K) count f args st with
      | none =>
        exact not_endsRefused_of_none (by rw [hev, hres]; rfl)
      | some res =>
        obtain ⟨o, st', g⟩ := res
        obtain ⟨htakes, hlen', hst, hretry⟩ := applyClosure_takes hres
        rw [hres] at hev
        cases g with
        | false =>
          obtain ⟨c', hrunning⟩ := hkeeps o st' false hres
          rw [endsRefused_iff_of_running hev hrunning]
          exact fun hnot => absurd hnot.1 (by simp)
        | true =>
          -- there were no cells for the environment
          have heq := hretry rfl
          rw [hat.retry_eq happ.appCont] at heq
          obtain ⟨rfl, -⟩ := Prod.mk.inj heq
          rw [endsRefused_put_back happ hr hf hev htakes hlen' hst]
          exact fun ⟨_, k, hk', hne⟩ => hne (harity k hk')

/-- The next iteration collects, if it can, and repeats the step. -/
theorem stepsAfterGc_of_gcIfDue (h : gcIfDue c st ⟨true, false⟩ = some st₁) :
    StepsAfterGc pf (io n) c st ⟨true, false⟩ st₁ := by
  rw [gcIfDue, if_pos rfl, gc] at h
  obtain ⟨⟨oks, h₁⟩, hcollect, rfl⟩ := Option.map_eq_some_iff.mp h
  exact ⟨evaluationStep_of_collect hcollect, rfl⟩

/-- An application of a word that is no list, in whatever iteration: an extension that asks for
a collection is called again after it. -/
theorem step_other (happ : Applies c f args) (hf : typeOf f ≠ ptrTypeCons)
    (hsym : isFunctionSymbol pf f = false) (io : Outside) (st : Store) :
    (pf.extensionsLookup (decSym f) = none →
        ∃ K, stepCtx pf io c st
          = some (errorCtx (c.resumed K) (encSym symreprEerror), st, false))
      ∧ (pf.extensionsLookup (decSym f) ≠ none → KeepsRunning (stepCtx pf io c st)) := by
  obtain ⟨K, count, above, hat⟩ := happ.atApplication pf io st
  obtain ⟨hfund, hcontrol⟩ := of_not_isFunctionSymbol hsym
  rw [hat.other hf hfund hcontrol]
  refine ⟨fun hnone => ⟨K, ?_⟩, keepsRunning_applyExtension⟩
  simp only [applyExtension, hnone]

/-- **Which other words are refused.** -/
theorem endsRefused_other_iff (happ : Applies c f args)
    (hr : ApplyReady pf (io 0) c st flags f) (hf : typeOf f ≠ ptrTypeCons)
    (hsym : isFunctionSymbol pf f = false) :
    EndsRefused pf io 0 c st flags ↔ pf.extensionsLookup (decSym f) = none := by
  obtain ⟨perform, last⟩ := flags
  cases perform with
  | true =>
    obtain rfl : last = false := by simpa using hr.retry.notKilled
    obtain ⟨h₁, l₁, hafter, -⟩ := (hr.collects rfl).collected pf (io 0)
    obtain ⟨hnone, hsome⟩ := step_other happ hf hsym (io 0) { st with heap := h₁ }
    constructor
    · intro hends
      by_contra hext
      exact not_endsRefused_of_keepsRunning hafter (hsome hext) hends
    · intro hext
      obtain ⟨K, hstep⟩ := hnone hext
      have hev : evaluationStep pf (io 0) c st ⟨true, false⟩
          = some ((errorCtx (c.resumed K) (encSym symreprEerror)).settle { st with heap := h₁ },
            ⟨false, true⟩) := by
        rw [hafter.1, hstep]
        rfl
      exact endsRefused_of_errorCtx hev rfl hafter.2
  | false =>
    obtain ⟨hnone, hsome⟩ := step_other happ hf hsym (io 0) st
    have hev := evaluationStep_of_not_performGc pf (io 0) c st last
    constructor
    · intro hends
      by_contra hext
      cases hstep : stepCtx pf (io 0) c st with
      | none => exact not_endsRefused_of_none (by rw [hev, hstep]; rfl) hends
      | some res =>
        obtain ⟨o, st', g⟩ := res
        obtain ⟨c', hrunning⟩ := hsome hext o st' g hstep
        rw [hstep] at hev
        rw [endsRefused_iff_of_running hev hrunning] at hends
        obtain ⟨hg, ⟨happCont, hK⟩, hagain⟩ := hends
        obtain rfl : g = true := hg
        -- the extension is called a second time, in whatever state the first call has left
        have happ' : Applies c' f args := ⟨happCont, by rw [hK]; exact happ.stack⟩
        cases hgc : gcIfDue c' (o.settle st').toStore ⟨true, false⟩ with
        | none =>
          refine not_endsRefused_of_none ?_ hagain
          rw [evaluationStep, if_neg (by simp), hgc]
          rfl
        | some st₂ =>
          exact not_endsRefused_of_keepsRunning (stepsAfterGc_of_gcIfDue hgc)
            ((step_other happ' hf hsym (io 1) st₂).2 hext) hagain
    · intro hext
      obtain ⟨K, hstep⟩ := hnone hext
      rw [hstep, Option.map_some] at hev
      exact endsRefused_of_errorCtx hev rfl rfl

theorem IsClosure.typeOf_eq {h : HeapState} (hclo : IsClosure h f) : typeOf f = ptrTypeCons := by
  obtain ⟨params, body, env, is, ps, js, hlist, -⟩ := hclo
  exact hlist.uncons.1

/-- **Only functions are applied**, exactly where what is no function is unlike one to the code:
a list that has another number of parameters than there are arguments, if there are cells for
these, and a word without an extension under its payload bits. -/
theorem onlyFunctionsApplied_iff (happ : Applies c f args)
    (hr : ApplyReady pf (io 0) c st flags f) :
    OnlyFunctionsApplied pf io c st flags f ↔ Refusable pf c st flags f args := by
  unfold OnlyFunctionsApplied Refusable
  by_cases hfun : IsFunction pf st.heap f
  · exact iff_of_true (fun hnot => absurd hfun hnot) (.inl hfun)
  · have hsym : isFunctionSymbol pf f = false := by
      rw [← Bool.not_eq_true]
      exact fun h => hfun (.inr h)
    simp only [hfun, not_false_eq_true, true_implies, false_or]
    by_cases hf : typeOf f = ptrTypeCons
    · rw [endsRefused_list_iff happ hr hf]
      simp [hf]
    · rw [endsRefused_other_iff happ hr hf hsym]
      simp [hf]

end

section

/-! ## A list that is no closure -/

/-- `((quote l) arg ...)`. -/
def quotedApplication (l : List Datum) (args : List UINT) : List Datum :=
  [.list (.list [.sym symreprQuote, .list l] :: args.map .int)]

/-- `(1 (params ...) 42 ())`. -/
def likeClosure (params : List UINT) : List Datum :=
  [.int 1#32, .list (params.map .sym), .int 42#32, .list []]

/-- `(4096)`. -/
def applyNumber : List Datum := [.list [.int 4096#32]]

/-- The context of a program in a heap of `numCells` cells when it has made `n` steps. -/
def aboutToApply (numCells n : Nat) (program : List Datum) : Option (EvalContext × Store) :=
  (firstCtx (startPrograms plainOutside numCells [program])).bind fun s =>
    runAlone (fun _ => true) 0 n s

/-- A target with an extension whose symbol has the id 4096. -/
def oneExtension : Platform :=
  { plainPlatform with
    extensionsLookup := fun id =>
      if id = 4096#32 then some fun _ _ st => (encI 7#32, st) else none }

/-- The context is about to apply `f` to `args`. -/
def isApplying (f : VALUE) (args : List VALUE) (c : EvalContext) : Bool :=
  c.appCont && c.K.contents == [encU contDone] ++ (Frame.application f args).words

theorem applies_of_isApplying {c : EvalContext} (h : isApplying f args c = true) :
    Applies c f args := by
  obtain ⟨happ, hstack⟩ := Bool.and_eq_true_iff.mp h
  exact ⟨happ, _, eq_of_beq hstack⟩

/-- All words of a heap and the roots. -/
def heapWords (h : HeapState) (calls : List MarkCall) : List VALUE :=
  rootWords calls ++ (List.range h.heapSize).flatMap fun i => [(h.cell i).car, (h.cell i).cdr]

/-- A decision procedure for `CollectsAll` where the heap is full of lists. -/
def collectsAllLists (c : EvalContext) (st : Store) : Bool :=
  fullOfLists st.heap (gcCalls st c) (heapWords st.heap (gcCalls st c))
    && (marks (gcCalls st c) st.heap).any fun res => res.1.all id

theorem collectsAll_of_collectsAllLists {c : EvalContext} {st : Store}
    (h : collectsAllLists c st = true) : CollectsAll c st := by
  obtain ⟨hfull, hmarks⟩ := Bool.and_eq_true_iff.mp h
  refine ⟨⟨[], gcReady_of_fullOfLists hfull⟩, fun oks h' hc => ?_⟩
  rw [collect] at hc
  cases hmarked : marks (gcCalls st c) st.heap with
  | none =>
    rw [hmarked] at hc
    cases hc
  | some res =>
    rw [hmarked] at hc hmarks
    obtain ⟨h₁, -, heq⟩ := Option.map_eq_some_iff.mp hc
    obtain ⟨rfl, -⟩ := Prod.mk.inj heq
    simpa using hmarks

/-- If the application asks for a collection, that one finds a heap full of lists. -/
def retriesInLists (c : EvalContext) (st : Store) : Bool :=
  match evaluationStep plainPlatform plainOutside c st ⟨false, false⟩ with
  | some (s', _) => s'.ctxRunning.all fun c' => collectsAllLists c' s'.toStore
  | none => true

theorem applyReady_of_lists {c : EvalContext} {st : Store} (hdone : c.done = false)
    (htag : tagOnTop c = true) (hleaf : isLeafType (typeOf (cdr st.heap f)) = false)
    (hcollects : collectsAllLists c st = true) (hretries : retriesInLists c st = true) :
    ApplyReady plainPlatform plainOutside c st ⟨false, false⟩ f where
  retry :=
    { notKilled := rfl
      notDone := hdone
      tag := fun _ => htag
      heap := (collectsAll_of_collectsAllLists hcollects).ready.imp fun _ h => h.toMarkReady
      marked := fun h => absurd h (by simp) }
  second h := absurd h (by simp [hleaf])
  collects h := absurd h (by simp)
  collectsAgain s' c' hev hrunning := by
    rw [retriesInLists, hev] at hretries
    simp only [hrunning, Option.all_some] at hretries
    exact collectsAll_of_collectsAllLists hretries

/-- `((quote (1 (x) 42 ())) 7 8)` in a heap of 13 cells: there are none for the list of the
arguments before the collection. -/
theorem onlyFunctionsApplied_iff_list :
    ∃ c st, aboutToApply 13 7 (quotedApplication (likeClosure [4096#32]) [7#32, 8#32])
        = some (c, st)
      ∧ Applies c (cellPtr 6) [encI 7#32, encI 8#32]
      ∧ (OnlyFunctionsApplied plainPlatform (fun _ => plainOutside) c st ⟨false, false⟩ (cellPtr 6)
        ↔ Refusable plainPlatform c st ⟨false, false⟩ (cellPtr 6) [encI 7#32, encI 8#32]) := by
  have hrun : (aboutToApply 13 7 (quotedApplication (likeClosure [4096#32]) [7#32, 8#32])).map
      (fun s => (isApplying (cellPtr 6) [encI 7#32, encI 8#32] s.1, s.1.done, tagOnTop s.1,
        isLeafType (typeOf (cdr s.2.heap (cellPtr 6))), collectsAllLists s.1 s.2,
        retriesInLists s.1 s.2)) = some (true, false, true, false, true, true) := by
    decide +kernel
  obtain ⟨⟨c, st⟩, hs, hok⟩ := Option.map_eq_some_iff.mp hrun
  simp only [Prod.mk.injEq] at hok
  obtain ⟨happ, hdone, htag, hleaf, hcollects, hretries⟩ := hok
  have hready := applyReady_of_lists hdone htag hleaf hcollects hretries
  exact ⟨c, st, hs, applies_of_isApplying happ,
    onlyFunctionsApplied_iff (applies_of_isApplying happ) hready⟩

/-- One of the next `k` iterations leaves the context running without a collection. -/
def goesAhead (pf : Platform) (io : Outside) :
    Nat → EvalContext → Store → GcFlags → Bool
  | 0, _, _, _ => false
  | k + 1, c, st, flags =>
      match evaluationStep pf io c st flags with
      | none => false
      | some (s', flags') =>
          s'.ctxRunning.any fun c' => !flags'.performGc || goesAhead pf io k c' s'.toStore flags'

theorem not_endsRefused_of_goesAhead {io : Outside} : ∀ {k n : Nat} {c : EvalContext} {st : Store}
    {flags : GcFlags}, goesAhead pf io k c st flags = true →
    ¬EndsRefused pf (fun _ => io) n c st flags := by
  intro k
  induction k with
  | zero => intro n c st flags h; cases h
  | succ k ih =>
    intro n c st flags h
    unfold goesAhead at h
    split at h
    · cases h
    · next s' flags' hev =>
      cases hrunning : s'.ctxRunning with
      | none =>
        rw [hrunning] at h
        cases h
      | some c' =>
        rw [hrunning, Option.any_some] at h
        intro hends
        have hiff := @endsRefused_iff_of_running pf (fun _ => io) n c c' st flags flags' s' hev
        obtain ⟨hgc, -, hrest⟩ := (hiff hrunning).mp hends
        rw [hgc, Bool.not_true, Bool.false_or] at h
        exact ih h hrest

/-- No list that begins with a number is a closure. -/
theorem not_isFunction_of_car {h : HeapState} (hty : typeOf f = ptrTypeCons)
    (hcar : car h f = encI 1#32) : ¬IsFunction pf h f := by
  rintro (⟨params, body, env, is, ps, js, hlist, -⟩ | hsym)
  · rw [hlist.uncons.2.1] at hcar
    exact absurd hcar (by decide)
  · have hcons : (ptrTypeCons == valTypeSymbol) = false := by decide
    rw [isFunctionSymbol, hty, hcons, Bool.false_and] at hsym
    cases hsym

/-- `(1 () 42 ())` as an operator, without operands, and `(1 (x) 42 ())` with one, in a heap with
cells for the list of the operands after the collection only: the code goes on with the 42. -/
theorem goesAhead_list {numCells n : Nat} {program : List Datum} (i : Nat) (args : List VALUE)
    (hrun : (aboutToApply numCells n program).map (fun s =>
      (isApplying (cellPtr i) args s.1, car s.2.heap (cellPtr i),
        goesAhead plainPlatform plainOutside 2 s.1 s.2 ⟨false, false⟩))
          = some (true, encI 1#32, true)) (hi : typeOf (cellPtr i) = ptrTypeCons) :
    ∃ c st, aboutToApply numCells n program = some (c, st) ∧ Applies c (cellPtr i) args
      ∧ ¬OnlyFunctionsApplied plainPlatform (fun _ => plainOutside) c st ⟨false, false⟩
        (cellPtr i) := by
  obtain ⟨⟨c, st⟩, hs, hok⟩ := Option.map_eq_some_iff.mp hrun
  simp only [Prod.mk.injEq] at hok
  obtain ⟨happ, hcar, hahead⟩ := hok
  refine ⟨c, st, hs, applies_of_isApplying happ, fun honly => ?_⟩
  exact not_endsRefused_of_goesAhead hahead (honly (not_isFunction_of_car hi hcar))

/-- `((quote (1 () 42 ())))` goes on with the 42, and so does `((quote (1 (x) 42 ())) 7)` in 12
cells, after a collection. Where the id of an extension is 4096, `(4096)` calls the extension. -/
theorem not_onlyFunctionsApplied :
    (∃ c st f, aboutToApply 32 3 (quotedApplication (likeClosure []) []) = some (c, st)
      ∧ Applies c f []
      ∧ ¬OnlyFunctionsApplied plainPlatform (fun _ => plainOutside) c st ⟨false, false⟩ f)
    ∧ (∃ c st f, aboutToApply 12 5 (quotedApplication (likeClosure [4096#32]) [7#32])
        = some (c, st)
      ∧ Applies c f [encI 7#32]
      ∧ ¬OnlyFunctionsApplied plainPlatform (fun _ => plainOutside) c st ⟨false, false⟩ f)
    ∧ ∃ c st, aboutToApply 32 3 applyNumber = some (c, st) ∧ Applies c (encI 4096#32) []
      ∧ ¬OnlyFunctionsApplied oneExtension (fun _ => plainOutside) c st ⟨false, false⟩
        (encI 4096#32) := by
  refine ⟨?_, ?_, ?_⟩
  · have hrun : (aboutToApply 32 3 (quotedApplication (likeClosure []) [])).map (fun s =>
        (isApplying (cellPtr 5) [] s.1, car s.2.heap (cellPtr 5),
          goesAhead plainPlatform plainOutside 2 s.1 s.2 ⟨false, false⟩))
            = some (true, encI 1#32, true) := by decide +kernel
    obtain ⟨c, st, hs, happ, hnot⟩ := goesAhead_list 5 [] hrun (by decide)
    exact ⟨c, st, cellPtr 5, hs, happ, hnot⟩
  · have hrun : (aboutToApply 12 5 (quotedApplication (likeClosure [4096#32]) [7#32])).map
        (fun s => (isApplying (cellPtr 6) [encI 7#32] s.1, car s.2.heap (cellPtr 6),
          goesAhead plainPlatform plainOutside 2 s.1 s.2 ⟨false, false⟩))
            = some (true, encI 1#32, true) := by decide +kernel
    obtain ⟨c, st, hs, happ, hnot⟩ := goesAhead_list 6 [encI 7#32] hrun (by decide)
    exact ⟨c, st, cellPtr 6, hs, happ, hnot⟩
  · have hrun : (aboutToApply 32 3 applyNumber).map (fun s =>
        (isApplying (encI 4096#32) [] s.1,
          goesAhead oneExtension plainOutside 2 s.1 s.2 ⟨false, false⟩)) = some (true, true) := by
      decide +kernel
    obtain ⟨⟨c, st⟩, hs, hok⟩ := Option.map_eq_some_iff.mp hrun
    simp only [Prod.mk.injEq] at hok
    obtain ⟨happ, hahead⟩ := hok
    refine ⟨c, st, hs, applies_of_isApplying happ, fun honly => ?_⟩
    refine not_endsRefused_of_goesAhead hahead (honly ?_)
    rintro (hclo | hsym)
    · exact absurd hclo.typeOf_eq (by decide)
    · exact absurd hsym (by decide)

end

end LispBM
