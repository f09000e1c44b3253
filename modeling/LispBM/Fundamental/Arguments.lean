import LispBM.Fundamental

/-!
# LispBM — the arguments a fundamental operation reads

The arguments of `fundamental_exec` are the topmost words of the evaluation stack, and the words
after them are what earlier computations have left there. Some operations look at `nargs` before
they read an argument, others do not: `minArgs` is the number of arguments that an operation reads
whatever `nargs` is. With fewer of them the result depends on words that are not arguments.
-/

namespace LispBM

/-- The first `nargs` words decide what the operation does. -/
def ReadsOnlyArgs (fo : FloatOps) (nargs : UINT) (op : VALUE) : Prop :=
  ∀ args args' st h, (∀ i, i < nargs.toNat → args.getD i 0#32 = args'.getD i 0#32) →
    fundamentalExec fo args nargs op st h = fundamentalExec fo args' nargs op st h

/-- The operations that take their first argument without a look at `nargs`. -/
def unaryOps : List UINT :=
  [symSymbolToUint, symUintToSymbol, symMkSymbolIndirect, symCar, symCdr, symAdd, symSub, symMul,
    symDiv, symMod, symNumeq, symGt, symLt]

/-- The number of arguments an operation reads in any case. -/
def minArgs (op : UINT) : Nat :=
  if op = symArrayWrite then 3
  else if op = symCons ∨ op = symArrayRead then 2
  else if op ∈ unaryOps then 1
  else 0

/-! ## Enough arguments -/

section Enough

variable {fo : FloatOps} {args args' : List VALUE} {nargs : UINT} {st : SymbolTable} {h : HeapState}

theorem restArgs_congr (hargs : ∀ i, i < nargs.toNat → args.getD i 0#32 = args'.getD i 0#32) :
    restArgs args nargs = restArgs args' nargs := by
  apply List.map_congr_left
  intro i hi
  obtain ⟨j, hj, rfl⟩ := List.mem_range'.mp hi
  exact hargs _ (by omega)

theorem nargs_pos (hn : (decide (nargs < 1#32)) = false) : 0 < nargs.toNat := by
  have h : ¬nargs.toNat < 1 := of_decide_eq_false hn
  omega

theorem stringToSymbol_congr (hargs : ∀ i, i < nargs.toNat → args.getD i 0#32 = args'.getD i 0#32) :
    stringToSymbol args nargs st h = stringToSymbol args' nargs st h := by
  rw [stringToSymbol, stringToSymbol]
  split
  · rfl
  · next hn => rw [hargs 0 (nargs_pos (decide_eq_false hn))]

theorem symbolToString_congr (hargs : ∀ i, i < nargs.toNat → args.getD i 0#32 = args'.getD i 0#32) :
    symbolToString args nargs st h = symbolToString args' nargs st h := by
  rw [symbolToString, symbolToString]
  by_cases hn : nargs < 1#32
  · simp [hn]
  · rw [hargs 0 (nargs_pos (decide_eq_false hn))]

theorem compareExec_congr {cmpRes : Int} (h0 : args.getD 0 0#32 = args'.getD 0 0#32)
    (hrest : restArgs args nargs = restArgs args' nargs) :
    compareExec fo cmpRes args nargs h = compareExec fo cmpRes args' nargs h := by
  rw [compareExec, compareExec, h0, hrest]

/-- An operation with as many arguments as it reads. -/
theorem fundamentalHeapExec_congr {op : UINT} (hn : minArgs op ≤ nargs.toNat)
    (hargs : ∀ i, i < nargs.toNat → args.getD i 0#32 = args'.getD i 0#32) :
    fundamentalHeapExec fo args nargs op st h = fundamentalHeapExec fo args' nargs op st h := by
  have hrest := restArgs_congr hargs
  have hmin : ∀ {sym : UINT}, (op == sym) = true → ∀ i, i < minArgs sym →
      args.getD i 0#32 = args'.getD i 0#32 := by
    intro sym hop i hi
    rw [beq_iff_eq] at hop
    subst hop
    exact hargs i (lt_of_lt_of_le hi hn)
  rw [fundamentalHeapExec, fundamentalHeapExec]
  refine ite_congr rfl (fun _ => ?_) (fun _ => ite_congr rfl (fun _ => ?_) (fun _ => ?_))
  · -- `is-fundamental` looks at `nargs`
    by_cases hn : nargs < 1#32
    · simp [hn]
    · rw [hargs 0 (nargs_pos (decide_eq_false hn))]
  · exact symbolToString_congr hargs
  refine ite_congr rfl (fun hop => ?_) (fun _ => ite_congr rfl (fun hop => ?_) (fun _ => ?_))
  · rw [hmin hop 0 (by decide)]
  · rw [hmin hop 0 (by decide)]
  refine ite_congr rfl (fun hop => ?_) (fun _ => ite_congr rfl (fun hop => ?_) (fun _ => ?_))
  · rw [hmin hop 0 (by decide)]
  · rw [hmin hop 0 (by decide), hmin hop 1 (by decide)]
  refine ite_congr rfl (fun hop => ?_) (fun _ => ite_congr rfl (fun hop => ?_) (fun _ => ?_))
  · rw [hmin hop 0 (by decide)]
  · rw [hmin hop 0 (by decide)]
  refine ite_congr rfl (fun _ => ?_) (fun _ => ite_congr rfl (fun _ => ?_) (fun _ => ?_))
  · -- `list` takes the words below `nargs`
    have hlist : (List.range nargs.toNat).reverse.map (args.getD · 0#32)
        = (List.range nargs.toNat).reverse.map (args'.getD · 0#32) := by
      apply List.map_congr_left
      intro i hi
      exact hargs i (List.mem_range.mp (List.mem_reverse.mp hi))
    rw [hlist]
  · -- `append` has two arguments or none
    refine ite_congr rfl (fun _ => rfl) (fun htwo => ?_)
    have h2 : nargs = 2#32 := by simpa using htwo
    have hlt : (2#32).toNat = 2 := rfl
    rw [hargs 0 (by rw [h2]; omega), hargs 1 (by rw [h2]; omega)]
  refine ite_congr rfl (fun hop => ?_) (fun _ => ite_congr rfl (fun hop => ?_) (fun _ => ?_))
  · rw [hmin hop 0 (by decide), hrest]
  · rw [hmin hop 0 (by decide), hrest]
  refine ite_congr rfl (fun hop => ?_) (fun _ => ite_congr rfl (fun hop => ?_) (fun _ => ?_))
  · rw [hmin hop 0 (by decide), hrest]
  · rw [hmin hop 0 (by decide), hrest]
  refine ite_congr rfl (fun hop => ?_) (fun _ => ite_congr rfl (fun _ => ?_) (fun _ => ?_))
  · rw [hmin hop 0 (by decide), hrest]
  · -- `=` without arguments compares nothing
    rw [hrest]
    by_cases hzero : nargs.toNat = 0
    · have hnil : restArgs args' nargs = [] := by
        rw [restArgs, hzero]
        rfl
      rw [hnil]
      rfl
    · rw [hargs 0 (by omega)]
  refine ite_congr rfl (fun hop => ?_) (fun _ => ite_congr rfl (fun hop => ?_) (fun _ => ?_))
  · rw [compareExec_congr (hmin hop 0 (by decide)) hrest]
  · rw [compareExec_congr (hmin hop 0 (by decide)) hrest]
  refine ite_congr rfl (fun hop => ?_) (fun _ => ite_congr rfl (fun _ => ?_) (fun _ => ?_))
  · rw [compareExec_congr (hmin hop 0 (by decide)) hrest]
  · refine ite_congr rfl (fun _ => rfl) (fun hz => ?_)
    have hne : nargs ≠ 0#32 := by simpa using hz
    have hne' : nargs.toNat ≠ 0 := fun h => hne (BitVec.eq_of_toNat_eq h)
    rw [hargs 0 (by omega)]
  refine ite_congr rfl (fun hop => ?_) (fun _ => ite_congr rfl (fun hop => ?_) (fun _ => ?_))
  · rw [arrayRead, arrayRead, hmin hop 0 (by decide), hmin hop 1 (by decide)]
  · rw [arrayWrite, arrayWrite, hmin hop 0 (by decide), hmin hop 1 (by decide),
      hmin hop 2 (by decide)]
  refine ite_congr rfl (fun _ => rfl) (fun _ => ite_congr rfl (fun _ => ?_) (fun _ => rfl))
  · rw [typeOfExec, typeOfExec]
    congr 2
    refine ite_congr rfl (fun _ => rfl) (fun hone => ?_)
    have h1 : nargs = 1#32 := by simpa using hone
    rw [hargs 0 (by rw [h1]; decide)]

theorem readsOnlyArgs_of_minArgs {op : VALUE} (hn : minArgs (decSym op) ≤ nargs.toNat) :
    ReadsOnlyArgs fo nargs op := by
  intro args args' st h hargs
  rw [fundamentalExec, fundamentalExec]
  refine ite_congr rfl (fun _ => stringToSymbol_congr hargs) (fun _ => ?_)
  rw [fundamentalHeapExec_congr hn hargs]

end Enough

/-! ## Too few arguments -/

section TooFew

variable {fo : FloatOps} {nargs : UINT}

/-- A heap of one cell, with a memory of sixteen words. -/
def oneCell : HeapState :=
  heapInit 1 [⟨0#32, 0#32⟩] ⟨[0#32], List.replicate 16 0#32, 16#32, 1#32, 0x20000000#32⟩

/-- The cell is an array of one number. -/
def oneArray : HeapState :=
  match heapAllocateArray 1#32 valTypeU oneCell with
  | some (_, _, h) => h
  | none => oneCell

def oneArrayPtr : VALUE := cellPtr 0 ||| ptrTypeArray

/-- Two buffers that differ from the word `k` on, and the operation tells them apart. -/
theorem not_readsOnlyArgs {op : VALUE} (k : Nat) (hk : nargs.toNat ≤ k) (args args' : List VALUE)
    (st : SymbolTable) (h : HeapState) (hagree : ∀ i, i < k → args.getD i 0#32 = args'.getD i 0#32)
    (hne : fundamentalExec fo args nargs op st h ≠ fundamentalExec fo args' nargs op st h) :
    ¬ReadsOnlyArgs fo nargs op := fun hreads =>
  hne (hreads args args' st h fun i hi => hagree i (lt_of_lt_of_le hi hk))

theorem fundamentalExec_of_ne {args : List VALUE} {op : VALUE} {st : SymbolTable} {h : HeapState}
    {sym : UINT} (hop : decSym op = sym) (hne : (sym == symStringToSymbol) = false) :
    fundamentalExec fo args nargs op st h
      = (fundamentalHeapExec fo args nargs sym st h).map fun (v, h) => (v, h, st) := by
  rw [fundamentalExec, hop, hne]
  simp only [Bool.false_eq_true, if_false]
  cases fundamentalHeapExec fo args nargs sym st h <;> rfl

section Arms

variable {args : List VALUE} {st : SymbolTable} {h : HeapState}

theorem fundamentalHeapExec_cons : fundamentalHeapExec fo args nargs symCons st h
    = some (cons (args.getD 0 0#32) (args.getD 1 0#32) h) := rfl

theorem fundamentalHeapExec_arrayRead :
    fundamentalHeapExec fo args nargs symArrayRead st h = arrayRead args h := rfl

theorem fundamentalHeapExec_arrayWrite :
    fundamentalHeapExec fo args nargs symArrayWrite st h = arrayWrite args h := rfl

end Arms

/-- Without an argument the result of these operations is that of whatever word is there. -/
theorem unaryOps_differ {sym : UINT} (hsym : sym ∈ unaryOps) (st : SymbolTable) :
    ∃ v v', v ≠ v' ∧ fundamentalHeapExec fo [NIL] 0#32 sym st oneCell = some (v, oneCell)
      ∧ fundamentalHeapExec fo [encU 0#32] 0#32 sym st oneCell = some (v', oneCell) := by
  simp only [unaryOps, List.mem_cons, List.not_mem_nil, or_false] at hsym
  rcases hsym with rfl | rfl | rfl | rfl | rfl | rfl | rfl | rfl | rfl | rfl | hcompare
  case inr.inr.inr.inr.inr.inr.inr.inr.inr.inr =>
    refine ⟨encSym symreprTerror, encSym symreprTrue, by decide, ?_⟩
    rcases hcompare with rfl | rfl | rfl <;> exact ⟨rfl, rfl⟩
  all_goals
    refine ⟨_, _, ?_, rfl, rfl⟩
    decide

theorem not_readsOnlyArgs_unary {op : VALUE} (hop : decSym op ∈ unaryOps) (hn : nargs.toNat = 0) :
    ¬ReadsOnlyArgs fo nargs op := by
  obtain rfl : nargs = 0#32 := BitVec.eq_of_toNat_eq hn
  have hne : (decSym op == symStringToSymbol) = false := by
    have hall : (unaryOps.all fun sym => !(sym == symStringToSymbol)) = true := by decide
    simpa using List.all_eq_true.mp hall _ hop
  intro hreads
  have hsame := hreads [NIL] [encU 0#32] ⟨0#32, 0#32⟩ oneCell
    fun i hi => absurd hi (Nat.not_lt_zero i)
  obtain ⟨v, v', hvv, hv, hv'⟩ := @unaryOps_differ fo (decSym op) hop ⟨0#32, 0#32⟩
  rw [fundamentalExec_of_ne rfl hne, fundamentalExec_of_ne rfl hne, hv, hv', Option.map_some,
    Option.map_some] at hsame
  exact hvv (Prod.mk.inj (Option.some.inj hsame)).1

/-- The cdr of the new cell is the word after the only argument. -/
theorem not_readsOnlyArgs_cons {op : VALUE} (hop : decSym op = symCons) (hn : nargs.toNat < 2) :
    ¬ReadsOnlyArgs fo nargs op := by
  refine not_readsOnlyArgs 1 (by omega) [NIL, NIL] [NIL, encU 0#32] ⟨0#32, 0#32⟩ oneCell
    (fun i hi => ?_) ?_
  · obtain rfl : i = 0 := by omega
    rfl
  · rw [fundamentalExec_of_ne hop (by decide), fundamentalExec_of_ne hop (by decide)]
    rw [fundamentalHeapExec_cons, fundamentalHeapExec_cons]
    decide +kernel

theorem not_readsOnlyArgs_arrayRead {op : VALUE} (hop : decSym op = symArrayRead)
    (hn : nargs.toNat < 2) : ¬ReadsOnlyArgs fo nargs op := by
  refine not_readsOnlyArgs 1 (by omega) [NIL, NIL] [NIL, encU 0#32] ⟨0#32, 0#32⟩ oneCell
    (fun i hi => ?_) ?_
  · obtain rfl : i = 0 := by omega
    rfl
  · rw [fundamentalExec_of_ne hop (by decide), fundamentalExec_of_ne hop (by decide)]
    rw [fundamentalHeapExec_arrayRead, fundamentalHeapExec_arrayRead]
    decide +kernel

/-- What is written into the array is the word after the two arguments. -/
theorem not_readsOnlyArgs_arrayWrite {op : VALUE} (hop : decSym op = symArrayWrite)
    (hn : nargs.toNat < 3) : ¬ReadsOnlyArgs fo nargs op := by
  refine not_readsOnlyArgs 2 (by omega) [oneArrayPtr, encU 0#32, NIL]
    [oneArrayPtr, encU 0#32, encU 0#32] ⟨0#32, 0#32⟩ oneArray (fun i hi => ?_) ?_
  · interval_cases i <;> rfl
  · rw [fundamentalExec_of_ne hop (by decide), fundamentalExec_of_ne hop (by decide)]
    rw [fundamentalHeapExec_arrayWrite, fundamentalHeapExec_arrayWrite]
    decide +kernel

theorem minArgs_le_of_readsOnlyArgs {op : VALUE} (hreads : ReadsOnlyArgs fo nargs op) :
    minArgs (decSym op) ≤ nargs.toNat := by
  by_contra hlt
  rw [minArgs] at hlt
  split_ifs at hlt with hwrite htwo hone
  · exact not_readsOnlyArgs_arrayWrite hwrite (by omega) hreads
  · rcases htwo with hcons | hread
    · exact not_readsOnlyArgs_cons hcons (by omega) hreads
    · exact not_readsOnlyArgs_arrayRead hread (by omega) hreads
  · exact not_readsOnlyArgs_unary hone (by omega) hreads
  · omega

end TooFew

/-- **A fundamental operation reads only its arguments exactly when it has as many as it reads.** -/
theorem readsOnlyArgs_iff (fo : FloatOps) (nargs : UINT) (op : VALUE) :
    ReadsOnlyArgs fo nargs op ↔ minArgs (decSym op) ≤ nargs.toNat :=
  ⟨minArgs_le_of_readsOnlyArgs, readsOnlyArgs_of_minArgs⟩

/-- `(car)` is the car of the word that is left on the stack. -/
theorem not_readsOnlyArgs_car :
    ∃ (fo : FloatOps) (args args' : List VALUE) (st : SymbolTable) (h : HeapState),
      (∀ i, i < (0#32).toNat → args.getD i 0#32 = args'.getD i 0#32)
      ∧ fundamentalExec fo args 0#32 (encSym symCar) st h
        ≠ fundamentalExec fo args' 0#32 (encSym symCar) st h := by
  refine ⟨⟨fun x _ => x, fun x _ => x, fun x _ => x, fun x _ => x, id, id, id, id, id,
    fun x y => x == y, fun x y => x.ult y⟩, [NIL], [encU 0#32], ⟨0#32, 0#32⟩, oneCell,
    fun i hi => absurd hi (Nat.not_lt_zero i), ?_⟩
  decide +kernel

end LispBM
