import LispBM.Fundamental.TagSafety

/-!
# LispBM — arithmetic on what is not a number

`+`, `-`, `*`, `/` and `mod` fold a two-operand helper over their arguments. The helper orders its
operands by type code and tests at most one of them; the other is converted by `as_i` or `as_u`,
which take a non-number for zero. `ArithOp.error` says on which pairs of types a helper reports an
error. The result of a call is such an error exactly when the fold comes to such a pair.
-/

namespace LispBM

inductive ArithOp where
  | add
  | sub
  | mul
  | div
  | mod
  deriving DecidableEq

namespace ArithOp

/-- The symbol of the operation. -/
def sym : ArithOp → UINT
  | add => symAdd
  | sub => symSub
  | mul => symMul
  | div => symDiv
  | mod => symMod

/-- The helper that `fundamental_exec` folds. -/
def helper (fo : FloatOps) : ArithOp → VALUE → VALUE → HeapState → Option (VALUE × HeapState)
  | add => add2 fo
  | sub => sub2 fo
  | mul => mul2 fo
  | div => div2 fo
  | mod => mod2 fo

/-- The branch of `fundamental_exec`, on the operands alone. -/
def exec (fo : FloatOps) : ArithOp → VALUE → List VALUE → HeapState → Option (VALUE × HeapState)
  | sub, a, [], h => some (negate fo a h)
  | op, a, bs, h => foldArgs (op.helper fo) bs a h

end ArithOp

section

variable {fo : FloatOps} {a b v e : VALUE} {h h' : HeapState} {op : ArithOp}

theorem restArgs_operands (a : VALUE) (bs above : List VALUE) {nargs : UINT}
    (hn : nargs.toNat = (a :: bs).length) : restArgs (a :: bs ++ above) nargs = bs := by
  rw [restArgs, hn, List.length_cons, Nat.add_sub_cancel]
  apply List.ext_getElem
  · simp
  · intro i hi hi'
    have hlt : i < bs.length := hi'
    simp [Nat.add_comm 1 i, List.getD, List.getElem?_append_left hlt, List.getElem?_eq_getElem hlt]

theorem fundamentalExec_arith (op : ArithOp) (a : VALUE) (bs above : List VALUE) {nargs : UINT}
    (hn : nargs.toNat = (a :: bs).length) (st : SymbolTable) (h : HeapState) :
    fundamentalExec fo (a :: bs ++ above) nargs (encSym op.sym) st h
      = (op.exec fo a bs h).map fun r => (r.1, r.2, st) := by
  have hsym : decSym (encSym op.sym) = op.sym := by cases op <;> decide
  have hstr : (op.sym == symStringToSymbol) = false := by cases op <;> decide
  have hheap : fundamentalHeapExec fo (a :: bs ++ above) nargs op.sym st h = op.exec fo a bs h := by
    have hone : (nargs == 1#32) = bs.isEmpty := by
      rw [Bool.eq_iff_iff, beq_iff_eq, List.isEmpty_iff, ← List.length_eq_zero_iff,
        ← BitVec.toNat_inj, hn]
      simp
    have hfold : foldArgs (op.helper fo) (restArgs (a :: bs ++ above) nargs) a h
        = foldArgs (op.helper fo) bs a h := by rw [restArgs_operands a bs above hn]
    cases op with
    | add => exact hfold
    | mul => exact hfold
    | div => exact hfold
    | mod => exact hfold
    | sub =>
      show (if (nargs == 1#32) = true then some (negate fo a h)
        else foldArgs (ArithOp.sub.helper fo) (restArgs (a :: bs ++ above) nargs) a h) = _
      rw [hfold, hone]
      cases bs <;> rfl
  rw [fundamentalExec, hsym, hstr, hheap]
  cases op.exec fo a bs h <;> rfl

/-! ## The types the helpers refuse -/

def isNumberType (t : TYPE) : Bool :=
  t == valTypeI || t == valTypeU || t == ptrTypeBoxedI || t == ptrTypeBoxedU || t == ptrTypeBoxedF

/-- The error an operation reports for operands whose types are `tMin` and `tMax`, in the order of
their codes, if it does. -/
def ArithOp.refusal : ArithOp → TYPE → TYPE → Option VALUE
  | add, tMin, tMax =>
      if !isNumberType tMin then some (encSym symreprEerror)
      else if !isNumberType tMax then some (encSym symreprTerror) else none
  | sub, tMin, tMax =>
      if !(valTypeChar < tMin) || !isNumberType tMax then some (encSym symreprTerror) else none
  | mul, _, tMax => if !isNumberType tMax then some (encSym symreprTerror) else none
  | div, _, tMax => if !isNumberType tMax then some (encSym symreprTerror) else none
  | mod, _, tMax =>
      if !isNumberType tMax || tMax == ptrTypeBoxedF then some (encSym symreprTerror) else none

/-- The error an operation reports for operands of the types `t` and `s`, if it does. -/
def ArithOp.error (op : ArithOp) (t s : TYPE) : Option VALUE :=
  if t < s then op.refusal t s else op.refusal s t

theorem error_byType (op : ArithOp) (a b : VALUE) : op.error (typeOf a) (typeOf b)
    = op.refusal (typeOf (byType a b).1) (typeOf (byType a b).2) := by
  rw [ArithOp.error, byType]
  split <;> rfl

theorem eq_encSym_of_cons_symbol {x d : VALUE} (ht : typeOf (cons x d h).1 = valTypeSymbol) :
    (cons x d h).1 = encSym symreprMerror ∨ (cons x d h).1 = encSym symreprFatalError := by
  have haddr : (cons x d h).1 = (heapAllocateCell ptrTypeCons h).1 := by
    rw [cons]
    simp only
    split <;> rfl
  by_cases hcons : typeOf h.freelist = ptrTypeCons
  · rw [haddr, heapAllocateCell_of_cons hcons, or_ptrTypeCons_eq_self hcons, hcons] at ht
    exact absurd ht (by decide)
  · have hne : (typeOf h.freelist != ptrTypeCons) = true := by simpa using hcons
    rw [haddr, heapAllocateCell, if_pos hne]
    split
    · split
      · exact Or.inl rfl
      · exact Or.inr rfl
    · exact Or.inr rfl

/-- A word of a number type, or a symbol that is neither of the two errors. -/
def NumberOrOther (v : VALUE) : Prop :=
  isNumberType (typeOf v) = true ∨ typeOf v = valTypeSymbol ∧ v ≠ encSym symreprTerror
    ∧ v ≠ encSym symreprEerror

theorem numberOrOther_encSym {s : UINT}
    (hs : s ∈ [symreprMerror, symreprFatalError, symreprDivzero]) :
    NumberOrOther (encSym s) := by
  refine Or.inr ⟨typeOf_encSym s, ?_⟩
  simp only [List.mem_cons, List.not_mem_nil, or_false] at hs
  rcases hs with rfl | rfl | rfl <;> decide

theorem numberOrOther_encBoxed {k : CellKind} (hk : isNumberType k.ptrType = true) (s x : UINT)
    (h : HeapState) : NumberOrOther (encBoxed s k.ptrType x h).1 := by
  have hmask : k.ptrType &&& ptrTypeMask = k.ptrType := by cases k <;> decide
  rw [encBoxed]
  simp only
  split
  · next ht =>
    rcases eq_encSym_of_cons_symbol (beq_iff_eq.mp ht) with heq | heq <;> rw [heq]
    · exact numberOrOther_encSym (by simp)
    · exact numberOrOther_encSym (by simp)
  · refine Or.inl ?_
    show isNumberType (typeOf (setPtrType _ _)) = true
    rw [(ptrWord_setPtrType _ hmask).typeOf]
    exact hk

/-- An operation on words whose only error is the division by zero. -/
def OnlyDivzero (f : UINT → UINT → ArithRes) : Prop :=
  ∀ x y w, f x y = .error w → w = encSym symreprDivzero

theorem onlyDivzero_word (f : UINT → UINT → UINT) : OnlyDivzero fun x y => .word (f x y) := by
  intro x y w hw
  exact absurd hw (by simp)

theorem onlyDivzero_divI (f : UINT → UINT → UINT) : OnlyDivzero (divI f) := by
  intro x y w hw
  rw [divI] at hw
  split at hw
  · exact (ArithRes.error.inj hw).symm
  · split at hw <;> exact absurd hw (by simp)

theorem onlyDivzero_divU (f : UINT → UINT → UINT) : OnlyDivzero (divU f) := by
  intro x y w hw
  rw [divU] at hw
  split at hw
  · exact (ArithRes.error.inj hw).symm
  · exact absurd hw (by simp)

theorem ArithRes.numberOrOther {f : UINT → UINT → ArithRes} (hf : OnlyDivzero f) {x y : UINT}
    {enc : UINT → HeapState → VALUE × HeapState} (henc : ∀ w, NumberOrOther (enc w h).1)
    (hres : (f x y).enc enc h = some (v, h')) : NumberOrOther v := by
  cases hr : f x y with
  | word w =>
    rw [hr] at hres
    have hv : enc w h = (v, h') := Option.some.inj hres
    have hw := henc w
    rwa [hv] at hw
  | error w =>
    rw [hr] at hres
    obtain ⟨rfl, -⟩ := Prod.mk.inj (Option.some.inj hres)
    rw [hf x y w hr]
    exact numberOrOther_encSym (by simp)
  | trap =>
    rw [hr] at hres
    exact absurd hres (by simp [ArithRes.enc])

section Switch

variable {onI onU onF : UINT → UINT → ArithRes} {asBI : HeapState → VALUE → UINT}
  {tMin tMax : VALUE}

theorem arithSwitch_of_i28 (ht : typeOf tMax = valTypeI) :
    arithSwitch fo onI onU onF asBI tMin tMax h
      = (onI (decI tMax) (asI fo h tMin)).enc (fun x h => (encI x, h)) h := by
  unfold arithSwitch
  rw [ht]
  rfl

theorem arithSwitch_of_u28 (ht : typeOf tMax = valTypeU) :
    arithSwitch fo onI onU onF asBI tMin tMax h
      = (onU (decU tMax) (asU fo h tMin)).enc (fun x h => (encU x, h)) h := by
  unfold arithSwitch
  rw [ht]
  rfl

theorem arithSwitch_of_i32 (ht : typeOf tMax = ptrTypeBoxedI) :
    arithSwitch fo onI onU onF asBI tMin tMax h
      = (onI (car h tMax) (asBI h tMin)).enc encBoxedI h := by
  unfold arithSwitch
  rw [ht]
  rfl

theorem arithSwitch_of_u32 (ht : typeOf tMax = ptrTypeBoxedU) :
    arithSwitch fo onI onU onF asBI tMin tMax h
      = (onU (car h tMax) (asU fo h tMin)).enc encBoxedU h := by
  unfold arithSwitch
  rw [ht]
  rfl

theorem arithSwitch_of_float (ht : typeOf tMax = ptrTypeBoxedF) :
    arithSwitch fo onI onU onF asBI tMin tMax h
      = (onF (car h tMax) (fo.ofU (asF fo h tMin))).enc encBoxedF h := by
  unfold arithSwitch
  rw [ht]
  rfl

theorem arithSwitch_of_not_number (ht : isNumberType (typeOf tMax) = false) :
    arithSwitch fo onI onU onF asBI tMin tMax h = some (encSym symreprTerror, h) := by
  simp only [isNumberType, Bool.or_eq_false_iff] at ht
  obtain ⟨⟨⟨⟨hi, hu⟩, hbi⟩, hbu⟩, hf⟩ := ht
  unfold arithSwitch
  simp only [hi, hu, hbi, hbu, hf, Bool.false_eq_true, if_false]

theorem typeOf_of_isNumberType {t : TYPE} (ht : isNumberType t = true) :
    t = valTypeI ∨ t = valTypeU ∨ t = ptrTypeBoxedI ∨ t = ptrTypeBoxedU ∨ t = ptrTypeBoxedF := by
  simpa [isNumberType, or_assoc] using ht

theorem arithSwitch_numberOrOther (hI : OnlyDivzero onI) (hU : OnlyDivzero onU)
    (hF : typeOf tMax = ptrTypeBoxedF → OnlyDivzero onF)
    (hmax : isNumberType (typeOf tMax) = true)
    (hres : arithSwitch fo onI onU onF asBI tMin tMax h = some (v, h')) : NumberOrOther v := by
  have hencI : ∀ w, NumberOrOther (encI w) := by
    intro w
    refine Or.inl ?_
    rw [encI, typeOf_shift w (by decide)]
    rfl
  have hencU : ∀ w, NumberOrOther (encU w) := by
    intro w
    refine Or.inl ?_
    rw [encU, typeOf_shift w (by decide)]
    rfl
  rcases typeOf_of_isNumberType hmax with ht | ht | ht | ht | ht
  · rw [arithSwitch_of_i28 ht] at hres
    refine ArithRes.numberOrOther hI ?_ hres
    exact hencI
  · rw [arithSwitch_of_u28 ht] at hres
    refine ArithRes.numberOrOther hU ?_ hres
    exact hencU
  · rw [arithSwitch_of_i32 ht] at hres
    refine ArithRes.numberOrOther hI ?_ hres
    exact fun w => @numberOrOther_encBoxed .boxedI (by decide) _ w h
  · rw [arithSwitch_of_u32 ht] at hres
    refine ArithRes.numberOrOther hU ?_ hres
    exact fun w => @numberOrOther_encBoxed .boxedU (by decide) _ w h
  · rw [arithSwitch_of_float ht] at hres
    refine ArithRes.numberOrOther (hF ht) ?_ hres
    exact fun w => @numberOrOther_encBoxed .boxedF (by decide) _ w h

end Switch

/-! ## One step of the fold -/

/-- What an operation computes on the words of two operands of signed type. -/
def ArithOp.onI : ArithOp → UINT → UINT → ArithRes
  | add => fun x y => .word (x + y)
  | sub => fun x y => .word (x - y)
  | mul => fun x y => .word (x * y)
  | div => divI BitVec.sdiv
  | mod => divI BitVec.srem

def ArithOp.onU : ArithOp → UINT → UINT → ArithRes
  | add => fun x y => .word (x + y)
  | sub => fun x y => .word (x - y)
  | mul => fun x y => .word (x * y)
  | div => divU BitVec.udiv
  | mod => divU BitVec.umod

def ArithOp.onF (fo : FloatOps) : ArithOp → UINT → UINT → ArithRes
  | add => fun x y => .word (fo.add x y)
  | sub => fun x y => .word (fo.sub x y)
  | mul => fun x y => .word (fo.mul x y)
  | div => fun x y =>
      if fo.eq y (fo.ofU 0#32) then .error (encSym symreprDivzero) else .word (fo.div x y)
  | mod => fun _ _ => .error (encSym symreprTerror)

/-- The conversion of the smaller operand in the boxed signed case. -/
def ArithOp.asBI (fo : FloatOps) : ArithOp → HeapState → VALUE → UINT
  | sub => asU fo
  | _ => asI fo

theorem onlyDivzero_onI (op : ArithOp) : OnlyDivzero op.onI := by
  cases op with
  | add => exact onlyDivzero_word _
  | sub => exact onlyDivzero_word _
  | mul => exact onlyDivzero_word _
  | div => exact onlyDivzero_divI _
  | mod => exact onlyDivzero_divI _

theorem onlyDivzero_onU (op : ArithOp) : OnlyDivzero op.onU := by
  cases op with
  | add => exact onlyDivzero_word _
  | sub => exact onlyDivzero_word _
  | mul => exact onlyDivzero_word _
  | div => exact onlyDivzero_divU _
  | mod => exact onlyDivzero_divU _

theorem onlyDivzero_onF (hop : op ≠ .mod) : OnlyDivzero (op.onF fo) := by
  cases op with
  | add => exact onlyDivzero_word _
  | sub => exact onlyDivzero_word _
  | mul => exact onlyDivzero_word _
  | div =>
    intro x y w hw
    simp only [ArithOp.onF] at hw
    split at hw
    · exact (ArithRes.error.inj hw).symm
    · exact absurd hw (by simp)
  | mod => exact absurd rfl hop

/-- A helper whose test lets the smaller operand through is the switch over the larger one. -/
theorem helper_eq_arithSwitch (hmin : op = .add → isNumberType (typeOf (byType a b).1) = true)
    (hchar : op = .sub → valTypeChar < typeOf (byType a b).1) :
    op.helper fo a b h
      = arithSwitch fo op.onI op.onU (op.onF fo) (op.asBI fo) (byType a b).1 (byType a b).2 h := by
  cases op with
  | add =>
    have hmin : ¬(!isNumber (byType a b).1) = true := by
      show ¬(!isNumberType (typeOf (byType a b).1)) = true
      rw [hmin rfl]
      decide
    exact if_neg hmin
  | sub => exact if_pos (hchar rfl)
  | mul => rfl
  | div => rfl
  | mod => rfl

theorem helper_of_no_error (fo : FloatOps) (h : HeapState)
    (he : op.error (typeOf a) (typeOf b) = none) :
    op.helper fo a b h = arithSwitch fo op.onI op.onU (op.onF fo) (op.asBI fo) (byType a b).1
        (byType a b).2 h
      ∧ isNumberType (typeOf (byType a b).2) = true
      ∧ (op = .mod → typeOf (byType a b).2 ≠ ptrTypeBoxedF) := by
  rw [error_byType] at he
  refine ⟨helper_eq_arithSwitch ?_ ?_, ?_, ?_⟩
  · rintro rfl
    simp only [ArithOp.refusal] at he
    grind
  · rintro rfl
    simp only [ArithOp.refusal] at he
    grind
  · cases op <;> simp only [ArithOp.refusal] at he <;> grind
  · rintro rfl
    simp only [ArithOp.refusal] at he
    grind

theorem helper_of_error (fo : FloatOps) (h : HeapState)
    (he : op.error (typeOf a) (typeOf b) = some e) :
    op.helper fo a b h = some (e, h) ∧ (e = encSym symreprTerror ∨ e = encSym symreprEerror) := by
  rw [error_byType] at he
  cases op with
  | add =>
    simp only [ArithOp.refusal] at he
    split at he <;> rename_i hmin
    · obtain rfl := Option.some.inj he
      have hmin : (!isNumber (byType a b).1) = true := hmin
      exact ⟨if_pos hmin, Or.inr rfl⟩
    · split at he <;> rename_i hmax
      · obtain rfl := Option.some.inj he
        rw [helper_eq_arithSwitch (fun _ => by simpa using hmin) (by simp)]
        exact ⟨arithSwitch_of_not_number (by simpa using hmax), Or.inl rfl⟩
      · exact absurd he (by simp)
  | sub =>
    simp only [ArithOp.refusal] at he
    split at he <;> rename_i ht
    · obtain rfl := Option.some.inj he
      refine ⟨?_, Or.inl rfl⟩
      by_cases hchar : valTypeChar < typeOf (byType a b).1
      · rw [helper_eq_arithSwitch (by simp) fun _ => hchar]
        exact arithSwitch_of_not_number (by simpa [hchar] using ht)
      · exact if_neg hchar
    · exact absurd he (by simp)
  | mul =>
    simp only [ArithOp.refusal] at he
    split at he <;> rename_i hmax
    · obtain rfl := Option.some.inj he
      rw [helper_eq_arithSwitch (by simp) (by simp)]
      exact ⟨arithSwitch_of_not_number (by simpa using hmax), Or.inl rfl⟩
    · exact absurd he (by simp)
  | div =>
    simp only [ArithOp.refusal] at he
    split at he <;> rename_i hmax
    · obtain rfl := Option.some.inj he
      rw [helper_eq_arithSwitch (by simp) (by simp)]
      exact ⟨arithSwitch_of_not_number (by simpa using hmax), Or.inl rfl⟩
    · exact absurd he (by simp)
  | mod =>
    simp only [ArithOp.refusal] at he
    split at he <;> rename_i hmax
    · obtain rfl := Option.some.inj he
      rw [helper_eq_arithSwitch (by simp) (by simp)]
      refine ⟨?_, Or.inl rfl⟩
      cases hnum : isNumberType (typeOf (byType a b).2) with
      | false => exact arithSwitch_of_not_number hnum
      | true =>
        rw [hnum] at hmax
        exact arithSwitch_of_float (by simpa using hmax)
    · exact absurd he (by simp)

/-- Operands that are not refused give a number, or a symbol other than the two errors. -/
theorem numberOrOther_of_no_error (he : op.error (typeOf a) (typeOf b) = none)
    (hres : op.helper fo a b h = some (v, h')) : NumberOrOther v := by
  obtain ⟨heq, hmax, hmod⟩ := helper_of_no_error fo h he
  rw [heq] at hres
  refine arithSwitch_numberOrOther (onlyDivzero_onI op) (onlyDivzero_onU op)
    (fun hf => ?_) hmax hres
  exact onlyDivzero_onF fun hop => hmod hop hf

/-! ## The fold -/

/-- The fold of `op` from `acc` comes to two operands that the helper refuses with the error `e`,
after steps that all gave a number. -/
inductive Refused (fo : FloatOps) (op : ArithOp) (e : VALUE) :
    VALUE → List VALUE → HeapState → Prop where
  | here {acc b : VALUE} {bs : List VALUE} {h : HeapState}
      (he : op.error (typeOf acc) (typeOf b) = some e) : Refused fo op e acc (b :: bs) h
  | later {acc b v : VALUE} {bs : List VALUE} {h h' : HeapState}
      (hstep : op.helper fo acc b h = some (v, h')) (hv : isNumber v = true)
      (hrest : Refused fo op e v bs h') : Refused fo op e acc (b :: bs) h

theorem Refused.foldArgs_eq {bs : List VALUE} (hr : Refused fo op e a bs h) :
    (∃ h', foldArgs (op.helper fo) bs a h = some (e, h'))
      ∧ (e = encSym symreprTerror ∨ e = encSym symreprEerror) := by
  induction hr with
  | @here acc b bs h he =>
    obtain ⟨hstep, hsym⟩ := helper_of_error fo h he
    refine ⟨⟨h, ?_⟩, hsym⟩
    have hty : typeOf e = valTypeSymbol := by
      rcases hsym with rfl | rfl <;> exact typeOf_encSym _
    rw [foldArgs, hstep]
    simp [hty]
  | @later acc b v bs h h' hstep hv _ ih =>
    obtain ⟨⟨h₁, hfold⟩, hsym⟩ := ih
    refine ⟨⟨h₁, ?_⟩, hsym⟩
    have hty : typeOf v ≠ valTypeSymbol := by
      intro ht
      rw [isNumber, ht] at hv
      exact absurd hv (by decide)
    rw [foldArgs, hstep]
    simp only [beq_iff_eq, if_neg hty]
    exact hfold

/-- A number is not one of the two errors, so only a refused step makes the fold return one. -/
theorem refused_of_foldArgs {bs : List VALUE} (hbs : bs ≠ [] ∨ isNumber a = true)
    (he : e = encSym symreprTerror ∨ e = encSym symreprEerror)
    (hfold : foldArgs (op.helper fo) bs a h = some (e, h')) : Refused fo op e a bs h := by
  induction bs generalizing a h with
  | nil =>
    have hnum : isNumber a = true := hbs.resolve_left (by simp)
    obtain ⟨rfl, -⟩ := Prod.mk.inj (Option.some.inj hfold)
    rcases he with rfl | rfl <;> exact absurd hnum (by decide)
  | cons b bs ih =>
    cases herr : op.error (typeOf a) (typeOf b) with
    | some e' =>
      have hhere : Refused fo op e' a (b :: bs) h := .here herr
      obtain ⟨⟨h₁, hfold'⟩, -⟩ := hhere.foldArgs_eq
      rw [hfold] at hfold'
      obtain ⟨rfl, -⟩ := Prod.mk.inj (Option.some.inj hfold')
      exact .here herr
    | none =>
      cases hstep : op.helper fo a b h with
      | none =>
        rw [foldArgs, hstep] at hfold
        exact absurd hfold (by simp)
      | some r =>
        obtain ⟨v, h₁⟩ := r
        rw [foldArgs, hstep] at hfold
        rcases numberOrOther_of_no_error herr hstep with hnum | ⟨hty, hterror, heerror⟩
        · have hty : ¬(typeOf v == valTypeSymbol) = true := by
            intro ht
            rw [beq_iff_eq.mp ht] at hnum
            exact absurd hnum (by decide)
          simp only [if_neg hty] at hfold
          exact .later hstep hnum (ih (Or.inr hnum) hfold)
        · simp only [hty, beq_self_eq_true, if_true] at hfold
          obtain ⟨rfl, -⟩ := Prod.mk.inj (Option.some.inj hfold)
          exact absurd he (by simp [hterror, heerror])

end

/-! ## A call -/

/-- The result is `type_error` or `eval_error`, and none of the operands. -/
def ReportsError (operands : List VALUE) (r : Option (VALUE × HeapState × SymbolTable)) : Prop :=
  ∃ e h' st', r = some (e, h', st') ∧ (e = encSym symreprTerror ∨ e = encSym symreprEerror)
    ∧ e ∉ operands

/-- The operands that make a call report an error: a lone operand of `-`, or a pair that the fold
comes to and the helper refuses. -/
def RefusedCall (fo : FloatOps) (op : ArithOp) (operands : List VALUE) (h : HeapState) : Prop :=
  match operands with
  | [] => False
  | [a] => op = .sub ∧ a ≠ encSym symreprTerror
  | a :: b :: bs => ∃ e, Refused fo op e a (b :: bs) h ∧ e ∉ a :: b :: bs

theorem negate_of_not_number {fo : FloatOps} {a : VALUE} (ha : isNumber a = false) (h : HeapState) :
    negate fo a h = (encSym symreprTerror, h) := by
  simp only [isNumber, Bool.or_eq_false_iff] at ha
  obtain ⟨⟨⟨⟨hi, hu⟩, hbi⟩, hbu⟩, hf⟩ := ha
  unfold negate
  simp only [hi, hu, hbi, hbu, hf, Bool.false_eq_true, if_false, ite_self]

/-- Arithmetic on operands that are not all numbers reports an error exactly when the call is
refused. -/
theorem reportsError_iff (fo : FloatOps) (op : ArithOp) (operands above : List VALUE) (nargs : UINT)
    (hn : nargs.toNat = operands.length) (hbad : ∃ a ∈ operands, isNumber a = false)
    (st : SymbolTable) (h : HeapState) :
    ReportsError operands (fundamentalExec fo (operands ++ above) nargs (encSym op.sym) st h)
      ↔ RefusedCall fo op operands h := by
  cases operands with
  | nil =>
    obtain ⟨a, ha, -⟩ := hbad
    exact absurd ha (by simp)
  | cons a bs =>
    rw [fundamentalExec_arith op a bs above hn st h]
    cases bs with
    | nil =>
      have ha : isNumber a = false := by simpa using hbad
      by_cases hop : op = .sub
      · subst hop
        rw [ArithOp.exec, negate_of_not_number ha, Option.map_some]
        constructor
        · rintro ⟨e, h', st', hres, -, hnew⟩
          obtain ⟨rfl, -⟩ := Prod.mk.inj (Option.some.inj hres)
          exact ⟨rfl, fun heq => hnew (by simp [heq])⟩
        · rintro ⟨-, hne⟩
          exact ⟨_, _, _, rfl, Or.inl rfl, by simpa using Ne.symm hne⟩
      · -- any other operation returns its only operand as it is
        have hexec : op.exec fo a [] h = some (a, h) := by
          cases op with
          | sub => exact absurd rfl hop
          | add => rfl
          | mul => rfl
          | div => rfl
          | mod => rfl
        rw [hexec, Option.map_some]
        constructor
        · rintro ⟨e, h', st', hres, -, hnew⟩
          obtain ⟨rfl, -⟩ := Prod.mk.inj (Option.some.inj hres)
          exact absurd List.mem_cons_self hnew
        · rintro ⟨hsub, -⟩
          exact absurd hsub hop
    | cons b bs =>
      have hexec : op.exec fo a (b :: bs) h = foldArgs (op.helper fo) (b :: bs) a h := by
        cases op <;> rfl
      rw [hexec]
      constructor
      · rintro ⟨e, h', st', hres, herr, hnew⟩
        obtain ⟨⟨e', h₁⟩, hfold, hres⟩ := Option.map_eq_some_iff.mp hres
        obtain ⟨rfl, -⟩ := Prod.mk.inj hres
        exact ⟨e', refused_of_foldArgs (Or.inl (by simp)) herr hfold, hnew⟩
      · rintro ⟨e, hrefused, hnew⟩
        obtain ⟨⟨h', hfold⟩, herr⟩ := hrefused.foldArgs_eq
        exact ⟨e, h', st, by rw [hfold, Option.map_some], herr, hnew⟩

/-- `(- 1 'a)` reports a type error. -/
theorem reportsError_sub_symbol :
    ReportsError [encI 1#32, encSym 0x1000#32]
      (fundamentalExec noFloats [encI 1#32, encSym 0x1000#32] 2#32 (encSym ArithOp.sub.sym)
        ⟨0#32, 0x1000#32⟩ boxedThreeHeap) := by
  refine (reportsError_iff noFloats .sub [encI 1#32, encSym 0x1000#32] [] 2#32 (by decide)
    ⟨encSym 0x1000#32, by decide, by decide⟩ _ boxedThreeHeap).mpr ?_
  refine ⟨encSym symreprTerror, .here (by decide), by decide⟩

/-- `(* 'a 2)` is zero. -/
theorem not_reportsError_mul_symbol :
    isNumber (encSym 0x1000#32) = false
      ∧ fundamentalExec noFloats [encSym 0x1000#32, encI 2#32] 2#32 (encSym ArithOp.mul.sym)
          ⟨0#32, 0x1000#32⟩ boxedThreeHeap
        = some (encI 0#32, boxedThreeHeap, ⟨0#32, 0x1000#32⟩)
      ∧ ¬ReportsError [encSym 0x1000#32, encI 2#32]
        (fundamentalExec noFloats [encSym 0x1000#32, encI 2#32] 2#32 (encSym ArithOp.mul.sym)
          ⟨0#32, 0x1000#32⟩ boxedThreeHeap) := by
  have hres : fundamentalExec noFloats [encSym 0x1000#32, encI 2#32] 2#32
      (encSym ArithOp.mul.sym) ⟨0#32, 0x1000#32⟩ boxedThreeHeap
        = some (encI 0#32, boxedThreeHeap, ⟨0#32, 0x1000#32⟩) := by
    rfl
  refine ⟨by decide, hres, ?_⟩
  rintro ⟨e, h', st', heq, herr, -⟩
  rw [hres] at heq
  obtain ⟨rfl, -⟩ := Prod.mk.inj (Option.some.inj heq)
  rcases herr with herr | herr <;> exact absurd herr (by decide)

end LispBM
