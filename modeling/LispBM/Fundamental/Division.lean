import LispBM.Fundamental.Comparison

/-!
# LispBM — the machine divisions behind `/` and `mod`

`div2` and `mod2` divide the operand of higher type by the other one, and look only whether the
divisor is zero. The quotient of `-2 ^ 31` by `-1` does not fit an `i32`, and the machine traps:
`/` and `mod` stop the program there. The 28-bit types are safe, because their words have room.
-/

namespace LispBM

/-- The dividend and the divisor `div2` and `mod2` take from two operands. -/
def divisionOperands (p q : IntType × Int) : Int × Int :=
  if p.1.code < q.1.code then (q.2, p.2) else (p.2, q.2)

/-- `/` or `mod` ends, and with `division_by_zero` where its divisor is zero. -/
structure DividesSafely (fo : FloatOps) (op : ArithOp) {h : HeapState} (a b : IntNumber h) :
    Prop where
  ends : (op.helper fo a.val b.val h).isSome
  zero : (divisionOperands (a.type, a.int) (b.type, b.int)).2 = 0 →
    op.helper fo a.val b.val h = some (encSym symreprDivzero, h)

/-- The quotient does not fit the type of the operands. -/
def QuotientOverflows (p q : IntType × Int) : Prop :=
  p.1.higher q.1 = .i32 ∧ divisionOperands p q = (-2 ^ 31, -1)

variable {fo : FloatOps} {op : ArithOp} {h : HeapState} {l : List Nat} {a b : VALUE} {t s : IntType}
  {x y : Int}

/-! ## The division of two machine words -/

/-- A machine word is zero exactly for the integer zero. -/
theorem IntOf.ofInt_eq_zero_iff (hb : IntOf h l b s y) : BitVec.ofInt 32 y = 0#32 ↔ y = 0 := by
  constructor
  · intro hzero
    rw [← hb.seen_self, IntType.seen, hzero]
    cases s <;> decide
  · intro hzero
    rw [hzero]
    decide

theorem IntOf.ofInt_eq_minusOne_iff (hb : IntOf h l b s y) (hts : ¬IntType.i32.code < s.code) :
    BitVec.ofInt 32 y = 0xFFFFFFFF#32 ↔ y = -1 := by
  constructor
  · intro hone
    rw [← hb.seen_signed hts rfl, IntType.seen, hone]
    decide
  · intro hone
    rw [hone]
    decide

theorem IntOf.ofInt_eq_min_iff (hb : IntOf h l b .i32 y) :
    BitVec.ofInt 32 y = 0x80000000#32 ↔ y = -2 ^ 31 := by
  constructor
  · intro hmin
    rw [← hb.seen_self, IntType.seen, hmin]
    decide
  · intro hmin
    rw [hmin]
    decide

theorem on_zero (hop : op.isDivision = true) (t : IntType) (w : UINT) :
    op.on t w 0#32 = .error (encSym symreprDivzero) := by
  cases op with
  | add => exact absurd hop (by decide)
  | sub => exact absurd hop (by decide)
  | mul => exact absurd hop (by decide)
  | div => cases t <;> rfl
  | mod => cases t <;> rfl

theorem on_signed (hop : op.isDivision = true) (ht : t.signed = true) :
    ∃ f, op.on t = divI f := by
  rw [ArithOp.on, if_pos ht]
  cases op with
  | add => exact absurd hop (by decide)
  | sub => exact absurd hop (by decide)
  | mul => exact absurd hop (by decide)
  | div => exact ⟨_, rfl⟩
  | mod => exact ⟨_, rfl⟩

theorem on_unsigned (hop : op.isDivision = true) (ht : t.signed = false) :
    ∃ f, op.on t = divU f := by
  rw [ArithOp.on, if_neg (by simp [ht])]
  cases op with
  | add => exact absurd hop (by decide)
  | sub => exact absurd hop (by decide)
  | mul => exact absurd hop (by decide)
  | div => exact ⟨_, rfl⟩
  | mod => exact ⟨_, rfl⟩

/-- The machine traps on one pair of words, in one type. -/
theorem on_eq_trap_iff (hop : op.isDivision = true) (ha : IntOf h l a t x) (hb : IntOf h l b s y)
    (hts : ¬t.code < s.code) :
    op.on t (BitVec.ofInt 32 x) (BitVec.ofInt 32 y) = .trap ↔ t = .i32 ∧ x = -2 ^ 31 ∧ y = -1 := by
  cases t with
  | i28 =>
    obtain ⟨f, hf⟩ := on_signed hop (t := .i28) rfl
    rw [hf, ← ha.word_eq]
    simp only [reduceCtorEq, false_and, iff_false]
    exact divI_decI_ne_trap f a _
  | i32 =>
    obtain ⟨f, hf⟩ := on_signed hop (t := .i32) rfl
    rw [hf, divI_eq_trap_iff, ha.ofInt_eq_min_iff, hb.ofInt_eq_minusOne_iff hts]
    simp only [true_and]
  | u28 =>
    obtain ⟨f, hf⟩ := on_unsigned hop (t := .u28) rfl
    rw [hf]
    simp only [reduceCtorEq, false_and, iff_false]
    exact divU_neverTraps f _ _
  | u32 =>
    obtain ⟨f, hf⟩ := on_unsigned hop (t := .u32) rfl
    rw [hf]
    simp only [reduceCtorEq, false_and, iff_false]
    exact divU_neverTraps f _ _

theorem on_eq_divzero_iff (hop : op.isDivision = true) (hb : IntOf h l b s y) (w : UINT) :
    op.on t w (BitVec.ofInt 32 y) = .error (encSym symreprDivzero) ↔ y = 0 := by
  rw [← hb.ofInt_eq_zero_iff]
  constructor
  · intro herr
    cases ht : t.signed with
    | true =>
      obtain ⟨f, hf⟩ := on_signed hop ht
      rw [hf, divI] at herr
      by_contra hne
      rw [if_neg hne] at herr
      split at herr <;> exact absurd herr (by simp)
    | false =>
      obtain ⟨f, hf⟩ := on_unsigned hop ht
      rw [hf, divU] at herr
      by_contra hne
      rw [if_neg hne] at herr
      exact absurd herr (by simp)
  · intro hzero
    rw [hzero]
    exact on_zero hop t w

/-! ## `div2` and `mod2` -/

/-- The helper divides the words of the operand of higher type and of the other one. -/
theorem helper_division (fo : FloatOps) (op : ArithOp) (ha : IntOf h l a t x)
    (hb : IntOf h l b s y) :
    op.helper fo a b h
      = if t.code < s.code then (op.on s (BitVec.ofInt 32 y) (BitVec.ofInt 32 x)).enc s.enc h
        else (op.on t (BitVec.ofInt 32 x) (BitVec.ofInt 32 y)).enc t.enc h := by
  have herr : op.error (typeOf a) (typeOf b) = none := by
    rw [ha.type, hb.type]
    exact error_code op t s
  rw [(helper_of_no_error fo h herr).1, byType, ha.type, hb.type]
  by_cases hts : t.code < s.code
  · rw [if_pos hts, if_pos hts, arithSwitch_int ha hb]
  · rw [if_neg hts, if_neg hts, arithSwitch_int hb ha]

/-- The result of an error is the error. -/
theorem enc_divzero (hop : op.isDivision = true) (hb : IntOf h l b s y) (w : UINT) (hy : y = 0) :
    (op.on t w (BitVec.ofInt 32 y)).enc t.enc h = some (encSym symreprDivzero, h) := by
  rw [(on_eq_divzero_iff hop hb w).mpr hy]
  rfl

theorem IntNumber.helper_isSome_iff (fo : FloatOps) (hop : op.isDivision = true)
    (a b : IntNumber h) : (op.helper fo a.val b.val h).isSome
      ↔ ¬QuotientOverflows (a.type, a.int) (b.type, b.int) := by
  rw [helper_division fo op a.isInt b.isInt, QuotientOverflows, divisionOperands, IntType.higher]
  by_cases hts : a.type.code < b.type.code
  · have hst : ¬b.type.code < a.type.code := by
      rw [BitVec.lt_def] at hts ⊢
      omega
    simp only [if_pos hts]
    rw [ArithRes.enc_isSome_iff, Ne, on_eq_trap_iff hop b.isInt a.isInt hst, Prod.mk.injEq]
  · simp only [if_neg hts]
    rw [ArithRes.enc_isSome_iff, Ne, on_eq_trap_iff hop a.isInt b.isInt hts, Prod.mk.injEq]

theorem IntNumber.helper_of_divisor_zero (fo : FloatOps) (hop : op.isDivision = true)
    (a b : IntNumber h) (hzero : (divisionOperands (a.type, a.int) (b.type, b.int)).2 = 0) :
    op.helper fo a.val b.val h = some (encSym symreprDivzero, h) := by
  rw [divisionOperands] at hzero
  rw [helper_division fo op a.isInt b.isInt]
  by_cases hts : a.type.code < b.type.code
  · rw [if_pos hts] at hzero ⊢
    exact enc_divzero hop a.isInt _ hzero
  · rw [if_neg hts] at hzero ⊢
    exact enc_divzero hop b.isInt _ hzero

/-- Zero divided by another number, and its remainder, are zero. -/
theorem on_zero_dividend (hop : op.isDivision = true) (t : IntType) {u : UINT} (hu : u ≠ 0#32) :
    op.on t 0#32 u = .word 0#32 := by
  have hmin : ¬(0#32 = 0x80000000#32 ∧ u = 0xFFFFFFFF#32) := fun h => absurd h.1 (by decide)
  cases ht : t.signed with
  | true =>
    rw [ArithOp.on, if_pos ht]
    cases op with
    | add => exact absurd hop (by decide)
    | sub => exact absurd hop (by decide)
    | mul => exact absurd hop (by decide)
    | div => rw [ArithOp.onI, divI, if_neg hu, if_neg hmin, BitVec.zero_sdiv]
    | mod => rw [ArithOp.onI, divI, if_neg hu, if_neg hmin, BitVec.zero_srem]
  | false =>
    rw [ArithOp.on, if_neg (by simp [ht])]
    cases op with
    | add => exact absurd hop (by decide)
    | sub => exact absurd hop (by decide)
    | mul => exact absurd hop (by decide)
    | div => rw [ArithOp.onU, divU, if_neg hu, BitVec.udiv_eq, BitVec.zero_udiv]
    | mod => rw [ArithOp.onU, divU, if_neg hu, BitVec.umod_eq, BitVec.zero_umod]

/-- The second operand is not the divisor when it is of higher type. -/
theorem IntNumber.helper_second_zero (fo : FloatOps) (hop : op.isDivision = true)
    (a b : IntNumber h) (hb : b.int = 0) :
    op.helper fo a.val b.val h
      = if a.type.code < b.type.code ∧ a.int ≠ 0 then some (b.type.enc 0#32 h)
        else some (encSym symreprDivzero, h) := by
  have hzero : BitVec.ofInt 32 b.int = 0#32 := b.isInt.ofInt_eq_zero_iff.mpr hb
  rw [helper_division fo op a.isInt b.isInt]
  by_cases hts : a.type.code < b.type.code
  · rw [if_pos hts]
    by_cases ha : a.int = 0
    · rw [if_neg fun h => h.2 ha]
      exact enc_divzero hop a.isInt _ ha
    · have hne : BitVec.ofInt 32 a.int ≠ 0#32 := fun h => ha (a.isInt.ofInt_eq_zero_iff.mp h)
      rw [if_pos ⟨hts, ha⟩, hzero, on_zero_dividend hop _ hne]
      rfl
  · rw [if_neg hts, if_neg fun h => hts h.1]
    exact enc_divzero hop b.isInt _ hb

/-! ## When division is safe -/

/-- **Division is safe exactly when the quotient fits.** A zero as second operand gives
`division_by_zero` unless it is of higher type: then it is divided by the first one. -/
theorem dividesSafely_iff (fo : FloatOps) (hop : op.isDivision = true) (a b : IntNumber h) :
    (DividesSafely fo op a b ↔ ¬QuotientOverflows (a.type, a.int) (b.type, b.int))
      ∧ (b.int = 0 → op.helper fo a.val b.val h
          = if a.type.code < b.type.code ∧ a.int ≠ 0 then some (b.type.enc 0#32 h)
            else some (encSym symreprDivzero, h)) := by
  refine ⟨?_, IntNumber.helper_second_zero fo hop a b⟩
  rw [← IntNumber.helper_isSome_iff fo hop]
  constructor
  · exact fun hsafe => hsafe.ends
  · exact fun hends => ⟨hends, IntNumber.helper_of_divisor_zero fo hop a b⟩

/-- `7u28`. -/
def seven : IntNumber boxedThreeHeap := ⟨encU 7#32, .u28, 7, by decide, by decide, by decide⟩

/-- `-1`. -/
def minusOne : IntNumber boxedThreeHeap := ⟨encI (-1#32), .i28, -1, by decide, by decide, by decide⟩

theorem dividesSafely_seven : ArithOp.isDivision .mod = true
    ∧ DividesSafely noFloats .mod seven minusOne := by
  refine ⟨rfl, (dividesSafely_iff noFloats rfl seven minusOne).1.mpr fun hover => ?_⟩
  exact absurd hover.1 (by decide)

/-- The heap of the program `(* 65536i32 -32768)` after its literal was read. -/
def minQuotientHeap : HeapState :=
  (encBoxedI 0x10000#32 (heapInit 3 [⟨0#32, 0#32⟩, ⟨0#32, 0#32⟩, ⟨0#32, 0#32⟩] noMemory)).2

/-- `(/ (* 65536i32 -32768) -1)` traps. -/
theorem not_dividesSafely_min :
    ∃ (h : HeapState) (a b : IntNumber h),
      fundamentalExec noFloats [setPtrType (cellPtr 0) ptrTypeBoxedI, encI (-32768#32)] 2#32
          (encSym symMul) ⟨0#32, 0x1000#32⟩ minQuotientHeap = some (a.val, h, ⟨0#32, 0x1000#32⟩)
        ∧ b.val = encI (-1#32)
        ∧ fundamentalExec noFloats [a.val, b.val] 2#32 (encSym symDiv) ⟨0#32, 0x1000#32⟩ h = none
        ∧ ¬DividesSafely noFloats .div a b := by
  have hmul : fundamentalExec noFloats [setPtrType (cellPtr 0) ptrTypeBoxedI, encI (-32768#32)] 2#32
      (encSym symMul) ⟨0#32, 0x1000#32⟩ minQuotientHeap
      = some (setPtrType (cellPtr 1) ptrTypeBoxedI, (encBoxedI 0x80000000#32 minQuotientHeap).2,
        ⟨0#32, 0x1000#32⟩) := by rfl
  refine ⟨(encBoxedI 0x80000000#32 minQuotientHeap).2,
    ⟨setPtrType (cellPtr 1) ptrTypeBoxedI, .i32, -2 ^ 31, by decide, by decide, by decide⟩,
    ⟨encI (-1#32), .i28, -1, by decide, by decide, by decide⟩, hmul, rfl, by rfl, fun hsafe => ?_⟩
  exact absurd hsafe.ends (by decide)

end LispBM
