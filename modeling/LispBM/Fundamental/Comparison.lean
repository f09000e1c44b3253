import LispBM.Fundamental.Integers

/-!
# LispBM — comparison of integers

`compare` puts the operand of higher type first, converts the other one to that type and flips the
result back. Conversion to a signed type keeps the integer, because only `u32` goes beyond `2 ^ 31`.
Conversion to an unsigned type adds `2 ^ 32` to a negative one. So `<`, `>` and `num-eq` follow the
integers, except for a negative number beside an unsigned one of higher type that is not above what
the negative one is taken for: `(< 3u28 -1)` is `t`.
-/

namespace LispBM

/-! ## The three operations -/

/-- An integer number in the heap `h`: a value, its type and the integer it stands for. -/
structure IntNumber (h : HeapState) where
  val : VALUE
  type : IntType
  int : Int
  isInt : IntOf h [] val type int

inductive CompareOp where
  | numEq
  | lt
  | gt
deriving DecidableEq

namespace CompareOp

def sym : CompareOp → UINT
  | numEq => symNumeq
  | lt => symLt
  | gt => symGt

/-- The result of `compare` the operation asks for. -/
def res : CompareOp → Int
  | numEq => 0
  | lt => -1
  | gt => 1

/-- The relation of integers the operation is named after. -/
def onInt : CompareOp → Int → Int → Prop
  | numEq, x, y => x = y
  | lt, x, y => x < y
  | gt, x, y => x > y

/-- The operation yields `t`, whatever lies above its operands on the stack. -/
def Yields (fo : FloatOps) {h : HeapState} (op : CompareOp) (a b : IntNumber h) : Prop :=
  ∀ above st, fundamentalExec fo (a.val :: b.val :: above) 2#32 (encSym op.sym) st h
    = some (encSym symreprTrue, h, st)

theorem onInt_iff_sign (op : CompareOp) (x y : Int) : op.onInt x y ↔ Int.sign (x - y) = op.res := by
  cases op with
  | numEq =>
    show x = y ↔ Int.sign (x - y) = 0
    rw [Int.sign_eq_zero_iff_zero]
    omega
  | lt =>
    show x < y ↔ Int.sign (x - y) = -1
    rw [Int.sign_eq_neg_one_iff_neg]
    omega
  | gt =>
    show x > y ↔ Int.sign (x - y) = 1
    rw [Int.sign_eq_one_iff_pos]
    omega

end CompareOp

section

variable {fo : FloatOps} {h : HeapState} {l : List Nat} {a b v : VALUE}
  {t s : IntType} {x y z : Int}

theorem isNumber_of_intOf (hv : IntOf h l v t z) : isNumber v = true := by
  rw [isNumber, hv.type]
  cases t <;> decide

/-- `fundamental_exec` on the three operations. -/
theorem fundamentalExec_compare (op : CompareOp) (ha : isNumber a = true) (hb : isNumber b = true)
    (above : List VALUE) (st : SymbolTable) :
    fundamentalExec fo (a :: b :: above) 2#32 (encSym op.sym) st h
      = some (if compare fo h a b = op.res then encSym symreprTrue else encSym symreprNil, h,
        st) := by
  have hrest : restArgs (a :: b :: above) 2#32 = [b] := restArgs_operands a [b] above rfl
  have hexec : compareExec fo op.res (a :: b :: above) 2#32 h
      = if compare fo h a b = op.res then encSym symreprTrue else encSym symreprNil := by
    rw [compareExec, hrest, compareLoop, compareLoop]
    simp [ha, hb]
  rw [← hexec]
  cases op <;> rfl

theorem CompareOp.yields_iff (op : CompareOp) (a b : IntNumber h) :
    op.Yields fo a b ↔ compare fo h a.val b.val = op.res := by
  have hexec : ∀ above st, fundamentalExec fo (a.val :: b.val :: above) 2#32 (encSym op.sym) st h
      = some (if compare fo h a.val b.val = op.res then encSym symreprTrue else encSym symreprNil,
        h, st) :=
    fundamentalExec_compare op (isNumber_of_intOf a.isInt) (isNumber_of_intOf b.isInt)
  constructor
  · intro hyields
    by_contra hne
    have hres := (hexec [] ⟨0#32, 0#32⟩).symm.trans (hyields [] ⟨0#32, 0#32⟩)
    rw [if_neg hne] at hres
    have hnil : encSym symreprNil ≠ encSym symreprTrue := by decide
    exact hnil (congrArg Prod.fst (Option.some.inj hres))
  · intro heq above st
    rw [hexec, if_pos heq]

/-! ## What `compare` compares -/

/-- The integer that `z` is taken for in type `t`. -/
def IntType.seen (t : IntType) (z : Int) : Int := t.value (BitVec.ofInt 32 z)

theorem IntOf.seen_self (hv : IntOf h l v t z) : t.seen z = z := by
  rw [IntType.seen, ← hv.word_eq, hv.value]

theorem IntOf.ge (hv : IntOf h l v t z) : if t.signed then -(2 ^ 31) ≤ z else 0 ≤ z := by
  rw [← hv.value]
  cases t with
  | i28 => exact BitVec.le_toInt _
  | u28 => exact Int.natCast_nonneg _
  | i32 => exact BitVec.le_toInt _
  | u32 => exact Int.natCast_nonneg _

theorem IntOf.nonneg (hv : IntOf h l v t z) (ht : t.signed = false) : 0 ≤ z := by
  have hge := hv.ge
  rwa [ht, if_neg (by decide)] at hge

theorem IntOf.neg_two_pow_le (hv : IntOf h l v t z) : -(2 ^ 31) ≤ z := by
  have hge := hv.ge
  split at hge <;> omega

/-- A signed type sees the integers of the types below it as they are. -/
theorem IntOf.seen_signed (hv : IntOf h l v s z) (hts : ¬t.code < s.code) (ht : t.signed = true) :
    t.seen z = z := by
  have hs : s ≠ .u32 := by
    rintro rfl
    cases t <;> first | exact hts (by decide) | exact absurd ht (by decide)
  have hlt := hv.lt
  rw [if_neg hs] at hlt
  have hge := hv.neg_two_pow_le
  have hint : t.seen z = (BitVec.ofInt 32 z).toInt := by rw [IntType.seen, IntType.value, if_pos ht]
  rw [hint, BitVec.toInt_ofInt]
  exact Int.bmod_eq_of_le (by omega) (by omega)

/-- An unsigned type takes a negative integer for one near `2 ^ 32`. -/
theorem IntOf.seen_unsigned (hv : IntOf h l v s z) (ht : t.signed = false) :
    t.seen z = if z < 0 then z + 2 ^ 32 else z := by
  have hge := hv.neg_two_pow_le
  have hlt : z < 2 ^ 32 := lt_of_lt_of_le hv.lt (by split <;> decide)
  have hnat : t.seen z = ((BitVec.ofInt 32 z).toNat : Int) := by
    rw [IntType.seen, IntType.value, if_neg (by simp [ht])]
  rw [hnat, BitVec.toNat_ofInt, Int.toNat_of_nonneg (Int.emod_nonneg _ (by decide))]
  split <;> omega

/-- The comparison of two machine words read by `f`, with the result flipped back. -/
theorem cmp_eq_sign {lt : UINT → UINT → Bool} {f : UINT → Int}
    (hlt : ∀ a b, lt a b = decide (f a < f b)) (a b : UINT) (swapped : Bool) :
    cmp lt a b swapped = if swapped then Int.sign (f b - f a) else Int.sign (f a - f b) := by
  have hswap : Int.sign (f b - f a) = -Int.sign (f a - f b) := by rw [← Int.sign_neg, Int.neg_sub]
  have hres : (if lt b a then 1 else 0) - (if lt a b then 1 else 0) = Int.sign (f a - f b) := by
    rw [hlt, hlt]
    rcases Int.lt_trichotomy (f a) (f b) with hab | hab | hab
    · rw [Int.sign_eq_neg_one_of_neg (by omega)]
      simp [hab, show ¬f b < f a by omega]
    · simp [hab]
    · rw [Int.sign_eq_one_of_pos (by omega)]
      simp [hab, show ¬f a < f b by omega]
  show (if swapped = true then -((if lt b a then 1 else 0) - (if lt a b then 1 else 0) : Int)
    else (if lt b a then 1 else 0) - (if lt a b then 1 else 0)) = _
  rw [hres, hswap]

/-- The comparison in type `t`. -/
theorem cmp_signed (ht : t.signed = true) (w u : UINT) (swapped : Bool) :
    cmp (fun x y => x.slt y) w u swapped
      = if swapped then Int.sign (t.value u - t.value w) else Int.sign (t.value w - t.value u) := by
  apply cmp_eq_sign
  intro a b
  rw [IntType.value, IntType.value, if_pos ht, if_pos ht, BitVec.slt]

theorem cmp_unsigned (ht : t.signed = false) (w u : UINT) (swapped : Bool) :
    cmp (fun x y => x.ult y) w u swapped
      = if swapped then Int.sign (t.value u - t.value w) else Int.sign (t.value w - t.value u) := by
  apply cmp_eq_sign
  intro a b
  rw [IntType.value, IntType.value, if_neg (by simp [ht]), if_neg (by simp [ht]), BitVec.ult]
  simp

/-- The `switch` of `compare`, with the operand of higher type first. -/
theorem compare_switch (ha : IntOf h l a t x) (hb : IntOf h l b s y) (swapped : Bool) :
    (if valTypeChar < typeOf b then
      if typeOf a == valTypeI then cmp (fun x y => x.slt y) (decI a) (asI fo h b) swapped
      else if typeOf a == valTypeU then cmp (fun x y => x.ult y) (decU a) (asU fo h b) swapped
      else if typeOf a == ptrTypeBoxedU then
        cmp (fun x y => x.ult y) (car h a) (asU fo h b) swapped
      else if typeOf a == ptrTypeBoxedI then
        cmp (fun x y => x.slt y) (car h a) (asU fo h b) swapped
      else if typeOf a == ptrTypeBoxedF then cmp fo.lt (car h a) (fo.ofU (asF fo h b)) swapped
      else 1
    else 1)
      = if swapped then Int.sign (t.seen y - x) else Int.sign (x - t.seen y) := by
  have hnum : valTypeChar < typeOf b := by
    rw [hb.type]
    cases s <;> decide
  have hx : t.value (t.word h a) = x := ha.value
  rw [if_pos hnum, hb.asI_eq, hb.asU_eq, ha.type]
  cases t with
  | i28 => exact (cmp_signed (t := .i28) rfl (decI a) _ swapped).trans (by rw [← hx]; rfl)
  | u28 => exact (cmp_unsigned (t := .u28) rfl (decU a) _ swapped).trans (by rw [← hx]; rfl)
  | i32 => exact (cmp_signed (t := .i32) rfl (car h a) _ swapped).trans (by rw [← hx]; rfl)
  | u32 => exact (cmp_unsigned (t := .u32) rfl (car h a) _ swapped).trans (by rw [← hx]; rfl)

/-- **`compare` compares what the higher type sees.** -/
theorem compare_int (ha : IntOf h l a t x) (hb : IntOf h l b s y) :
    compare fo h a b = Int.sign ((t.higher s).seen x - (t.higher s).seen y) := by
  rw [compare, ha.type, hb.type, IntType.higher]
  by_cases hts : t.code < s.code
  · simp only [hts, decide_true, if_true]
    rw [hb.seen_self]
    exact compare_switch hb ha true
  · simp only [hts, decide_false, if_false, Bool.false_eq_true]
    rw [ha.seen_self]
    exact compare_switch ha hb false

end

/-! ## When the comparison follows the integers -/

namespace IntNumber

variable {h : HeapState}

/-- `b` is negative, and `a` of an unsigned type of higher rank is not above what it takes `b`
for. -/
def Misread (a b : IntNumber h) : Prop :=
  b.type.code < a.type.code ∧ a.type.signed = false ∧ b.int < 0 ∧ a.int ≤ b.int + 2 ^ 32

theorem code_lt_of_signs {t s : IntType} (ht : t.signed = false) (hs : s.signed = true)
    (hts : ¬t.code < s.code) : s.code < t.code := by
  cases t <;> cases s <;> first
    | exact absurd ht (by decide)
    | exact absurd hs (by decide)
    | exact absurd (by decide) hts
    | decide

/-- The signs in the type of `a`, the operand of higher type. -/
theorem sign_seen_iff {a b : IntNumber h} (hab : ¬a.type.code < b.type.code) :
    Int.sign (a.type.seen a.int - a.type.seen b.int) = Int.sign (a.int - b.int)
      ↔ ¬a.Misread b ∧ ¬b.Misread a := by
  have hnot : ¬b.Misread a := fun hm => hab hm.1
  rw [a.isInt.seen_self]
  cases ha : a.type.signed with
  | true =>
    have hsigned : ¬a.Misread b := by
      intro hm
      rw [hm.2.1] at ha
      exact absurd ha (by decide)
    rw [b.isInt.seen_signed hab ha]
    simp only [hsigned, hnot, not_false_eq_true, and_self]
  | false =>
    have hnonneg := a.isInt.nonneg ha
    rw [b.isInt.seen_unsigned ha]
    by_cases hneg : b.int < 0
    · have hb : b.type.signed = true := by
        by_contra hb
        have hge := b.isInt.nonneg (by simpa using hb)
        omega
      have hrank := code_lt_of_signs ha hb hab
      have hmis : a.Misread b ↔ a.int ≤ b.int + 2 ^ 32 := by
        rw [Misread]
        simp only [hrank, ha, hneg, true_and]
      rw [if_pos hneg, Int.sign_eq_one_of_pos (show 0 < a.int - b.int by omega),
        Int.sign_eq_one_iff_pos, hmis]
      simp only [hnot, not_false_eq_true, and_true]
      omega
    · have hpos : ¬a.Misread b := fun hm => hneg hm.2.2.1
      rw [if_neg hneg]
      simp only [hpos, hnot, not_false_eq_true, and_self]

theorem higher_comm (t s : IntType) : t.higher s = s.higher t := by
  cases t <;> cases s <;> rfl

/-- Two numbers are compared as integers unless one of them is misread. -/
theorem compare_eq_sign_iff (fo : FloatOps) (a b : IntNumber h) :
    compare fo h a.val b.val = Int.sign (a.int - b.int) ↔ ¬a.Misread b ∧ ¬b.Misread a := by
  rw [compare_int a.isInt b.isInt]
  by_cases hab : a.type.code < b.type.code
  · have hba : ¬b.type.code < a.type.code := by
      rw [BitVec.lt_def] at hab ⊢
      omega
    have hflip : ∀ x y : Int, Int.sign (x - y) = -Int.sign (y - x) := fun x y => by
      rw [← Int.sign_neg, Int.neg_sub]
    rw [higher_comm, higher_of_not_lt hba, hflip, hflip a.int, neg_inj, sign_seen_iff hba, and_comm]
  · rw [higher_of_not_lt hab, sign_seen_iff hab]

/-- The three operations answer as the integers do. -/
theorem follows_iff (fo : FloatOps) (a b : IntNumber h) :
    (∀ op : CompareOp, op.Yields fo a b ↔ op.onInt a.int b.int) ↔ ¬a.Misread b ∧ ¬b.Misread a := by
  rw [← compare_eq_sign_iff fo]
  constructor
  · intro hfollows
    rcases Int.lt_trichotomy a.int b.int with hlt | heq | hgt
    · rw [((CompareOp.yields_iff _ a b).mp ((hfollows .lt).mpr hlt)),
        Int.sign_eq_neg_one_of_neg (by omega)]
      rfl
    · rw [((CompareOp.yields_iff _ a b).mp ((hfollows .numEq).mpr heq)), heq, Int.sub_self]
      rfl
    · rw [((CompareOp.yields_iff _ a b).mp ((hfollows .gt).mpr hgt)),
        Int.sign_eq_one_of_pos (by omega)]
      rfl
  · intro hsign op
    rw [op.yields_iff, op.onInt_iff_sign, hsign]

end IntNumber

/-! ## The order on a set of numbers -/

/-- A relation that compares keys by `<` is a strict weak order. -/
theorem isStrictWeakOrder_of_key {α : Type} {r : α → α → Prop} {f : α → Int}
    (hr : ∀ a b, r a b ↔ f a < f b) : IsStrictWeakOrder α r where
  irrefl a := by
    rw [hr]
    exact lt_irrefl _
  trans a b c := by
    rw [hr, hr, hr]
    exact lt_trans
  incomp_trans a b c := by
    rw [hr, hr, hr, hr, hr, hr]
    omega

/-- On the numbers of `S` the operations follow the integers, exactly one of them holds of two
numbers, and `<` is a strict total preorder. -/
structure OrderedByValue (fo : FloatOps) {h : HeapState} (S : Set (IntNumber h)) : Prop where
  follows : ∀ a ∈ S, ∀ b ∈ S, ∀ op : CompareOp, op.Yields fo a b ↔ op.onInt a.int b.int
  exactlyOne : ∀ a ∈ S, ∀ b ∈ S, ∃! op : CompareOp, op.Yields fo a b
  preorder : IsStrictWeakOrder S fun a b => CompareOp.lt.Yields fo a.1 b.1

/-- **Comparison follows the integers exactly where no number is misread.** -/
theorem orderedByValue_iff (fo : FloatOps) {h : HeapState} (S : Set (IntNumber h)) :
    OrderedByValue fo S ↔ ∀ a ∈ S, ∀ b ∈ S, ¬a.Misread b := by
  constructor
  · intro hord a ha b hb
    exact ((IntNumber.follows_iff fo a b).mp (hord.follows a ha b hb)).1
  · intro hmis
    have hfollows : ∀ a ∈ S, ∀ b ∈ S, ∀ op : CompareOp, op.Yields fo a b ↔ op.onInt a.int b.int :=
      fun a ha b hb => (IntNumber.follows_iff fo a b).mpr ⟨hmis a ha b hb, hmis b hb a ha⟩
    refine ⟨hfollows, fun a ha b hb => ?_,
      isStrictWeakOrder_of_key (f := fun a => a.1.int) fun a b => hfollows a a.2 b b.2 .lt⟩
    have hsign : ∀ op : CompareOp, op.Yields fo a b ↔ Int.sign (a.int - b.int) = op.res :=
      fun op => (hfollows a ha b hb op).trans (op.onInt_iff_sign a.int b.int)
    have hunique : ∀ p q : CompareOp, p.res = q.res → p = q := by
      intro p q hpq
      cases p <;> cases q <;> first | rfl | exact absurd hpq (by decide)
    have hone : ∃ op : CompareOp, Int.sign (a.int - b.int) = op.res := by
      rcases Int.lt_trichotomy (a.int - b.int) 0 with hlt | heq | hgt
      · exact ⟨.lt, Int.sign_eq_neg_one_of_neg hlt⟩
      · exact ⟨.numEq, by rw [heq]; rfl⟩
      · exact ⟨.gt, Int.sign_eq_one_of_pos hgt⟩
    obtain ⟨op, hop⟩ := hone
    exact ⟨op, (hsign op).mpr hop, fun q hq => hunique q op (((hsign q).mp hq).symm.trans hop)⟩

/-- `3u28 < -1 < 2 < 3u28`. -/
theorem not_orderedByValue_cycle :
    ∃ three minusOne two : IntNumber boxedThreeHeap,
      (three.val = encU 3#32 ∧ minusOne.val = encI (-1#32) ∧ two.val = encI 2#32)
      ∧ CompareOp.lt.Yields noFloats three minusOne ∧ CompareOp.lt.Yields noFloats minusOne two
      ∧ CompareOp.lt.Yields noFloats two three
      ∧ ¬OrderedByValue noFloats (Set.univ : Set (IntNumber boxedThreeHeap)) := by
  let three : IntNumber boxedThreeHeap := ⟨encU 3#32, .u28, 3, by decide, by decide, by decide⟩
  let minusOne : IntNumber boxedThreeHeap :=
    ⟨encI (-1#32), .i28, -1, by decide, by decide, by decide⟩
  let two : IntNumber boxedThreeHeap := ⟨encI 2#32, .i28, 2, by decide, by decide, by decide⟩
  have hyields : CompareOp.lt.Yields noFloats three minusOne :=
    (CompareOp.yields_iff .lt three minusOne).mpr (by decide)
  refine ⟨three, minusOne, two, ⟨rfl, rfl, rfl⟩, hyields,
    (CompareOp.yields_iff .lt minusOne two).mpr (by decide),
    (CompareOp.yields_iff .lt two three).mpr (by decide), fun hord => ?_⟩
  have hlt : (3 : Int) < -1 :=
    (hord.follows three (Set.mem_univ _) minusOne (Set.mem_univ _) .lt).mp hyields
  exact absurd hlt (by decide)

end LispBM
