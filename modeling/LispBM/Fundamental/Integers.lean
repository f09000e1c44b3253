import LispBM.Fundamental.Arithmetic
import LispBM.Heap.Lists
import LispBM.Heap.Run

/-!
# LispBM — integer arithmetic

The four integer types in the order of their codes, `i28 < u28 < i32 < u32`. An operation on two
integers computes modulo a power of two in the type of higher rank. The helpers put the operand of
higher type first: `(- a b)` with `b` of higher rank than `a` is `b - a`, and so for `/` and `mod`.
-/

namespace LispBM

inductive IntType where
  | i28
  | u28
  | i32
  | u32
  deriving DecidableEq

namespace IntType

/-- The type code of the values of the type. -/
def code : IntType → TYPE
  | i28 => valTypeI
  | u28 => valTypeU
  | i32 => ptrTypeBoxedI
  | u32 => ptrTypeBoxedU

def signed : IntType → Bool
  | i28 | i32 => true
  | u28 | u32 => false

def boxed : IntType → Bool
  | i28 | u28 => false
  | i32 | u32 => true

/-- The cells a value of the type takes. -/
def cells (t : IntType) : Nat := if t.boxed then 1 else 0

/-- The machine word in a value of the type. -/
def word (t : IntType) (h : HeapState) (v : VALUE) : UINT :=
  match t with
  | i28 => decI v
  | u28 => decU v
  | i32 | u32 => car h v

/-- The integer a machine word stands for. -/
def value (t : IntType) (w : UINT) : Int := if t.signed then w.toInt else w.toNat

/-- Reduction modulo `2 ^ 28` or `2 ^ 32` into the range of the type. -/
def wrap : IntType → Int → Int
  | i28, z => z.bmod (2 ^ 28)
  | u28, z => z % 2 ^ 28
  | i32, z => z.bmod (2 ^ 32)
  | u32, z => z % 2 ^ 32

/-- The encoding of a machine word: `enc_i`, `enc_u`, `enc_I` and `enc_U`. -/
def enc : IntType → UINT → HeapState → VALUE × HeapState
  | i28, w, h => (encI w, h)
  | u28, w, h => (encU w, h)
  | i32, w, h => encBoxedI w h
  | u32, w, h => encBoxedU w h

/-- The higher-ranked of two types. -/
def higher (t s : IntType) : IntType := if t.code < s.code then s else t

end IntType

/-- `v` is a value of type `t` for the integer `z`, and its cell is not among the free cells `l`. -/
structure IntOf (h : HeapState) (l : List Nat) (v : VALUE) (t : IntType) (z : Int) : Prop where
  type : typeOf v = t.code
  value : t.value (t.word h v) = z
  used : t.boxed = true → ptrIx v ∉ l

/-! ## Words and integers -/

theorem toInt_decI_encI (w : UINT) : (decI (encI w)).toInt = (w.toNat : Int).bmod (2 ^ 28) := by
  have hext : decI (encI w) = (w.setWidth 28).signExtend 32 := by
    ext i hi
    simp only [decI, encI, valTypeI]
    rw [BitVec.getElem_sshiftRight, BitVec.getElem_signExtend]
    interval_cases i <;> simp [BitVec.msb, BitVec.getMsbD]
  rw [hext, BitVec.toInt_signExtend_of_le (by decide), BitVec.toInt_setWidth]

theorem toNat_decU_encU (w : UINT) : (decU (encU w)).toNat = w.toNat % 2 ^ 28 := by
  have hext : decU (encU w) = (w.setWidth 28).setWidth 32 := by
    ext i hi
    simp only [decU, encU, valTypeU]
    interval_cases i <;> simp
  rw [hext, BitVec.toNat_setWidth, BitVec.toNat_setWidth]
  omega

namespace IntType

theorem ofInt_value (t : IntType) (w : UINT) : BitVec.ofInt 32 (t.value w) = w := by
  rw [value]
  split
  · exact BitVec.ofInt_toInt
  · simp

theorem value_decI_encI (z : Int) : i28.value (decI (encI (BitVec.ofInt 32 z))) = i28.wrap z := by
  show (decI (encI (BitVec.ofInt 32 z))).toInt = z.bmod (2 ^ 28)
  rw [toInt_decI_encI, BitVec.toNat_ofInt]
  have hpos : 0 ≤ z % ((2 ^ 32 : Nat) : Int) := Int.emod_nonneg _ (by decide)
  rw [Int.toNat_of_nonneg hpos, ← Int.emod_bmod, Int.emod_emod_of_dvd _ (by decide), Int.emod_bmod]

theorem value_decU_encU (z : Int) : u28.value (decU (encU (BitVec.ofInt 32 z))) = u28.wrap z := by
  show ((decU (encU (BitVec.ofInt 32 z))).toNat : Int) = z % 2 ^ 28
  rw [toNat_decU_encU, BitVec.toNat_ofInt]
  have hpos : 0 ≤ z % ((2 ^ 32 : Nat) : Int) := Int.emod_nonneg _ (by decide)
  rw [Int.natCast_emod, Int.toNat_of_nonneg hpos]
  exact Int.emod_emod_of_dvd z (by decide)

theorem value_i32 (z : Int) : i32.value (BitVec.ofInt 32 z) = i32.wrap z := BitVec.toInt_ofInt z

theorem value_u32 (z : Int) : u32.value (BitVec.ofInt 32 z) = u32.wrap z := by
  show ((BitVec.ofInt 32 z).toNat : Int) = z % 2 ^ 32
  have hpos : 0 ≤ z % ((2 ^ 32 : Nat) : Int) := Int.emod_nonneg _ (by decide)
  rw [BitVec.toNat_ofInt, Int.toNat_of_nonneg hpos]
  rfl

end IntType

section

variable {fo : FloatOps} {h h' : HeapState} {l l' : List Nat} {v a b : VALUE} {t s : IntType}
  {x y z : Int}

/-! ## Reading operands -/

theorem isPtr_of_boxed (hv : typeOf v = t.code) (hb : t.boxed = true) : isPtr v = true := by
  by_contra hp
  have hlow : v &&& valTypeMask = t.code := by simpa [typeOf, hp] using hv
  have hbit := congrArg (fun w : VALUE => w[29]) hlow
  cases t with
  | i28 => exact absurd hb (by decide)
  | u28 => exact absurd hb (by decide)
  | i32 => simp [valTypeMask, IntType.code, ptrTypeBoxedI] at hbit
  | u32 => simp [valTypeMask, IntType.code, ptrTypeBoxedU] at hbit

theorem IntOf.word_eq (hv : IntOf h l v t z) : t.word h v = BitVec.ofInt 32 z := by
  rw [← hv.value, t.ofInt_value]

/-- `as_i` and `as_u` read the machine word of an integer, whatever its type. -/
theorem IntOf.asI_eq (hv : IntOf h l v t z) : asI fo h v = BitVec.ofInt 32 z := by
  rw [← hv.word_eq]
  unfold asI
  rw [hv.type]
  cases t <;> rfl

theorem IntOf.asU_eq (hv : IntOf h l v t z) : asU fo h v = BitVec.ofInt 32 z := by
  rw [← hv.word_eq]
  unfold asU
  rw [hv.type]
  cases t <;> rfl

/-! ## The heap from step to step -/

/-- At most `n` cells were taken from the free list. -/
structure TakesCells (h : HeapState) (l : List Nat) (h' : HeapState) (l' : List Nat) (n : Nat) :
    Prop where
  free : FreeList h' l'
  suffix : l' <:+ l
  count : l.length ≤ l'.length + n
  kept : ∀ j, j ∉ l → h'.cell j = h.cell j

theorem TakesCells.refl (hl : FreeList h l) : TakesCells h l h l 0 :=
  ⟨hl, List.suffix_refl l, le_refl _, fun _ _ => rfl⟩

/-- An integer is still the same after an allocation. -/
theorem IntOf.takes (hv : IntOf h l v t z) {n : Nat} (ht : TakesCells h l h' l' n) :
    IntOf h' l' v t z := by
  refine ⟨hv.type, ?_, fun hb hmem => hv.used hb (ht.suffix.subset hmem)⟩
  rw [← hv.value]
  congr 1
  have hcar : t.boxed = true → car h' v = car h v := by
    intro hb
    have hp := isPtr_of_boxed hv.type hb
    rw [car_of_isPtr hp, car_of_isPtr hp, ht.kept _ (hv.used hb)]
  cases t with
  | i28 => rfl
  | u28 => rfl
  | i32 => exact hcar rfl
  | u32 => exact hcar rfl

/-- A boxed word is in a fresh cell. -/
theorem encBoxed_of_freeList {i : Nat} (hl : FreeList h (i :: l)) {k : CellKind}
    (sy w : UINT) : ∃ h', encBoxed sy k.ptrType w h = (setPtrType (cellPtr i) k.ptrType, h')
      ∧ TakesCells h (i :: l) h' l 1 ∧ i ∉ l
      ∧ typeOf (setPtrType (cellPtr i) k.ptrType) = k.ptrType
      ∧ ptrIx (setPtrType (cellPtr i) k.ptrType) = i
      ∧ car h' (setPtrType (cellPtr i) k.ptrType) = w := by
  obtain ⟨h', hc⟩ := hl.conses w (encSym sy)
  have hmask : k.ptrType &&& ptrTypeMask = k.ptrType := by cases k <;> decide
  have hp := ptrWord_setPtrType (cellPtr i) hmask
  have hne : (typeOf (cellPtr i) == valTypeSymbol) = false := by
    rw [hc.type]
    decide
  refine ⟨h', ?_, ⟨hc.free, List.suffix_cons i l, by simp, hc.kept⟩, hc.fresh, hp.typeOf, ?_, ?_⟩
  · rw [encBoxed, hc.eq]
    simp only [hne, Bool.false_eq_true, if_false]
  · rw [hp.ptrIx, hc.ix]
  · rw [car_of_isPtr hp.isPtr, hp.ptrIx, ← car_of_isPtr (isPtr_cellPtr i), hc.car]

/-- Encoding a machine word reduces the integer it was computed from. -/
theorem intOf_enc (t : IntType) (z : Int) (hl : FreeList h l) (hcells : t.cells ≤ l.length) :
    ∃ v h' l', t.enc (BitVec.ofInt 32 z) h = (v, h') ∧ TakesCells h l h' l' t.cells
      ∧ IntOf h' l' v t (t.wrap z) := by
  cases t with
  | i28 =>
    exact ⟨_, h, l, rfl, .refl hl, typeOf_shift _ (by decide), IntType.value_decI_encI z,
      fun hb => absurd hb (by decide)⟩
  | u28 =>
    exact ⟨_, h, l, rfl, .refl hl, typeOf_shift _ (by decide), IntType.value_decU_encU z,
      fun hb => absurd hb (by decide)⟩
  | i32 =>
    obtain ⟨i, l, rfl⟩ := List.exists_cons_of_length_pos (show 0 < l.length from hcells)
    obtain ⟨h', heq, htakes, hfresh, hty, hix, hcar⟩ :=
      @encBoxed_of_freeList h l i hl .boxedI defReprBoxedIType (BitVec.ofInt 32 z)
    refine ⟨_, h', l, heq, htakes, hty, ?_, fun _ => by rwa [hix]⟩
    show IntType.i32.value (car h' _) = _
    rw [hcar]
    exact IntType.value_i32 z
  | u32 =>
    obtain ⟨i, l, rfl⟩ := List.exists_cons_of_length_pos (show 0 < l.length from hcells)
    obtain ⟨h', heq, htakes, hfresh, hty, hix, hcar⟩ :=
      @encBoxed_of_freeList h l i hl .boxedU defReprBoxedUType (BitVec.ofInt 32 z)
    refine ⟨_, h', l, heq, htakes, hty, ?_, fun _ => by rwa [hix]⟩
    show IntType.u32.value (car h' _) = _
    rw [hcar]
    exact IntType.value_u32 z

/-! ## One operation -/

/-- The operation on integers. -/
def ArithOp.onInt : ArithOp → Int → Int → Int
  | add, x, y => x + y
  | sub, x, y => x - y
  | mul, x, y => x * y
  | div, x, y => x / y
  | mod, x, y => x % y

def ArithOp.isDivision : ArithOp → Bool
  | div | mod => true
  | add | sub | mul => false

/-- The operation on machine words of a type. -/
def ArithOp.on (op : ArithOp) (t : IntType) : UINT → UINT → ArithRes :=
  if t.signed then op.onI else op.onU

theorem arithSwitch_int {op : ArithOp} (hmin : IntOf h l a s y) (hmax : IntOf h l b t x) :
    arithSwitch fo op.onI op.onU (op.onF fo) (op.asBI fo) a b h
      = (op.on t (BitVec.ofInt 32 x) (BitVec.ofInt 32 y)).enc t.enc h := by
  rw [← hmax.word_eq]
  cases t with
  | i28 =>
    rw [arithSwitch_of_i28 hmax.type, hmin.asI_eq]
    rfl
  | u28 =>
    rw [arithSwitch_of_u28 hmax.type, hmin.asU_eq]
    rfl
  | i32 =>
    have hbi : op.asBI fo h a = BitVec.ofInt 32 y := by
      cases op with
      | sub => exact hmin.asU_eq
      | add => exact hmin.asI_eq
      | mul => exact hmin.asI_eq
      | div => exact hmin.asI_eq
      | mod => exact hmin.asI_eq
    rw [arithSwitch_of_i32 hmax.type, hbi]
    rfl
  | u32 =>
    rw [arithSwitch_of_u32 hmax.type, hmin.asU_eq]
    rfl

/-- Only integers of type `u32` go beyond `2 ^ 31`. -/
theorem IntOf.lt (hv : IntOf h l v t z) : z < if t = .u32 then 2 ^ 32 else 2 ^ 31 := by
  rw [← hv.value]
  cases t with
  | i28 => exact BitVec.toInt_lt
  | u28 =>
    show ((v >>> 4).toNat : Int) < 2 ^ 31
    rw [BitVec.toNat_ushiftRight, Nat.shiftRight_eq_div_pow]
    have := v.isLt
    omega
  | i32 => exact BitVec.toInt_lt
  | u32 =>
    show ((car h v).toNat : Int) < 2 ^ 32
    have := (car h v).isLt
    omega

theorem toNat_ofInt_natCast {n : Nat} (hn : n < 2 ^ 32) :
    (BitVec.ofInt 32 (n : Int)).toNat = n := by
  rw [BitVec.ofInt_natCast, BitVec.toNat_ofNat, Nat.mod_eq_of_lt hn]

/-- On non-negative integers in range, with a divisor that is not zero, the machine's divisions are
those of the integers. -/
theorem onU_division {op : ArithOp} (hop : op.isDivision = true) (hx : 0 ≤ x) (hxlt : x < 2 ^ 32)
    (hy : 0 < y) (hylt : y < 2 ^ 32) : op.onU (BitVec.ofInt 32 x) (BitVec.ofInt 32 y)
      = .word (BitVec.ofInt 32 (op.onInt x y)) := by
  lift x to Nat using hx
  lift y to Nat using hy.le
  have hx : (BitVec.ofInt 32 x).toNat = x := toNat_ofInt_natCast (by omega)
  have hy : (BitVec.ofInt 32 y).toNat = y := toNat_ofInt_natCast (by omega)
  have hne : BitVec.ofInt 32 (y : Int) ≠ 0#32 := by
    intro heq
    rw [heq] at hy
    simp at hy
    omega
  have hdiv : x / y ≤ x := Nat.div_le_self x y
  have hmod : x % y ≤ x := Nat.mod_le x y
  cases op with
  | add => exact absurd hop (by decide)
  | sub => exact absurd hop (by decide)
  | mul => exact absurd hop (by decide)
  | div =>
    rw [ArithOp.onU, divU, if_neg hne]
    congr 1
    apply BitVec.eq_of_toNat_eq
    rw [BitVec.udiv_eq, BitVec.toNat_udiv, hx, hy]
    exact (toNat_ofInt_natCast (n := x / y) (by omega)).symm
  | mod =>
    rw [ArithOp.onU, divU, if_neg hne]
    congr 1
    apply BitVec.eq_of_toNat_eq
    rw [BitVec.umod_eq, BitVec.toNat_umod, hx, hy]
    exact (toNat_ofInt_natCast (n := x % y) (by omega)).symm

/-- Below `2 ^ 31` the signed divisions are the unsigned ones. -/
theorem onI_division {op : ArithOp} (hop : op.isDivision = true) (hx : 0 ≤ x) (hxlt : x < 2 ^ 31)
    (hy : 0 < y) (hylt : y < 2 ^ 31) : op.onI (BitVec.ofInt 32 x) (BitVec.ofInt 32 y)
      = .word (BitVec.ofInt 32 (op.onInt x y)) := by
  rw [← onU_division hop hx (by omega) hy (by omega)]
  lift x to Nat using hx
  lift y to Nat using hy.le
  have hxmsb : (BitVec.ofInt 32 (x : Int)).msb = false := by
    rw [BitVec.msb_eq_false_iff_two_mul_lt, toNat_ofInt_natCast (by omega)]
    omega
  have hymsb : (BitVec.ofInt 32 (y : Int)).msb = false := by
    rw [BitVec.msb_eq_false_iff_two_mul_lt, toNat_ofInt_natCast (by omega)]
    omega
  have hfits : ¬(BitVec.ofInt 32 (x : Int) = 0x80000000#32
      ∧ BitVec.ofInt 32 (y : Int) = 0xFFFFFFFF#32) := by
    rintro ⟨-, heq⟩
    rw [heq] at hymsb
    exact absurd hymsb (by decide)
  cases op with
  | add => exact absurd hop (by decide)
  | sub => exact absurd hop (by decide)
  | mul => exact absurd hop (by decide)
  | div =>
    simp only [ArithOp.onI, ArithOp.onU, divI, divU, if_neg hfits, BitVec.sdiv_eq, hxmsb, hymsb]
  | mod =>
    simp only [ArithOp.onI, ArithOp.onU, divI, divU, if_neg hfits, BitVec.srem_eq,
      BitVec.umod_eq, hxmsb,
      hymsb]

/-- In the type of the larger operand, an operation on machine words is the one on integers. -/
theorem on_ofInt {op : ArithOp} (hmin : IntOf h l a s y) (hmax : IntOf h l b t x)
    (hts : ¬t.code < s.code) (hdiv : op.isDivision = true → 0 ≤ x ∧ 0 < y) :
    op.on t (BitVec.ofInt 32 x) (BitVec.ofInt 32 y) = .word (BitVec.ofInt 32 (op.onInt x y)) := by
  cases hop : op.isDivision with
  | false =>
    have hadd : BitVec.ofInt 32 (x + y) = BitVec.ofInt 32 x + BitVec.ofInt 32 y :=
      BitVec.ofInt_add x y
    have hsub : BitVec.ofInt 32 (x - y) = BitVec.ofInt 32 x - BitVec.ofInt 32 y :=
      by rw [Int.sub_eq_add_neg, BitVec.ofInt_add, BitVec.ofInt_neg, BitVec.sub_eq_add_neg]
    have hmul : BitVec.ofInt 32 (x * y) = BitVec.ofInt 32 x * BitVec.ofInt 32 y :=
      BitVec.ofInt_mul x y
    rw [ArithOp.on]
    cases op with
    | add => rw [ArithOp.onInt, hadd]; split <;> rfl
    | sub => rw [ArithOp.onInt, hsub]; split <;> rfl
    | mul => rw [ArithOp.onInt, hmul]; split <;> rfl
    | div => exact absurd hop (by decide)
    | mod => exact absurd hop (by decide)
  | true =>
    obtain ⟨hx, hy⟩ := hdiv hop
    have hxlt := hmax.lt
    have hylt := hmin.lt
    rw [ArithOp.on]
    cases ht : t.signed with
    | false =>
      refine onU_division hop hx (lt_of_lt_of_le hxlt ?_) hy (lt_of_lt_of_le hylt ?_) <;>
        split <;> decide
    | true =>
      -- a signed type does not rank above `u32`
      have ht32 : t ≠ .u32 := by
        rintro rfl
        exact absurd ht (by decide)
      have hs32 : s ≠ .u32 := by
        rintro rfl
        cases t <;> first | exact hts (by decide) | exact absurd ht (by decide)
      rw [if_neg ht32] at hxlt
      rw [if_neg hs32] at hylt
      exact onI_division hop hx hxlt hy hylt

/-- What the helper of an operation computes from `p` and `q`: the operand of higher type comes
first. -/
def ArithOp.codeStep (op : ArithOp) (p q : IntType × Int) : IntType × Int :=
  (p.1.higher q.1, (p.1.higher q.1).wrap
    (if p.1.code < q.1.code then op.onInt q.2 p.2 else op.onInt p.2 q.2))

theorem ArithRes.enc_word (w : UINT) (e : UINT → HeapState → VALUE × HeapState) (h : HeapState) :
    (ArithRes.word w).enc e h = some (e w h) := rfl

theorem error_code (op : ArithOp) (t s : IntType) : op.error t.code s.code = none := by
  cases op <;> cases t <;> cases s <;> decide

theorem helper_int (fo : FloatOps) (op : ArithOp) (ha : IntOf h l a t x) (hb : IntOf h l b s y)
    (hl : FreeList h l) (hcells : (t.higher s).cells ≤ l.length)
    (hdiv : op.isDivision = true → 0 ≤ x ∧ 0 ≤ y ∧ 0 < if t.code < s.code then x else y) :
    ∃ v h' l', op.helper fo a b h = some (v, h') ∧ TakesCells h l h' l' (t.higher s).cells
      ∧ IntOf h' l' v (op.codeStep (t, x) (s, y)).1 (op.codeStep (t, x) (s, y)).2 := by
  have herr : op.error (typeOf a) (typeOf b) = none := by
    rw [ha.type, hb.type]
    exact error_code op t s
  rw [(helper_of_no_error fo h herr).1, byType, ha.type, hb.type]
  simp only [ArithOp.codeStep, IntType.higher] at hcells hdiv ⊢
  split at hcells <;> rename_i hts
  · simp only [if_pos hts] at hdiv ⊢
    have hts' : ¬s.code < t.code := by
      rw [BitVec.lt_def] at hts ⊢
      omega
    rw [arithSwitch_int ha hb, on_ofInt ha hb hts' fun hop => ⟨(hdiv hop).2.1, (hdiv hop).2.2⟩,
      ArithRes.enc_word]
    obtain ⟨v, h', l', henc, htakes, hv⟩ := intOf_enc s (op.onInt y x) hl hcells
    exact ⟨v, h', l', by rw [henc], htakes, hv⟩
  · simp only [if_neg hts] at hdiv ⊢
    rw [arithSwitch_int hb ha, on_ofInt hb ha hts fun hop => ⟨(hdiv hop).1, (hdiv hop).2.2⟩,
      ArithRes.enc_word]
    obtain ⟨v, h', l', henc, htakes, hv⟩ := intOf_enc t (op.onInt x y) hl hcells
    exact ⟨v, h', l', by rw [henc], htakes, hv⟩

theorem typeOf_ne_symbol (hv : IntOf h l v t z) : (typeOf v == valTypeSymbol) = false := by
  rw [hv.type]
  cases t <;> decide

/-- The negation of `(- a)`. -/
theorem negate_int (fo : FloatOps) (ha : IntOf h l a t x) (hl : FreeList h l)
    (hcells : t.cells ≤ l.length) :
    ∃ v h' l', negate fo a h = (v, h') ∧ TakesCells h l h' l' t.cells
      ∧ IntOf h' l' v t (t.wrap (-x)) := by
  have hneg : negate fo a h = t.enc (-t.word h a) h := by
    unfold negate
    rw [ha.type]
    cases t <;> rfl
  rw [hneg, ha.word_eq, ← BitVec.ofInt_neg]
  exact intOf_enc t (-x) hl hcells

/-! ## The fold -/

/-- The operands `args` are the integers `ps`. -/
abbrev IntsOf (h : HeapState) (l : List Nat) (args : List VALUE) (ps : List (IntType × Int)) :
    Prop :=
  List.Forall₂ (fun v p => IntOf h l v p.1 p.2) args ps

theorem IntsOf.takes {args : List VALUE} {ps : List (IntType × Int)} (hargs : IntsOf h l args ps)
    {n : Nat} (ht : TakesCells h l h' l' n) : IntsOf h' l' args ps :=
  hargs.imp fun _ _ hv => hv.takes ht

/-- The cells the fold takes, one for each step with a boxed result. -/
def foldCells : IntType → List IntType → Nat
  | _, [] => 0
  | t, s :: ss => (t.higher s).cells + foldCells (t.higher s) ss

theorem foldArgs_int (fo : FloatOps) {op : ArithOp} (hop : op.isDivision = false)
    {args : List VALUE}
    {qs : List (IntType × Int)} {p : IntType × Int} (ha : IntOf h l a p.1 p.2)
    (hargs : IntsOf h l args qs) (hl : FreeList h l)
    (hcells : foldCells p.1 (qs.map Prod.fst) ≤ l.length) :
    ∃ v h' l', foldArgs (op.helper fo) args a h = some (v, h')
      ∧ IntOf h' l' v (qs.foldl op.codeStep p).1 (qs.foldl op.codeStep p).2 := by
  induction qs generalizing args p a h l with
  | nil =>
    cases hargs
    exact ⟨a, h, l, rfl, ha⟩
  | cons q qs ih =>
    cases hargs with
    | @cons b _ bs _ hb hbs =>
      simp only [List.map_cons, foldCells] at hcells
      obtain ⟨v, h₁, l₁, hstep, htakes, hv⟩ := helper_int fo op ha hb hl
        (by omega) fun hdiv => absurd hdiv (by simp [hop])
      have hcount := htakes.count
      have hrest : foldCells (op.codeStep p q).1 (qs.map Prod.fst) ≤ l₁.length := by
        show foldCells (p.1.higher q.1) (qs.map Prod.fst) ≤ l₁.length
        omega
      obtain ⟨w, h₂, l₂, hfold, hw⟩ := ih hv (IntsOf.takes hbs htakes) htakes.free hrest
      refine ⟨w, h₂, l₂, ?_, hw⟩
      rw [foldArgs, hstep]
      simp only [typeOf_ne_symbol hv, Bool.false_eq_true, if_false]
      exact hfold

end

/-! ## The operations as they are named -/

/-- One step of an operation on integers, in the order the operands are given. -/
def ArithOp.intStep (op : ArithOp) (p q : IntType × Int) : IntType × Int :=
  (p.1.higher q.1,
    if op.isDivision then op.onInt p.2 q.2 else (p.1.higher q.1).wrap (op.onInt p.2 q.2))

/-- What the name of the operation promises: the left-to-right fold, and the negation for
`(- a)`. -/
def ArithOp.meaning (op : ArithOp) (p : IntType × Int) (qs : List (IntType × Int)) :
    IntType × Int :=
  if op = .sub ∧ qs = [] then (p.1, p.1.wrap (-p.2)) else qs.foldl op.intStep p

/-- What the code computes. -/
def ArithOp.codeMeaning (op : ArithOp) (p : IntType × Int) (qs : List (IntType × Int)) :
    IntType × Int :=
  if op = .sub ∧ qs = [] then (p.1, p.1.wrap (-p.2)) else qs.foldl op.codeStep p

/-- `/` and `mod` take two operands, not negative, with a divisor that is not zero. -/
def ArithOp.Domain (op : ArithOp) (p : IntType × Int) (qs : List (IntType × Int)) : Prop :=
  op.isDivision = true → ∃ q, qs = [q] ∧ 0 ≤ p.2 ∧ 0 < q.2

/-- The cells a call takes. -/
def ArithOp.cells (op : ArithOp) (t : IntType) (ss : List IntType) : Nat :=
  if op = .sub ∧ ss = [] then t.cells else foldCells t ss

/-- On the operands `p :: qs`, in every heap that holds them and has enough free cells, the
operation returns what its name promises. -/
def Computes (fo : FloatOps) (op : ArithOp) (p : IntType × Int) (qs : List (IntType × Int)) :
    Prop :=
  ∀ (args above : List VALUE) (nargs : UINT) (st : SymbolTable) (h : HeapState) (l : List Nat),
    FreeList h l → IntsOf h l args (p :: qs) → nargs.toNat = (p :: qs).length →
    op.cells p.1 (qs.map Prod.fst) ≤ l.length →
    ∃ v h' l', fundamentalExec fo (args ++ above) nargs (encSym op.sym) st h = some (v, h', st)
      ∧ IntOf h' l' v (op.meaning p qs).1 (op.meaning p qs).2

/-- The operation computes what its name promises on all operands of the types `t :: ss`. -/
def ComputesOn (fo : FloatOps) (op : ArithOp) (t : IntType) (ss : List IntType) : Prop :=
  ∀ (p : IntType × Int) (qs : List (IntType × Int)), p.1 = t → qs.map Prod.fst = ss →
    op.Domain p qs → Computes fo op p qs

/-- No helper exchanges its operands, or it does not matter. -/
def InOrder (op : ArithOp) (t : IntType) (ss : List IntType) : Prop :=
  op = .add ∨ op = .mul ∨ ∀ s ∈ ss, ¬t.code < s.code

section

variable {fo : FloatOps} {op : ArithOp} {h : HeapState} {l : List Nat} {v a b : VALUE}
  {t s : IntType} {p q : IntType × Int} {qs : List (IntType × Int)} {z : Int}

theorem higher_of_not_lt (hts : ¬t.code < s.code) : t.higher s = t := if_neg hts

/-- A non-negative integer below one of the type is in the range of the type. -/
theorem IntOf.wrap_of_le (hv : IntOf h l v t z) {w : Int} (hw : 0 ≤ w) (hle : w ≤ z) :
    t.wrap w = w := by
  have hval := hv.value
  have hlt := hv.lt
  cases t with
  | i28 =>
    have hz : (v.sshiftRight 4).toInt = z := hval
    rw [BitVec.toInt_sshiftRight, Int.shiftRight_eq_div_pow] at hz
    have := BitVec.toInt_lt (x := v)
    refine Int.bmod_eq_of_le ?_ ?_ <;> omega
  | u28 =>
    have hz : ((v >>> 4).toNat : Int) = z := hval
    rw [BitVec.toNat_ushiftRight, Nat.shiftRight_eq_div_pow] at hz
    have := v.isLt
    refine Int.emod_eq_of_lt hw ?_
    omega
  | i32 =>
    have hlt : z < 2 ^ 31 := hlt
    refine Int.bmod_eq_of_le ?_ ?_ <;> omega
  | u32 =>
    have hlt : z < 2 ^ 32 := hlt
    exact Int.emod_eq_of_lt hw (by omega)

/-! ### Operands in order -/

theorem codeStep_eq_intStep (hop : op.isDivision = false)
    (horder : op = .add ∨ op = .mul ∨ ¬p.1.code < q.1.code) : op.codeStep p q = op.intStep p q := by
  have hcomm : (if p.1.code < q.1.code then op.onInt q.2 p.2 else op.onInt p.2 q.2)
      = op.onInt p.2 q.2 := by
    rcases horder with rfl | rfl | hlt
    · split
      · exact Int.add_comm _ _
      · rfl
    · split
      · exact Int.mul_comm _ _
      · rfl
    · exact if_neg hlt
  rw [ArithOp.codeStep, ArithOp.intStep, hcomm, hop]
  rfl

theorem foldl_codeStep_eq (hop : op.isDivision = false)
    (horder : InOrder op p.1 (qs.map Prod.fst)) :
    qs.foldl op.codeStep p = qs.foldl op.intStep p := by
  induction qs generalizing p with
  | nil => rfl
  | cons q qs ih =>
    have hstep : op.codeStep p q = op.intStep p q := by
      refine codeStep_eq_intStep hop ?_
      rcases horder with hadd | hmul | hlt
      · exact Or.inl hadd
      · exact Or.inr (Or.inl hmul)
      · exact Or.inr (Or.inr (hlt q.1 (by simp)))
    rw [List.foldl_cons, List.foldl_cons, hstep]
    apply ih
    rcases horder with hadd | hmul | hlt
    · exact Or.inl hadd
    · exact Or.inr (Or.inl hmul)
    · -- the accumulated value keeps the type of the first operand
      refine Or.inr (Or.inr fun s hs => ?_)
      show ¬(p.1.higher q.1).code < s.code
      rw [higher_of_not_lt (hlt q.1 (by simp))]
      exact hlt s (List.mem_cons_of_mem _ hs)

/-- What `fundamental_exec` returns for operands that are not divided. -/
theorem exec_int (fo : FloatOps) (hop : op.isDivision = false) {args : List VALUE}
    (ha : IntOf h l a p.1 p.2)
    (hargs : IntsOf h l args qs) (hl : FreeList h l)
    (hcells : op.cells p.1 (qs.map Prod.fst) ≤ l.length) :
    ∃ v h' l', op.exec fo a args h = some (v, h')
      ∧ IntOf h' l' v (op.codeMeaning p qs).1 (op.codeMeaning p qs).2 := by
  rw [ArithOp.codeMeaning]
  by_cases hneg : op = .sub ∧ qs = []
  · obtain ⟨rfl, rfl⟩ := hneg
    cases hargs
    obtain ⟨v, h', l', heq, -, hv⟩ := negate_int fo ha hl hcells
    exact ⟨v, h', l', by rw [ArithOp.exec, heq], hv⟩
  · have hexec : op.exec fo a args h = foldArgs (op.helper fo) args a h := by
      cases op with
      | sub =>
        cases hargs with
        | nil => exact absurd ⟨rfl, rfl⟩ hneg
        | cons _ _ => rfl
      | add => rfl
      | mul => rfl
      | div => rfl
      | mod => rfl
    have hcells' : foldCells p.1 (qs.map Prod.fst) ≤ l.length := by
      rwa [ArithOp.cells, if_neg (by simpa using hneg)] at hcells
    obtain ⟨v, h', l', hfold, hv⟩ := foldArgs_int fo hop ha hargs hl hcells'
    rw [if_neg hneg]
    exact ⟨v, h', l', by rw [hexec, hfold], hv⟩

/-- What `fundamental_exec` returns for `(/ a b)` and `(mod a b)`. -/
theorem exec_division (fo : FloatOps) (hop : op.isDivision = true) (ha : IntOf h l a p.1 p.2)
    (hb : IntOf h l b q.1 q.2) (hl : FreeList h l) (hcells : foldCells p.1 [q.1] ≤ l.length)
    (hp : 0 ≤ p.2) (hq : 0 ≤ q.2) (hdiv : 0 < if p.1.code < q.1.code then p.2 else q.2) :
    ∃ v h' l', op.exec fo a [b] h = some (v, h')
      ∧ IntOf h' l' v (op.codeStep p q).1 (op.codeStep p q).2 := by
  obtain ⟨v, h', l', hstep, -, hv⟩ := helper_int fo op ha hb hl hcells
    fun _ => ⟨hp, hq, hdiv⟩
  have hexec : op.exec fo a [b] h = foldArgs (op.helper fo) [b] a h := by cases op <;> rfl
  refine ⟨v, h', l', ?_, hv⟩
  rw [hexec, foldArgs, hstep]
  simp only [typeOf_ne_symbol hv, Bool.false_eq_true, if_false]
  rfl

theorem computesOn_of_inOrder {ss : List IntType} (horder : InOrder op t ss) :
    ComputesOn fo op t ss := by
  rintro p qs rfl rfl hdom args above nargs st h l hl hargs hn hcells
  cases hargs with
  | @cons a _ bs _ ha hbs =>
    have hlen : nargs.toNat = (a :: bs).length := by
      rw [hn, List.length_cons, List.length_cons, hbs.length_eq]
    rw [fundamentalExec_arith op a bs above hlen]
    cases hop : op.isDivision with
    | false =>
      obtain ⟨v, h', l', hexec, hv⟩ := exec_int fo hop ha hbs hl hcells
      refine ⟨v, h', l', by rw [hexec, Option.map_some], ?_⟩
      rwa [ArithOp.codeMeaning, foldl_codeStep_eq hop horder, ← ArithOp.meaning] at hv
    | true =>
      obtain ⟨q, rfl, hp, hq⟩ := hdom hop
      obtain ⟨b, rfl⟩ : ∃ b, bs = [b] := List.length_eq_one_iff.mp hbs.length_eq
      have hb : IntOf h l b q.1 q.2 := (List.forall₂_cons.mp hbs).1
      have hpq : ¬p.1.code < q.1.code := by
        rcases horder with rfl | rfl | hlt
        · exact absurd hop (by decide)
        · exact absurd hop (by decide)
        · exact hlt q.1 (by simp)
      have hsub : ¬(op = .sub ∧ [q] = []) := by simp
      have hcells' : foldCells p.1 [q.1] ≤ l.length := by
        rwa [ArithOp.cells, if_neg (by simp)] at hcells
      obtain ⟨v, h', l', hexec, hv⟩ := exec_division fo hop ha hb hl hcells' hp hq.le
        (by rwa [if_neg hpq])
      refine ⟨v, h', l', by rw [hexec, Option.map_some], ?_⟩
      -- the quotient and the remainder are in the range of the dividend's type
      have hrange : p.1.wrap (op.onInt p.2 q.2) = op.onInt p.2 q.2 := by
        cases op with
        | add => exact absurd hop (by decide)
        | sub => exact absurd hop (by decide)
        | mul => exact absurd hop (by decide)
        | div => exact ha.wrap_of_le (Int.ediv_nonneg hp hq.le) (Int.ediv_le_self _ hp)
        | mod =>
          refine ha.wrap_of_le (Int.emod_nonneg _ hq.ne') ?_
          show p.2 % q.2 ≤ p.2
          have hquot := Int.mul_nonneg hq.le (Int.ediv_nonneg hp hq.le)
          rw [Int.emod_def]
          exact Int.sub_le_self _ hquot
      rw [ArithOp.meaning, if_neg hsub]
      show IntOf h' l' v (op.intStep p q).1 (op.intStep p q).2
      rw [ArithOp.codeStep, higher_of_not_lt hpq, if_neg hpq, hrange] at hv
      rwa [ArithOp.intStep, higher_of_not_lt hpq, if_pos hop]

/-! ### Operands out of order -/

/-- A heap that holds the given integers and has `n` free cells. -/
theorem exists_intsOf (ps : List (IntType × Int)) (hrange : ∀ p ∈ ps, p.1.wrap p.2 = p.2) (n : Nat)
    (hsize : ps.length + n < 2 ^ 23) :
    ∃ h l args, FreeList h l ∧ n ≤ l.length ∧ IntsOf h l args ps := by
  induction ps generalizing n with
  | nil =>
    rw [List.length_nil] at hsize
    have hinv := @heapInv_heapInit (n + 1) (by omega) (by omega)
      (List.replicate (n + 1) ⟨NIL, NIL⟩) (by simp) noMemory
    exact ⟨_, _, [], ⟨hinv.freeChain, hinv.nodup, hinv.fits, hinv.addressable⟩, by simp, .nil⟩
  | cons p ps ih =>
    rw [List.length_cons] at hsize
    obtain ⟨h, l, args, hl, hn, hargs⟩ :=
      ih (fun q hq => hrange q (List.mem_cons_of_mem _ hq)) (n + 1) (by omega)
    have hcells : p.1.cells ≤ l.length := by
      rw [IntType.cells]
      split <;> omega
    obtain ⟨v, h', l', -, htakes, hv⟩ := intOf_enc p.1 p.2 hl hcells
    refine ⟨h', l', v :: args, htakes.free, ?_, .cons ?_ (IntsOf.takes hargs htakes)⟩
    · have hcount := htakes.count
      rw [IntType.cells] at hcount
      split at hcount <;> omega
    · rwa [hrange p (by simp)] at hv

theorem foldCells_le (t : IntType) (ss : List IntType) : foldCells t ss ≤ ss.length := by
  induction ss generalizing t with
  | nil => exact le_refl _
  | cons s ss ih =>
    rw [foldCells, List.length_cons]
    have hrest := ih (t.higher s)
    have hone : (t.higher s).cells ≤ 1 := by
      rw [IntType.cells]
      split <;> decide
    omega

/-- The type the fold has come to. -/
def highest (t : IntType) (ss : List IntType) : IntType := ss.foldl IntType.higher t

/-- Where an operand ranks above the first one, there is a last one that ranks above all before
it. -/
theorem exists_last_raise {ss : List IntType} (hraise : ∃ s ∈ ss, t.code < s.code) :
    ∃ pre s post, ss = pre ++ s :: post ∧ (highest t pre).code < s.code
      ∧ ∀ u ∈ post, ¬s.code < u.code := by
  induction ss generalizing t with
  | nil =>
    obtain ⟨s, hs, -⟩ := hraise
    exact absurd hs (by simp)
  | cons u us ih =>
    by_cases hlater : ∃ s ∈ us, (t.higher u).code < s.code
    · obtain ⟨pre, s, post, rfl, hlt, hpost⟩ := ih hlater
      exact ⟨u :: pre, s, post, rfl, hlt, hpost⟩
    · have hnone : ∀ s ∈ us, ¬(t.higher u).code < s.code := fun s hs hlt => hlater ⟨s, hs, hlt⟩
      have hu : t.code < u.code := by
        by_contra hu
        rw [higher_of_not_lt hu] at hnone
        obtain ⟨s, hs, hlt⟩ := hraise
        rcases List.mem_cons.mp hs with rfl | hs
        · exact hu hlt
        · exact hnone s hs hlt
      refine ⟨[], u, us, rfl, hu, ?_⟩
      rwa [IntType.higher, if_pos hu] at hnone

theorem wrap_zero (t : IntType) : t.wrap 0 = 0 := by cases t <;> decide

theorem wrap_one (t : IntType) : t.wrap 1 = 1 := by cases t <;> decide

/-- Subtractions of zero from zero. -/
theorem foldl_zeros {step : IntType × Int → IntType × Int → IntType × Int}
    (hstep : ∀ t s, step (t, 0) (s, 0) = (t.higher s, 0)) (t : IntType) (ss : List IntType) :
    (ss.map fun s => (s, (0 : Int))).foldl step (t, 0) = (highest t ss, 0) := by
  induction ss generalizing t with
  | nil => rfl
  | cons s ss ih =>
    rw [List.map_cons, List.foldl_cons, hstep, ih, highest, highest, List.foldl_cons]

/-- Subtractions of zero that change neither the type nor the value. -/
theorem foldl_fixed {step : IntType × Int → IntType × Int → IntType × Int} {ss : List IntType}
    (hstep : ∀ s ∈ ss, step p (s, 0) = p) : (ss.map fun s => (s, (0 : Int))).foldl step p = p := by
  induction ss with
  | nil => rfl
  | cons s ss ih =>
    rw [List.map_cons, List.foldl_cons, hstep s (by simp)]
    exact ih fun u hu => hstep u (List.mem_cons_of_mem _ hu)

/-- The integer of a value is determined by its type. -/
theorem IntOf.unique {z' : Int} (hv : IntOf h l v t z) {l' : List Nat} (hv' : IntOf h l' v t z') :
    z = z' := by
  rw [← hv.value, ← hv'.value]

theorem IntOf.eq_of_pair {l' : List Nat} {r r' : IntType × Int} (hv : IntOf h l v r.1 r.2)
    (hv' : IntOf h l' v r'.1 r'.2) : r = r' := by
  have hcode : r.1.code = r'.1.code := by rw [← hv.type, hv'.type]
  have hty : r.1 = r'.1 := by
    cases h₁ : r.1 <;> cases h₂ : r'.1 <;> rw [h₁, h₂] at hcode <;>
      first | rfl | exact absurd hcode (by decide)
  rw [← hty] at hv'
  exact Prod.ext hty (hv.unique hv')

/-- Where an operation computes what its name promises on some operands, that is what the code
computes. -/
theorem eq_meaning_of_exec {r : IntType × Int} (hc : Computes fo op p qs)
    (hrange : ∀ q ∈ p :: qs, q.1.wrap q.2 = q.2) (hlen : qs.length < 2 ^ 22 - 1)
    (hexec : ∀ {h : HeapState} {l : List Nat} {a : VALUE} {args : List VALUE}, IntOf h l a p.1 p.2 →
      IntsOf h l args qs → FreeList h l → op.cells p.1 (qs.map Prod.fst) ≤ l.length →
      ∃ v h' l', op.exec fo a args h = some (v, h') ∧ IntOf h' l' v r.1 r.2) :
    r = op.meaning p qs := by
  obtain ⟨h, l, args, hl, hn, hargs⟩ := exists_intsOf (p :: qs) hrange (qs.length + 1)
    (by rw [List.length_cons]; omega)
  have hcells : op.cells p.1 (qs.map Prod.fst) ≤ l.length := by
    rw [ArithOp.cells]
    split
    · rw [IntType.cells]
      split <;> omega
    · have := foldCells_le p.1 (qs.map Prod.fst)
      rw [List.length_map] at this
      omega
  have hnargs : (BitVec.ofNat 32 (p :: qs).length).toNat = (p :: qs).length := by
    rw [BitVec.toNat_ofNat, List.length_cons]
    exact Nat.mod_eq_of_lt (by omega)
  obtain ⟨v, h', l', hres, hv⟩ := hc args [] _ ⟨0#32, 0#32⟩ h l hl hargs hnargs hcells
  cases hargs with
  | @cons a _ bs _ ha hbs =>
    have hlen' : (BitVec.ofNat 32 (p :: qs).length).toNat = (a :: bs).length := by
      rw [hnargs, List.length_cons, List.length_cons, hbs.length_eq]
    rw [fundamentalExec_arith op a bs [] hlen'] at hres
    obtain ⟨v', h'', l'', hexec, hv'⟩ := hexec ha hbs hl hcells
    rw [hexec, Option.map_some] at hres
    obtain ⟨rfl, rfl⟩ : v' = v ∧ h'' = h' := by simpa using hres
    exact hv'.eq_of_pair hv

/-- With zeros everywhere but at the last operand that ranks above all before it, `-` gives one for
minus one. -/
theorem not_computesOn_sub {ss : List IntType} (hraise : ∃ s ∈ ss, t.code < s.code)
    (hlen : ss.length < 2 ^ 22 - 1) : ¬ComputesOn fo .sub t ss := by
  intro hc
  obtain ⟨pre, s, post, rfl, hlt, hpost⟩ := exists_last_raise hraise
  let qs : List (IntType × Int) :=
    pre.map (fun u => (u, 0)) ++ (s, 1) :: post.map fun u => (u, 0)
  have hfst : qs.map Prod.fst = pre ++ s :: post := by
    simp [qs, Function.comp_def]
  have hrange : ∀ q ∈ (t, 0) :: qs, q.1.wrap q.2 = q.2 := by
    intro q hq
    simp only [qs, List.mem_cons, List.mem_append, List.mem_map] at hq
    rcases hq with rfl | ⟨u, -, rfl⟩ | rfl | ⟨u, -, rfl⟩
    · exact wrap_zero t
    · exact wrap_zero u
    · exact wrap_one s
    · exact wrap_zero u
  have hqs : qs.length < 2 ^ 22 - 1 := by
    rw [← hfst, List.length_map] at hlen
    exact hlen
  have heq := eq_meaning_of_exec (hc (t, 0) qs rfl hfst fun hdiv => absurd hdiv (by decide)) hrange
    hqs fun ha hargs hl hcells => exec_int fo rfl ha hargs hl hcells
  have hne : ¬(ArithOp.sub = .sub ∧ qs = []) := by simp [qs]
  rw [ArithOp.codeMeaning, ArithOp.meaning, if_neg hne, if_neg hne] at heq
  have hcode : qs.foldl ArithOp.sub.codeStep (t, 0) = (s, 1) := by
    rw [List.foldl_append, foldl_zeros, List.foldl_cons]
    · have hstep : ArithOp.sub.codeStep (highest t pre, 0) (s, 1) = (s, 1) := by
        rw [ArithOp.codeStep, if_pos hlt, IntType.higher, if_pos hlt]
        exact Prod.ext rfl (wrap_one s)
      rw [hstep]
      refine foldl_fixed fun u hu => ?_
      rw [ArithOp.codeStep, if_neg (hpost u hu), higher_of_not_lt (hpost u hu)]
      exact Prod.ext rfl (wrap_one s)
    · intro t u
      rw [ArithOp.codeStep, ite_self]
      exact Prod.ext rfl (wrap_zero _)
  have hint : qs.foldl ArithOp.sub.intStep (t, 0) = (s, s.wrap (-1)) := by
    rw [List.foldl_append, foldl_zeros, List.foldl_cons]
    · have hstep : ArithOp.sub.intStep (highest t pre, 0) (s, 1) = (s, s.wrap (-1)) := by
        rw [ArithOp.intStep, IntType.higher, if_pos hlt]
        rfl
      rw [hstep]
      refine foldl_fixed fun u hu => ?_
      rw [ArithOp.intStep, higher_of_not_lt (hpost u hu)]
      refine Prod.ext rfl ?_
      show s.wrap (s.wrap (-1) - 0) = s.wrap (-1)
      cases s <;> decide
    · intro t u
      exact Prod.ext rfl (wrap_zero _)
  rw [hcode, hint] at heq
  have hone : (1 : Int) = s.wrap (-1) := (Prod.mk.inj heq).2
  cases s <;> exact absurd hone (by decide)

/-- `/` gives two for `1 / 2`, and `mod` zero for the remainder one. -/
theorem not_computesOn_division (hop : op.isDivision = true) (hts : t.code < s.code) :
    ¬ComputesOn fo op t [s] := by
  intro hc
  have htwo : ∀ u : IntType, u.wrap 2 = 2 := by
    intro u
    cases u <;> decide
  have hrange : ∀ q ∈ [(t, (1 : Int)), (s, 2)], q.1.wrap q.2 = q.2 := by
    intro q hq
    simp only [List.mem_cons, List.not_mem_nil, or_false] at hq
    rcases hq with rfl | rfl
    · exact wrap_one t
    · exact htwo s
  have hone : (0 : Int) < 1 := by decide
  have hpos : (0 : Int) < 2 := by decide
  have hdom : op.Domain (t, 1) [(s, 2)] := fun _ => ⟨(s, 2), rfl, hone.le, hpos⟩
  have heq : op.codeStep (t, 1) (s, 2) = op.meaning (t, 1) [(s, 2)] := by
    refine eq_meaning_of_exec (hc (t, 1) [(s, 2)] rfl rfl hdom) hrange (by simp) ?_
    intro h l a args ha hargs hl hcells
    obtain ⟨b, rfl⟩ : ∃ b, args = [b] := List.length_eq_one_iff.mp hargs.length_eq
    have hcells' : foldCells t [s] ≤ l.length := by
      rwa [ArithOp.cells, if_neg (by simp)] at hcells
    exact exec_division fo hop ha (List.forall₂_cons.mp hargs).1 hl hcells' hone.le hpos.le
      (by rwa [if_pos hts])
  have hsub : ¬(op = .sub ∧ [(s, (2 : Int))] = []) := by simp
  rw [ArithOp.meaning, if_neg hsub, List.foldl_cons, List.foldl_nil, ArithOp.codeStep,
    ArithOp.intStep, if_pos hts, if_pos hop] at heq
  have hval : (t.higher s).wrap (op.onInt 2 1) = op.onInt 1 2 := (Prod.mk.inj heq).2
  rw [IntType.higher, if_pos hts] at hval
  cases op with
  | add => exact absurd hop (by decide)
  | sub => exact absurd hop (by decide)
  | mul => exact absurd hop (by decide)
  | div => cases s <;> exact absurd hval (by decide)
  | mod => cases s <;> exact absurd hval (by decide)

end

/-- **The integer operations by the types of their operands.** They compute what their names
promise where no operand ranks above the first one, or the operation is `+` or `*`; and on no other
list of types, as far as there is a heap for it. -/
theorem computesOn_iff_inOrder (fo : FloatOps) (op : ArithOp) (t : IntType) (ss : List IntType) :
    (InOrder op t ss → ComputesOn fo op t ss)
      ∧ (ss.length < 2 ^ 22 - 1 → (op.isDivision = true → ss.length = 1) →
        ComputesOn fo op t ss → InOrder op t ss) := by
  refine ⟨computesOn_of_inOrder, fun hlen harity hc => ?_⟩
  by_contra horder
  simp only [InOrder, not_or, not_forall, not_not] at horder
  obtain ⟨hadd, hmul, s, hs, hts⟩ := horder
  cases hop : op.isDivision with
  | true =>
    obtain ⟨u, rfl⟩ := List.length_eq_one_iff.mp (harity hop)
    obtain rfl : s = u := List.mem_singleton.mp hs
    exact not_computesOn_division hop hts hc
  | false =>
    cases op with
    | add => exact hadd rfl
    | mul => exact hmul rfl
    | sub => exact not_computesOn_sub ⟨s, hs, hts⟩ hlen hc
    | div => exact absurd hop (by decide)
    | mod => exact absurd hop (by decide)

/-- `(- 5u28 3)` is computed as it is named. -/
theorem computes_sub_ordered : Computes noFloats .sub (.u28, 5) [(.i28, 3)] := by
  refine (computesOn_iff_inOrder noFloats .sub .u28 [.i28]).1 (Or.inr (Or.inr ?_)) (.u28, 5)
    [(.i28, 3)] rfl rfl fun hdiv => absurd hdiv (by decide)
  intro s hs
  obtain rfl := List.mem_singleton.mp hs
  decide

/-- `(- 1 2u28)` is one. -/
theorem not_computes_sub_swapped :
    fundamentalExec noFloats [encI 1#32, encU 2#32] 2#32 (encSym symSub) ⟨0#32, 0x1000#32⟩
        boxedThreeHeap = some (encU 1#32, boxedThreeHeap, ⟨0#32, 0x1000#32⟩)
      ∧ ArithOp.sub.meaning (.i28, 1) [(.u28, 2)] = (.u28, 2 ^ 28 - 1)
      ∧ ¬Computes noFloats .sub (.i28, 1) [(.u28, 2)] := by
  have hres : fundamentalExec noFloats [encI 1#32, encU 2#32] 2#32 (encSym symSub)
      ⟨0#32, 0x1000#32⟩ boxedThreeHeap = some (encU 1#32, boxedThreeHeap, ⟨0#32, 0x1000#32⟩) := by
    rfl
  refine ⟨hres, by decide, fun hc => ?_⟩
  have hl : FreeList boxedThreeHeap [1] := freeList_of_isFreeList (by decide)
  have hargs : IntsOf boxedThreeHeap [1] [encI 1#32, encU 2#32] [(.i28, 1), (.u28, 2)] :=
    .cons ⟨by decide, by decide, by decide⟩ (.cons ⟨by decide, by decide, by decide⟩ .nil)
  obtain ⟨v, h', l', hexec, hv⟩ := hc _ [] 2#32 ⟨0#32, 0x1000#32⟩ _ _ hl hargs rfl (by decide)
  rw [List.append_nil, show encSym ArithOp.sub.sym = encSym symSub from rfl, hres] at hexec
  obtain rfl : encU 1#32 = v := (Prod.mk.inj (Option.some.inj hexec)).1
  have hval : IntType.u28.value (decU (encU 1#32)) = 2 ^ 28 - 1 := hv.value
  exact absurd hval (by decide)

end LispBM
