import LispBM.Heap.Takes

/-!
# LispBM — tag safety of the fundamental operations

A cell does not say what it holds: the type is in the pointers to it. A *heap typing* gives each
allocated cell one kind, and a heap is well formed under a typing when the free list is the rest
of the heap and every cell holds what its kind says. A word is a well-formed value when it is an
unmarked immediate, an unmarked symbol indirection, or an unmarked pointer whose type is the kind
of the cell it addresses.

The operations of `fundamental_exec` extend a typing by the cells they take. Two of them also
forward words that are no values: `car` reads the car of any pointer, so that the payload of a
boxed number or of an array comes out as a value, and `mk-sym-indirect` takes 25 bits for a field
of 23, so that the upper two end up in the type of the pointer.
-/

namespace LispBM

/-! ## Well-formed words and cells -/

/-- What an allocated cell holds. -/
inductive CellKind where
  | cons
  | boxedI
  | boxedU
  | boxedF
  | array
deriving DecidableEq

namespace CellKind

/-- The type of the pointers to a cell. -/
def ptrType : CellKind → TYPE
  | cons => ptrTypeCons
  | boxedI => ptrTypeBoxedI
  | boxedU => ptrTypeBoxedU
  | boxedF => ptrTypeBoxedF
  | array => ptrTypeArray

/-- The symbol in the cdr of a cell that is no cons cell. -/
def typeSymbol : CellKind → Option UINT
  | cons => none
  | boxedI => some defReprBoxedIType
  | boxedU => some defReprBoxedUType
  | boxedF => some defReprBoxedFType
  | array => some defReprArrayType

end CellKind

/-- The kind of each allocated cell. -/
abbrev HeapTyping := Nat → Option CellKind

/-- A well-formed value: unmarked, and as a pointer either a symbol indirection or of the type of
the allocated cell it addresses. -/
structure WfValue (κ : HeapTyping) (v : VALUE) : Prop where
  unmarked : valGetGcMark v = false
  tagged : isPtr v = true →
    typeOf v = ptrTypeSymbolIndirection ∨ ∃ k, κ (ptrIx v) = some k ∧ typeOf v = k.ptrType

/-- The contents of a cell of a kind: two values in a cons cell, a raw word and the type symbol
in the others. -/
def WfCell (κ : HeapTyping) (k : CellKind) (c : ConsCell) : Prop :=
  match k.typeSymbol with
  | none => WfValue κ c.car ∧ WfValue κ c.cdr
  | some s => c.cdr = encSym s

/-- A heap all of whose cells are on the free list or hold what their kind says. -/
structure WfHeap (κ : HeapTyping) (h : HeapState) : Prop where
  free : ∃ l, FreeList h l ∧ ∀ i, κ i = none ↔ i ∈ l ∨ h.heapSize ≤ i
  cells : ∀ i k, κ i = some k → WfCell κ k (h.cell i)

/-- A later heap: the allocated cells are still there, with the same contents. -/
structure Grows (κ : HeapTyping) (h : HeapState) (κ' : HeapTyping) (h' : HeapState) : Prop where
  kind : ∀ {i k}, κ i = some k → κ' i = some k
  cell : ∀ {i k}, κ i = some k → h'.cell i = h.cell i

/-- The result of an operation is a well-formed value of the well-formed heap it leaves. -/
def Yields (κ : HeapTyping) (h : HeapState) (r : VALUE × HeapState) : Prop :=
  ∃ κ', Grows κ h κ' r.2 ∧ WfHeap κ' r.2 ∧ WfValue κ' r.1

variable {κ κ' κ'' : HeapTyping} {h h' h'' : HeapState} {v : VALUE}

namespace Grows

theorem refl (κ : HeapTyping) (h : HeapState) : Grows κ h κ h := ⟨fun hk => hk, fun _ => rfl⟩

theorem trans (h₁ : Grows κ h κ' h') (h₂ : Grows κ' h' κ'' h'') : Grows κ h κ'' h'' := by
  refine ⟨fun hk => h₂.kind (h₁.kind hk), fun hk => ?_⟩
  rw [h₂.cell (h₁.kind hk), h₁.cell hk]

theorem wfValue (hg : Grows κ h κ' h') (hv : WfValue κ v) : WfValue κ' v := by
  refine ⟨hv.unmarked, fun hp => ?_⟩
  rcases hv.tagged hp with hind | ⟨k, hk, ht⟩
  · exact Or.inl hind
  · exact Or.inr ⟨k, hg.kind hk, ht⟩

theorem wfCell (hg : Grows κ h κ' h') {k : CellKind} {c : ConsCell} (hc : WfCell κ k c) :
    WfCell κ' k c := by
  cases k with
  | cons => exact ⟨hg.wfValue hc.1, hg.wfValue hc.2⟩
  | boxedI => exact hc
  | boxedU => exact hc
  | boxedF => exact hc
  | array => exact hc

end Grows

namespace Yields

theorem same (hh : WfHeap κ h) (hv : WfValue κ v) : Yields κ h (v, h) :=
  ⟨κ, Grows.refl κ h, hh, hv⟩

theorem of_grows {r : VALUE × HeapState} (hg : Grows κ h κ' h') (hr : Yields κ' h' r) :
    Yields κ h r := by
  obtain ⟨κ₁, hg₁, hh₁, hv₁⟩ := hr
  exact ⟨κ₁, hg.trans hg₁, hh₁, hv₁⟩

theorem of_some {r : VALUE × HeapState} (hr : Yields κ h r) (hres : some r = some (v, h')) :
    Yields κ h (v, h') := by
  obtain rfl := Option.some.inj hres
  exact hr

end Yields

/-! ## Words -/

/-- A word with clear tag bits is a well-formed value under every typing. -/
theorem wfValue_of_immediate (κ : HeapTyping) (hv : v &&& 3#32 = 0#32) : WfValue κ v := by
  have h0 : v[0] = false := by
    have := congrArg (fun w : VALUE => w[0]) hv
    simpa using this
  have h1 : v[1] = false := by
    have := congrArg (fun w : VALUE => w[1]) hv
    simpa using this
  have hmark : v &&& gcMask = 0#32 := by
    ext i hi
    interval_cases i <;> simp [gcMask, h1]
  have hptr : v &&& ptrMask = 0#32 := by
    ext i hi
    interval_cases i <;> simp [ptrMask, h0]
  refine ⟨by simp [valGetGcMark, hmark], fun hp => ?_⟩
  exact absurd hp (by simp [isPtr, hptr])

theorem immediate_shift (x t : UINT) (ht : t &&& 3#32 = 0#32) :
    (x <<< 4 ||| t) &&& 3#32 = 0#32 := by
  have h0 : t[0] = false := by
    have := congrArg (fun w : VALUE => w[0]) ht
    simpa using this
  have h1 : t[1] = false := by
    have := congrArg (fun w : VALUE => w[1]) ht
    simpa using this
  ext i hi
  interval_cases i <;> simp [h0, h1]

theorem wfValue_encSym (κ : HeapTyping) (s : UINT) : WfValue κ (encSym s) :=
  wfValue_of_immediate κ (immediate_shift s _ (by decide))

theorem wfValue_encI (κ : HeapTyping) (x : UINT) : WfValue κ (encI x) :=
  wfValue_of_immediate κ (immediate_shift x _ (by decide))

theorem wfValue_encU (κ : HeapTyping) (x : UINT) : WfValue κ (encU x) :=
  wfValue_of_immediate κ (immediate_shift x _ (by decide))

theorem wfValue_encChar (κ : HeapTyping) (x : BitVec 8) : WfValue κ (encChar x) :=
  wfValue_of_immediate κ (immediate_shift _ _ (by decide))

theorem wfValue_nil (κ : HeapTyping) : WfValue κ NIL := wfValue_encSym κ symreprNil

/-- A pointer whose upper six bits are `ty` and whose tag bits are those of an unmarked pointer. -/
structure PtrWord (p : VALUE) (ty : TYPE) (i : Nat) : Prop where
  isPtr : isPtr p = true
  typeOf : typeOf p = ty
  ptrIx : ptrIx p = i
  unmarked : valGetGcMark p = false

theorem PtrWord.wfValue {p : VALUE} {i : Nat} {k : CellKind} (hp : PtrWord p k.ptrType i)
    (hk : κ i = some k) : WfValue κ p :=
  ⟨hp.unmarked, fun _ => Or.inr ⟨k, by rw [hp.ptrIx]; exact hk, hp.typeOf⟩⟩

theorem ptrWord_cellPtr {i : Nat} (hi : i < 2 ^ 23) : PtrWord (cellPtr i) ptrTypeCons i :=
  ⟨isPtr_cellPtr i, typeOf_cellPtr hi, ptrIx_cellPtr hi, valGetGcMark_cellPtr i⟩

/-- `set_ptr_type` changes the type of a pointer and nothing else. -/
theorem ptrWord_setPtrType (p : VALUE) {ty : TYPE} (hty : ty &&& ptrTypeMask = ty) :
    PtrWord (setPtrType p ty) ty (ptrIx p) := by
  have hlow : ∀ i (hi : i < 32), i < 26 → ty[i] = false := by
    intro i hi hlt
    have := congrArg (fun w : VALUE => w.getLsbD i) hty
    simp only [ptrTypeMask, BitVec.getLsbD_eq_getElem hi] at this
    rw [← this]
    interval_cases i <;> simp
  have hptr : isPtr (setPtrType p ty) = true := by
    have h : (ptrValMask &&& p ||| ty ||| ptrMask) &&& ptrMask = ptrMask := by
      ext i hi
      interval_cases i <;> simp [ptrMask]
    simp only [isPtr, setPtrType, h]
    decide
  refine ⟨hptr, ?_, ?_, ?_⟩
  · rw [typeOf_of_isPtr hptr, ptrType, setPtrType]
    ext i hi
    interval_cases i <;> simp [ptrMask, ptrValMask, ptrTypeMask, hlow]
  · have : decPtr (setPtrType p ty) = decPtr p := by
      rw [decPtr, decPtr, setPtrType]
      ext i hi
      interval_cases i <;> simp [ptrMask, ptrValMask, hlow]
    rw [ptrIx, this, ptrIx]
  · have h : (ptrValMask &&& p ||| ty ||| ptrMask) &&& gcMask = 0#32 := by
      ext i hi
      interval_cases i <;> simp [ptrMask, ptrValMask, gcMask, hlow]
    simp only [valGetGcMark, setPtrType, h]
    decide

/-- The array pointer to a cell is made by adding the bits of the array type to its cons
pointer. -/
theorem ptrWord_or_array {i : Nat} (hi : i < 2 ^ 23) :
    PtrWord (cellPtr i ||| ptrTypeArray) ptrTypeArray i := by
  have heq : cellPtr i ||| ptrTypeArray = setPtrType (cellPtr i) ptrTypeArray := by
    have hbit : ∀ j (hj : j < 32), 23 ≤ j → (BitVec.ofNat 32 i)[j] = false := fun j hj hn =>
      getElem_eq_false_of_lt (by rw [toNat_ofNat_of_lt hi]; exact hi) hn hj
    ext j hj
    simp only [cellPtr, encConsPtr, setPtrType, ptrTypeArray, ptrTypeCons, ptrMask, ptrValMask]
    interval_cases j <;> simp [hbit]
  rw [heq]
  have hp := ptrWord_setPtrType (cellPtr i)
    (show ptrTypeArray &&& ptrTypeMask = ptrTypeArray by decide)
  rwa [ptrIx_cellPtr hi] at hp

/-- A symbol indirection is one when its payload fits the 23 bits of the field. -/
theorem wfValue_encSymbolIndirection (κ : HeapTyping) {x : UINT} (hx : x.toNat < 2 ^ 23) :
    WfValue κ (encSymbolIndirection x) := by
  have hbit : ∀ i (hi : i < 32), 23 ≤ i → x[i] = false := fun i hi hn =>
    getElem_eq_false_of_lt hx hn hi
  have hmark : (x <<< 3 ||| ptrTypeSymbolIndirection ||| ptrMask) &&& gcMask = 0#32 := by
    ext i hi
    interval_cases i <;> simp [ptrMask, ptrTypeSymbolIndirection, gcMask]
  refine ⟨by simp [valGetGcMark, encSymbolIndirection, hmark], fun hp => Or.inl ?_⟩
  rw [typeOf_of_isPtr hp, ptrType, encSymbolIndirection]
  ext i hi
  interval_cases i <;> simp [ptrMask, ptrTypeSymbolIndirection, ptrTypeMask, hbit]

/-- No pointer type uses the two bits above the cell index. -/
theorem WfValue.typeOf_bits (hv : WfValue κ v) (hp : isPtr v = true) :
    (typeOf v)[26] = false ∧ (typeOf v)[27] = false := by
  rcases hv.tagged hp with ht | ⟨k, -, ht⟩
  · rw [ht]
    decide
  · rw [ht]
    cases k <;> decide

/-- A larger payload reaches into the type of the pointer. -/
theorem toNat_lt_of_wfValue_encSymbolIndirection {x : UINT}
    (hv : WfValue κ (encSymbolIndirection x)) (hx : x.toNat < 2 ^ 25) : x.toNat < 2 ^ 23 := by
  have hp : isPtr (encSymbolIndirection x) = true := by
    have h : (x <<< 3 ||| ptrTypeSymbolIndirection ||| ptrMask) &&& ptrMask = ptrMask := by
      ext i hi
      interval_cases i <;> simp [ptrMask]
    simp only [isPtr, encSymbolIndirection, h]
    decide
  have ht := typeOf_of_isPtr hp
  obtain ⟨h26, h27⟩ := hv.typeOf_bits hp
  have h23 : x[23] = false := by
    rw [← h26, ht]
    simp [ptrType, encSymbolIndirection, ptrTypeMask, ptrTypeSymbolIndirection, ptrMask]
  have h24 : x[24] = false := by
    rw [← h27, ht]
    simp [ptrType, encSymbolIndirection, ptrTypeMask, ptrTypeSymbolIndirection, ptrMask]
  -- bits 23 and 24 are clear and so are those from 25 on
  refine Nat.lt_pow_two_of_testBit _ fun i hi => ?_
  by_cases h25 : 25 ≤ i
  · exact Nat.testBit_lt_two_pow (lt_of_lt_of_le hx (Nat.pow_le_pow_right (by decide) h25))
  · have : i = 23 ∨ i = 24 := by omega
    rcases this with rfl | rfl
    · exact h23
    · exact h24

/-! ## Heaps -/

/-- The allocated cells of a heap are determined by its free list: a typing of the same heap
cannot be extended. -/
theorem Grows.eq_of_same (hg : Grows κ h κ' h) (hh : WfHeap κ h) (hh' : WfHeap κ' h) : κ' = κ := by
  obtain ⟨l, hl, hdom⟩ := hh.free
  obtain ⟨l', hl', hdom'⟩ := hh'.free
  have hll : l = l' := FreeChain.unique hl.addressable hl.chain hl'.chain
  subst hll
  funext i
  cases hk : κ i with
  | some k => exact hg.kind hk
  | none => exact (hdom' i).mpr ((hdom i).mp hk)

/-- The typing after cell `i` was taken. -/
def HeapTyping.alloc (κ : HeapTyping) (i : Nat) (k : CellKind) : HeapTyping :=
  Function.update κ i (some k)

@[simp] theorem HeapTyping.alloc_self (κ : HeapTyping) (i : Nat) (k : CellKind) :
    κ.alloc i k i = some k := Function.update_self i _ κ

theorem HeapTyping.alloc_ne (κ : HeapTyping) {i j : Nat} (k : CellKind) (hij : j ≠ i) :
    κ.alloc i k j = κ j := Function.update_of_ne hij _ κ

/-- The first cell of the free list, taken and filled with contents of some kind. -/
def Fills (κ : HeapTyping) (h : HeapState) (i : Nat) : Prop :=
  ∀ {k : CellKind} {c : ConsCell} (h' : HeapState), WfCell κ k c →
    h'.heap = (h.setCell i c).heap → h'.freelist = (h.cell i).cdr → h'.heapSize = h.heapSize →
    Grows κ h (κ.alloc i k) h' ∧ WfHeap (κ.alloc i k) h'

/-- **Allocation**: the free list is empty, or its first cell can be taken. -/
theorem WfHeap.alloc_cases (hh : WfHeap κ h) :
    h.freelist = NIL ∨ ∃ i, h.freelist = cellPtr i ∧ i < 2 ^ 23 ∧ Fills κ h i := by
  obtain ⟨l, hl, hdom⟩ := hh.free
  rcases hl.cases with ⟨hfl, -⟩ | ⟨i, l', rfl, hfl, hi, hrest⟩
  · exact Or.inl hfl
  · have haddr := hl.addressable
    have hfits := hl.fits
    refine Or.inr ⟨i, hfl, by omega, ?_⟩
    intro k c h' hc hheap hfree hsize
    have hnone : κ i = none := (hdom i).mpr (Or.inl (by simp))
    obtain ⟨hl', -⟩ := hl.take hrest hheap hfree hsize
    have hcell : ∀ j, h'.cell j = if i = j then c else h.cell j := by
      intro j
      rw [← cell_setCell h (by omega) j c, HeapState.cell, hheap]
      rfl
    have hne : ∀ {j k}, κ j = some k → j ≠ i := by
      intro j k hk hji
      rw [hji, hnone] at hk
      exact absurd hk (by simp)
    -- The cell that is taken had no type, so no typed value sees the write.
    have hg : Grows κ h (κ.alloc i k) h' := by
      refine ⟨fun hk => ?_, fun hk => ?_⟩
      · rw [κ.alloc_ne k (hne hk)]
        exact hk
      · rw [hcell, if_neg (hne hk).symm]
    refine ⟨hg, ⟨l', hl', fun j => ?_⟩, fun j k' hk' => ?_⟩
    · by_cases hji : j = i
      · have hnotin : j ∉ l' := by
          rw [hji]
          exact (List.nodup_cons.mp hl.nodup).1
        rw [hji, HeapTyping.alloc_self, hsize]
        rw [hji] at hnotin
        simp [hnotin, hi]
      · rw [κ.alloc_ne k hji, hdom j, hsize]
        simp [hji]
    · rw [hcell]
      by_cases hji : j = i
      · subst hji
        rw [HeapTyping.alloc_self] at hk'
        cases hk'
        rw [if_pos rfl]
        exact hg.wfCell hc
      · rw [κ.alloc_ne k hji] at hk'
        rw [if_neg (fun he => hji he.symm)]
        exact hg.wfCell (hh.cells j k' hk')

/-- An operation that leaves the cells and the free list alone keeps the heap well formed. -/
theorem WfHeap.of_cells_eq (hh : WfHeap κ h) (h' : HeapState) (hheap : h'.heap = h.heap)
    (hfl : h'.freelist = h.freelist) (hsize : h'.heapSize = h.heapSize) :
    Grows κ h κ h' ∧ WfHeap κ h' := by
  have hcell : ∀ i, h'.cell i = h.cell i := fun i => by rw [HeapState.cell, hheap]; rfl
  obtain ⟨l, hl, hdom⟩ := hh.free
  refine ⟨⟨fun hk => hk, fun _ => hcell _⟩, ⟨l, ⟨?_, hl.nodup, ?_, ?_⟩, ?_⟩, ?_⟩
  · rw [hfl]
    exact hl.chain.congr hsize fun i _ => by rw [hcell]
  · rw [hsize, hheap]
    exact hl.fits
  · rw [hsize]
    exact hl.addressable
  · rw [hsize]
    exact hdom
  · intro i k hk
    rw [hcell]
    exact hh.cells i k hk

/-! ## Reading cells -/

/-- The car of a cons pointer is a value. -/
theorem WfValue.car_of_cons (hh : WfHeap κ h) (hv : WfValue κ v) (ht : typeOf v = ptrTypeCons) :
    WfValue κ (refCell h v).car ∧ WfValue κ (refCell h v).cdr := by
  rcases hv.tagged (isPtr_of_typeOf_cons ht) with hind | ⟨k, hk, htk⟩
  · rw [ht] at hind
    exact absurd hind (by decide)
  · rw [ht] at htk
    have hcell := hh.cells _ k hk
    cases k with
    | cons => exact hcell
    | boxedI => exact absurd htk (by decide)
    | boxedU => exact absurd htk (by decide)
    | boxedF => exact absurd htk (by decide)
    | array => exact absurd htk (by decide)

theorem cdr_of_typeOf_cons (ht : typeOf v = ptrTypeCons) : cdr h v = (refCell h v).cdr := by
  have hne : ¬(ptrTypeCons = valTypeSymbol) := by decide
  simp [cdr, ht, hne]

theorem wfValue_cdr (hh : WfHeap κ h) (hv : WfValue κ v) : WfValue κ (cdr h v) := by
  by_cases ht : typeOf v = ptrTypeCons
  · rw [cdr_of_typeOf_cons ht]
    exact (hv.car_of_cons hh ht).2
  · unfold cdr
    split
    · exact hv
    · rw [if_neg (by simp [ht])]
      exact wfValue_encSym κ _

/-- `car` is a value if the word it reads through a pointer of another type than cons is one. -/
theorem wfValue_car (hh : WfHeap κ h) (hv : WfValue κ v)
    (hraw : isPtr v = true → typeOf v ≠ ptrTypeCons → WfValue κ (refCell h v).car) :
    WfValue κ (car h v) := by
  by_cases hp : isPtr v = true
  · rw [car_of_isPtr hp]
    by_cases ht : typeOf v = ptrTypeCons
    · exact (hv.car_of_cons hh ht).1
    · exact hraw hp ht
  · unfold car
    split
    · exact hv
    · exact wfValue_encSym κ _

/-! ## Building cells -/

theorem cons_yields (hh : WfHeap κ h) {a d : VALUE} (ha : WfValue κ a) (hd : WfValue κ d) :
    Yields κ h (cons a d h) := by
  rcases hh.alloc_cases with hfl | ⟨i, hfl, hi, hfill⟩
  · rw [cons_of_nil hfl]
    exact Yields.same hh (wfValue_encSym κ _)
  · have hty : typeOf h.freelist = ptrTypeCons := by rw [hfl]; exact typeOf_cellPtr hi
    have hix : ptrIx h.freelist = i := by rw [hfl]; exact ptrIx_cellPtr hi
    rw [cons_of_cons hty, refCell, hix, hfl]
    have hcell : WfCell κ .cons ⟨a, d⟩ := ⟨ha, hd⟩
    obtain ⟨hg, hh'⟩ := hfill { h.setCell i ⟨a, d⟩ with
      freelist := (h.cell i).cdr, numAlloc := h.numAlloc + 1#32 } hcell rfl rfl rfl
    exact ⟨_, hg, hh', (ptrWord_cellPtr hi).wfValue (κ.alloc_self i .cons)⟩

/-- A word is boxed in a fresh cell of the kind. -/
theorem encBoxed_yields (hh : WfHeap κ h) {k : CellKind} {s : UINT} (hs : k.typeSymbol = some s)
    (x : UINT) : Yields κ h (encBoxed s k.ptrType x h) := by
  rcases hh.alloc_cases with hfl | ⟨i, hfl, hi, hfill⟩
  · have hm : typeOf (encSym symreprMerror) = valTypeSymbol := by decide
    rw [encBoxed, cons_of_nil hfl]
    simp only [hm, beq_self_eq_true, if_true]
    exact Yields.same hh (wfValue_encSym κ _)
  · have hty : typeOf h.freelist = ptrTypeCons := by rw [hfl]; exact typeOf_cellPtr hi
    have hix : ptrIx h.freelist = i := by rw [hfl]; exact ptrIx_cellPtr hi
    have hne : ¬(ptrTypeCons = valTypeSymbol) := by decide
    rw [encBoxed, cons_of_cons hty, refCell, hix]
    simp only [hty, beq_iff_eq, hne, if_false]
    have hcell : WfCell κ k ⟨x, encSym s⟩ := by
      rw [WfCell, hs]
    obtain ⟨hg, hh'⟩ := hfill { h.setCell i ⟨x, encSym s⟩ with
      freelist := (h.cell i).cdr, numAlloc := h.numAlloc + 1#32 } hcell rfl rfl rfl
    have hmask : k.ptrType &&& ptrTypeMask = k.ptrType := by cases k <;> decide
    have hp := ptrWord_setPtrType h.freelist hmask
    rw [hix] at hp
    exact ⟨_, hg, hh', hp.wfValue (κ.alloc_self i k)⟩

theorem encBoxedI_yields (hh : WfHeap κ h) (x : UINT) : Yields κ h (encBoxedI x h) :=
  encBoxed_yields (k := .boxedI) hh rfl x

theorem encBoxedU_yields (hh : WfHeap κ h) (x : UINT) : Yields κ h (encBoxedU x h) :=
  encBoxed_yields (k := .boxedU) hh rfl x

theorem encBoxedF_yields (hh : WfHeap κ h) (x : UINT) : Yields κ h (encBoxedF x h) :=
  encBoxed_yields (k := .boxedF) hh rfl x

/-- An array is a fresh cell; where the memory manager has no block for its data, the cell is
left behind as an empty cons cell. -/
theorem heapAllocateArray_yields (hh : WfHeap κ h) {size : UINT} {ty : TYPE} {res : UINT}
    {w : Option VALUE} (hres : heapAllocateArray size ty h = some (res, w, h')) :
    ∃ κ', Grows κ h κ' h' ∧ WfHeap κ' h' ∧ ∀ v, w = some v → WfValue κ' v := by
  unfold heapAllocateArray at hres
  rcases hh.alloc_cases with hfl | ⟨i, hfl, hi, hfill⟩
  · have hm : typeOf (encSym symreprMerror) = valTypeSymbol := by decide
    rw [heapAllocateCell_of_nil hfl] at hres
    simp only [hm, beq_self_eq_true, if_true] at hres
    cases hres
    exact ⟨κ, Grows.refl κ h, hh, by simp⟩
  · have hty : typeOf h.freelist = ptrTypeCons := by rw [hfl]; exact typeOf_cellPtr hi
    have hix : ptrIx h.freelist = i := by rw [hfl]; exact ptrIx_cellPtr hi
    have hne : ¬(ptrTypeCons = valTypeSymbol) := by decide
    rw [heapAllocateCell_of_cons hty, or_ptrTypeCons_eq_self hty, refCell, hix] at hres
    simp only [hty, beq_iff_eq, hne, if_false] at hres
    split at hres
    · next m _ =>
      cases hres
      -- No block for the data: the cell stays behind with two `nil`s.
      have hcell : WfCell κ .cons ⟨NIL, NIL⟩ := ⟨wfValue_nil κ, wfValue_nil κ⟩
      obtain ⟨hg, hh'⟩ := hfill { h.setCell i ⟨NIL, NIL⟩ with
        freelist := (h.cell i).cdr, numAlloc := h.numAlloc + 1#32, memory := m } hcell rfl rfl rfl
      exact ⟨_, hg, hh', by simp⟩
    · next array m _ =>
      -- The block has a header; its contents are no values of the heap.
      obtain ⟨m₁, -, hres⟩ := Option.bind_eq_some_iff.mp hres
      obtain ⟨m₂, -, hres⟩ := Option.bind_eq_some_iff.mp hres
      cases hres
      obtain ⟨hheap, hfree, hsize⟩ := setCar_setCdr_heap (a := array)
        (d := encSym defReprArrayType) (g := { h.setCell i ⟨NIL, NIL⟩ with
          freelist := (h.cell i).cdr, numAlloc := h.numAlloc + 1#32, memory := m₂ }) hty
      rw [hix] at hheap
      have hcell : WfCell κ .array ⟨array, encSym defReprArrayType⟩ := rfl
      have hset : ((h.setCell i ⟨NIL, NIL⟩).setCell i ⟨array, encSym defReprArrayType⟩).heap
          = (h.setCell i ⟨array, encSym defReprArrayType⟩).heap := by
        rw [setCell_setCell]
      refine ⟨κ.alloc i .array, ?_⟩
      rw [← and_assoc]
      refine ⟨hfill _ hcell (hheap.trans hset) hfree hsize, fun v hv => ?_⟩
      cases hv
      rw [hfl]
      exact (ptrWord_or_array hi).wfValue (κ.alloc_self i .array)

/-! ## The operations -/

section Operations

variable {fo : FloatOps} {args : List VALUE} {nargs : UINT} {st : SymbolTable}

theorem ArithRes.enc_yields (hh : WfHeap κ h) {r : ArithRes}
    (hr : ∀ w, r = .error w → WfValue κ w) {e : UINT → HeapState → VALUE × HeapState}
    (he : ∀ x, Yields κ h (e x h)) (hres : r.enc e h = some (v, h')) : Yields κ h (v, h') := by
  cases r with
  | word x => exact (he x).of_some hres
  | error w => exact (Yields.same hh (hr w rfl)).of_some hres
  | trap => exact absurd hres (by simp [ArithRes.enc])

/-- The only values an operation on two words returns as such are symbols. -/
def OnlySymbols (f : UINT → UINT → ArithRes) : Prop :=
  ∀ x y w, f x y = .error w → ∃ s, w = encSym s

theorem onlySymbols_word (f : UINT → UINT → UINT) : OnlySymbols fun x y => .word (f x y) := by
  intro x y w hw
  exact absurd hw (by simp)

theorem onlySymbols_divI (f : UINT → UINT → UINT) : OnlySymbols (divI f) := by
  intro x y w hw
  unfold divI at hw
  split at hw
  · exact ⟨symreprDivzero, (ArithRes.error.inj hw).symm⟩
  · split at hw <;> exact absurd hw (by simp)

theorem onlySymbols_divU (f : UINT → UINT → UINT) : OnlySymbols (divU f) := by
  intro x y w hw
  unfold divU at hw
  split at hw
  · exact ⟨symreprDivzero, (ArithRes.error.inj hw).symm⟩
  · exact absurd hw (by simp)

theorem arithSwitch_yields (hh : WfHeap κ h) {onI onU onF : UINT → UINT → ArithRes}
    (hI : OnlySymbols onI) (hU : OnlySymbols onU) (hF : OnlySymbols onF)
    {asBI : HeapState → VALUE → UINT} {tMin tMax : VALUE}
    (hres : arithSwitch fo onI onU onF asBI tMin tMax h = some (v, h')) : Yields κ h (v, h') := by
  have hsym : ∀ {f : UINT → UINT → ArithRes}, OnlySymbols f → ∀ x y w, f x y = .error w →
      WfValue κ w := by
    intro f hf x y w hw
    obtain ⟨s, rfl⟩ := hf x y w hw
    exact wfValue_encSym κ s
  unfold arithSwitch at hres
  refine of_ite_eq hres (fun _ => ArithRes.enc_yields hh (hsym hI _ _) fun x =>
    Yields.same hh (wfValue_encI κ x)) fun hres => ?_
  refine of_ite_eq hres (fun _ => ArithRes.enc_yields hh (hsym hU _ _) fun x =>
    Yields.same hh (wfValue_encU κ x)) fun hres => ?_
  refine of_ite_eq hres (fun _ => ArithRes.enc_yields hh (hsym hU _ _) (encBoxedU_yields hh))
    fun hres => ?_
  refine of_ite_eq hres (fun _ => ArithRes.enc_yields hh (hsym hI _ _) (encBoxedI_yields hh))
    fun hres => ?_
  refine of_ite_eq hres (fun _ => ArithRes.enc_yields hh (hsym hF _ _) (encBoxedF_yields hh))
    fun hres => ?_
  exact (Yields.same hh (wfValue_encSym κ _)).of_some hres

/-- A two-operand operation whose results are values, whatever its operands. -/
def BinaryYields (f : VALUE → VALUE → HeapState → Option (VALUE × HeapState)) : Prop :=
  ∀ {κ a b h v h'}, WfHeap κ h → f a b h = some (v, h') → Yields κ h (v, h')

theorem add2_yields : BinaryYields (add2 fo) := by
  intro κ a b h v h' hh hres
  unfold add2 at hres
  refine of_ite_eq hres (fun _ => (Yields.same hh (wfValue_encSym κ _)).of_some) ?_
  exact arithSwitch_yields hh (onlySymbols_word _) (onlySymbols_word _) (onlySymbols_word _)

theorem mul2_yields : BinaryYields (mul2 fo) := by
  intro κ a b h v h' hh hres
  unfold mul2 at hres
  exact arithSwitch_yields hh (onlySymbols_word _) (onlySymbols_word _) (onlySymbols_word _) hres

theorem div2_yields : BinaryYields (div2 fo) := by
  intro κ a b h v h' hh hres
  unfold div2 at hres
  refine arithSwitch_yields hh (onlySymbols_divI _) (onlySymbols_divU _) (fun x y w hw => ?_) hres
  refine of_ite_eq hw (fun _ hw => ⟨symreprDivzero, (ArithRes.error.inj hw).symm⟩) fun hw => ?_
  exact absurd hw (by simp)

theorem mod2_yields : BinaryYields (mod2 fo) := by
  intro κ a b h v h' hh hres
  unfold mod2 at hres
  refine arithSwitch_yields hh (onlySymbols_divI _) (onlySymbols_divU _) (fun x y w hw => ?_) hres
  exact ⟨symreprTerror, (ArithRes.error.inj hw).symm⟩

theorem sub2_yields : BinaryYields (sub2 fo) := by
  intro κ a b h v h' hh hres
  unfold sub2 at hres
  refine of_ite_eq hres (fun _ => ?_) (Yields.same hh (wfValue_encSym κ _)).of_some
  exact arithSwitch_yields hh (onlySymbols_word _) (onlySymbols_word _) (onlySymbols_word _)

theorem negate_yields (hh : WfHeap κ h) (a : VALUE) : Yields κ h (negate fo a h) := by
  unfold negate
  simp only
  split_ifs
  · exact Yields.same hh (wfValue_encI κ _)
  · exact Yields.same hh (wfValue_encU κ _)
  · exact encBoxedU_yields hh _
  · exact encBoxedI_yields hh _
  · exact encBoxedF_yields hh _
  · exact Yields.same hh (wfValue_encSym κ _)
  · exact Yields.same hh (wfValue_encSym κ _)

theorem foldArgs_yields {f : VALUE → VALUE → HeapState → Option (VALUE × HeapState)}
    (hf : BinaryYields f) : ∀ {as : List VALUE} {acc : VALUE} {κ : HeapTyping} {h : HeapState},
    WfHeap κ h → WfValue κ acc → foldArgs f as acc h = some (v, h') → Yields κ h (v, h') := by
  intro as
  induction as with
  | nil =>
    intro acc κ h hh hacc hres
    exact (Yields.same hh hacc).of_some hres
  | cons a as ih =>
    intro acc κ h hh hacc hres
    unfold foldArgs at hres
    split at hres
    · exact absurd hres (by simp)
    · next acc' h₁ hstep =>
      obtain ⟨κ₁, hg, hh₁, hacc₁⟩ := hf hh hstep
      refine of_ite_eq hres (fun _ hres => ?_) fun hres => ?_
      · exact Yields.of_some ⟨κ₁, hg, hh₁, hacc₁⟩ hres
      · exact Yields.of_grows hg (ih hh₁ hacc₁ hres)

theorem consAll_yields : ∀ {ws : List VALUE} {result : VALUE} {κ : HeapTyping} {h : HeapState},
    WfHeap κ h → (∀ w ∈ ws, WfValue κ w) → WfValue κ result →
    Yields κ h (consAll ws result h) := by
  intro ws
  induction ws with
  | nil =>
    intro result κ h hh _ hr
    exact Yields.same hh hr
  | cons w ws ih =>
    intro result κ h hh hws hr
    obtain ⟨κ₁, hg, hh₁, hr₁⟩ := cons_yields hh (hws w (by simp)) hr
    rw [consAll]
    simp only
    split
    · exact ⟨κ₁, hg, hh₁, hr₁⟩
    · exact Yields.of_grows hg
        (ih hh₁ (fun w' hw' => hg.wfValue (hws w' (List.mem_cons_of_mem w hw'))) hr₁)

/-! ### `append` -/

/-- `a` starts with `n` cons cells. -/
def Spine (κ : HeapTyping) (h : HeapState) : VALUE → Nat → Prop
  | _, 0 => True
  | a, n + 1 => WfValue κ a ∧ typeOf a = ptrTypeCons ∧ Spine κ h (cdr h a) n

theorem spine_of_lengthLoop (hh : WfHeap κ h) : ∀ {fuel len n : Nat} {a : VALUE},
    WfValue κ a → lengthLoop h fuel a len = some n → len ≤ n ∧ Spine κ h a (n - len) := by
  intro fuel
  induction fuel with
  | zero => intro len n a _ hlen; exact absurd hlen (by simp [lengthLoop])
  | succ fuel ih =>
    intro len n a ha hlen
    unfold lengthLoop at hlen
    split at hlen
    · next ht =>
      have ht : typeOf a = ptrTypeCons := by simpa using ht
      obtain ⟨hle, hrest⟩ := ih (wfValue_cdr hh ha) hlen
      refine ⟨by omega, ?_⟩
      rw [show n - len = n - (len + 1) + 1 by omega]
      exact ⟨ha, ht, hrest⟩
    · cases hlen
      rw [Nat.sub_self]
      exact ⟨le_refl _, trivial⟩

/-- The cells of a list are allocated, so they stay as they are. -/
theorem Spine.grow (hg : Grows κ h κ' h') : ∀ {n : Nat} {a : VALUE}, Spine κ h a n →
    Spine κ' h' a n := by
  intro n
  induction n with
  | zero => intro a _; trivial
  | succ n ih =>
    intro a hs
    obtain ⟨ha, ht, hrest⟩ := hs
    refine ⟨hg.wfValue ha, ht, ?_⟩
    have hcdr : cdr h' a = cdr h a := by
      rw [cdr_of_typeOf_cons ht, cdr_of_typeOf_cons ht]
      rcases ha.tagged (isPtr_of_typeOf_cons ht) with hind | ⟨k, hk, -⟩
      · rw [ht] at hind
        exact absurd hind (by decide)
      · rw [refCell, hg.cell hk, refCell]
    rw [hcdr]
    exact ih hrest

theorem Spine.wfValue_indexList (hh : WfHeap κ h) : ∀ {n i : Nat} {a : VALUE}, Spine κ h a n →
    i < n → WfValue κ (indexList h a i) := by
  intro n
  induction n with
  | zero => intro i a _ hi; exact absurd hi (by omega)
  | succ n ih =>
    intro i a hs hi
    obtain ⟨ha, ht, hrest⟩ := hs
    cases i with
    | zero =>
      rw [indexList]
      exact wfValue_car hh ha fun _ hne => absurd ht hne
    | succ i =>
      rw [indexList, if_pos (by simp [ht])]
      exact ih hrest (by omega)

theorem appendLoop_yields {a : VALUE} {n : Nat} : ∀ {i : Nat} {result : VALUE} {κ : HeapTyping}
    {h : HeapState}, i ≤ n → WfHeap κ h → Spine κ h a n → WfValue κ result →
    Yields κ h (appendLoop a i result h) := by
  intro i
  induction i with
  | zero =>
    intro result κ h _ hh _ hr
    exact Yields.same hh hr
  | succ i ih =>
    intro result κ h hi hh hs hr
    obtain ⟨κ₁, hg, hh₁, hr₁⟩ := cons_yields hh (hs.wfValue_indexList hh hi) hr
    rw [appendLoop]
    simp only
    split
    · exact ⟨κ₁, hg, hh₁, hr₁⟩
    · exact Yields.of_grows hg (ih (by omega) hh₁ (hs.grow hg) hr₁)

/-! ### Strings and arrays -/

theorem symbolToString_yields (hh : WfHeap κ h)
    (hres : symbolToString args nargs st h = some (v, h')) : Yields κ h (v, h') := by
  have hsym : ∀ {κ h s}, WfHeap κ h → Yields κ h (encSym s, h) := fun hh =>
    Yields.same hh (wfValue_encSym _ _)
  unfold symbolToString at hres
  refine of_ite_eq hres (fun _ => (hsym hh).of_some) fun hres => ?_
  obtain ⟨symStr, -, hres⟩ := Option.bind_eq_some_iff.mp hres
  split at hres
  · exact (hsym hh).of_some hres
  · obtain ⟨⟨res, w, h₁⟩, harr, hres⟩ := Option.bind_eq_some_iff.mp hres
    obtain ⟨κ₁, hg, hh₁, hw⟩ := heapAllocateArray_yields hh harr
    refine Yields.of_grows hg (of_ite_eq hres (fun _ hres => ?_) (hsym hh₁).of_some)
    obtain ⟨w', hw', hres⟩ := Option.bind_eq_some_iff.mp hres
    refine of_ite_eq hres (fun _ => (hsym hh₁).of_some) fun hres => ?_
    obtain ⟨m, -, hres⟩ := Option.bind_eq_some_iff.mp hres
    obtain ⟨hg', hh'⟩ := hh₁.of_cells_eq { h₁ with memory := m } rfl rfl rfl
    exact Yields.of_some ⟨κ₁, hg', hh', hw w' hw'⟩ hres

theorem stringToSymbol_yields {st' : SymbolTable} (hh : WfHeap κ h)
    (hres : stringToSymbol args nargs st h = some (v, h', st')) : Yields κ h (v, h') := by
  have hsym : ∀ {m s}, Yields κ h (encSym s, { h with memory := m }) := by
    intro m s
    obtain ⟨hg, hh'⟩ := hh.of_cells_eq { h with memory := m } rfl rfl rfl
    exact ⟨κ, hg, hh', wfValue_encSym κ s⟩
  unfold stringToSymbol at hres
  split at hres
  · cases hres
    exact hsym
  · obtain ⟨eltType, -, hres⟩ := Option.bind_eq_some_iff.mp hres
    split at hres
    · cases hres
      exact hsym
    · obtain ⟨str, -, hres⟩ := Option.bind_eq_some_iff.mp hres
      obtain ⟨found, -, hres⟩ := Option.bind_eq_some_iff.mp hres
      split at hres
      · cases hres
        exact hsym
      · obtain ⟨⟨added, m, st₁⟩, -, hres⟩ := Option.bind_eq_some_iff.mp hres
        simp only at hres
        split at hres
        · cases hres
          exact hsym
        · cases hres
          exact hsym

theorem arrayIndex_inr {index err : VALUE} (hix : arrayIndex h index = .inr err) :
    ∃ s, err = encSym s := by
  have herr : ∀ {s}, (Sum.inr (encSym s) : UINT ⊕ VALUE) = .inr err → ∃ s, err = encSym s :=
    fun {s} he => ⟨s, (Sum.inr.inj he).symm⟩
  have hok : ∀ {x}, (Sum.inl x : UINT ⊕ VALUE) = .inr err → ∃ s, err = encSym s :=
    fun he => absurd he (by simp)
  unfold arrayIndex at hix
  refine of_ite_eq hix (fun _ => hok) fun hix => ?_
  refine of_ite_eq hix (fun _ hix => of_ite_eq hix (fun _ => herr) hok) fun hix => ?_
  refine of_ite_eq hix (fun _ => hok) fun hix => ?_
  exact of_ite_eq hix (fun _ hix => of_ite_eq hix (fun _ => herr) hok) herr

theorem arrayRead_yields (hh : WfHeap κ h) (hres : arrayRead args h = some (v, h')) :
    Yields κ h (v, h') := by
  have hsym : ∀ {s}, some (encSym s, h) = some (v, h') → Yields κ h (v, h') :=
    (Yields.same hh (wfValue_encSym κ _)).of_some
  unfold arrayRead at hres
  simp only at hres
  split at hres
  · next err herr =>
    obtain ⟨s, rfl⟩ := arrayIndex_inr herr
    exact hsym hres
  · refine of_ite_eq hres (fun _ hres => ?_) hsym
    obtain ⟨eltType, -, hres⟩ := Option.bind_eq_some_iff.mp hres
    obtain ⟨size, -, hres⟩ := Option.bind_eq_some_iff.mp hres
    have hread : ∀ {β : Type} {o : Option β} {f : β → VALUE × HeapState},
        (∀ w, Yields κ h (f w)) → (o.bind fun w => some (f w)) = some (v, h') →
        Yields κ h (v, h') := by
      intro β o f hf hres
      obtain ⟨w, -, hres⟩ := Option.bind_eq_some_iff.mp hres
      exact (hf w).of_some hres
    refine of_ite_eq hres (fun _ => hsym) fun hres => ?_
    refine of_ite_eq hres (fun _ => hread fun b => Yields.same hh (wfValue_encChar κ b))
      fun hres => ?_
    refine of_ite_eq hres (fun _ => hread fun w => Yields.same hh (wfValue_encU κ w))
      fun hres => ?_
    refine of_ite_eq hres (fun _ => hread fun w => Yields.same hh (wfValue_encI κ w))
      fun hres => ?_
    refine of_ite_eq hres (fun _ => hread (encBoxedU_yields hh)) fun hres => ?_
    refine of_ite_eq hres (fun _ => hread (encBoxedI_yields hh)) fun hres => ?_
    exact of_ite_eq hres (fun _ => hread (encBoxedF_yields hh)) hsym

theorem arrayWrite_yields (hh : WfHeap κ h) (hres : arrayWrite args h = some (v, h')) :
    Yields κ h (v, h') := by
  have hsym : ∀ {s}, some (encSym s, h) = some (v, h') → Yields κ h (v, h') :=
    (Yields.same hh (wfValue_encSym κ _)).of_some
  have hwrite : ∀ {o : Option MemoryState} {s},
      (o.bind fun m => some (encSym s, { h with memory := m })) = some (v, h') →
      Yields κ h (v, h') := by
    intro o s hres
    obtain ⟨m, -, hres⟩ := Option.bind_eq_some_iff.mp hres
    obtain ⟨hg, hh'⟩ := hh.of_cells_eq { h with memory := m } rfl rfl rfl
    exact Yields.of_some ⟨κ, hg, hh', wfValue_encSym κ s⟩ hres
  unfold arrayWrite at hres
  simp only at hres
  split at hres
  · next err herr =>
    obtain ⟨s, rfl⟩ := arrayIndex_inr herr
    exact hsym hres
  · refine of_ite_eq hres (fun _ hres => ?_) hsym
    obtain ⟨eltType, -, hres⟩ := Option.bind_eq_some_iff.mp hres
    obtain ⟨size, -, hres⟩ := Option.bind_eq_some_iff.mp hres
    refine of_ite_eq hres (fun _ => hsym) fun hres => ?_
    refine of_ite_eq hres (fun _ => hwrite) fun hres => ?_
    refine of_ite_eq hres (fun _ => hwrite) fun hres => ?_
    refine of_ite_eq hres (fun _ => hwrite) fun hres => ?_
    exact of_ite_eq hres (fun _ => hwrite) hsym

/-! ### Every operation -/

theorem wfValue_getD (hargs : ∀ a ∈ args, WfValue κ a) (i : Nat) :
    WfValue κ (args.getD i 0#32) := by
  rw [List.getD_eq_getElem?_getD]
  rcases hi : args[i]? with _ | a
  · exact wfValue_nil κ
  · exact hargs a (List.mem_of_getElem? hi)

theorem wfValue_ite {p : Prop} [Decidable p] {a b : VALUE} (ha : WfValue κ a) (hb : WfValue κ b) :
    WfValue κ (if p then a else b) := by
  split
  · exact ha
  · exact hb

theorem wfValue_compareExec (κ : HeapTyping) (c : Int) :
    WfValue κ (compareExec fo c args nargs h) := by
  unfold compareExec
  refine wfValue_ite (wfValue_encSym κ _) ?_
  split
  · exact wfValue_encSym κ _
  · exact wfValue_ite (wfValue_encSym κ _) (wfValue_encSym κ _)

theorem wfValue_typeOfExec (κ : HeapTyping) : WfValue κ (typeOfExec args nargs) := by
  unfold typeOfExec
  repeat refine wfValue_ite (wfValue_encSym κ _) ?_
  exact wfValue_encSym κ _

/-- The operations forward no word that is not a value: `car` does not read one through a pointer
that is no cons pointer, and the payload of a symbol indirection fits its field. -/
structure ForwardsValues (κ : HeapTyping) (args : List VALUE) (op : UINT) (h : HeapState) :
    Prop where
  car : op = symCar → isPtr (args.getD 0 0#32) = true → typeOf (args.getD 0 0#32) ≠ ptrTypeCons →
    WfValue κ (refCell h (args.getD 0 0#32)).car
  indirection : op = symMkSymbolIndirect → typeOf (args.getD 0 0#32) = valTypeU →
    decU (args.getD 0 0#32) < 33554432#32 → (decU (args.getD 0 0#32)).toNat < 2 ^ 23

theorem fundamentalHeapExec_yields {op : UINT} (hh : WfHeap κ h)
    (hargs : ∀ a ∈ args, WfValue κ a) (hfwd : ForwardsValues κ args op h)
    (hres : fundamentalHeapExec fo args nargs op st h = some (v, h')) : Yields κ h (v, h') := by
  have harg : ∀ i, WfValue κ (args.getD i 0#32) := wfValue_getD hargs
  have hsame : ∀ {p : Prop} {w : VALUE}, WfValue κ w → p → some (w, h) = some (v, h') →
      Yields κ h (v, h') := fun hw _ => (Yields.same hh hw).of_some
  have hsym : ∀ {p : Prop} {s : UINT}, p → some (encSym s, h) = some (v, h') →
      Yields κ h (v, h') := fun hp => hsame (wfValue_encSym κ _) hp
  -- One line for each operation, in the order of the switch.
  unfold fundamentalHeapExec at hres
  refine of_ite_eq hres ?isFundamental fun hres => ?_
  case isFundamental =>
    exact fun _ hres => of_ite_eq hres hsym fun hres => of_ite_eq hres hsym (hsym trivial)
  refine of_ite_eq hres (fun _ => symbolToString_yields hh) fun hres => ?_
  refine of_ite_eq hres (fun _ hres => of_ite_eq hres (hsame (wfValue_encU κ _)) (hsym trivial))
    fun hres => ?_
  refine of_ite_eq hres (fun _ hres => of_ite_eq hres hsym (hsym trivial)) fun hres => ?_
  refine of_ite_eq hres ?indirection fun hres => ?_
  -- The number may be too large for the field; `ForwardsValues` says that it fits.
  case indirection =>
    refine fun hop hres => of_ite_eq hres (fun hu => ?_) (hsym trivial)
    simp only [Bool.and_eq_true, beq_iff_eq, decide_eq_true_eq] at hop hu
    exact hsame (wfValue_encSymbolIndirection κ (hfwd.indirection hop hu.1 hu.2)) trivial
  refine of_ite_eq hres (fun _ => (cons_yields hh (harg 0) (harg 1)).of_some) fun hres => ?_
  refine of_ite_eq hres ?car fun hres => ?_
  case car =>
    intro hop
    exact hsame (wfValue_car hh (harg 0) (hfwd.car (by simpa using hop))) trivial
  refine of_ite_eq hres (hsame (wfValue_cdr hh (harg 0))) fun hres => ?_
  refine of_ite_eq hres ?list fun hres => ?_
  case list =>
    refine fun _ => (consAll_yields hh (fun w hw => ?_) (wfValue_nil κ)).of_some
    obtain ⟨i, -, rfl⟩ := List.mem_map.mp hw
    exact harg i
  refine of_ite_eq hres ?append fun hres => ?_
  case append =>
    refine fun _ hres => of_ite_eq hres hsym fun hres => ?_
    obtain ⟨n, hlen, hres⟩ := Option.bind_eq_some_iff.mp hres
    have hspine := (spine_of_lengthLoop hh (harg 0) hlen).2
    exact (appendLoop_yields (le_refl n) hh hspine (harg 1)).of_some hres
  refine of_ite_eq hres (fun _ => foldArgs_yields add2_yields hh (harg 0)) fun hres => ?_
  refine of_ite_eq hres (fun _ hres => of_ite_eq hres (fun _ => (negate_yields hh _).of_some)
    (foldArgs_yields sub2_yields hh (harg 0))) fun hres => ?_
  refine of_ite_eq hres (fun _ => foldArgs_yields mul2_yields hh (harg 0)) fun hres => ?_
  refine of_ite_eq hres (fun _ => foldArgs_yields div2_yields hh (harg 0)) fun hres => ?_
  refine of_ite_eq hres (fun _ => foldArgs_yields mod2_yields hh (harg 0)) fun hres => ?_
  refine of_ite_eq hres ?eq fun hres => ?_
  case eq =>
    intro _ hres
    obtain ⟨r, -, hres⟩ := Option.bind_eq_some_iff.mp hres
    cases r with
    | true => exact hsym trivial hres
    | false => exact hsym trivial hres
  refine of_ite_eq hres (hsame (wfValue_compareExec κ 0)) fun hres => ?_
  refine of_ite_eq hres (hsame (wfValue_compareExec κ 1)) fun hres => ?_
  refine of_ite_eq hres (hsame (wfValue_compareExec κ (-1))) fun hres => ?_
  refine of_ite_eq hres (fun _ hres => of_ite_eq hres hsym fun hres =>
    of_ite_eq hres hsym (hsym trivial)) fun hres => ?_
  refine of_ite_eq hres (fun _ => arrayRead_yields hh) fun hres => ?_
  refine of_ite_eq hres (fun _ => arrayWrite_yields hh) fun hres => ?_
  refine of_ite_eq hres hsym fun hres => ?_
  exact of_ite_eq hres (hsame (wfValue_typeOfExec κ)) (hsym trivial)

theorem fundamentalExec_yields {op : VALUE} {st' : SymbolTable} (hh : WfHeap κ h)
    (hargs : ∀ a ∈ args, WfValue κ a) (hfwd : ForwardsValues κ args (decSym op) h)
    (hres : fundamentalExec fo args nargs op st h = some (v, h', st')) : Yields κ h (v, h') := by
  unfold fundamentalExec at hres
  split at hres
  · exact stringToSymbol_yields hh hres
  · split at hres
    · exact absurd hres (by simp)
    · next res h₁ hexec =>
      cases hres
      exact fundamentalHeapExec_yields hh hargs hfwd hexec

/-! ### Divisions that do not trap -/

def NeverTraps (f : UINT → UINT → ArithRes) : Prop := ∀ x y, f x y ≠ .trap

theorem ArithRes.enc_isSome_iff {r : ArithRes} {e : UINT → HeapState → VALUE × HeapState} :
    (r.enc e h).isSome ↔ r ≠ .trap := by
  cases r <;> simp [ArithRes.enc]

theorem divI_eq_trap_iff (f : UINT → UINT → UINT) (x y : UINT) :
    divI f x y = .trap ↔ x = 0x80000000#32 ∧ y = 0xFFFFFFFF#32 := by
  unfold divI
  split
  · next hy => simp [hy]
  · split
    · next hxy => simp [hxy]
    · next hxy => simp [hxy]

/-- The quotient of a 28-bit integer fits. -/
theorem divI_decI_ne_trap (f : UINT → UINT → UINT) (x : VALUE) (y : UINT) :
    divI f (decI x) y ≠ .trap := by
  intro hd
  obtain ⟨hmin, -⟩ := (divI_eq_trap_iff f _ y).mp hd
  -- the two upper bits of a sign-extended number agree
  have h31 := congrArg (fun w : UINT => w[31]) hmin
  have h30 := congrArg (fun w : UINT => w[30]) hmin
  simp [decI, BitVec.getElem_sshiftRight] at h31 h30
  rw [h31] at h30
  exact absurd h30 (by simp)

theorem divU_neverTraps (f : UINT → UINT → UINT) : NeverTraps (divU f) := by
  intro x y hd
  unfold divU at hd
  split at hd <;> exact absurd hd (by simp)

end Operations

/-! ### A boxed number -/

section BoxedThree

/-- Integer stand-ins for the float operations; the calls below use none of them. -/
def noFloats : FloatOps :=
  ⟨fun x _ => x, fun x _ => x, fun x _ => x, fun x _ => x, id, id, id, id, id,
    fun x y => x == y, fun x y => x.ult y⟩

def noMemory : MemoryState := ⟨[], [], 0#32, 0#32, 0#32⟩

/-- Two cells: the first one holds `3u32`, the second one is free. -/
def boxedThreeHeap : HeapState :=
  (encBoxedU 3#32 (heapInit 2 [⟨0#32, 0#32⟩, ⟨0#32, 0#32⟩] noMemory)).2

/-- `3u32`. -/
def boxedThree : VALUE := setPtrType (cellPtr 0) ptrTypeBoxedU

def boxedThreeTyping : HeapTyping := fun i => if i = 0 then some .boxedU else none

theorem wfHeap_boxedThreeHeap : WfHeap boxedThreeTyping boxedThreeHeap := by
  refine ⟨⟨[1], ⟨?_, by simp, by decide, by decide⟩, fun i => ?_⟩, fun i k hk => ?_⟩
  · rw [show boxedThreeHeap.freelist = cellPtr 1 by decide]
    refine .cons (by decide) ?_
    rw [show (boxedThreeHeap.cell 1).cdr = NIL by decide]
    exact .nil
  · rw [boxedThreeTyping, show boxedThreeHeap.heapSize = 2 by decide]
    by_cases hi : i = 0
    · simp [hi]
    · simp only [hi, if_false, List.mem_singleton, true_iff]
      omega
  · rw [boxedThreeTyping] at hk
    split at hk
    · next hi =>
      cases hk
      rw [hi]
      show (boxedThreeHeap.cell 0).cdr = encSym defReprBoxedUType
      decide
    · exact absurd hk (by simp)

theorem wfValue_boxedThree : ∀ a ∈ [boxedThree], WfValue boxedThreeTyping a := by
  intro a ha
  rw [List.mem_singleton.mp ha]
  have hp := ptrWord_setPtrType (cellPtr 0)
    (show CellKind.ptrType .boxedU &&& ptrTypeMask = CellKind.ptrType .boxedU by decide)
  exact hp.wfValue (show boxedThreeTyping (ptrIx (cellPtr 0)) = some .boxedU by decide)

end BoxedThree

end LispBM
