import LispBM.Arrays.Allocation
import LispBM.Fundamental.Integers

/-!
# LispBM — reading and writing arrays (`array_read` and `array_write`)

An array of characters has a byte for each element, any other array a word. `element` is what is
stored at a position, `EltType.word` what is stored of a value, and `EltType.enc` makes a value of
what is stored. `array_read` and `array_write` take the position from an integer of any type.

* `arrayRead_eq`, `arrayWrite_eq` — one access to an array, by the position of the index;
* `storeLaws` — what is written is read back, and nothing else has changed.
-/

namespace LispBM

open BlockLayout

/-! ## Element types -/

/-- The types of elements. -/
inductive EltType where
  | char
  | int (t : IntType)
  | float
  deriving DecidableEq

namespace EltType

/-- The type in the header of an array, and of its elements. -/
def code : EltType → TYPE
  | char => valTypeChar
  | int t => t.code
  | float => ptrTypeBoxedF

/-- The elements that are read into a cell. -/
def boxed : EltType → Bool
  | char => false
  | int t => t.boxed
  | float => true

/-- The word or byte that is stored of a value. -/
def word (t : EltType) (h : HeapState) (v : VALUE) : UINT :=
  match t with
  | char => (decChar v).setWidth 32
  | int t => t.word h v
  | float => car h v

/-- The value that is read. -/
def enc : EltType → UINT → HeapState → VALUE × HeapState
  | char, w, h => (encChar (w.setWidth 8), h)
  | int t, w, h => t.enc w h
  | float, w, h => encBoxedF w h

end EltType

/-- What is stored at a position of an array in the block `b`. -/
def element (m : MemoryState) (b : Block) (t : EltType) (k : Nat) : UINT :=
  match t with
  | .char => (byteAt m (4 * b.start + 8 + k)).setWidth 32
  | _ => wordAt m (b.start + 2 + k)

variable {n : Nat} {h h' : HeapState} {l : List Nat} {L : Layout n} {size ix : UINT} {t : EltType}
  {arr index val : VALUE} {b : Block} {m m' : MemoryState}

/-! ## Positions -/

/-- The index is an integer of some type, and its value is the position `k`. -/
def IndexOf (h : HeapState) (index : VALUE) (k : Nat) : Prop :=
  ∃ t : IntType, typeOf index = t.code ∧ t.value (t.word h index) = (k : Int)

theorem IntType.code_injective {s t : IntType} (h : s.code = t.code) : s = t := by
  cases s <;> cases t <;> first | rfl | exact absurd h (by decide)

theorem indexOf_iff {t : IntType} (ht : typeOf index = t.code) {k : Nat} :
    IndexOf h index k ↔ t.value (t.word h index) = (k : Int) := by
  constructor
  · intro ⟨s, hs, hk⟩
    rwa [IntType.code_injective (ht.symm.trans hs)]
  · intro hk
    exact ⟨t, ht, hk⟩

theorem arrayIndex_of_code {t : IntType} (ht : typeOf index = t.code) :
    arrayIndex h index = if t.signed && (t.word h index).slt 0#32 then .inr (encSym symreprEerror)
      else .inl (t.word h index) := by
  unfold arrayIndex
  rw [ht]
  cases t <;> rfl

theorem arrayIndex_of_ne (hty : ∀ t : IntType, typeOf index ≠ t.code) :
    arrayIndex h index = .inr (encSym symreprNil) := by
  have hi := hty .i28
  have hu := hty .u28
  have hI := hty .i32
  have hU := hty .u32
  simp only [IntType.code] at hi hu hI hU
  simp [arrayIndex, hi, hu, hI, hU]

/-- An index stands for a position, or an error symbol is returned. -/
theorem arrayIndex_cases (h : HeapState) (index : VALUE) :
    (∃ ix, arrayIndex h index = .inl ix ∧ ∀ k, IndexOf h index k ↔ k = ix.toNat)
      ∨ ∃ s, arrayIndex h index = .inr (encSym s) ∧ encSym s ≠ encSym symreprTrue
        ∧ ∀ k, ¬IndexOf h index k := by
  by_cases hty : ∃ t : IntType, typeOf index = t.code
  · obtain ⟨t, ht⟩ := hty
    generalize hw : t.word h index = w
    have hix := arrayIndex_of_code (h := h) ht
    rw [hw] at hix
    by_cases hneg : t.signed && w.slt 0#32
    · right
      rw [if_pos hneg] at hix
      refine ⟨symreprEerror, hix, by decide, fun k => ?_⟩
      rw [Bool.and_eq_true, BitVec.slt_zero_iff_msb_cond] at hneg
      have hlt := BitVec.toInt_neg_of_msb_true hneg.2
      rw [indexOf_iff ht, hw, IntType.value, if_pos hneg.1]
      omega
    · left
      rw [if_neg hneg] at hix
      refine ⟨w, hix, fun k => ?_⟩
      rw [indexOf_iff ht, hw, IntType.value]
      split
      · -- a signed word that is not negative
        next hsigned =>
        rw [hsigned, Bool.true_and, BitVec.slt_zero_iff_msb_cond, Bool.not_eq_true] at hneg
        rw [BitVec.toInt_eq_toNat_of_msb hneg]
        omega
      · omega
  · right
    exact ⟨symreprNil, arrayIndex_of_ne fun t ht => hty ⟨t, ht⟩, by decide,
      fun k hk => hty (hk.imp fun t ht => ht.1)⟩

/-! ## Reading -/

theorem byteAddr_data (m : MemoryState) (b : Block) (ix : UINT) :
    byteAddr m (4 * b.start) + 8#32 + ix = byteAddr m (4 * b.start + 8 + ix.toNat) := by
  have hhead : byteAddr m (4 * b.start) + 8#32 = byteAddr m (4 * b.start + 8) :=
    byteAddr_add m (4 * b.start) 8
  rw [hhead, ← byteAddr_add m _ ix.toNat, BitVec.ofNat_toNat, BitVec.setWidth_eq]

theorem wordAddr_data (m : MemoryState) (b : Block) (ix : UINT) :
    byteAddr m (4 * b.start) + 8#32 + 4#32 * ix = byteAddr m (4 * (b.start + 2 + ix.toNat)) := by
  have hhead : byteAddr m (4 * b.start) + 8#32 = byteAddr m (4 * b.start + 8) :=
    byteAddr_add m (4 * b.start) 8
  have hmul : 4#32 * ix = BitVec.ofNat 32 (4 * ix.toNat) := by
    rw [BitVec.ofNat_mul, BitVec.ofNat_toNat, BitVec.setWidth_eq]
  rw [hhead, hmul, byteAddr_add]
  congr 1
  omega

section

variable (hm : Holds h.memory L) (harr : ArrayIn h L b arr t.code size)

include hm harr

/-- The two words of the header. -/
theorem ArrayIn.header :
    readWord h.memory (car h arr) = some t.code
      ∧ readWord h.memory (car h arr + 4#32) = some size := by
  have hroom := harr.room
  have hlt : b.start + 1 < h.memory.memory.length := hm.lt_length harr.block (by omega)
  have hnext : byteAddr h.memory (4 * b.start) + 4#32 = byteAddr h.memory (4 * (b.start + 1)) :=
    byteAddr_add h.memory (4 * b.start) 4
  rw [harr.address, hnext, hm.region.readWord_byteAddr (by omega),
    hm.region.readWord_byteAddr hlt, harr.eltType, harr.sizeWord]
  exact ⟨rfl, rfl⟩

/-- The words and bytes of the elements are in the memory. -/
theorem ArrayIn.inside (hix : ix < size) :
    if t = .char then 4 * b.start + 8 + ix.toNat < 4 * (b.start + b.len)
      ∧ 4 * b.start + 8 + ix.toNat < 4 * h.memory.memory.length
    else b.start + 2 + ix.toNat < b.start + b.len
      ∧ b.start + 2 + ix.toNat < h.memory.memory.length := by
  have hroom := harr.room
  have hlt := hm.lt_length harr.block (i := b.start + b.len - 1)
  have hpos := b.pos
  rw [BitVec.lt_def] at hix
  split
  · next hchar =>
    rw [hchar, elementBytes, if_pos (by decide)] at hroom
    omega
  · next hchar =>
    have hne : (t.code == valTypeChar) = false := by
      cases t with
      | char => exact absurd rfl hchar
      | int t => cases t <;> decide
      | float => decide
    rw [elementBytes, hne, if_neg (by decide)] at hroom
    omega

/-- **Reading** at a position in the range. -/
theorem arrayRead_eq (hix : arrayIndex h index = .inl ix) :
    arrayRead [arr, index] h = some (if size ≤ ix then (encSym symreprNil, h)
      else t.enc (element h.memory b t ix.toNat) h) := by
  obtain ⟨htype, hsize⟩ := harr.header hm
  have hp := harr.pointer
  unfold arrayRead
  simp only [List.getD_cons_zero, List.getD_cons_succ, hix, hp, beq_self_eq_true, if_true, htype,
    hsize, Option.bind_eq_bind, Option.bind_some]
  by_cases hle : size ≤ ix
  · rw [if_pos hle, if_pos hle]
  · rw [if_neg hle, if_neg hle]
    have hin := harr.inside hm (BitVec.not_le.mp hle)
    rw [harr.address, byteAddr_data, wordAddr_data]
    cases t with
    | char =>
      rw [if_pos rfl] at hin
      simp [EltType.code, hm.region.readByte_byteAddr hin.2, element, EltType.enc]
    | int t =>
      rw [if_neg (by simp)] at hin
      cases t <;> simp [EltType.code, IntType.code, hm.region.readWord_byteAddr hin.2, element,
        EltType.enc, IntType.enc, valTypeChar, valTypeU, valTypeI, ptrTypeBoxedI, ptrTypeBoxedU]
    | float =>
      rw [if_neg (by simp)] at hin
      simp [EltType.code, hm.region.readWord_byteAddr hin.2, element, EltType.enc, valTypeChar,
        valTypeU, valTypeI, ptrTypeBoxedI, ptrTypeBoxedU, ptrTypeBoxedF]

end

/-! ## Writing -/

/-- What a write at the position `k` of an array does: the other elements, the header and the other
blocks are as they were. -/
structure WritesElement (m m' : MemoryState) (b : Block) (t : EltType) (k : Nat) (w : UINT) :
    Prop where
  only : m' = { m with memory := m'.memory }
  length : m'.memory.length = m.memory.length
  kept : ∀ i, i < b.start + 2 ∨ b.start + b.len ≤ i → wordAt m' i = wordAt m i
  element : ∀ j, element m' b t j = if j = k then w else LispBM.element m b t j

theorem WritesElement.of_byte {k : Nat} {c : BitVec 8}
    (hw : WritesBytes m m' (4 * b.start + 8 + k) [c])
    (hin : 4 * b.start + 8 + k < 4 * (b.start + b.len)) :
    WritesElement m m' b .char k (c.setWidth 32) := by
  refine ⟨hw.only, hw.length, fun i hi => hw.word i ?_, fun j => ?_⟩
  · rw [List.length_singleton]
    omega
  · show (byteAt m' (4 * b.start + 8 + j)).setWidth 32 = _
    rw [hw.byte, List.length_singleton]
    by_cases hj : j = k
    · subst hj
      rw [if_pos (by omega), if_pos rfl, Nat.sub_self]
      rfl
    · rw [if_neg (by omega), if_neg hj]
      rfl

theorem WritesElement.of_word {k : Nat} {w : UINT} (ht : t ≠ .char)
    (hlt : b.start + 2 + k < m.memory.length) (hin : b.start + 2 + k < b.start + b.len) :
    WritesElement m { m with memory := m.memory.set (b.start + 2 + k) w } b t k w := by
  have helem : ∀ m : MemoryState, ∀ j, LispBM.element m b t j = wordAt m (b.start + 2 + j) := by
    intro m j
    cases t with
    | char => exact absurd rfl ht
    | int t => rfl
    | float => rfl
  refine ⟨rfl, List.length_set, fun i hi => ?_, fun j => ?_⟩
  · rw [wordAt_set hlt, if_neg (by omega)]
  · rw [helem, helem, wordAt_set hlt]
    by_cases hj : j = k
    · rw [if_pos (by omega), if_pos hj]
    · rw [if_neg (by omega), if_neg hj]

section

variable (hm : Holds h.memory L) (harr : ArrayIn h L b arr t.code size)

include hm harr

theorem arrayWrite_refused (hix : arrayIndex h index = .inl ix)
    (hno : typeOf val ≠ t.code ∨ size ≤ ix) :
    arrayWrite [arr, index, val] h = some (encSym symreprNil, h) := by
  obtain ⟨htype, hsize⟩ := harr.header hm
  have hp := harr.pointer
  have hno' : (typeOf val != t.code || size ≤ ix) = true := by simpa using hno
  unfold arrayWrite
  simp only [List.getD_cons_zero, List.getD_cons_succ, hix, hp, beq_self_eq_true, if_true, htype,
    hsize, Option.bind_eq_bind, Option.bind_some]
  simp [hno']

/-- **Writing** at a position in the range. -/
theorem arrayWrite_accepted (hix : arrayIndex h index = .inl ix) (hval : typeOf val = t.code)
    (hlt : ix < size) :
    ∃ m', arrayWrite [arr, index, val] h = some (encSym symreprTrue, { h with memory := m' })
      ∧ WritesElement h.memory m' b t ix.toNat (t.word h val) := by
  obtain ⟨htype, hsize⟩ := harr.header hm
  have hp := harr.pointer
  have hin := harr.inside hm hlt
  have hle : ¬size ≤ ix := BitVec.not_le.mpr hlt
  unfold arrayWrite
  simp only [List.getD_cons_zero, List.getD_cons_succ, hix, hp, beq_self_eq_true, if_true, htype,
    hsize, Option.bind_eq_bind, Option.bind_some]
  rw [harr.address, byteAddr_data, wordAddr_data]
  cases t with
  | char =>
    rw [if_pos rfl] at hin
    obtain ⟨m', hwrite, hw⟩ := hm.region.writeByte_byteAddr hin.2 (decChar val)
    exact ⟨m', by simp [hval, hle, EltType.code, hwrite], .of_byte hw hin.1⟩
  | int t =>
    rw [if_neg (by simp)] at hin
    have hwrite := hm.region.writeWord_byteAddr hin.2 (t.word h val)
    refine ⟨_, ?_, .of_word (by simp) hin.2 hin.1⟩
    cases t <;> simp only [EltType.word, IntType.word] at hwrite ⊢ <;>
      simp [hval, hle, EltType.code, IntType.code, hwrite, valTypeChar, valTypeU, valTypeI,
        ptrTypeBoxedI, ptrTypeBoxedU]
  | float =>
    rw [if_neg (by simp)] at hin
    have hwrite := hm.region.writeWord_byteAddr hin.2 (car h val)
    refine ⟨_, ?_, .of_word (by simp) hin.2 hin.1⟩
    simp [hval, hle, EltType.code, EltType.word, hwrite, valTypeChar, valTypeU, valTypeI,
      ptrTypeBoxedI, ptrTypeBoxedU, ptrTypeBoxedF]

end

theorem WritesElement.holds {k : Nat} {w : UINT} (hw : WritesElement m m' b t k w)
    (hm : Holds m L) :
    Holds m' L := by
  rw [hw.only]
  exact hm.of_memory m'.memory hw.length

/-- The array is still there. -/
theorem WritesElement.arrayIn {k : Nat} {w : UINT} (hw : WritesElement h.memory m' b t k w)
    (harr : ArrayIn h L b arr t.code size) :
    ArrayIn { h with memory := m' } L b arr t.code size := by
  have haddr : byteAddr m' (4 * b.start) = byteAddr h.memory (4 * b.start) := by
    rw [hw.only]
    rfl
  refine ⟨harr.pointer, harr.block, harr.address.trans haddr.symm, ?_, ?_, harr.room⟩
  · exact (hw.kept b.start (by omega)).trans harr.eltType
  · exact (hw.kept (b.start + 1) (by omega)).trans harr.sizeWord

/-! ## Values -/

/-- The value `v` that was read is the value `v'` that was written: the type is the same, and the
contents. Where the value is not in a cell it is the same word. -/
structure SameValue (t : EltType) (h : HeapState) (v : VALUE) (h' : HeapState) (v' : VALUE) :
    Prop where
  type : typeOf v = typeOf v'
  content : t.word h v = t.word h' v'
  word : t.boxed = false → (∃ w, v' = (t.enc w h').1) → v = v'

theorem decU_encU_decU (v : VALUE) : decU (encU (decU v)) = decU v := by
  ext i hi
  simp only [decU, encU, valTypeU]
  interval_cases i <;> simp

theorem decI_encI_decI (v : VALUE) : decI (encI (decI v)) = decI v := by
  ext i hi
  simp only [decI, encI, valTypeI]
  interval_cases i <;> simp [BitVec.getElem_sshiftRight, BitVec.msb, BitVec.getMsbD]

theorem encU_decU_encU (w : UINT) : encU (decU (encU w)) = encU w := by
  ext i hi
  simp only [decU, encU, valTypeU]
  interval_cases i <;> simp

theorem encI_decI_encI (w : UINT) : encI (decI (encI w)) = encI w := by
  ext i hi
  simp only [decI, encI, valTypeI]
  interval_cases i <;> simp [BitVec.getElem_sshiftRight]

theorem sameValue_encBoxed {k : CellKind} (hl : FreeList h l) (hne : l ≠ []) (sy : UINT)
    (hk : t.code = k.ptrType) (hbox : t.boxed = true) (hword : ∀ g v, t.word g v = car g v)
    (hval : typeOf val = t.code) :
    ∃ v g, encBoxed sy k.ptrType (car h val) h = (v, g) ∧ SameValue t g v h val := by
  obtain ⟨i, l', rfl⟩ := List.exists_cons_of_ne_nil hne
  obtain ⟨g, heq, -, -, hty, -, hcar⟩ := encBoxed_of_freeList hl sy (car h val)
  refine ⟨_, g, heq, ?_, ?_, fun himm => ?_⟩
  · rw [hty, hval, hk]
  · rw [hword, hword, hcar]
  · rw [hbox] at himm
    exact absurd himm (by simp)

/-- What is stored of a value is read as that value. -/
theorem EltType.sameValue_enc (hl : FreeList h l) (hfree : t.boxed = true → l ≠ [])
    (hval : typeOf val = t.code) :
    ∃ v g, t.enc (t.word h val) h = (v, g) ∧ SameValue t g v h val := by
  cases t with
  | char =>
    have hchar : ((decChar val).setWidth 32).setWidth 8 = decChar val := by simp
    refine ⟨encChar (decChar val), h, ?_, ?_, ?_, fun _ hw => ?_⟩
    · show (encChar (((decChar val).setWidth 32).setWidth 8), h) = _
      rw [hchar]
    · rw [hval]
      exact typeOf_shift _ (by decide)
    · exact congrArg (BitVec.setWidth 32) (decChar_encChar (decChar val))
    · obtain ⟨w, rfl⟩ := hw
      exact congrArg encChar (decChar_encChar _)
  | int t =>
    cases t with
    | i28 =>
      refine ⟨encI (decI val), h, rfl, ?_, decI_encI_decI val, fun _ hw => ?_⟩
      · rw [hval]
        exact typeOf_shift _ (by decide)
      · obtain ⟨w, rfl⟩ := hw
        exact encI_decI_encI w
    | u28 =>
      refine ⟨encU (decU val), h, rfl, ?_, decU_encU_decU val, fun _ hw => ?_⟩
      · rw [hval]
        exact typeOf_shift _ (by decide)
      · obtain ⟨w, rfl⟩ := hw
        exact encU_decU_encU w
    | i32 =>
      exact sameValue_encBoxed (k := .boxedI) hl (hfree rfl) _ rfl rfl (fun _ _ => rfl) hval
    | u32 =>
      exact sameValue_encBoxed (k := .boxedU) hl (hfree rfl) _ rfl rfl (fun _ _ => rfl) hval
  | float =>
    exact sameValue_encBoxed (k := .boxedF) hl (hfree rfl) _ rfl rfl (fun _ _ => rfl) hval

/-- An allocation of a cell does not depend on the managed memory. -/
theorem encBoxed_memory (hl : FreeList h l) (sy : UINT) (ty : TYPE) (w : UINT) (m : MemoryState) :
    encBoxed sy ty w { h with memory := m }
      = ((encBoxed sy ty w h).1, { (encBoxed sy ty w h).2 with memory := m }) := by
  rcases hl.cases with ⟨hfl, -⟩ | ⟨i, l', -, hfl, hi, -⟩
  · have hsym : (typeOf (encSym symreprMerror) == valTypeSymbol) = true := by decide
    unfold encBoxed
    rw [cons_of_nil hfl, cons_of_nil (h := { h with memory := m }) hfl]
    simp only [hsym, if_true]
  · have haddr := hl.addressable
    have hty : typeOf h.freelist = ptrTypeCons := by
      rw [hfl]
      exact typeOf_cellPtr (by omega)
    have hsym : (ptrTypeCons == valTypeSymbol) = false := by decide
    unfold encBoxed
    rw [cons_of_cons hty, cons_of_cons (h := { h with memory := m }) hty]
    simp only [hty, hsym, Bool.false_eq_true, if_false]
    rfl

theorem EltType.enc_memory (hl : FreeList h l) (t : EltType) (w : UINT) (m : MemoryState) :
    t.enc w { h with memory := m } = ((t.enc w h).1, { (t.enc w h).2 with memory := m }) := by
  cases t with
  | char => rfl
  | int t =>
    cases t with
    | i28 => rfl
    | u28 => rfl
    | i32 => exact encBoxed_memory hl _ _ w m
    | u32 => exact encBoxed_memory hl _ _ w m
  | float => exact encBoxed_memory hl _ _ w m

theorem EltType.word_memory (t : EltType) (h : HeapState) (v : VALUE) (m : MemoryState) :
    t.word { h with memory := m } v = t.word h v := by
  cases t with
  | char => rfl
  | int t => cases t <;> rfl
  | float => rfl

/-! ## The laws -/

/-- The index is in the range of the array. -/
def InRange (h : HeapState) (index : VALUE) (size : UINT) : Prop :=
  ∃ k, k < size.toNat ∧ IndexOf h index k

/-- The laws of an array of `size` elements of type `t`, for an index and a value. -/
structure StoreLaws (h : HeapState) (l : List Nat) (arr : VALUE) (t : EltType) (size : UINT)
    (index val : VALUE) : Prop where
  accepted : InRange h index size → typeOf val = t.code →
    ∃ h', arrayWrite [arr, index, val] h = some (encSym symreprTrue, h')
  written : ∀ h', arrayWrite [arr, index, val] h = some (encSym symreprTrue, h') →
    (t.boxed = true → l ≠ []) →
    ∃ v g, arrayRead [arr, index] h' = some (v, g) ∧ SameValue t g v h val
  others : ∀ h', arrayWrite [arr, index, val] h = some (encSym symreprTrue, h') →
    ∀ index', (∀ k, IndexOf h index k → ¬IndexOf h index' k) →
    ∃ v g, arrayRead [arr, index'] h = some (v, g)
      ∧ arrayRead [arr, index'] h' = some (v, { g with memory := h'.memory })
  refused : ¬(InRange h index size ∧ typeOf val = t.code) →
    ∃ s, arrayWrite [arr, index, val] h = some (encSym s, h) ∧ encSym s ≠ encSym symreprTrue
  outside : ¬InRange h index size → ∃ s, arrayRead [arr, index] h = some (encSym s, h)

section

variable (hl : FreeList h l) (hm : Holds h.memory L) (harr : ArrayIn h L b arr t.code size)

include hm harr

theorem arrayWrite_of_not (hno : ¬(InRange h index size ∧ typeOf val = t.code)) :
    ∃ s, arrayWrite [arr, index, val] h = some (encSym s, h) ∧ encSym s ≠ encSym symreprTrue := by
  rcases arrayIndex_cases h index with ⟨ix, hix, hpos⟩ | ⟨s, hix, hs, -⟩
  · refine ⟨symreprNil, arrayWrite_refused hm harr hix ?_, by decide⟩
    by_contra hok
    rw [not_or, not_not, BitVec.not_le, BitVec.lt_def] at hok
    exact hno ⟨⟨ix.toNat, hok.2, (hpos _).mpr rfl⟩, hok.1⟩
  · exact ⟨s, by simp [arrayWrite, hix], hs⟩

/-- A write that returns `t` was at a position in the range. -/
theorem arrayWrite_inv (hres : arrayWrite [arr, index, val] h = some (encSym symreprTrue, h')) :
    ∃ ix m', arrayIndex h index = .inl ix ∧ (∀ k, IndexOf h index k ↔ k = ix.toNat) ∧ ix < size
      ∧ typeOf val = t.code ∧ h' = { h with memory := m' }
      ∧ WritesElement h.memory m' b t ix.toNat (t.word h val) := by
  have hok : InRange h index size ∧ typeOf val = t.code := by
    by_contra hno
    obtain ⟨s, hno, hs⟩ := arrayWrite_of_not hm harr hno
    rw [hres] at hno
    exact hs (congrArg Prod.fst (Option.some.inj hno)).symm
  obtain ⟨⟨k, hk, hindex⟩, hval⟩ := hok
  rcases arrayIndex_cases h index with ⟨ix, hix, hpos⟩ | ⟨s, -, -, hnone⟩
  · have hlt : ix < size := by
      rw [BitVec.lt_def, ← (hpos k).mp hindex]
      exact hk
    obtain ⟨m', hwrite, hw⟩ := arrayWrite_accepted hm harr hix hval hlt
    rw [hres] at hwrite
    cases hwrite
    exact ⟨ix, m', hix, hpos, hlt, hval, rfl, hw⟩
  · exact absurd hindex (hnone k)

include hl

/-- **The laws of the array store.** -/
theorem storeLaws (index val : VALUE) : StoreLaws h l arr t size index val := by
  constructor
  case accepted =>
    intro ⟨k, hk, hindex⟩ hval
    rcases arrayIndex_cases h index with ⟨ix, hix, hpos⟩ | ⟨s, -, -, hnone⟩
    · have hlt : ix < size := by
        rw [BitVec.lt_def, ← (hpos k).mp hindex]
        exact hk
      obtain ⟨m', hwrite, -⟩ := arrayWrite_accepted hm harr hix hval hlt
      exact ⟨_, hwrite⟩
    · exact absurd hindex (hnone k)
  case written =>
    intro h' hres hfree
    obtain ⟨ix, m', hix, -, hlt, hval, rfl, hw⟩ := arrayWrite_inv hm harr hres
    have hread := arrayRead_eq (h := { h with memory := m' }) (hw.holds hm) (hw.arrayIn harr) hix
    rw [if_neg (BitVec.not_le.mpr hlt), hw.element, if_pos rfl, EltType.enc_memory hl] at hread
    obtain ⟨v, g, heq, hsame⟩ := EltType.sameValue_enc hl hfree hval
    rw [heq] at hread
    exact ⟨v, _, hread, hsame.type, (t.word_memory g v m').trans hsame.content, hsame.word⟩
  case others =>
    intro h' hres index' hne
    obtain ⟨ix, m', hix, hpos, -, -, rfl, hw⟩ := arrayWrite_inv hm harr hres
    have hne := hne ix.toNat ((hpos _).mpr rfl)
    rcases arrayIndex_cases h index' with ⟨ix', hix', hpos'⟩ | ⟨s, hix', -, -⟩
    · rw [hpos'] at hne
      have hread := arrayRead_eq hm harr hix'
      have hread' := arrayRead_eq (h := { h with memory := m' }) (hw.holds hm) (hw.arrayIn harr)
        hix'
      rw [hw.element, if_neg (Ne.symm hne)] at hread'
      by_cases hle : size ≤ ix'
      · rw [if_pos hle] at hread hread'
        exact ⟨_, _, hread, hread'⟩
      · rw [if_neg hle] at hread hread'
        rw [EltType.enc_memory hl] at hread'
        exact ⟨_, _, hread, hread'⟩
    · exact ⟨encSym s, h, by simp [arrayRead, hix'], by
        have hix'' : arrayIndex { h with memory := m' } index' = .inr (encSym s) := hix'
        simp [arrayRead, hix'']⟩
  case refused => exact arrayWrite_of_not hm harr
  case outside =>
    intro hout
    rcases arrayIndex_cases h index with ⟨ix, hix, hpos⟩ | ⟨s, hix, -, -⟩
    · have hle : size ≤ ix := by
        rw [← BitVec.not_lt, BitVec.lt_def]
        exact fun hlt => hout ⟨ix.toNat, hlt, (hpos _).mpr rfl⟩
      have hread := arrayRead_eq hm harr hix
      rw [if_pos hle] at hread
      exact ⟨symreprNil, hread⟩
    · exact ⟨s, by simp [arrayRead, hix]⟩

end

/-- An array of four characters that is made in a small heap has the laws. -/
theorem storeLaws_newArray :
    ∃ v h', heapAllocateArray 4#32 valTypeChar oneCell = some (1#32, some v, h')
      ∧ StoreLaws h' [] v .char 4#32 (encU 2#32) (encChar 0x61#8) := by
  have hl : FreeList oneCell [0] := freeList_of_isFreeList (by decide +kernel)
  have hrun : FreeRun (Layout.empty 16) 0 (blockWords valTypeChar 4#32) :=
    freeRun_empty (by decide)
  rcases heapAllocateArray_cases hl holds_oneCell 4#32 valTypeChar with
    ⟨hnil, -⟩ | ⟨-, hno, -⟩ | ⟨-, hwrap, -⟩ | ⟨-, -, -, v, h', hres, hnew⟩
  · exact absurd hnil (by simp)
  · exact absurd hrun (hno (by decide) 0)
  · exact absurd hwrap not_wraps_char
  · obtain ⟨l', hcons, hl'⟩ := hnew.cell
    obtain ⟨-, rfl⟩ := List.cons.inj hcons
    obtain ⟨b, L', hm', -, -, harr⟩ := hnew.block
    exact ⟨v, h', hres, storeLaws (t := .char) hl' hm' harr _ _⟩

end LispBM
