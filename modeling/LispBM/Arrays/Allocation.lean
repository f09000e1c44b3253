import LispBM.Fundamental.Arguments
import LispBM.Heap.Lists
import LispBM.Tokpar.Sexp

/-!
# LispBM — the allocation of arrays (`src/heap.c`)

`heap_allocate_array` needs a cell and a block of the managed memory, in this order. `ArrayIn` is
what a value of type array has in the heap and in the memory: the cell holds the address of a block
with a header of two words, the element type and the size, and with room for the elements.

* `heapAllocateArray_cases` — without a cell, without a block, and with both;
* `reportsOutcome_iff` — the result tells a caller which of these it was if there is a cell.
-/

namespace LispBM

open BlockLayout

variable {n : Nat} {h h' : HeapState} {l : List Nat} {L : Layout n} {size : UINT} {type : TYPE}
  {v : VALUE} {i : Nat}

/-! ## Arrays -/

/-- The bytes of `size` elements. -/
def elementBytes (type : TYPE) (size : UINT) : Nat :=
  if type == valTypeChar then size.toNat else 4 * size.toNat

/-- `v` is an array whose header and elements are in the block `b`. -/
structure ArrayIn (h : HeapState) (L : Layout n) (b : Block) (v : VALUE) (type : TYPE)
    (size : UINT) : Prop where
  pointer : typeOf v = ptrTypeArray
  block : b ∈ L.blocks
  address : car h v = byteAddr h.memory (4 * b.start)
  eltType : wordAt h.memory b.start = type
  sizeWord : wordAt h.memory (b.start + 1) = size
  room : 8 + elementBytes type size ≤ 4 * b.len

/-- `v` is an array with a fresh cell and a fresh block; the other cells and blocks are as they
were. -/
structure NewArray (h : HeapState) (l : List Nat) (L : Layout n) (size : UINT) (type : TYPE)
    (v : VALUE) (h' : HeapState) : Prop where
  cell : ∃ l', l = ptrIx v :: l' ∧ FreeList h' l'
  kept : ∀ j, j ∉ l → h'.cell j = h.cell j
  block : ∃ b, ∃ L' : Layout n, Holds h'.memory L' ∧ Later h.memory L h'.memory L'
    ∧ (∀ j, b.Covers j → ¬L.Covered j) ∧ ArrayIn h' L' b v type size

/-- Writing the two words of a header. -/
theorem Region.writeWord_writeWord {m : MemoryState} (hm : Region m) {k : Nat}
    (hk : k + 1 < m.memory.length) (w w' : UINT) :
    ∃ memory : List UINT, memory.length = m.memory.length
      ∧ ((writeWord m (byteAddr m (4 * k)) w).bind fun m₁ =>
          writeWord m₁ (byteAddr m (4 * k) + 4#32) w') = some { m with memory := memory }
      ∧ ∀ j, wordAt { m with memory := memory } j
          = if k + 1 = j then w' else if k = j then w else wordAt m j := by
  have hsame := SameRegion.set m k w
  have hk' : k + 1 < ({ m with memory := m.memory.set k w } : MemoryState).memory.length := by
    rw [hsame.length]
    exact hk
  have hnext : byteAddr m (4 * k) + 4#32
      = byteAddr { m with memory := m.memory.set k w } (4 * (k + 1)) :=
    (byteAddr_add m (4 * k) 4).trans (hsame.byteAddr (4 * (k + 1))).symm
  refine ⟨(m.memory.set k w).set (k + 1) w', ?_, ?_, fun j => ?_⟩
  · rw [List.length_set, List.length_set]
  · rw [hm.writeWord_byteAddr (by omega) w, Option.bind_some, hnext]
    exact (hsame.region hm).writeWord_byteAddr hk' w'
  · rw [← wordAt_set (by omega) w]
    exact wordAt_set hk' w' j

theorem car_of_ptrWord {ty : TYPE} (hv : PtrWord v ty i) : car h v = (h.cell i).car := by
  rw [car_of_isPtr hv.isPtr, hv.ptrIx]

/-! ## `heap_allocate_array` -/

/-- The words that are allocated for the elements. -/
def allocateSize (type : TYPE) (size : UINT) : UINT :=
  if type == valTypeChar then
    if size % 4#32 = 0#32 then size >>> 2 else (size >>> 2) + 1#32
  else size

/-- The words of the block, its header included. -/
def blockWords (type : TYPE) (size : UINT) : Nat := (2#32 + allocateSize type size).toNat

/-- The array that the size 4294967295 makes, of other elements than characters: its two header
words and its elements come to one word. -/
def Wraps (type : TYPE) (size : UINT) : Prop :=
  (type == valTypeChar) = false ∧ size = 0xFFFFFFFF#32

/-- The heap with the array in its first free cell. -/
def filledArray (h : HeapState) (i : Nat) (array : UINT) (m : MemoryState) : HeapState :=
  { h.setCell i ⟨array, encSym defReprArrayType⟩ with
    freelist := (h.cell i).cdr
    numAlloc := h.numAlloc + 1#32
    numAllocArrays := h.numAllocArrays + 1#32
    memory := m }

theorem toNat_allocateSize_char (size : UINT) :
    (allocateSize valTypeChar size).toNat = (size.toNat + 3) / 4 := by
  have hlt := size.isLt
  have hchar : (valTypeChar == valTypeChar) = true := by decide
  have hmod : size % 4#32 = 0#32 ↔ size.toNat % 4 = 0 := by
    constructor
    · intro h
      have := congrArg BitVec.toNat h
      rwa [BitVec.toNat_umod] at this
    · intro h
      apply BitVec.eq_of_toNat_eq
      rw [BitVec.toNat_umod]
      exact h
  have hshift : (size >>> 2).toNat = size.toNat / 4 := by
    rw [BitVec.toNat_ushiftRight, Nat.shiftRight_eq_div_pow]
  rw [allocateSize, if_pos hchar]
  by_cases h0 : size.toNat % 4 = 0
  · rw [if_pos (hmod.mpr h0), hshift]
    omega
  · rw [if_neg fun h => h0 (hmod.mp h), BitVec.toNat_add, hshift]
    show (size.toNat / 4 + 1) % 2 ^ 32 = _
    omega

theorem blockWords_char (size : UINT) : blockWords valTypeChar size = 2 + (size.toNat + 3) / 4 := by
  have hlt := size.isLt
  rw [blockWords, BitVec.toNat_add, toNat_allocateSize_char]
  show (2 + (size.toNat + 3) / 4) % 2 ^ 32 = _
  omega

/-- A block has room for the elements, unless the number of its words wrapped. -/
theorem elementBytes_le (hwrap : ¬Wraps type size) (hpos : 0 < blockWords type size) :
    8 + elementBytes type size ≤ 4 * blockWords type size := by
  have hlt := size.isLt
  cases hchar : type == valTypeChar with
  | true =>
    obtain rfl : type = valTypeChar := by simpa using hchar
    rw [blockWords_char, elementBytes, if_pos hchar]
    omega
  | false =>
    have hne : size.toNat ≠ 2 ^ 32 - 1 := fun heq =>
      hwrap ⟨hchar, BitVec.eq_of_toNat_eq heq⟩
    have hwords : blockWords type size = (2 + size.toNat) % 2 ^ 32 := by
      rw [blockWords, allocateSize, hchar, if_neg (by decide), BitVec.toNat_add]
      rfl
    rw [elementBytes, hchar, if_neg (by decide)]
    omega

/-- Without a free cell the result is a symbol. -/
theorem heapAllocateArray_of_nil (hfl : h.freelist = NIL) (size : UINT) (type : TYPE) :
    heapAllocateArray size type h = some (encSym symreprMerror, none, h) := by
  have hsym : (typeOf (encSym symreprMerror) == valTypeSymbol) = true := by decide
  unfold heapAllocateArray
  rw [heapAllocateCell_of_nil hfl]
  simp only [hsym, if_true]

section

variable (hl : FreeList h (i :: l))

include hl

theorem heapAllocateArray_none {m : MemoryState}
    (hmem : memoryAllocate h.memory (2#32 + allocateSize type size) = (none, m)) :
    ∃ h', heapAllocateArray size type h = some (0#32, none, h') ∧ h'.memory = m := by
  rcases hl.cases with ⟨-, hnil⟩ | ⟨j, l', hcons, hfl, hi, -⟩
  · exact absurd hnil (by simp)
  obtain ⟨rfl, rfl⟩ := List.cons.inj hcons
  have haddr := hl.addressable
  have hty : typeOf h.freelist = ptrTypeCons := by
    rw [hfl]
    exact typeOf_cellPtr (by omega)
  have hsym : (ptrTypeCons == valTypeSymbol) = false := by decide
  unfold heapAllocateArray
  rw [heapAllocateCell_of_cons hty, or_ptrTypeCons_eq_self hty]
  simp only [hty, hsym, Bool.false_eq_true, if_false]
  have hmem' : memoryAllocate (h.setCell (ptrIx h.freelist) ⟨NIL, NIL⟩).memory (2#32 +
      if type == valTypeChar then
        if size % 4#32 = 0#32 then size >>> 2 else (size >>> 2) + 1#32
      else size) = (none, m) := hmem
  simp only [hmem']
  exact ⟨_, rfl, rfl⟩

theorem heapAllocateArray_some {array : UINT} {m : MemoryState}
    (hmem : memoryAllocate h.memory (2#32 + allocateSize type size) = (some array, m)) :
    heapAllocateArray size type h = (writeWord m array type).bind fun m =>
      (writeWord m (array + 4#32) size).bind fun m =>
        some (1#32, some (cellPtr i ||| ptrTypeArray), filledArray h i array m) := by
  rcases hl.cases with ⟨-, hnil⟩ | ⟨j, l', hcons, hfl, hi, -⟩
  · exact absurd hnil (by simp)
  obtain ⟨rfl, rfl⟩ := List.cons.inj hcons
  have haddr := hl.addressable
  have hty : typeOf h.freelist = ptrTypeCons := by
    rw [hfl]
    exact typeOf_cellPtr (by omega)
  have hix : ptrIx h.freelist = i := by
    rw [hfl]
    exact ptrIx_cellPtr (by omega)
  have hsym : (ptrTypeCons == valTypeSymbol) = false := by decide
  have hp := isPtr_of_typeOf_cons hty
  have hpt : ptrType h.freelist = ptrTypeCons := by rw [← typeOf_of_isPtr hp, hty]
  unfold heapAllocateArray
  rw [heapAllocateCell_of_cons hty, or_ptrTypeCons_eq_self hty]
  simp only [hty, hsym, Bool.false_eq_true, if_false]
  have hmem' : memoryAllocate (h.setCell (ptrIx h.freelist) ⟨NIL, NIL⟩).memory (2#32 +
      if type == valTypeChar then
        if size % 4#32 = 0#32 then size >>> 2 else (size >>> 2) + 1#32
      else size) = (some array, m) := hmem
  simp only [hmem']
  show (writeWord m array type).bind (fun m => (writeWord m (array + 4#32) size).bind fun m => _)
    = _
  congr 1
  funext m
  congr 1
  funext m
  rw [setCdr, if_pos (by simp [hty]), setCar, if_pos (by simp [hp, hpt]), setCdrRaw_setCarRaw, hix,
    refCell, hix, hfl]
  rw [filledArray, ← setCell_setCell h i ⟨NIL, NIL⟩ ⟨array, encSym defReprArrayType⟩]
  rfl

/-- With a cell and a block the header is written, and the other blocks are as they were. -/
theorem heapAllocateArray_filled {b : Block} {m : MemoryState} {L' : Layout n}
    (hall : Allocated h.memory L (2#32 + allocateSize type size) b m L')
    (hwrap : ¬Wraps type size) :
    ∃ memory : List UINT, memory.length = m.memory.length
      ∧ heapAllocateArray size type h = some (1#32, some (cellPtr i ||| ptrTypeArray),
        filledArray h i (byteAddr h.memory (4 * b.start)) { m with memory := memory })
      ∧ (∀ j, wordAt { m with memory := memory } j
        = if b.start + 1 = j then size else if b.start = j then type else wordAt m j)
      ∧ Later h.memory L { m with memory := memory } L' := by
  have hlen : b.len = blockWords type size := hall.len
  have hroom := elementBytes_le hwrap (hlen ▸ b.pos)
  rw [← hlen] at hroom
  -- the two words of the header are in the block
  have hin := hall.holds.lt_length hall.mem (i := b.start + 1) (by omega)
  obtain ⟨memory, hmemory, hwrite, hword⟩ :=
    hall.holds.region.writeWord_writeWord hin type size
  rw [hall.later.same.byteAddr] at hwrite
  have hres := heapAllocateArray_some hl hall.result
  rw [← Option.bind_assoc, hwrite, Option.bind_some] at hres
  refine ⟨memory, hmemory, hres, hword, ?_⟩
  have hsame : SameRegion m { m with memory := memory } := ⟨rfl, hmemory⟩
  apply Later.write hall.later hall.fresh hsame
  intro k hk
  have hs : b.Covers b.start := ⟨le_refl _, b.start_le_last⟩
  have hs' : b.Covers (b.start + 1) := ⟨by omega, by rw [Block.last]; omega⟩
  have hne : b.start ≠ k := fun heq => hk (heq ▸ hs)
  have hne' : b.start + 1 ≠ k := fun heq => hk (heq ▸ hs')
  rw [hword, if_neg hne', if_neg hne]

/-- The heap with the array has lost its first free cell. -/
theorem filledArray_takes (array : UINT) (m : MemoryState) :
    FreeList (filledArray h i array m) l ∧ i < h.heapSize
      ∧ ∀ j, j ∉ i :: l → (filledArray h i array m).cell j = h.cell j := by
  rcases hl.cases with ⟨-, hnil⟩ | ⟨j, l', hcons, hfl, hi, hrest⟩
  · exact absurd hnil (by simp)
  obtain ⟨rfl, rfl⟩ := List.cons.inj hcons
  obtain ⟨hfree, hkept⟩ := @FreeList.take h l i hl (filledArray h i array m) _ hrest rfl rfl rfl
  exact ⟨hfree, hi, hkept⟩

theorem filledArray_cell (array : UINT) (m : MemoryState) :
    (filledArray h i array m).cell i = ⟨array, encSym defReprArrayType⟩ := by
  have hi := (filledArray_takes hl array m).2.1
  have hfits := hl.fits
  have hcell := cell_setCell h (i := i) (by omega) i ⟨array, encSym defReprArrayType⟩
  rw [if_pos rfl] at hcell
  exact hcell

/-- With a cell and a block there is a new array. -/
theorem heapAllocateArray_allocated {b : Block} {m : MemoryState} {L' : Layout n}
    (hall : Allocated h.memory L (2#32 + allocateSize type size) b m L')
    (hwrap : ¬Wraps type size) :
    ∃ h', heapAllocateArray size type h = some (1#32, some (cellPtr i ||| ptrTypeArray), h')
      ∧ NewArray h (i :: l) L size type (cellPtr i ||| ptrTypeArray) h' := by
  have haddr := hl.addressable
  obtain ⟨memory, hmemory, hres, hword, hlater⟩ := heapAllocateArray_filled hl hall hwrap
  obtain ⟨hfree, hi, hkept⟩ := filledArray_takes hl (byteAddr h.memory (4 * b.start))
    { m with memory := memory }
  have hv := ptrWord_or_array (i := i) (by omega)
  have hlen : b.len = blockWords type size := hall.len
  have hroom := elementBytes_le hwrap (hlen ▸ b.pos)
  rw [← hlen] at hroom
  refine ⟨_, hres, ⟨l, ?_, hfree⟩, hkept, b, L', hall.holds.of_memory memory hmemory, hlater,
    hall.fresh, hv.typeOf, hall.mem, ?_, ?_, ?_, hroom⟩
  · rw [hv.ptrIx]
  · have hbase : ({ m with memory := memory } : MemoryState).memoryBaseAddress
        = h.memory.memoryBaseAddress := hall.later.same.base
    rw [car_of_ptrWord hv, filledArray_cell hl]
    show byteAddr h.memory (4 * b.start) = byteAddr { m with memory := memory } (4 * b.start)
    rw [byteAddr, byteAddr, hbase]
  · exact (hword b.start).trans (by rw [if_neg (by omega), if_pos rfl])
  · exact (hword (b.start + 1)).trans (if_pos rfl)

end

theorem Allocated.freeRun {k : UINT} {b : Block} {m m' : MemoryState} {L' : Layout n}
    (hall : Allocated m L k b m' L') : FreeRun L b.start k.toNat := by
  have hin := L'.inside b hall.mem
  have hpos := b.pos
  rw [Block.last] at hin
  refine ⟨?_, fun j hlo hhi => ?_⟩
  · rw [← hall.len]
    omega
  · apply hall.fresh
    rw [← hall.len] at hhi
    exact ⟨hlo, by rw [Block.last]; omega⟩

/-- **`heap_allocate_array`** without a cell, without a block, with a block that cannot hold the
array, and with both. -/
theorem heapAllocateArray_cases (hl : FreeList h l) (hm : Holds h.memory L) (size : UINT)
    (type : TYPE) :
    (l = [] ∧ heapAllocateArray size type h = some (encSym symreprMerror, none, h))
      ∨ (l ≠ [] ∧ (0 < blockWords type size → ∀ r, ¬FreeRun L r (blockWords type size))
        ∧ ∃ h', heapAllocateArray size type h = some (0#32, none, h') ∧ h'.memory = h.memory)
      ∨ (l ≠ [] ∧ Wraps type size ∧ (∃ r, FreeRun L r 1)
        ∧ ∀ ret res h', heapAllocateArray size type h = some (ret, res, h') → ret = 1#32)
      ∨ (l ≠ [] ∧ ¬Wraps type size ∧ (∃ r, FreeRun L r (blockWords type size))
        ∧ ∃ v h', heapAllocateArray size type h = some (1#32, some v, h')
          ∧ NewArray h l L size type v h') := by
  cases l with
  | nil =>
    left
    rcases hl.cases with ⟨hfl, -⟩ | ⟨i, l', hcons, -⟩
    · exact ⟨rfl, heapAllocateArray_of_nil hfl size type⟩
    · exact absurd hcons (by simp)
  | cons i l =>
    have hne : i :: l ≠ [] := List.cons_ne_nil i l
    rcases hm.allocate_cases (2#32 + allocateSize type size) with hnone | ⟨b, m, L', hall⟩
    · right; left
      refine ⟨hne, fun hpos r hrun => ?_, heapAllocateArray_none hl hnone⟩
      -- a free run would have been found
      obtain ⟨b, m, L', hall, -⟩ := hm.allocate hpos hrun (le_refl _)
      exact absurd (hnone.symm.trans hall.result) (by simp)
    · by_cases hwrap : Wraps type size
      · right; right; left
        have hone : (2#32 + allocateSize type size).toNat = 1 := by
          rw [allocateSize, if_neg (by rw [hwrap.1]; decide), hwrap.2]
          rfl
        refine ⟨hne, hwrap, ⟨b.start, hone ▸ hall.freeRun⟩, fun ret res h' hres => ?_⟩
        rw [heapAllocateArray_some hl hall.result] at hres
        obtain ⟨m₁, -, hres⟩ := Option.bind_eq_some_iff.mp hres
        obtain ⟨m₂, -, hres⟩ := Option.bind_eq_some_iff.mp hres
        cases hres
        rfl
      · right; right; right
        exact ⟨hne, hwrap, ⟨b.start, hall.freeRun⟩, _, heapAllocateArray_allocated hl hall hwrap⟩

/-! ## The callers -/

section

variable {st : SymbolTable} {text : List (BitVec 8)}

/-- The outcome of `heap_allocate_array` is reported by its result, and the callers that make the
array of a text do not use a result that was not written. -/
structure ReportsOutcome (h : HeapState) (l : List Nat) (L : Layout n) (size : UINT) (type : TYPE)
    (st : SymbolTable) (text : List (BitVec 8)) : Prop where
  allocates : ∃ ret res h', heapAllocateArray size type h = some (ret, res, h')
    ∧ (ret = 1#32 ↔ ∃ v, res = some v ∧ NewArray h l L size type v h')
    ∧ (ret ≠ 1#32 → ret = 0#32 ∧ res = none ∧ h'.memory = h.memory)
  symToStr : ∀ args nargs, 1#32 ≤ nargs → typeOf (args.getD 0 0#32) = valTypeSymbol →
    symreprLookupName h.memory st (decSym (args.getD 0 0#32)) = some (some text) →
    (symbolToString args nargs st h).isSome
  string : (Tokpar.parseString text ⟨h, st⟩).isSome

theorem toNat_ofNat_add_one (htext : text.length + 1 < 2 ^ 32) :
    (BitVec.ofNat 32 text.length + 1#32).toNat = text.length + 1 := by
  rw [BitVec.toNat_add, BitVec.toNat_ofNat]
  show (text.length % 2 ^ 32 + 1) % 2 ^ 32 = _
  omega

theorem blockWords_text (htext : text.length + 1 < 2 ^ 32) :
    blockWords valTypeChar (BitVec.ofNat 32 text.length + 1#32) = 2 + (text.length + 4) / 4 := by
  rw [blockWords_char, toNat_ofNat_add_one htext]

/-- The text and its NUL fit in a new array of that size. -/
theorem NewArray.writeBytes {v : VALUE}
    (hnew : NewArray h l L (BitVec.ofNat 32 text.length + 1#32) valTypeChar v h')
    (htext : text.length + 1 < 2 ^ 32) :
    car h' v ≠ 0#32 ∧ (LispBM.writeBytes h'.memory (car h' v + 8#32) (text ++ [0#8])).isSome := by
  obtain ⟨b, L', hm', -, -, harr⟩ := hnew.block
  have hroom := harr.room
  have hpos := b.pos
  rw [elementBytes, if_pos (by decide), toNat_ofNat_add_one htext] at hroom
  have hin := hm'.lt_length harr.block (i := b.start + b.len - 1) (by omega)
  have hlen : (text ++ [0#8]).length = text.length + 1 := by simp
  rw [harr.address]
  refine ⟨hm'.byteAddr_ne_zero harr.block, ?_⟩
  obtain ⟨m, hm, -⟩ := @Region.writeBytes_byteAddr (text ++ [0#8]) _ (4 * b.start + 8)
    hm'.region (by omega)
  have hdata : byteAddr h'.memory (4 * b.start) + 8#32 = byteAddr h'.memory (4 * b.start + 8) :=
    byteAddr_add h'.memory (4 * b.start) 8
  rw [hdata, hm]
  rfl

theorem not_wraps_char {size : UINT} : ¬Wraps valTypeChar size := fun h => by
  have hchar := h.1
  simp at hchar

/-- Where the size of an array wraps, no block holds its elements. -/
theorem NewArray.not_wraps {v : VALUE} (hnew : NewArray h l L size type v h') :
    ¬Wraps type size := by
  intro ⟨hchar, hsize⟩
  obtain ⟨b, L', hm', -, -, harr⟩ := hnew.block
  have hroom := harr.room
  have hpos := b.pos
  have hin := hm'.lt_length harr.block (i := b.start + b.len - 1) (by omega)
  have hfits := hm'.region.fits
  rw [elementBytes, if_neg (by rw [hchar]; decide), hsize] at hroom
  have hall : (0xFFFFFFFF#32).toNat = 2 ^ 32 - 1 := rfl
  omega

section

variable (hl : FreeList h l) (hm : Holds h.memory L) (htext : text.length + 1 < 2 ^ 32)

include hl hm htext

/-- The reader's string has its array exactly when there is a cell and a block for it. -/
theorem parseString_isSome_iff :
    (Tokpar.parseString text ⟨h, st⟩).isSome
      ↔ l ≠ [] ∧ ∃ r, FreeRun L r (2 + (text.length + 4) / 4) := by
  rw [← blockWords_text htext]
  unfold Tokpar.parseString
  rcases heapAllocateArray_cases hl hm (BitVec.ofNat 32 text.length + 1#32) valTypeChar with
    ⟨hnil, hres⟩ | ⟨-, hno, h', hres, -⟩ | ⟨-, hwrap, -⟩ | ⟨hne, -, hrun, v, h', hres, hnew⟩
  · simp [hres, hnil]
  · have hpos : 0 < blockWords valTypeChar (BitVec.ofNat 32 text.length + 1#32) := by
      rw [blockWords_char]
      omega
    simp [hres, hno hpos]
  · exact absurd hwrap not_wraps_char
  · obtain ⟨-, hwrite⟩ := hnew.writeBytes htext
    obtain ⟨m, hm⟩ := Option.isSome_iff_exists.mp hwrite
    simp [hres, hm, hne, hrun]

/-- `sym-to-str` fails safely without a block, not without a cell. -/
theorem symbolToString_isSome (hne : l ≠ []) {args : List VALUE} {nargs : UINT}
    (hargs : 1#32 ≤ nargs) (hsym : typeOf (args.getD 0 0#32) = valTypeSymbol)
    (hname : symreprLookupName h.memory st (decSym (args.getD 0 0#32)) = some (some text)) :
    (symbolToString args nargs st h).isSome := by
  have hnargs : ¬nargs < 1#32 := BitVec.not_lt.mpr hargs
  unfold symbolToString
  generalize args.getD 0 0#32 = sym at hsym hname ⊢
  rcases heapAllocateArray_cases hl hm (BitVec.ofNat 32 text.length + 1#32) valTypeChar with
    ⟨hnil, -⟩ | ⟨-, -, h', hres, -⟩ | ⟨-, hwrap, -⟩ | ⟨-, -, -, v, h', hres, hnew⟩
  · exact absurd hnil hne
  · simp [hnargs, hsym, hname, hres]
  · exact absurd hwrap not_wraps_char
  · obtain ⟨haddr, hwrite⟩ := hnew.writeBytes htext
    obtain ⟨m, hm⟩ := Option.isSome_iff_exists.mp hwrite
    simp [hnargs, hsym, hname, hres, haddr, hm]

/-- **The outcome of an array allocation.** It is reported when there is a free cell, unless a block
of one word is given to 4294967295 elements; the reader needs a block besides. -/
theorem reportsOutcome_iff :
    ReportsOutcome h l L size type st text
      ↔ l ≠ [] ∧ ¬(Wraps type size ∧ ∃ r, FreeRun L r 1)
        ∧ ∃ r, FreeRun L r (2 + (text.length + 4) / 4) := by
  constructor
  · intro hrep
    obtain ⟨hne, hrun⟩ := (parseString_isSome_iff hl hm htext).mp hrep.string
    refine ⟨hne, fun ⟨hwrap, r, hone⟩ => ?_, hrun⟩
    obtain ⟨ret, res, h', hres, hiff, -⟩ := hrep.allocates
    rcases heapAllocateArray_cases hl hm size type with
      ⟨hnil, -⟩ | ⟨-, hno, -⟩ | ⟨-, -, -, hret⟩ | ⟨-, hnot, -⟩
    · exact hne hnil
    · have hwords : blockWords type size = 1 := by
        rw [blockWords, allocateSize, if_neg (by rw [hwrap.1]; decide), hwrap.2]
        rfl
      rw [hwords] at hno
      exact hno Nat.one_pos r hone
    · obtain ⟨v, -, hnew⟩ := hiff.mp (hret ret res h' hres)
      exact hnew.not_wraps hwrap
    · exact hnot hwrap
  · intro ⟨hne, hwrap, hrun⟩
    refine ⟨?_, fun args nargs => symbolToString_isSome hl hm htext hne,
      (parseString_isSome_iff hl hm htext).mpr ⟨hne, hrun⟩⟩
    rcases heapAllocateArray_cases hl hm size type with
      ⟨hnil, -⟩ | ⟨-, -, h', hres, hmem⟩ | ⟨-, hw, hone, -⟩ | ⟨-, -, -, v, h', hres, hnew⟩
    · exact absurd hnil hne
    · refine ⟨_, _, _, hres, ⟨fun hzero => absurd hzero (by decide), fun hsome => ?_⟩,
        fun _ => ⟨rfl, rfl, hmem⟩⟩
      obtain ⟨v, hv, -⟩ := hsome
      exact absurd hv (by simp)
    · exact absurd ⟨hw, hone⟩ hwrap
    · exact ⟨_, _, _, hres, ⟨fun _ => ⟨v, rfl, hnew⟩, fun _ => rfl⟩, fun hret => absurd rfl hret⟩

end

end

theorem holds_oneCell : Holds oneCell.memory (Layout.empty 16) :=
  @holds_of_memoryInit _ 0x20000000#32 64#32 0x30000000#32 4#32 (List.replicate 16 0#32) rfl
    (by decide) rfl (by decide)
    (by decide)

theorem freeRun_empty {len : Nat} (hlen : len ≤ n) : FreeRun (Layout.empty n) 0 len :=
  ⟨by omega, fun j _ _ hcov => by simp [Layout.Covered, Layout.empty] at hcov⟩

theorem reportsOutcome_oneCell :
    ReportsOutcome oneCell [0] (Layout.empty 16) 4#32 valTypeChar ⟨0#32, 0#32⟩
      [0x68#8, 0x69#8] := by
  have hl : FreeList oneCell [0] := freeList_of_isFreeList (by decide +kernel)
  apply (reportsOutcome_iff hl holds_oneCell (by decide)).mpr
  exact ⟨by decide, fun hwrap => not_wraps_char hwrap.1, 0, freeRun_empty (by decide)⟩

/-- When the only cell is in use, an array of four characters is refused with a result that is not
0, and the reader of a string goes on with a pointer that was not set. -/
theorem not_reportsOutcome_full :
    FreeList (cons NIL NIL oneCell).2 [] ∧ Holds (cons NIL NIL oneCell).2.memory (Layout.empty 16)
      ∧ heapAllocateArray 4#32 valTypeChar (cons NIL NIL oneCell).2
        = some (encSym symreprMerror, none, (cons NIL NIL oneCell).2)
      ∧ ¬ReportsOutcome (cons NIL NIL oneCell).2 [] (Layout.empty 16) 4#32 valTypeChar
        ⟨0#32, 0#32⟩ [0x68#8, 0x69#8] := by
  have hl : FreeList (cons NIL NIL oneCell).2 [] := freeList_of_isFreeList (by decide +kernel)
  have hfull : (cons NIL NIL oneCell).2.freelist = NIL := by decide +kernel
  have hres := heapAllocateArray_of_nil hfull 4#32 valTypeChar
  refine ⟨hl, holds_oneCell, hres, fun hrep => ?_⟩
  obtain ⟨ret, res, h', hres', -, hzero⟩ := hrep.allocates
  rw [hres] at hres'
  cases hres'
  exact absurd (hzero (by decide)).1 (by decide)

end LispBM
