import LispBM.Memory

/-!
# LispBM — the packed bitmap as an array of cells (`src/memory.c`)

The allocator speaks of the status of a word, `memory.c` of a field in one of the words of its
bitmap. `IsCellArray` is what the allocator assumes: a status written is read back and disturbs
no other, and a word is found again from its address. A 32-bit address has room for `2 ^ 30`
words, so this holds for bitmaps of up to `2 ^ 26` words; `memory_init` compares `data_size`
with a product that wraps and lets larger ones in.
-/

namespace LispBM

/-- Index `i` is below `16 * bitmap_size`. -/
def IsCell (m : MemoryState) (i : UINT) : Prop := i.toNat < 16 * m.bitmapSize.toNat

/-- The bitmap is an array of two-bit cells, one for each address. -/
structure IsCellArray (m : MemoryState) : Prop where
  /-- The word that `status` and `set_status` access is one of the bitmap. -/
  wordIx : ∀ i, IsCell m i → ((i <<< 1) >>> 5).toNat < m.bitmapSize.toNat
  /-- A status is read back. -/
  self : ∀ i s, IsCell m i → s.toNat < 4 → status (setStatus m i s) i = s
  /-- The other cells stay. -/
  other : ∀ i j s, IsCell m i → IsCell m j → s.toNat < 4 → j ≠ i →
    status (setStatus m i s) j = status m j
  /-- A cell is found again from the address of its word. -/
  address : ∀ i, IsCell m i → addressToBitmapIx m (bitmapIxToAddress m i) = i

variable {m : MemoryState}

/-- A bitmap of at most `2 ^ 26` words has cells for at most `2 ^ 30` words. -/
theorem IsCell.toNat_lt {i : UINT} (h : IsCell m i) (hsize : m.bitmapSize.toNat ≤ 2 ^ 26) :
    i.toNat < 2 ^ 30 := by
  rw [IsCell] at h
  omega

theorem isCellArray (hlen : m.bitmap.length = m.bitmapSize.toNat)
    (hsize : m.bitmapSize.toNat ≤ 2 ^ 26) : IsCellArray m := by
  have hword : ∀ i : UINT, IsCell m i → i.toNat / 16 < m.bitmapSize.toNat := by
    intro i hi
    rw [IsCell] at hi
    omega
  have hcell : ∀ i j s : UINT, IsCell m i → IsCell m j → s.toNat < 4 →
      status (setStatus m i s) j = if i = j then s else status m j := by
    intro i j s hi hj hs
    have hi' := hi.toNat_lt hsize
    have hj' := hj.toNat_lt hsize
    apply status_setStatus (by omega) (by omega) hs
    rw [hlen]
    exact hword i hi
  constructor
  · intro i hi
    have hi' := hi.toNat_lt hsize
    rw [wordIx_eq (by omega)]
    exact hword i hi
  · intro i s hi hs
    rw [hcell i i s hi hi hs, if_pos rfl]
  · intro i j s hi hj hs hne
    rw [hcell i j s hi hj hs, if_neg (Ne.symm hne)]
  · intro i hi
    exact addressToBitmapIx_bitmapIxToAddress m (hi.toNat_lt hsize)

/-- The address of word `2 ^ 30` is the base address again. -/
theorem addressToBitmapIx_wraps (m : MemoryState) :
    addressToBitmapIx m (bitmapIxToAddress m 0x40000000#32) = 0#32 := by
  rw [addressToBitmapIx, bitmapIxToAddress, show (0x40000000#32 : UINT) <<< 2 = 0#32 by decide,
    BitVec.add_zero, BitVec.sub_self]
  rfl

theorem IsCellArray.bitmapSize_le (h : IsCellArray m) : m.bitmapSize.toNat ≤ 2 ^ 26 := by
  by_contra hgt
  have hcell : IsCell m 0x40000000#32 := by
    show (0x40000000#32 : UINT).toNat < 16 * m.bitmapSize.toNat
    rw [show (0x40000000#32 : UINT).toNat = 2 ^ 30 by decide]
    omega
  have hix := h.address _ hcell
  rw [addressToBitmapIx_wraps] at hix
  exact absurd hix (by decide)

/-- **The packed bitmap is an array of cells exactly up to `2 ^ 26` words**, whatever it
holds. -/
theorem isCellArray_iff (hlen : m.bitmap.length = m.bitmapSize.toNat) :
    IsCellArray m ↔ m.bitmapSize.toNat ≤ 2 ^ 26 := by
  constructor
  · exact IsCellArray.bitmapSize_le
  · exact isCellArray hlen

/-- A bitmap of two words, the first one full. -/
theorem isCellArray_iff_twoWords :
    IsCellArray
        { bitmap := [0xFFFFFFFF#32, 0#32], memory := List.replicate 32 0#32, memorySize := 32#32,
          bitmapSize := 2#32, memoryBaseAddress := 0x1000#32 } ↔
      (2#32 : UINT).toNat ≤ 2 ^ 26 :=
  isCellArray_iff rfl

/-- `memory_init(data, 64, bits, 0x10000004)` succeeds, as `16 * 0x10000004` wraps to `64`. Word
`2 ^ 30` of the bitmap it sets up has the address of word `0`. -/
theorem not_isCellArray_of_memoryInit :
    ∃ m, memoryInit 0x1000#32 64#32 0x2000#32 0x10000004#32 (List.replicate 16 0#32) = some m ∧
      m.bitmap.length = m.bitmapSize.toNat ∧ IsCell m 0x40000000#32 ∧
      addressToBitmapIx m (bitmapIxToAddress m 0x40000000#32) = 0#32 ∧ ¬ IsCellArray m := by
  have hsize : (0x10000004#32 >>> 2 : UINT).toNat = 2 ^ 26 + 1 := by decide
  let m : MemoryState :=
    { bitmap := List.replicate (0x10000004#32 >>> 2 : UINT).toNat 0#32
      memory := List.replicate 16 0#32
      memorySize := 64#32 >>> 2
      bitmapSize := 0x10000004#32 >>> 2
      memoryBaseAddress := 0x1000#32 }
  have hlen : m.bitmap.length = m.bitmapSize.toNat := List.length_replicate
  have hm : m.bitmapSize.toNat = 2 ^ 26 + 1 := hsize
  have hinit : memoryInit 0x1000#32 64#32 0x2000#32 0x10000004#32 (List.replicate 16 0#32)
      = some m := by
    rw [memoryInit, if_neg (by decide), if_neg (by decide)]
  have hcell : IsCell m 0x40000000#32 := by
    rw [IsCell, hm]
    decide
  have hnot : ¬ IsCellArray m := by
    intro h
    have hle := h.bitmapSize_le
    omega
  exact ⟨m, hinit, hlen, hcell, addressToBitmapIx_wraps m, hnot⟩

end LispBM
