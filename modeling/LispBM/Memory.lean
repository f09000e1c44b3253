import LispBM.Value

/-!
# LispBM — the bitmap memory manager (`src/memory.c`)

Arrays and symbol names live outside the cons heap, in a region of 4-byte words managed by
a status bitmap with two bits per word:

```
00  free word, or interior word of a block      01  last word of a block
10  first word of a block                       11  a block of a single word
```

The bitmap is packed sixteen statuses to a 32-bit word. `status_setStatus` is the fact every
later argument uses: the packed bitmap behaves as an array of two-bit cells.
-/

namespace LispBM

/-! ## State and status codes -/

def freeOrUsed : UINT := 0#32
def endStatus : UINT := 1#32
def startStatus : UINT := 2#32
def startEnd : UINT := 3#32

/-- The globals of `memory.c`. `memory` holds the contents of the managed words; a NULL
`memory` pointer (before `memory_init`) shows as a zero base address. -/
structure MemoryState where
  bitmap : List UINT
  memory : List UINT
  memorySize : UINT
  bitmapSize : UINT
  memoryBaseAddress : UINT
deriving DecidableEq, Repr

/-- `memory_init(data, data_size, bits, bits_size)`, with `contents` the words that `data`
points to. All size arithmetic is on `uint32_t`, so `16 * bits_size` wraps. -/
def memoryInit (data dataSize bits bitsSize : UINT) (contents : List UINT) :
    Option MemoryState :=
  if data = 0#32 || bits = 0#32 then none
  else if data % 4#32 != 0#32 || dataSize != 16#32 * bitsSize || dataSize % 4#32 != 0#32
      || bits % 4#32 != 0#32 || bitsSize < 1#32 || bitsSize % 4#32 != 0#32 then none
  else
    let bitmapSize := bitsSize >>> 2
    some
      { bitmap := List.replicate bitmapSize.toNat 0#32
        memory := contents
        memorySize := dataSize >>> 2
        bitmapSize := bitmapSize
        memoryBaseAddress := data }

def addressToBitmapIx (m : MemoryState) (ptr : UINT) : UINT := (ptr - m.memoryBaseAddress) >>> 2

def bitmapIxToAddress (m : MemoryState) (ix : UINT) : UINT := m.memoryBaseAddress + (ix <<< 2)

def status (m : MemoryState) (i : UINT) : UINT :=
  let ix := i <<< 1
  let wordIx := (ix >>> 5).toNat
  let bitIx := (ix &&& 0x1F#32).toNat
  let mask := 3#32 <<< bitIx
  (m.bitmap.getD wordIx 0#32 &&& mask) >>> bitIx

def setStatus (m : MemoryState) (i : UINT) (s : UINT) : MemoryState :=
  let ix := i <<< 1
  let wordIx := (ix >>> 5).toNat
  let bitIx := (ix &&& 0x1F#32).toNat
  let clrMask := ~~~(3#32 <<< bitIx)
  let mask := s <<< bitIx
  { m with bitmap := m.bitmap.set wordIx (m.bitmap.getD wordIx 0#32 &&& clrMask ||| mask) }

/-- Whether `status(i)` and `set_status(i, s)` stay inside the bitmap. -/
def hasStatus (m : MemoryState) (i : UINT) : Bool :=
  decide (((i <<< 1) >>> 5).toNat < m.bitmap.length)

/-- The bound `bitmap_size << 4` of the scans: one status per managed word. -/
def statusCount (m : MemoryState) : Nat := (m.bitmapSize <<< 4).toNat

def memoryNumWords (m : MemoryState) : UINT := m.memorySize

/-! ## Allocation -/

/-- The states of the `memory_allocate` scan. -/
inductive AllocState where
  | init
  | freeLengthCheck
  | skip
  | allocDone
deriving DecidableEq, Repr

/-- The locals of the `memory_allocate` scan. `free_length` counts loop iterations, so it
cannot wrap. -/
structure AllocScan where
  state : AllocState
  startIx : Nat
  endIx : Nat
  freeLength : Nat
deriving DecidableEq, Repr

/-- The body of the scan at word `i`; `none` is the `default: return NULL` of the status
switch. -/
def allocScanStep (numWords : UINT) (st : UINT) (i : Nat) (c : AllocScan) : Option AllocScan :=
  if st = freeOrUsed then
    match c.state with
    | .init =>
        if numWords = 1#32 then
          some { c with startIx := i, endIx := i, state := .allocDone }
        else
          some { c with startIx := i, state := .freeLengthCheck, freeLength := 1 }
    | .freeLengthCheck =>
        if c.freeLength + 1 = numWords.toNat then
          some { c with freeLength := c.freeLength + 1, endIx := i, state := .allocDone }
        else
          some { c with freeLength := c.freeLength + 1 }
    | .skip => some c
    | .allocDone => some c
  else if st = endStatus then some { c with state := .init }
  else if st = startStatus then some { c with state := .skip }
  else if st = startEnd then some { c with state := .init }
  else none

/-- The `for` loop of `memory_allocate`, with `n` words left to scan from word `i`. -/
def allocScan (m : MemoryState) (numWords : UINT) : Nat → Nat → AllocScan → Option AllocScan
  | 0, _, c => some c
  | n + 1, i, c =>
      if c.state = .allocDone then some c
      else
        match allocScanStep numWords (status m (BitVec.ofNat 32 i)) i c with
        | none => none
        | some c' => allocScan m numWords n (i + 1) c'

/-- `memory_allocate`: the address of the new block (`none` for NULL) and the new state. -/
def memoryAllocate (m : MemoryState) (numWords : UINT) : Option UINT × MemoryState :=
  if m.memoryBaseAddress = 0#32 then (none, m)
  else
    match allocScan m numWords (statusCount m) 0
        { state := .init, startIx := 0, endIx := 0, freeLength := 0 } with
    | none => (none, m)
    | some c =>
        if c.state = .allocDone then
          let startIx := BitVec.ofNat 32 c.startIx
          let endIx := BitVec.ofNat 32 c.endIx
          if c.startIx = c.endIx then
            (some (bitmapIxToAddress m startIx), setStatus m startIx startEnd)
          else
            (some (bitmapIxToAddress m startIx),
              setStatus (setStatus m startIx startStatus) endIx endStatus)
        else (none, m)

/-! ## Release -/

/-- The scan of `memory_free` for the END of the block, with `n` words left from word `i`. -/
def freeScan (m : MemoryState) : Nat → Nat → Bool × MemoryState
  | 0, _ => (false, m)
  | n + 1, i =>
      if status m (BitVec.ofNat 32 i) = endStatus then
        (true, setStatus m (BitVec.ofNat 32 i) freeOrUsed)
      else freeScan m n (i + 1)

/-- `memory_free`: the C result (1 or 0) as a boolean, and the new state. -/
def memoryFree (m : MemoryState) (ptr : UINT) : Bool × MemoryState :=
  let ix := addressToBitmapIx m ptr
  if status m ix = startStatus then
    let m' := setStatus m ix freeOrUsed
    freeScan m' (statusCount m' - ix.toNat) ix.toNat
  else if status m ix = startEnd then (true, setStatus m ix freeOrUsed)
  else (false, m)

/-- `memory_free` of a word that need not be an address inside the region: `none` where it looks
for the status of that word outside the bitmap, which C leaves undefined. -/
def memoryFreeWord (m : MemoryState) (ptr : UINT) : Option (Bool × MemoryState) :=
  -- the scan for the END stays below `bitmap_size << 4`, so only the first status can be missing
  if hasStatus m (addressToBitmapIx m ptr) then some (memoryFree m ptr) else none

/-! ## Free words -/

/-- The body of the `memory_num_free` scan, on its `state` and `sum_length`; `none` is the
`default: return 0` of the status switch. -/
def numFreeStep (st : UINT) (c : AllocState × Nat) : Option (AllocState × Nat) :=
  if st = freeOrUsed then
    match c.1 with
    | .init => some (.freeLengthCheck, c.2 + 1)
    | .freeLengthCheck => some (.freeLengthCheck, c.2 + 1)
    | .skip => some c
    | .allocDone => some c
  else if st = endStatus then some (.init, c.2)
  else if st = startStatus then some (.skip, c.2)
  else if st = startEnd then some (.init, c.2)
  else none

/-- The `for` loop of `memory_num_free`, with `n` words left to scan from word `i`. -/
def numFreeScan (m : MemoryState) : Nat → Nat → AllocState × Nat → Option (AllocState × Nat)
  | 0, _, c => some c
  | n + 1, i, c =>
      match numFreeStep (status m (BitVec.ofNat 32 i)) c with
      | none => none
      | some c' => numFreeScan m n (i + 1) c'

/-- `memory_num_free`. `sum_length` counts loop iterations, so it cannot wrap. -/
def memoryNumFree (m : MemoryState) : UINT :=
  if m.memoryBaseAddress = 0#32 then 0#32
  else
    match numFreeScan m (statusCount m) 0 (.init, 0) with
    | none => 0#32
    | some c => BitVec.ofNat 32 c.2

/-! ## The packed bitmap is an array of two-bit cells -/

/-- The word holding the status of word `i`, sixteen statuses to a word. -/
theorem wordIx_eq {i : UINT} (h : i.toNat < 2 ^ 31) : ((i <<< 1) >>> 5).toNat = i.toNat / 16 := by
  rw [BitVec.toNat_ushiftRight, BitVec.toNat_shiftLeft, Nat.shiftLeft_eq,
    Nat.shiftRight_eq_div_pow]
  omega

/-- The bit position of the status of word `i` inside its bitmap word. -/
theorem bitIx_eq (i : UINT) :
    (i <<< 1 &&& 0x1F#32).toNat = 2 * (i.toNat % 16) := by
  rw [BitVec.toNat_and, BitVec.toNat_shiftLeft, Nat.shiftLeft_eq,
    show (0x1F#32).toNat = 2 ^ 5 - 1 from rfl, Nat.and_two_pow_sub_one_eq_mod]
  omega

theorem getLsbD_three (j : Nat) : (3#32).getLsbD j = decide (j < 2) := by
  by_cases h : j < 32
  · interval_cases j <;> rfl
  · rw [BitVec.getLsbD_of_ge _ _ (by omega)]
    simp
    omega

/-- Bit `j` of the field extracted at position `b`: bit `b + j` of the word for `j < 2`. -/
theorem getLsbD_field (w : UINT) (b j : Nat) :
    ((w &&& 3#32 <<< b) >>> b).getLsbD j = (w.getLsbD (b + j) && decide (j < 2)) := by
  rw [BitVec.getLsbD_ushiftRight, BitVec.getLsbD_and, BitVec.getLsbD_shiftLeft,
    show b + j - b = j from by omega, getLsbD_three]
  by_cases hb : b + j < 32
  · simp [hb, show ¬(b + j < b) from by omega]
  · rw [BitVec.getLsbD_of_ge w (b + j) (by omega)]
    simp

/-- Bit `j` of a word after writing the two-bit field `s` at position `b`. -/
theorem getLsbD_setField {w s : UINT} {b : Nat} (hs : s.toNat < 4) (j : Nat) (hj : j < 32) :
    (w &&& ~~~(3#32 <<< b) ||| s <<< b).getLsbD j
      = if b ≤ j ∧ j < b + 2 then s.getLsbD (j - b) else w.getLsbD j := by
  have hs2 : ∀ k, 2 ≤ k → s.getLsbD k = false := by
    intro k hk
    rw [BitVec.getLsbD, Nat.testBit_lt_two_pow]
    exact lt_of_lt_of_le hs (Nat.pow_le_pow_right (by decide) hk : 2 ^ 2 ≤ 2 ^ k)
  rw [BitVec.getLsbD_or, BitVec.getLsbD_and, BitVec.getLsbD_not, BitVec.getLsbD_shiftLeft,
    BitVec.getLsbD_shiftLeft, getLsbD_three]
  by_cases hlo : b ≤ j
  · by_cases hhi : j < b + 2
    · have : j - b < 2 := by omega
      simp [hj, hlo, hhi, this, show ¬(j < b) from by omega]
    · have h2 := hs2 (j - b) (by omega)
      have : ¬(j - b < 2) := by omega
      simp [hj, hhi, h2, this, show ¬(j < b) from by omega]
  · simp [hj, hlo, show j < b from by omega]

/-- A status is a two-bit number. -/
theorem status_lt_four (m : MemoryState) (i : UINT) : (status m i).toNat < 4 := by
  have h2 : ∀ j, 2 ≤ j → (status m i).toNat.testBit j = false := by
    intro j hj
    have := getLsbD_field (m.bitmap.getD ((i <<< 1) >>> 5).toNat 0#32)
      (i <<< 1 &&& 0x1F#32).toNat j
    simpa [status, BitVec.getLsbD, show ¬(j < 2) from by omega] using this
  by_contra hge
  obtain ⟨j, hj, hbit⟩ := Nat.exists_ge_and_testBit_of_ge_two_pow (n := 2)
    (x := (status m i).toNat) (by omega)
  rw [h2 j hj] at hbit
  exact Bool.noConfusion hbit

@[simp] theorem setStatus_memoryBaseAddress (m : MemoryState) (i s : UINT) :
    (setStatus m i s).memoryBaseAddress = m.memoryBaseAddress := rfl

@[simp] theorem setStatus_bitmapSize (m : MemoryState) (i s : UINT) :
    (setStatus m i s).bitmapSize = m.bitmapSize := rfl

@[simp] theorem setStatus_memorySize (m : MemoryState) (i s : UINT) :
    (setStatus m i s).memorySize = m.memorySize := rfl

@[simp] theorem setStatus_bitmap_length (m : MemoryState) (i s : UINT) :
    (setStatus m i s).bitmap.length = m.bitmap.length := by
  simp [setStatus]

@[simp] theorem statusCount_setStatus (m : MemoryState) (i s : UINT) :
    statusCount (setStatus m i s) = statusCount m := rfl

/-- **The packed bitmap is an array of two-bit cells.** Writing the status of word `i`
changes the status of word `i` and of no other. -/
theorem status_setStatus {m : MemoryState} {i j s : UINT} (hi : i.toNat < 2 ^ 31)
    (hj : j.toNat < 2 ^ 31) (hs : s.toNat < 4) (hlen : i.toNat / 16 < m.bitmap.length) :
    status (setStatus m i s) j = if i = j then s else status m j := by
  apply BitVec.eq_of_getLsbD_eq
  intro k hk
  simp only [status, setStatus]
  rw [wordIx_eq hi, wordIx_eq hj, bitIx_eq i, bitIx_eq j]
  rw [getLsbD_field]
  by_cases hij : i = j
  · -- the same word: the field just written is read back
    subst hij
    rw [List.getD_eq_getElem?_getD, List.getElem?_set_self hlen, Option.getD_some, if_pos rfl]
    by_cases hk2 : k < 2
    · rw [getLsbD_setField hs _ (by omega),
        if_pos ⟨by omega, by omega⟩,
        show 2 * (i.toNat % 16) + k - 2 * (i.toNat % 16) = k from by omega]
      simp [hk2]
    · have hsk : s.getLsbD k = false := by
        rw [BitVec.getLsbD, Nat.testBit_lt_two_pow]
        exact lt_of_lt_of_le hs (Nat.pow_le_pow_right (by decide) (by omega) : 2 ^ 2 ≤ 2 ^ k)
      simp [hk2, hsk]
  · have hne : i.toNat ≠ j.toNat := fun h => hij (BitVec.eq_of_toNat_eq h)
    rw [if_neg hij, getLsbD_field]
    by_cases hk2 : k < 2
    · congr 1
      by_cases hw : i.toNat / 16 = j.toNat / 16
      · -- another field of the same bitmap word
        rw [hw] at hlen ⊢
        rw [List.getD_eq_getElem?_getD, List.getElem?_set_self hlen, Option.getD_some,
          getLsbD_setField hs _ (by omega), if_neg (by omega)]
      · rw [List.getD_eq_getElem?_getD, List.getElem?_set_ne hw, ← List.getD_eq_getElem?_getD]
    · simp [hk2]

theorem addressToBitmapIx_bitmapIxToAddress (m : MemoryState) {i : UINT} (h : i.toNat < 2 ^ 30) :
    addressToBitmapIx m (bitmapIxToAddress m i) = i := by
  apply BitVec.eq_of_toNat_eq
  have hsub : m.memoryBaseAddress + i <<< 2 - m.memoryBaseAddress = i <<< 2 := by
    rw [BitVec.add_comm, BitVec.add_sub_cancel]
  rw [addressToBitmapIx, bitmapIxToAddress, hsub,
    BitVec.toNat_ushiftRight, BitVec.toNat_shiftLeft, Nat.shiftLeft_eq,
    Nat.shiftRight_eq_div_pow]
  omega

/-- The words of the region have their statuses in the bitmap. -/
theorem hasStatus_bitmapIxToAddress (m : MemoryState) {i : UINT} (h : i.toNat < 2 ^ 30)
    (hlen : i.toNat / 16 < m.bitmap.length) :
    hasStatus m (addressToBitmapIx m (bitmapIxToAddress m i)) = true := by
  rw [addressToBitmapIx_bitmapIxToAddress m h, hasStatus, wordIx_eq (by omega)]
  exact decide_eq_true hlen

/-! ## Release keeps the place and the length of the bitmap -/

theorem freeScan_shape (n : Nat) : ∀ (m : MemoryState) (i : Nat),
    (freeScan m n i).2.bitmap.length = m.bitmap.length
      ∧ (freeScan m n i).2.memoryBaseAddress = m.memoryBaseAddress := by
  induction n with
  | zero => exact fun m i => ⟨rfl, rfl⟩
  | succ n ih =>
    intro m i
    rw [freeScan]
    split
    · simp
    · exact ih m (i + 1)

theorem memoryFree_shape (m : MemoryState) (ptr : UINT) :
    (memoryFree m ptr).2.bitmap.length = m.bitmap.length
      ∧ (memoryFree m ptr).2.memoryBaseAddress = m.memoryBaseAddress := by
  simp only [memoryFree]
  split
  · simpa using freeScan_shape _ (setStatus m (addressToBitmapIx m ptr) freeOrUsed) _
  · split <;> simp

end LispBM
