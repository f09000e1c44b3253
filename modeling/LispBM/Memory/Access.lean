import LispBM.Fundamental

/-!
# LispBM — the bytes of the managed memory

The words of the region are read and written by address. In a region that is aligned and does not
wrap around the address space, a byte is given by its distance from the base address. The lemmas
here say what an access at a distance reads, and which words a write leaves as they were.
-/

namespace LispBM

/-- The region lies in the address space as the words of an array do. -/
structure Region (m : MemoryState) : Prop where
  aligned : m.memoryBaseAddress.toNat % 4 = 0
  fits : m.memoryBaseAddress.toNat + 4 * m.memory.length ≤ 2 ^ 32

/-- The address at a distance from the base of the region. -/
def byteAddr (m : MemoryState) (k : Nat) : UINT := m.memoryBaseAddress + BitVec.ofNat 32 k

/-- The word at an index. -/
def wordAt (m : MemoryState) (i : Nat) : UINT := m.memory.getD i 0#32

/-- The byte `j` of a word. -/
def byteOf (w : UINT) (j : Nat) : BitVec 8 := (w >>> (8 * j)).setWidth 8

/-- The byte at a distance from the base of the region. -/
def byteAt (m : MemoryState) (k : Nat) : BitVec 8 := byteOf (wordAt m (k / 4)) (k % 4)

variable {m m' : MemoryState}

/-! ## Addresses -/

theorem byteAddr_add (m : MemoryState) (k j : Nat) :
    byteAddr m k + BitVec.ofNat 32 j = byteAddr m (k + j) := by
  rw [byteAddr, byteAddr, BitVec.add_assoc, ← BitVec.ofNat_add]

theorem Region.toNat_byteAddr (hm : Region m) {k : Nat} (hk : k < 4 * m.memory.length) :
    (byteAddr m k).toNat = m.memoryBaseAddress.toNat + k := by
  have hfits := hm.fits
  rw [byteAddr, BitVec.toNat_add, BitVec.toNat_ofNat]
  omega

theorem Region.wordIndex_byteAddr (hm : Region m) {i : Nat} (hi : i < m.memory.length) :
    wordIndex m (byteAddr m (4 * i)) = some i := by
  have hfits := hm.fits
  have haligned := hm.aligned
  have haddr := hm.toNat_byteAddr (k := 4 * i) (by omega)
  have hmod : byteAddr m (4 * i) % 4#32 = 0#32 := by
    apply BitVec.eq_of_toNat_eq
    rw [BitVec.toNat_umod, haddr]
    show (m.memoryBaseAddress.toNat + 4 * i) % 4 = 0
    omega
  have hle : m.memoryBaseAddress ≤ byteAddr m (4 * i) := by
    rw [BitVec.le_def, haddr]
    omega
  have hix : ((byteAddr m (4 * i) - m.memoryBaseAddress) >>> 2).toNat = i := by
    rw [BitVec.toNat_ushiftRight, BitVec.toNat_sub_of_le hle, haddr, Nat.shiftRight_eq_div_pow]
    omega
  rw [wordIndex]
  simp only [hix]
  rw [if_pos ⟨hmod, hle, hi⟩]

/-- The slot of a byte is the word it lies in and its place there. -/
theorem Region.byteSlot_byteAddr (hm : Region m) {k : Nat} (hk : k < 4 * m.memory.length) :
    byteSlot (byteAddr m k) = (byteAddr m (4 * (k / 4)), 8 * (k % 4)) := by
  have haligned := hm.aligned
  have haddr := hm.toNat_byteAddr hk
  have hword := hm.toNat_byteAddr (k := 4 * (k / 4)) (by omega)
  have hlow : (byteAddr m k &&& 3#32).toNat = k % 4 := by
    rw [BitVec.toNat_and, show (3#32).toNat = 2 ^ 2 - 1 from rfl, Nat.and_two_pow_sub_one_eq_mod,
      haddr]
    omega
  have hhigh : byteAddr m k &&& 0xFFFFFFFC#32 = byteAddr m (4 * (k / 4)) := by
    have hmask : byteAddr m k &&& 0xFFFFFFFC#32 = byteAddr m k - (byteAddr m k &&& 3#32) := by
      generalize byteAddr m k = a
      have hsum : a = (a &&& 0xFFFFFFFC#32) + (a &&& 3#32) := by
        have hor : (a &&& 0xFFFFFFFC#32) + (a &&& 3#32)
            = (a &&& 0xFFFFFFFC#32) ||| (a &&& 3#32) := by
          apply BitVec.add_eq_or_of_and_eq_zero
          rw [BitVec.and_comm a 3#32, BitVec.and_assoc, ← BitVec.and_assoc 0xFFFFFFFC#32]
          simp
        have hall : 0xFFFFFFFC#32 ||| 3#32 = BitVec.allOnes 32 := by decide
        rw [hor, ← BitVec.and_or_distrib_left, hall, BitVec.and_allOnes]
      calc a &&& 0xFFFFFFFC#32 = (a &&& 0xFFFFFFFC#32) + (a &&& 3#32) - (a &&& 3#32) := by
            rw [BitVec.add_sub_cancel]
        _ = a - (a &&& 3#32) := by rw [← hsum]
    apply BitVec.eq_of_toNat_eq
    have hle : byteAddr m k &&& 3#32 ≤ byteAddr m k := by
      rw [BitVec.le_def, hlow, haddr]
      omega
    rw [hmask, BitVec.toNat_sub_of_le hle, hlow, haddr, hword]
    omega
  rw [byteSlot, hhigh, hlow]

/-! ## Words -/

theorem Region.readWord_byteAddr (hm : Region m) {i : Nat} (hi : i < m.memory.length) :
    readWord m (byteAddr m (4 * i)) = some (wordAt m i) := by
  rw [readWord, hm.wordIndex_byteAddr hi]
  rfl

/-- A write changes the one word. -/
theorem Region.writeWord_byteAddr (hm : Region m) {i : Nat} (hi : i < m.memory.length) (w : UINT) :
    writeWord m (byteAddr m (4 * i)) w = some { m with memory := m.memory.set i w } := by
  rw [writeWord, hm.wordIndex_byteAddr hi]
  rfl

/-- `m'` is `m` with other contents. -/
structure SameRegion (m m' : MemoryState) : Prop where
  base : m'.memoryBaseAddress = m.memoryBaseAddress
  length : m'.memory.length = m.memory.length

theorem SameRegion.region (h : SameRegion m m') (hm : Region m) : Region m' :=
  ⟨by rw [h.base]; exact hm.aligned, by rw [h.base, h.length]; exact hm.fits⟩

theorem SameRegion.byteAddr (h : SameRegion m m') (k : Nat) :
    LispBM.byteAddr m' k = LispBM.byteAddr m k := by
  rw [LispBM.byteAddr, LispBM.byteAddr, h.base]

theorem SameRegion.set (m : MemoryState) (i : Nat) (w : UINT) :
    SameRegion m { m with memory := m.memory.set i w } := ⟨rfl, List.length_set⟩

theorem wordAt_set {i : Nat} (hi : i < m.memory.length) (w : UINT) (j : Nat) :
    wordAt { m with memory := m.memory.set i w } j = if i = j then w else wordAt m j := by
  simp only [wordAt, List.getD_eq_getElem?_getD]
  by_cases hij : i = j
  · subst hij
    rw [List.getElem?_set_self hi, if_pos rfl]
    rfl
  · rw [List.getElem?_set_ne hij, if_neg hij]

/-! ## Bytes -/

/-- The word with another byte `j`. -/
def setByteOf (w : UINT) (j : Nat) (b : BitVec 8) : UINT :=
  w &&& ~~~(0xFF#32 <<< (8 * j)) ||| b.setWidth 32 <<< (8 * j)

theorem getLsbD_byteMask (i : Nat) : (0xFF#32).getLsbD i = decide (i < 8) := by
  by_cases h : i < 32
  · interval_cases i <;> rfl
  · rw [BitVec.getLsbD_of_ge _ _ (by omega)]
    simp
    omega

theorem byteOf_setByteOf (w : UINT) {i j : Nat} (hi : i < 4) (hj : j < 4) (b : BitVec 8) :
    byteOf (setByteOf w j b) i = if j = i then b else byteOf w i := by
  apply BitVec.eq_of_getLsbD_eq
  intro n hn
  have hbit : (byteOf (setByteOf w j b) i).getLsbD n
      = ((w.getLsbD (8 * i + n) && !(!decide (8 * i + n < 8 * j) && decide (8 * i + n - 8 * j < 8)))
        || (!decide (8 * i + n < 8 * j) && b.getLsbD (8 * i + n - 8 * j))) := by
    rw [byteOf, setByteOf, BitVec.getLsbD_setWidth, BitVec.getLsbD_ushiftRight, BitVec.getLsbD_or,
      BitVec.getLsbD_and, BitVec.getLsbD_not, BitVec.getLsbD_shiftLeft, BitVec.getLsbD_shiftLeft,
      getLsbD_byteMask, BitVec.getLsbD_setWidth]
    have h₁ : 8 * i + n < 32 := by omega
    have h₂ : 8 * i + n - 8 * j < 32 := by omega
    simp [hn, h₁, h₂]
  rw [hbit]
  by_cases hij : j = i
  · subst hij
    rw [if_pos rfl]
    simp [hn]
  · rw [if_neg hij, byteOf, BitVec.getLsbD_setWidth, BitVec.getLsbD_ushiftRight]
    have hout : ¬(8 * j ≤ 8 * i + n ∧ 8 * i + n - 8 * j < 8) := by omega
    by_cases hlt : 8 * i + n < 8 * j
    · simp [hn, hlt]
    · have hge : ¬(8 * i + n - 8 * j < 8) := by omega
      have hb : b.getLsbD (8 * i + n - 8 * j) = false := BitVec.getLsbD_of_ge _ _ (by omega)
      simp [hn, hge, hb]

theorem Region.readByte_byteAddr (hm : Region m) {k : Nat} (hk : k < 4 * m.memory.length) :
    readByte m (byteAddr m k) = some (byteAt m k) := by
  rw [readByte, hm.byteSlot_byteAddr hk, hm.readWord_byteAddr (by omega)]
  rfl

/-- What a write of bytes from a distance on does. -/
structure WritesBytes (m m' : MemoryState) (k : Nat) (bs : List (BitVec 8)) : Prop where
  only : m' = { m with memory := m'.memory }
  length : m'.memory.length = m.memory.length
  byte : ∀ j, byteAt m' j = if k ≤ j ∧ j < k + bs.length then bs.getD (j - k) 0#8 else byteAt m j
  word : ∀ i, 4 * i + 4 ≤ k ∨ k + bs.length ≤ 4 * i → wordAt m' i = wordAt m i

theorem WritesBytes.sameRegion {k : Nat} {bs : List (BitVec 8)} (h : WritesBytes m m' k bs) :
    SameRegion m m' := ⟨by rw [h.only], h.length⟩

theorem Region.writeByte_byteAddr (hm : Region m) {k : Nat} (hk : k < 4 * m.memory.length)
    (b : BitVec 8) : ∃ m', writeByte m (byteAddr m k) b = some m' ∧ WritesBytes m m' k [b] := by
  have hi : k / 4 < m.memory.length := by omega
  refine ⟨{ m with memory := m.memory.set (k / 4) (setByteOf (wordAt m (k / 4)) (k % 4) b) },
    ?_, ?_⟩
  · rw [writeByte]
    simp only [hm.byteSlot_byteAddr hk, hm.readWord_byteAddr hi, Option.bind_eq_bind,
      Option.bind_some]
    exact hm.writeWord_byteAddr hi _
  · refine ⟨rfl, List.length_set, fun j => ?_, fun i hi' => ?_⟩
    · rw [byteAt, wordAt_set hi]
      by_cases hj : k / 4 = j / 4
      · rw [if_pos hj, byteOf_setByteOf _ (Nat.mod_lt _ (by decide)) (Nat.mod_lt _ (by decide))]
        by_cases hjk : j = k
        · subst hjk
          simp
        · rw [if_neg (by omega), if_neg (by simp; omega), byteAt, hj]
      · rw [if_neg hj, if_neg (by simp; omega)]
        rfl
    · rw [wordAt_set hi, if_neg]
      simp only [List.length_singleton] at hi'
      omega

/-- The bytes written are there, and nothing else has changed. -/
theorem Region.writeBytes_byteAddr : ∀ {bs : List (BitVec 8)} {m : MemoryState} {k : Nat},
    Region m → k + bs.length ≤ 4 * m.memory.length →
    ∃ m', writeBytes m (byteAddr m k) bs = some m' ∧ WritesBytes m m' k bs := by
  intro bs
  induction bs with
  | nil =>
    intro m k _ _
    refine ⟨m, rfl, rfl, rfl, fun j => ?_, fun i _ => rfl⟩
    rw [if_neg (by simp)]
  | cons b bs ih =>
    intro m k hm hk
    rw [List.length_cons] at hk
    obtain ⟨m₁, hm₁, hw₁⟩ := hm.writeByte_byteAddr (k := k) (by omega) b
    have hsame := hw₁.sameRegion
    obtain ⟨m₂, hm₂, hw₂⟩ := ih (m := m₁) (k := k + 1) (hsame.region hm)
      (by rw [hsame.length]; omega)
    refine ⟨m₂, ?_, ?_, ?_, ?_, ?_⟩
    · rw [writeBytes, hm₁]
      show writeBytes m₁ (byteAddr m k + 1#32) bs = some m₂
      rw [byteAddr_add m k 1, ← hsame.byteAddr, hm₂]
    · rw [hw₂.only, hw₁.only]
    · rw [hw₂.length, hw₁.length]
    · intro j
      rw [hw₂.byte, hw₁.byte, List.length_singleton, List.length_cons]
      by_cases hj : j = k
      · subst hj
        rw [if_neg (by omega), if_pos (by omega), if_pos (by omega), Nat.sub_self]
        rfl
      · by_cases hin : k + 1 ≤ j ∧ j < k + 1 + bs.length
        · rw [if_pos hin, if_pos (by omega), show j - k = (j - (k + 1)) + 1 by omega]
          rfl
        · rw [if_neg hin, if_neg (by omega), if_neg (by omega)]
    · intro i hi
      rw [List.length_cons] at hi
      rw [hw₂.word i (by omega), hw₁.word i (by simp only [List.length_singleton]; omega)]

/-- The bytes from a distance on. -/
theorem Region.readBytes_byteAddr (hm : Region m) : ∀ {bs : List (BitVec 8)} {k : Nat},
    k + bs.length ≤ 4 * m.memory.length →
    (∀ j, j < bs.length → byteAt m (k + j) = bs.getD j 0#8) →
    readBytes m bs.length (byteAddr m k) = some bs := by
  intro bs
  induction bs with
  | nil => intro k _ _; rfl
  | cons b bs ih =>
    intro k hk hbytes
    rw [List.length_cons] at hk
    have hb : byteAt m k = b := hbytes 0 (by simp)
    have hrest := ih (k := k + 1) (by omega) fun j hj => by
      rw [show k + 1 + j = k + (j + 1) by omega, hbytes (j + 1) (by simpa using hj)]
      rfl
    rw [List.length_cons, readBytes, hm.readByte_byteAddr (by omega), hb]
    show (readBytes m bs.length (byteAddr m k + 1#32)).bind _ = _
    rw [byteAddr_add m k 1, hrest]
    rfl

/-- A text that is there, with its NUL, is read back as a C string. -/
theorem Region.readCString_byteAddr (hm : Region m) {bs : List (BitVec 8)} {k : Nat}
    (hk : k + bs.length < 4 * m.memory.length) (hnul : ∀ b ∈ bs, b ≠ 0#8)
    (hbytes : ∀ j, j < bs.length → byteAt m (k + j) = bs.getD j 0#8)
    (hend : byteAt m (k + bs.length) = 0#8) : readCString m (byteAddr m k) = some bs := by
  have hloop : ∀ {bs : List (BitVec 8)} {k fuel : Nat}, k + bs.length < 4 * m.memory.length →
      bs.length < fuel → (∀ b ∈ bs, b ≠ 0#8) →
      (∀ j, j < bs.length → byteAt m (k + j) = bs.getD j 0#8) →
      byteAt m (k + bs.length) = 0#8 → readCStringLoop m fuel (byteAddr m k) = some bs := by
    intro bs
    induction bs with
    | nil =>
      intro k fuel hk hfuel _ _ hend
      obtain ⟨fuel, rfl⟩ := Nat.exists_eq_succ_of_ne_zero (Nat.ne_of_gt hfuel)
      have hb : byteAt m k = 0#8 := hend
      rw [readCStringLoop, hm.readByte_byteAddr (k := k) hk, hb]
      rfl
    | cons b bs ih =>
      intro k fuel hk hfuel hnul hbytes hend
      obtain ⟨fuel, rfl⟩ : ∃ f, fuel = f + 1 :=
        Nat.exists_eq_succ_of_ne_zero (by rw [List.length_cons] at hfuel; omega)
      rw [List.length_cons] at hk hfuel hend
      have hb : byteAt m k = b := hbytes 0 (by simp)
      have hrest := @ih (k + 1) fuel (by omega) (by omega)
        (fun c hc => hnul c (List.mem_cons_of_mem b hc))
        (fun j hj => by
          rw [show k + 1 + j = k + (j + 1) by omega, hbytes (j + 1) (by simpa using hj)]
          rfl)
        (by rw [show k + 1 + bs.length = k + (bs.length + 1) by omega, hend])
      have hne : ¬b = 0#8 := hnul b (by simp)
      rw [readCStringLoop, hm.readByte_byteAddr (by omega), hb]
      show (if b = 0#8 then some []
        else (readCStringLoop m fuel (byteAddr m k + 1#32)).bind fun bs => some (b :: bs)) = _
      rw [if_neg hne, byteAddr_add m k 1, hrest]
      rfl
  exact hloop hk (by omega) hnul hbytes hend

end LispBM
