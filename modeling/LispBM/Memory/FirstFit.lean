import LispBM.Memory.Run

/-!
# LispBM — `memory_allocate` is a first fit

The scan stops at the first run of free words that is long enough. So it succeeds when there is
one, and the block it gives does not lie behind any such run: what a run of free words loses in an
allocation is at most the size of the block.

A block that is freed right after it was given leaves the bitmap as it was before.
-/

namespace LispBM

open BlockLayout

variable {m : MemoryState} {n : Nat} {L : Layout n}

/-- `len` words from `r` on are in no block. -/
structure FreeRun (L : Layout n) (r len : Nat) : Prop where
  inside : r + len ≤ n
  free : ∀ j, r ≤ j → j < r + len → ¬L.Covered j

/-- The number of free words the scan has seen without a break. -/
def AllocScan.run (c : AllocScan) : Nat :=
  match c.state with
  | .freeLengthCheck => c.freeLength
  | _ => 0

/-- What the scan knows of the free runs before word `i`. -/
def FirstInv (L : Layout n) (k i : Nat) (c : AllocScan) : Prop :=
  if c.state = .allocDone then ∀ r, FreeRun L r k → c.startIx ≤ r
  else c.run < k ∧ (∀ r, r ≤ i → (∀ j, r ≤ j → j < i → ¬L.Covered j) → i - r ≤ c.run)
    ∧ ∀ r, FreeRun L r k → i < r + k

/-- The scan starts again after a word that is used. -/
theorem firstInv_covered {k i : Nat} {c c' : AllocScan} (hk : 0 < k)
    (hinv : FirstInv L k i c) (hlive : c.state ≠ .allocDone) (hcov : L.Covered i)
    (hstate : c'.state = .init ∨ c'.state = .skip) : FirstInv L k (i + 1) c' := by
  rw [FirstInv, if_neg hlive] at hinv
  obtain ⟨-, -, hno⟩ := hinv
  have hnd : c'.state ≠ .allocDone := by
    rcases hstate with h | h <;> (rw [h]; decide)
  have hrun : c'.run = 0 := by
    rcases hstate with h | h <;> (rw [AllocScan.run, h])
  rw [FirstInv, if_neg hnd, hrun]
  refine ⟨hk, fun r hr hfree => ?_, fun r hfree => ?_⟩
  · by_contra hlt
    exact hfree i (by omega) (by omega) hcov
  · have h₁ := hno r hfree
    by_contra hle
    exact hfree.free i (by omega) (by omega) hcov

/-- The run is one word longer. -/
theorem firstInv_free {k i : Nat} {c c' : AllocScan} (hinv : FirstInv L k i c)
    (hlive : c.state ≠ .allocDone)
    (hnext : (c'.state = .allocDone ∧ c.run + 1 = k ∧ c'.startIx + c.run = i)
      ∨ (c'.state = .freeLengthCheck ∧ c.run + 1 ≠ k ∧ c'.freeLength = c.run + 1)) :
    FirstInv L k (i + 1) c' := by
  rw [FirstInv, if_neg hlive] at hinv
  obtain ⟨hlt, hlong, hno⟩ := hinv
  rcases hnext with ⟨hdone, hk, hstart⟩ | ⟨hcheck, hk, hlen⟩
  · rw [FirstInv, if_pos hdone]
    intro r hfree
    have h₁ := hno r hfree
    omega
  · have hnd : c'.state ≠ .allocDone := by rw [hcheck]; decide
    have hrun : c'.run = c.run + 1 := by rw [AllocScan.run, hcheck]; exact hlen
    rw [FirstInv, if_neg hnd, hrun]
    refine ⟨by omega, fun r hr hfree => ?_, fun r hfree => ?_⟩
    · rcases Nat.lt_or_eq_of_le hr with hlt' | rfl
      · have h₁ := hlong r (by omega) fun j hj₁ hj₂ => hfree j hj₁ (by omega)
        omega
      · omega
    · have h₁ := hno r hfree
      by_contra hle
      have h₂ := hlong r (by omega) fun j hj₁ hj₂ => hfree.free j hj₁ (by omega)
      omega

theorem allocScanStep_first {k : UINT} {i : Nat} {c c' : AllocScan} (hk : 0 < k.toNat)
    (hscan : ScanInv L k.toNat i c) (hinv : FirstInv L k.toNat i c) (hlive : c.state ≠ .allocDone)
    (hstep : allocScanStep k (statusCode L i) i c = some c') : FirstInv L k.toNat (i + 1) c' := by
  obtain ⟨st, s, e, f⟩ := c
  rcases statusCode_cases L i with ⟨hc, -, -⟩ | ⟨hc, b, hb, hl, hs⟩ | ⟨hc, b, hb, hs, hl⟩
      | ⟨hc, b, hb, hs, hl⟩
  · -- a free or interior word
    rw [hc] at hstep
    cases st with
    | init =>
      by_cases hone : k = 1#32
      · simp only [allocScanStep, if_true, if_pos hone] at hstep
        cases hstep
        refine firstInv_free hinv hlive (Or.inl ⟨rfl, ?_, rfl⟩)
        rw [hone]
        rfl
      · simp only [allocScanStep, if_true, if_neg hone] at hstep
        cases hstep
        refine firstInv_free hinv hlive (Or.inr ⟨rfl, ?_, rfl⟩)
        intro hrun
        exact hone (BitVec.eq_of_toNat_eq hrun.symm)
    | freeLengthCheck =>
      have hsum : s + f = i := hscan.2.2.1
      by_cases hdone : f + 1 = k.toNat
      · simp only [allocScanStep, if_true, if_pos hdone] at hstep
        cases hstep
        exact firstInv_free hinv hlive (Or.inl ⟨rfl, hdone, hsum⟩)
      · simp only [allocScanStep, if_true, if_neg hdone] at hstep
        cases hstep
        exact firstInv_free hinv hlive (Or.inr ⟨rfl, hdone, rfl⟩)
    | skip =>
      simp only [allocScanStep, if_true] at hstep
      cases hstep
      obtain ⟨b, hb, hlo, hhi⟩ : L.Midway i := hscan
      exact firstInv_covered hk hinv hlive ⟨b, hb, by omega, hhi⟩ (Or.inr rfl)
    | allocDone => exact absurd rfl hlive
  · rw [hc] at hstep
    cases hstep
    exact firstInv_covered hk hinv hlive ⟨b, hb, by omega, by omega⟩ (Or.inl rfl)
  · rw [hc] at hstep
    cases hstep
    exact firstInv_covered hk hinv hlive ⟨b, hb, by omega, by omega⟩ (Or.inr rfl)
  · rw [hc] at hstep
    cases hstep
    exact firstInv_covered hk hinv hlive ⟨b, hb, by omega, by omega⟩ (Or.inl rfl)

/-- The whole scan: it has found a block, or has seen every word. -/
theorem allocScan_first (hrep : Represents m L) {k : UINT} (hk : 0 < k.toNat) :
    ∀ (w i : Nat) (c : AllocScan), i + w = n → ScanInv L k.toNat i c → FirstInv L k.toNat i c →
      ∃ c' j, j ≤ n ∧ allocScan m k w i c = some c' ∧ ScanInv L k.toNat j c'
        ∧ FirstInv L k.toNat j c' ∧ (c'.state = .allocDone ∨ j = n) := by
  intro w
  induction w with
  | zero =>
    intro i c hi hscan hinv
    exact ⟨c, i, by omega, rfl, hscan, hinv, Or.inr hi⟩
  | succ w ih =>
    intro i c hi hscan hinv
    by_cases hdone : c.state = .allocDone
    · exact ⟨c, i, by omega, by simp [allocScan, hdone], hscan, hinv, Or.inl hdone⟩
    · obtain ⟨c', hstep, hscan'⟩ := allocScanStep_inv hscan hdone
      have hinv' := allocScanStep_first hk hscan hinv hdone hstep
      obtain ⟨c'', j, hj, hrun, hend⟩ := ih (i + 1) c' (by omega) hscan' hinv'
      refine ⟨c'', j, hj, ?_, hend⟩
      rw [allocScan, if_neg hdone, hrep.codes i (by omega), hstep]
      exact hrun

@[simp] theorem setStatus_memory (m : MemoryState) (i s : UINT) :
    (setStatus m i s).memory = m.memory := rfl

/-- The contents of the region are left as they are. -/
theorem memoryAllocate_memory (m : MemoryState) (k : UINT) :
    (memoryAllocate m k).2.memory = m.memory := by
  unfold memoryAllocate
  split
  · rfl
  · split
    · rfl
    · simp only
      split
      · split <;> rfl
      · rfl

/-- What is left of a run after a block was taken that does not begin behind it. -/
theorem FreeRun.insert {r len : Nat} (hrun : FreeRun L r len) {b : Block} {hapart hin}
    (hle : b.len ≤ len) (hstart : b.start ≤ r) :
    FreeRun (L.insert b hapart hin) (r + b.len) (len - b.len) := by
  have hinside := hrun.inside
  refine ⟨by omega, fun j hj₁ hj₂ hcov => ?_⟩
  obtain ⟨c, hc, hlo, hhi⟩ := hcov
  rcases Layout.mem_insert_blocks.mp hc with rfl | hc
  · have hpos := c.pos
    rw [Block.last] at hhi
    omega
  · exact hrun.free j (by omega) (by omega) ⟨c, hc, hlo, hhi⟩

/-- **Allocation is a complete first fit.** It takes the first run of free words that is long
enough, or there is none and nothing changes. -/
theorem memoryAllocate_firstFit (hrep : Represents m L) {k : UINT} (hk : 0 < k.toNat) :
    (memoryAllocate m k = (none, m) ∧ ∀ r, ¬FreeRun L r k.toNat)
      ∨ ∃ (b : Block) (hapart : ∀ c ∈ L.blocks, b.Apart c) (hin : b.last < n) (m' : MemoryState),
        b.len = k.toNat
        ∧ memoryAllocate m k = (some (bitmapIxToAddress m (BitVec.ofNat 32 b.start)), m')
        ∧ m'.memoryBaseAddress = m.memoryBaseAddress
        ∧ Represents m' (L.insert b hapart hin)
        ∧ ∀ r, FreeRun L r k.toNat → b.start ≤ r := by
  obtain ⟨c, j, hjn, hscan, hscanInv, hinv, hend⟩ := allocScan_first hrep hk n 0
    { state := .init, startIx := 0, endIx := 0, freeLength := 0 } (by omega)
    (Layout.not_midway_zero L) (by
      rw [FirstInv, if_neg (by decide)]
      exact ⟨hk, fun r hr _ => by omega, fun r _ => by omega⟩)
  by_cases hdone : c.state = .allocDone
  · right
    have hstart : ∀ r, FreeRun L r k.toNat → c.startIx ≤ r := by
      rw [FirstInv, if_pos hdone] at hinv
      exact hinv
    have haddr :
        (memoryAllocate m k).1 = some (bitmapIxToAddress m (BitVec.ofNat 32 c.startIx)) := by
      simp only [memoryAllocate, if_neg hrep.ready, hrep.count, hscan, hdone, if_true]
      split <;> rfl
    rcases memoryAllocate_represents hrep k with hnone |
      ⟨b, hapart, hin, m', hlen, hres, hbase, hrep'⟩
    · rw [hnone] at haddr
      exact absurd haddr (by simp)
    · rw [hres] at haddr
      have hbstart : b.start = c.startIx := by
        obtain ⟨hle, hlt, -, -⟩ : c.startIx ≤ c.endIx ∧ c.endIx < j
            ∧ c.endIx + 1 = c.startIx + k.toNat
            ∧ ∀ i, c.startIx ≤ i → i ≤ c.endIx → ¬L.Covered i := by
          simpa [ScanInv, hdone] using hscanInv
        have hlast := b.start_le_last
        have hn := hrep.addressable
        exact wordAddr_inj (m := m) (by omega) (by omega) (Option.some.inj haddr)
      exact ⟨b, hapart, hin, m', hlen, hres, hbase, hrep', fun r hr => hbstart ▸ hstart r hr⟩
  · left
    have hj : j = n := hend.resolve_left hdone
    rw [FirstInv, if_neg hdone] at hinv
    refine ⟨by simp [memoryAllocate, hrep.ready, hrep.count, hscan, hdone], fun r hr => ?_⟩
    -- the run would have been found
    have hno := hinv.2.2 r hr
    have hinside := hr.inside
    omega

/-- **Allocation succeeds when there is room**, and takes no more than it was asked for. -/
theorem memoryAllocate_of_freeRun (hrep : Represents m L) {k : UINT} (hk : 0 < k.toNat)
    {r len : Nat} (hrun : FreeRun L r len) (hle : k.toNat ≤ len) :
    ∃ (b : Block) (hapart : ∀ c ∈ L.blocks, b.Apart c) (hin : b.last < n) (m' : MemoryState),
      b.len = k.toNat
      ∧ memoryAllocate m k = (some (bitmapIxToAddress m (BitVec.ofNat 32 b.start)), m')
      ∧ m'.memoryBaseAddress = m.memoryBaseAddress ∧ m'.memory = m.memory
      ∧ Represents m' (L.insert b hapart hin)
      ∧ FreeRun (L.insert b hapart hin) (r + k.toNat) (len - k.toNat) := by
  have hinside := hrun.inside
  have hfirst : FreeRun L r k.toNat :=
    ⟨by omega, fun j hj₁ hj₂ => hrun.free j hj₁ (by omega)⟩
  rcases memoryAllocate_firstFit hrep hk with ⟨-, hno⟩
      | ⟨b, hapart, hin, m', hlen, hres, hbase, hrep', hleast⟩
  · exact absurd hfirst (hno r)
  · have hmem := memoryAllocate_memory m k
    rw [hres] at hmem
    have h₁ := @FreeRun.insert n L r len hrun b hapart hin (by omega) (hleast r hfirst)
    rw [hlen] at h₁
    exact ⟨b, hapart, hin, m', hlen, hres, hbase, hmem, hrep', h₁⟩

/-! ## Giving a block back -/

/-- The word with the field `s` at position `b`. -/
def setField (w : UINT) (b : Nat) (s : UINT) : UINT := w &&& ~~~(3#32 <<< b) ||| s <<< b

theorem setStatus_eq (m : MemoryState) {i : UINT} (hi : i.toNat < 2 ^ 31) (s : UINT) :
    setStatus m i s =
      { m with
        bitmap := m.bitmap.set (i.toNat / 16)
          (setField (m.bitmap.getD (i.toNat / 16) 0#32) (2 * (i.toNat % 16)) s) } := by
  rw [setStatus]
  simp only [wordIx_eq hi, bitIx_eq i]
  rfl

theorem setField_setField (w : UINT) (b : Nat) {s t : UINT} (hs : s.toNat < 4) (ht : t.toNat < 4) :
    setField (setField w b s) b t = setField w b t := by
  apply BitVec.eq_of_getLsbD_eq
  intro j hj
  rw [setField, getLsbD_setField ht j hj, setField, setField, getLsbD_setField hs j hj,
    getLsbD_setField ht j hj]
  split <;> rfl

theorem setField_comm (w : UINT) {b c : Nat} (hbc : b + 2 ≤ c ∨ c + 2 ≤ b) {s t : UINT}
    (hs : s.toNat < 4) (ht : t.toNat < 4) :
    setField (setField w b s) c t = setField (setField w c t) b s := by
  apply BitVec.eq_of_getLsbD_eq
  intro j hj
  rw [setField, getLsbD_setField ht j hj, setField, getLsbD_setField hs j hj, setField,
    getLsbD_setField hs j hj, setField, getLsbD_setField ht j hj]
  by_cases hb : b ≤ j ∧ j < b + 2
  · rw [if_pos hb, if_neg (by omega), if_pos hb]
  · rw [if_neg hb, if_neg hb]

/-- The last status written counts. -/
theorem setStatus_setStatus {i : UINT} (hi : i.toNat < 2 ^ 31)
    (hlen : i.toNat / 16 < m.bitmap.length) {s t : UINT} (hs : s.toNat < 4) (ht : t.toNat < 4) :
    setStatus (setStatus m i s) i t = setStatus m i t := by
  rw [setStatus_eq _ hi, setStatus_eq m hi, setStatus_eq m hi]
  simp only [List.getD_eq_getElem?_getD, List.getElem?_set_self hlen, Option.getD_some,
    List.set_set, setField_setField _ _ hs ht]

theorem setStatus_comm {i j : UINT} (hi : i.toNat < 2 ^ 31) (hj : j.toNat < 2 ^ 31)
    (hlen : j.toNat / 16 < m.bitmap.length) (hij : i ≠ j) {s t : UINT} (hs : s.toNat < 4)
    (ht : t.toNat < 4) :
    setStatus (setStatus m i s) j t = setStatus (setStatus m j t) i s := by
  have hne : i.toNat ≠ j.toNat := fun h => hij (BitVec.eq_of_toNat_eq h)
  rw [setStatus_eq _ hj, setStatus_eq m hi, setStatus_eq _ hi, setStatus_eq m hj]
  simp only [List.getD_eq_getElem?_getD]
  by_cases hw : i.toNat / 16 = j.toNat / 16
  · rw [hw]
    simp only [List.getElem?_set_self hlen, Option.getD_some, List.set_set]
    rw [setField_comm _ (by omega) hs ht]
  · rw [List.getElem?_set_ne hw, List.getElem?_set_ne (Ne.symm hw), List.set_comm _ _ hw]

/-- Writing the status a word has changes nothing. -/
theorem setStatus_self {i : UINT} (hi : i.toNat < 2 ^ 31) (hlen : i.toNat / 16 < m.bitmap.length) :
    setStatus m i (status m i) = m := by
  have hword : setField (m.bitmap.getD (i.toNat / 16) 0#32) (2 * (i.toNat % 16)) (status m i)
      = m.bitmap.getD (i.toNat / 16) 0#32 := by
    apply BitVec.eq_of_getLsbD_eq
    intro j hj
    rw [setField, getLsbD_setField (status_lt_four m i) j hj]
    split
    · next hin =>
      have hfield := getLsbD_field (m.bitmap.getD (i.toNat / 16) 0#32) (2 * (i.toNat % 16))
        (j - 2 * (i.toNat % 16))
      rw [status]
      simp only [wordIx_eq hi, bitIx_eq i]
      rw [hfield, show 2 * (i.toNat % 16) + (j - 2 * (i.toNat % 16)) = j by omega,
        decide_eq_true (show j - 2 * (i.toNat % 16) < 2 by omega), Bool.and_true]
    · rfl
  rw [setStatus_eq m hi, hword, List.getD_eq_getElem?_getD, List.getElem?_eq_getElem hlen,
    Option.getD_some, List.set_getElem_self]

/-- Words in no block have the status FREE. -/
theorem Represents.status_of_free (hrep : Represents m L) {i : Nat} (hi : i < n)
    (hfree : ¬L.Covered i) : status m (BitVec.ofNat 32 i) = freeOrUsed := by
  rw [hrep.codes i hi]
  rcases statusCode_cases L i with ⟨hc, -, -⟩ | ⟨-, b, hb, hl, hs⟩ | ⟨-, b, hb, hs, hl⟩
      | ⟨-, b, hb, hs, hl⟩
  · exact hc
  · exact absurd ⟨b, hb, by omega, by omega⟩ hfree
  · exact absurd ⟨b, hb, by omega, by omega⟩ hfree
  · exact absurd ⟨b, hb, by omega, by omega⟩ hfree

/-- The statuses of a block of free words are written and cleared again. -/
theorem clearBlock_codeBlock (hrep : Represents m L) {b : Block}
    (hapart : ∀ c ∈ L.blocks, b.Apart c) (hin : b.last < n) :
    clearBlock (codeBlock m b) b = m := by
  have hn := hrep.addressable
  have hroom := hrep.room
  have hbl := b.start_le_last
  have hts : (BitVec.ofNat 32 b.start).toNat = b.start := by rw [BitVec.toNat_ofNat]; omega
  have hte : (BitVec.ofNat 32 b.last).toNat = b.last := by rw [BitVec.toNat_ofNat]; omega
  have hlens : (BitVec.ofNat 32 b.start).toNat / 16 < m.bitmap.length := by rw [hts]; omega
  have hlene : (BitVec.ofNat 32 b.last).toNat / 16 < m.bitmap.length := by rw [hte]; omega
  -- the words that are written are in no block
  have hfree : ∀ i, b.Covers i → status m (BitVec.ofNat 32 i) = freeOrUsed := by
    intro i hi
    obtain ⟨hlo, hhi⟩ := hi
    apply hrep.status_of_free (by omega)
    rintro ⟨c, hc, hclo, hchi⟩
    rcases hapart c hc with h | h <;> omega
  have hfree_s := hfree b.start ⟨le_refl _, hbl⟩
  have hfree_e := hfree b.last ⟨hbl, le_refl _⟩
  unfold clearBlock codeBlock
  by_cases hone : b.start = b.last
  · rw [if_pos hone, if_pos hone, setStatus_setStatus (by omega) hlens (by decide) (by decide),
      ← hfree_s, setStatus_self (by omega) hlens]
  · have hes : BitVec.ofNat 32 b.last ≠ BitVec.ofNat 32 b.start := fun h =>
      hone ((ofNat_inj_of_lt (by omega) (by omega)).mp h).symm
    rw [if_neg hone, if_neg hone,
      setStatus_comm (by omega) (by omega) (by simpa using hlens) hes (by decide) (by decide),
      setStatus_setStatus (by omega) hlens (by decide) (by decide),
      setStatus_setStatus (by omega) (by simpa using hlene) (by decide) (by decide)]
    rw [← hfree_s, setStatus_self (by omega) hlens, hfree_s, ← hfree_e,
      setStatus_self (by omega) hlene]

/-- **A block that is freed at once leaves nothing behind.** -/
theorem memoryFree_memoryAllocate (hrep : Represents m L) {k addr : UINT} {m' : MemoryState}
    (hres : memoryAllocate m k = (some addr, m')) : memoryFree m' addr = (true, m) := by
  rcases memoryAllocate_cases hrep k with hfail | ⟨b, hapart, hin, -, hok⟩
  · rw [hfail] at hres
    exact absurd (congrArg Prod.fst hres) (by simp)
  · rw [hok] at hres
    obtain ⟨haddr, rfl⟩ := Prod.mk.inj hres
    obtain rfl := Option.some.inj haddr
    have hfreed := memoryFree_block (codeBlock_represents hrep hapart hin)
      (Layout.mem_insert_blocks.mpr (.inl rfl))
    have hbase : bitmapIxToAddress (codeBlock m b) (BitVec.ofNat 32 b.start)
        = bitmapIxToAddress m (BitVec.ofNat 32 b.start) := by
      simp only [bitmapIxToAddress, codeBlock_memoryBaseAddress]
    rw [hbase, clearBlock_codeBlock hrep hapart hin] at hfreed
    exact hfreed

end LispBM
