import LispBM.Memory.Refinement

/-!
# LispBM — runs of the memory manager

A run of the manager is a sequence of `memory_allocate` and `memory_free` calls, each with
the result it returned; frees are restricted to addresses that an earlier allocation returned
and that were not freed since (`liveAddrs`). `RefinesBlockAllocator` says that every such run
is a run of the abstract block allocator over the managed words.

`memory_init` compares `data_size` with `16 * bits_size` in 32-bit arithmetic, so it accepts a
bitmap that describes more words than it manages once the product wraps. The refinement holds
exactly when the bitmap does not (`refinesBlockAllocator_iff`).
-/

namespace LispBM

open BlockLayout

/-! ## Concrete and abstract runs -/

/-- A call of the memory manager with its result. -/
inductive MemEvent where
  | allocate (numWords : UINT) (result : Option UINT)
  | free (ptr : UINT) (result : Bool)

/-- The addresses returned by an allocation and not freed since (latest event first). -/
def liveAddrs : List MemEvent → List UINT
  | [] => []
  | .allocate _ (some p) :: es => p :: liveAddrs es
  | .allocate _ none :: es => liveAddrs es
  | .free p _ :: es => (liveAddrs es).erase p

/-- The runs from `m₀`, latest event first. -/
inductive MemRun (m₀ : MemoryState) : List MemEvent → MemoryState → Prop where
  | nil : MemRun m₀ [] m₀
  | allocate {es : List MemEvent} {m m' : MemoryState} {r : Option UINT} (k : UINT)
      (hrun : MemRun m₀ es m) (hcall : memoryAllocate m k = (r, m')) :
      MemRun m₀ (.allocate k r :: es) m'
  | free {es : List MemEvent} {m m' : MemoryState} {r : Bool} {p : UINT}
      (hrun : MemRun m₀ es m) (hlive : p ∈ liveAddrs es) (hcall : memoryFree m p = (r, m')) :
      MemRun m₀ (.free p r :: es) m'

/-- The runs of the abstract block allocator over `n` words, where word `i` has address
`addr i`: a successful allocation adds a block of exactly the requested number of words that
overlaps no block, a release returns 1 and removes exactly the block that starts there. -/
inductive BlockRun (addr : Nat → UINT) {n : Nat} : List MemEvent → Layout n → Prop where
  | nil : BlockRun addr [] (Layout.empty n)
  | allocateSome {es : List MemEvent} {L : Layout n} {k : UINT} (b : Block)
      (hrun : BlockRun addr es L) (hlen : b.len = k.toNat)
      (hapart : ∀ c ∈ L.blocks, b.Apart c) (hin : b.last < n) :
      BlockRun addr (.allocate k (some (addr b.start)) :: es) (L.insert b hapart hin)
  | allocateNone {es : List MemEvent} {L : Layout n} (k : UINT) (hrun : BlockRun addr es L) :
      BlockRun addr (.allocate k none :: es) L
  | free {es : List MemEvent} {L : Layout n} {b : Block} (hrun : BlockRun addr es L)
      (hb : b ∈ L.blocks) : BlockRun addr (.free (addr b.start) true :: es) (L.erase b)

/-- The address of managed word `i`. -/
def wordAddr (m : MemoryState) (i : Nat) : UINT := bitmapIxToAddress m (BitVec.ofNat 32 i)

/-- Every run from `m₀` is a run of the block allocator over the managed words, and the
status map always is the encoding of the set of live blocks. -/
def RefinesBlockAllocator (m₀ : MemoryState) : Prop :=
  ∀ es m, MemRun m₀ es m → ∃ L : Layout m₀.memorySize.toNat,
    BlockRun (wordAddr m₀) es L
      ∧ ∀ i, i < m₀.memorySize.toNat → status m (BitVec.ofNat 32 i) = statusCode L i

/-! ## Live addresses are the addresses of the blocks -/

theorem wordAddr_inj {m : MemoryState} {i j : Nat} (hi : i < 2 ^ 30) (hj : j < 2 ^ 30)
    (h : wordAddr m i = wordAddr m j) : i = j := by
  have hti : (BitVec.ofNat 32 i).toNat = i := by rw [BitVec.toNat_ofNat]; omega
  have htj : (BitVec.ofNat 32 j).toNat = j := by rw [BitVec.toNat_ofNat]; omega
  have hix := congrArg (addressToBitmapIx m) h
  rw [wordAddr, wordAddr, addressToBitmapIx_bitmapIxToAddress m (by omega),
    addressToBitmapIx_bitmapIxToAddress m (by omega)] at hix
  exact (ofNat_inj_of_lt (by omega) (by omega)).mp hix

/-- In a run of the block allocator the live addresses are the addresses of the blocks, each
once. -/
theorem BlockRun.liveAddrs_spec {m : MemoryState} {n : Nat} (hn : n < 2 ^ 30)
    {es : List MemEvent} {L : Layout n} (hrun : BlockRun (wordAddr m) es L) :
    (liveAddrs es).Nodup ∧ ∀ p, p ∈ liveAddrs es ↔ ∃ b ∈ L.blocks, wordAddr m b.start = p := by
  have hstart : ∀ (L : Layout n) (b : Block), b ∈ L.blocks → b.start < 2 ^ 30 := by
    intro L b hb
    have := b.start_le_last
    have := L.inside b hb
    omega
  induction hrun with
  | nil => simp [liveAddrs]
  | allocateNone k _ ih => simpa [liveAddrs] using ih
  | @allocateSome es L k b _ hlen hapart hin ih =>
    obtain ⟨hnd, hmem⟩ := ih
    have hb30 : b.start < 2 ^ 30 := by have := b.start_le_last; omega
    have hfresh : wordAddr m b.start ∉ liveAddrs es := by
      intro hp
      obtain ⟨c, hc, hac⟩ := (hmem _).mp hp
      have hcs := wordAddr_inj (hstart L c hc) hb30 hac
      have hbl := b.start_le_last
      have hcl := c.start_le_last
      rcases hapart c hc with h | h <;> omega
    refine ⟨List.nodup_cons.mpr ⟨hfresh, hnd⟩, fun p => ?_⟩
    simp only [liveAddrs, List.mem_cons, hmem, Layout.mem_insert_blocks, exists_eq_or_imp]
    exact or_congr_left eq_comm
  | @free es L b _ hb ih =>
    obtain ⟨hnd, hmem⟩ := ih
    refine ⟨hnd.erase _, fun p => ?_⟩
    simp only [liveAddrs]
    rw [hnd.mem_erase_iff, hmem]
    constructor
    · rintro ⟨hne, c, hc, rfl⟩
      exact ⟨c, Layout.mem_erase_blocks.mpr ⟨fun h => hne (h ▸ rfl), hc⟩, rfl⟩
    · rintro ⟨c, hc, rfl⟩
      obtain ⟨hcb, hcL⟩ := Layout.mem_erase_blocks.mp hc
      refine ⟨fun h => hcb ?_, c, hcL, rfl⟩
      exact Layout.eq_of_start_eq hcL hb (wordAddr_inj (hstart L c hcL) (hstart L b hb) h)

/-- **Every run stays represented.** From a state that represents the empty layout, every run
is a run of the block allocator whose final layout the final state represents. Induction on
the run, one simulation step per call. -/
theorem run_represents {m₀ : MemoryState} {n : Nat} (hinit : Represents m₀ (Layout.empty n))
    {es : List MemEvent} {m : MemoryState} (hrun : MemRun m₀ es m) :
    ∃ L : Layout n, BlockRun (wordAddr m₀) es L ∧ Represents m L
      ∧ m.memoryBaseAddress = m₀.memoryBaseAddress := by
  induction hrun with
  | nil => exact ⟨_, .nil, hinit, rfl⟩
  | @allocate es m m' r k _ hcall ih =>
    obtain ⟨L, hL, hrep, hbase⟩ := ih
    have haddr : ∀ i, bitmapIxToAddress m i = bitmapIxToAddress m₀ i := by
      intro i
      simp only [bitmapIxToAddress, hbase]
    rcases memoryAllocate_represents hrep k with hfail | ⟨b, hapart, hin, m'', hlen, hok, hb, hrep'⟩
    · rw [hfail] at hcall
      obtain ⟨rfl, rfl⟩ := Prod.mk.inj hcall
      exact ⟨L, .allocateNone k hL, hrep, hbase⟩
    · rw [hok, haddr] at hcall
      obtain ⟨rfl, rfl⟩ := Prod.mk.inj hcall
      exact ⟨_, .allocateSome b hL hlen hapart hin, hrep', hb.trans hbase⟩
  | @free es m m' r p _ hlive hcall ih =>
    obtain ⟨L, hL, hrep, hbase⟩ := ih
    obtain ⟨b, hb, rfl⟩ := ((hL.liveAddrs_spec hrep.addressable).2 p).mp hlive
    obtain ⟨m'', hok, hb', hrep'⟩ := memoryFree_represents hrep hb
    rw [show wordAddr m₀ b.start = bitmapIxToAddress m (BitVec.ofNat 32 b.start) from by
      simp only [wordAddr, bitmapIxToAddress, hbase]] at hcall
    rw [hok] at hcall
    obtain ⟨rfl, rfl⟩ := Prod.mk.inj hcall
    exact ⟨_, .free hL hb, hrep', hb'.trans hbase⟩

/-! ## The empty bitmap of `memory_init` -/

/-- What a successful `memory_init` checked and built. -/
theorem memoryInit_eq_some {data dataSize bits bitsSize : UINT} {contents : List UINT}
    {m₀ : MemoryState} (h : memoryInit data dataSize bits bitsSize contents = some m₀) :
    data ≠ 0#32 ∧ dataSize = 16#32 * bitsSize ∧ bitsSize.toNat % 4 = 0
      ∧ m₀ = { bitmap := List.replicate (bitsSize >>> 2).toNat 0#32, memory := contents,
               memorySize := dataSize >>> 2, bitmapSize := bitsSize >>> 2,
               memoryBaseAddress := data } := by
  unfold memoryInit at h
  split at h
  · exact absurd h (by simp)
  · next hnull =>
    split at h
    · exact absurd h (by simp)
    · next hchk =>
      simp only [Bool.or_eq_true, not_or, bne_iff_ne, ne_eq, decide_eq_true_eq,
        Decidable.not_not] at hnull hchk
      obtain ⟨⟨⟨⟨⟨_, hsize⟩, _⟩, _⟩, _⟩, hmod⟩ := hchk
      have hmod' := congrArg BitVec.toNat hmod
      rw [BitVec.toNat_umod] at hmod'
      exact ⟨hnull.1, hsize, hmod', (Option.some.inj h).symm⟩

theorem status_replicate_zero {m : MemoryState} {k : Nat} (h : m.bitmap = List.replicate k 0#32)
    (i : UINT) : status m i = freeOrUsed := by
  have hz : ∀ j, (List.replicate k 0#32).getD j 0#32 = 0#32 := by
    intro j
    rw [List.getD_eq_getElem?_getD, List.getElem?_replicate]
    split <;> rfl
  simp only [status, h, hz]
  simp [freeOrUsed]

theorem statusCode_empty (n i : Nat) : statusCode (Layout.empty n) i = freeOrUsed := by
  simp [statusCode]

/-- Over an all-free bitmap the scan in `FREE_LENGTH_CHECK` counts up to the requested length. -/
theorem allocScan_all_free {m : MemoryState} (hfree : ∀ i, status m i = freeOrUsed) {k : UINT}
    {e : Nat} : ∀ (w i f : Nat), 0 < f → f < k.toNat → k.toNat - f ≤ w →
      allocScan m k w i ⟨.freeLengthCheck, 0, e, f⟩
        = some ⟨.allocDone, 0, i + (k.toNat - f) - 1, k.toNat⟩ := by
  intro w
  induction w with
  | zero => intro i f _ _ _; omega
  | succ w ih =>
    intro i f hf hlt hw
    rw [allocScan, if_neg (by simp), hfree]
    by_cases hk : f + 1 = k.toNat
    · simp only [allocScanStep, hk, if_true]
      rw [show i + (k.toNat - f) - 1 = i from by omega]
      cases w <;> simp [allocScan]
    · simp only [allocScanStep, hk, if_true, if_false]
      rw [ih (i + 1) (f + 1) (by omega) (by omega) (by omega)]
      simp only [Option.some.injEq, AllocScan.mk.injEq, true_and, and_true]
      omega

/-- On an all-free bitmap with at least `k > 0` statuses, `memory_allocate(k)` returns the
base address. -/
theorem memoryAllocate_all_free {m : MemoryState} (hready : m.memoryBaseAddress ≠ 0#32)
    (hfree : ∀ i, status m i = freeOrUsed) {k : UINT} (hpos : 0 < k.toNat)
    (hroom : k.toNat ≤ statusCount m) :
    (memoryAllocate m k).1 = some (wordAddr m 0) := by
  obtain ⟨w, hw⟩ : ∃ w, statusCount m = w + 1 := ⟨statusCount m - 1, by omega⟩
  have hscan : ∃ e f, allocScan m k (statusCount m) 0 ⟨.init, 0, 0, 0⟩
      = some ⟨.allocDone, 0, e, f⟩ := by
    rw [hw, allocScan, if_neg (by simp), hfree]
    by_cases hk : k = 1#32
    · refine ⟨0, 0, ?_⟩
      simp only [allocScanStep, hk, if_true]
      cases w <;> simp [allocScan]
    · have hk1 : k.toNat ≠ 1 := fun h => hk (BitVec.eq_of_toNat_eq h)
      simp only [allocScanStep, hk, if_true, if_false]
      exact ⟨_, _, allocScan_all_free hfree w 1 1 Nat.one_pos (by omega) (by omega)⟩
  obtain ⟨e, f, hscan⟩ := hscan
  simp only [memoryAllocate, if_neg hready, hscan, if_true]
  split <;> rfl

/-! ## When the refinement holds -/

/-- The number of statuses and the number of managed words after `memory_init`. -/
theorem memoryInit_counts {data dataSize bits bitsSize : UINT} {contents : List UINT}
    {m₀ : MemoryState} (h : memoryInit data dataSize bits bitsSize contents = some m₀) :
    statusCount m₀ = 4 * bitsSize.toNat % 2 ^ 32
      ∧ m₀.memorySize.toNat = 4 * bitsSize.toNat % 2 ^ 30 := by
  obtain ⟨_, hsize, hmod, rfl⟩ := memoryInit_eq_some h
  constructor
  · simp only [statusCount, BitVec.toNat_shiftLeft, BitVec.toNat_ushiftRight, Nat.shiftLeft_eq,
      Nat.shiftRight_eq_div_pow]
    omega
  · simp only [hsize, BitVec.toNat_ushiftRight, BitVec.toNat_mul, Nat.shiftRight_eq_div_pow,
      BitVec.toNat_ofNat]
    omega

theorem represents_of_memoryInit {data dataSize bits bitsSize : UINT} {contents : List UINT}
    {m₀ : MemoryState} (h : memoryInit data dataSize bits bitsSize contents = some m₀)
    (hfit : bitsSize.toNat % 2 ^ 30 < 2 ^ 28) :
    Represents m₀ (Layout.empty m₀.memorySize.toNat) := by
  obtain ⟨hcount, hwords⟩ := memoryInit_counts h
  obtain ⟨hdata, _, hmod, hm⟩ := memoryInit_eq_some h
  have hlen : m₀.bitmap.length = bitsSize.toNat / 4 := by
    rw [hm, List.length_replicate, BitVec.toNat_ushiftRight, Nat.shiftRight_eq_div_pow]
  refine ⟨by rw [hm]; exact hdata, by omega, by omega, by omega, fun i _ => ?_⟩
  rw [status_replicate_zero (by rw [hm]), statusCode_empty]

/-- A bitmap with more statuses than managed words hands out a block that sticks out of the
managed region. -/
theorem not_refinesBlockAllocator {data dataSize bits bitsSize : UINT} {contents : List UINT}
    {m₀ : MemoryState} (h : memoryInit data dataSize bits bitsSize contents = some m₀)
    (hwide : 2 ^ 28 ≤ bitsSize.toNat % 2 ^ 30) : ¬RefinesBlockAllocator m₀ := by
  obtain ⟨hcount, hwords⟩ := memoryInit_counts h
  obtain ⟨hdata, _, _, hm⟩ := memoryInit_eq_some h
  -- one request for a single word more than there are
  have hk : (BitVec.ofNat 32 (m₀.memorySize.toNat + 1)).toNat = m₀.memorySize.toNat + 1 := by
    rw [BitVec.toNat_ofNat]
    omega
  have halloc := memoryAllocate_all_free (m := m₀) (by rw [hm]; exact hdata)
    (fun i => status_replicate_zero (by rw [hm]) i)
    (k := BitVec.ofNat 32 (m₀.memorySize.toNat + 1)) (by omega) (by omega)
  obtain ⟨m', hcall⟩ : ∃ m', memoryAllocate m₀ (BitVec.ofNat 32 (m₀.memorySize.toNat + 1))
      = (some (wordAddr m₀ 0), m') := ⟨_, Prod.ext halloc rfl⟩
  intro href
  obtain ⟨L, hL, _⟩ := href _ _ (.allocate _ .nil hcall)
  generalize hp : some (wordAddr m₀ 0) = p at hL
  cases hL with
  | allocateSome b hrun hlen hapart hin =>
    have hlast : b.last = b.start + b.len - 1 := rfl
    omega
  | allocateNone k hrun => exact absurd hp (by simp)

/-- **The bitmap manager refines the block allocator exactly when its bitmap fits.** After a
successful `memory_init`, every run of allocations and legal frees is a run of the block
allocator over the managed words if and only if `bits_size` modulo `2 ^ 30` is below `2 ^ 28`,
that is, if the bitmap describes no more words than `data_size` provides. -/
theorem refinesBlockAllocator_iff {data dataSize bits bitsSize : UINT} {contents : List UINT}
    {m₀ : MemoryState} (h : memoryInit data dataSize bits bitsSize contents = some m₀) :
    RefinesBlockAllocator m₀ ↔ bitsSize.toNat % 2 ^ 30 < 2 ^ 28 := by
  constructor
  · intro href
    by_contra hwide
    exact not_refinesBlockAllocator h (by omega) href
  · intro hfit es m hrun
    obtain ⟨L, hL, hrep, _⟩ := run_represents (represents_of_memoryInit h hfit) hrun
    exact ⟨L, hL, hrep.codes⟩

/-- A 64-byte region with its 4-byte bitmap meets the condition. -/
theorem refinesBlockAllocator_64_bytes :
    ∃ m₀, memoryInit 0x20000000#32 64#32 0x30000000#32 4#32 (List.replicate 16 0#32) = some m₀
      ∧ RefinesBlockAllocator m₀ := by
  obtain ⟨m₀, hinit⟩ : ∃ m₀, memoryInit 0x20000000#32 64#32 0x30000000#32 4#32
      (List.replicate 16 0#32) = some m₀ := ⟨_, rfl⟩
  exact ⟨m₀, hinit, (refinesBlockAllocator_iff hinit).mpr (by decide)⟩

/-- A 64-byte region is accepted with a bitmap of `2 ^ 28 + 4` bytes, because `16 * bits_size`
wraps to 64; the manager then hands out words beyond the region. -/
theorem not_refinesBlockAllocator_wrapped :
    ∃ m₀, memoryInit 0x20000000#32 64#32 0x30000000#32 0x10000004#32 (List.replicate 16 0#32)
        = some m₀ ∧ m₀.memorySize = 16#32 ∧ ¬RefinesBlockAllocator m₀ := by
  obtain ⟨m₀, hinit, hsize⟩ : ∃ m₀, memoryInit 0x20000000#32 64#32 0x30000000#32 0x10000004#32
      (List.replicate 16 0#32) = some m₀ ∧ m₀.memorySize = 16#32 := ⟨_, rfl, rfl⟩
  exact ⟨m₀, hinit, hsize, not_refinesBlockAllocator hinit (by decide)⟩

end LispBM
