import LispBM.Memory.Accounting

/-!
# LispBM — exact release

No size is stored with a block: `memory_free` goes by the status of the word it is given, and looks
for the END of the block. It is compared with the blocks that a run has handed out (`liveBlocks`),
for every word of the managed region, in runs that release any of these words.

When `16 * bits_size` wraps in `memory_init`, the manager hands out one address twice
(`memoryAllocate_alias`), and a release takes the wrong block.
-/

namespace LispBM

open BlockLayout

/-- The runs that release any words of the managed region, latest event first. -/
inductive ManagedRun (m₀ : MemoryState) : List MemEvent → MemoryState → Prop where
  | nil : ManagedRun m₀ [] m₀
  | allocate {es : List MemEvent} {m m' : MemoryState} {r : Option UINT} (k : UINT)
      (hrun : ManagedRun m₀ es m) (hcall : memoryAllocate m k = (r, m')) :
      ManagedRun m₀ (.allocate k r :: es) m'
  | free {es : List MemEvent} {m m' : MemoryState} {r : Bool} {i : Nat}
      (hrun : ManagedRun m₀ es m) (hi : i < m₀.memorySize.toNat)
      (hcall : memoryFree m (wordAddr m₀ i) = (r, m')) :
      ManagedRun m₀ (.free (wordAddr m₀ i) r :: es) m'

/-- After every run, a word of the managed region is released exactly when a live block starts
there; the release frees this block and nothing else, a rejection changes nothing, and a block that
is released at once leaves the bitmap as it was. -/
structure FreesExactly (m₀ : MemoryState) : Prop where
  live : ∀ es m, ManagedRun m₀ es m → ∀ i, i < m₀.memorySize.toNat →
    ((memoryFree m (wordAddr m₀ i)).1 = true ↔ ∃ k, (wordAddr m₀ i, k) ∈ liveBlocks es)
  releases : ∀ es m, ManagedRun m₀ es m → ∀ i k, i < m₀.memorySize.toNat →
    (wordAddr m₀ i, k) ∈ liveBlocks es → ∀ j, j < m₀.memorySize.toNat →
      status (memoryFree m (wordAddr m₀ i)).2 (BitVec.ofNat 32 j)
        = if i ≤ j ∧ j < i + k then freeOrUsed else status m (BitVec.ofNat 32 j)
  rejects : ∀ es m, ManagedRun m₀ es m → ∀ i, i < m₀.memorySize.toNat →
    (∀ k, (wordAddr m₀ i, k) ∉ liveBlocks es) → memoryFree m (wordAddr m₀ i) = (false, m)
  restores : ∀ es m, ManagedRun m₀ es m → ∀ k i m', i < m₀.memorySize.toNat →
    memoryAllocate m k = (some (wordAddr m₀ i), m') →
      ∃ m'', memoryFree m' (wordAddr m₀ i) = (true, m'') ∧ m''.bitmap = m.bitmap

section

variable {m₀ m m' : MemoryState} {es : List MemEvent} {n i k : Nat} {L : Layout n}

/-! ## Runs over a bitmap that fits -/

/-- What the bitmap has to do with the live blocks. -/
structure TracksBlocks (m₀ m : MemoryState) (es : List MemEvent) (L : Layout n) : Prop where
  represents : Represents m L
  base : m.memoryBaseAddress = m₀.memoryBaseAddress
  live : ∀ p k, (p, k) ∈ liveBlocks es ↔ ∃ b ∈ L.blocks, wordAddr m₀ b.start = p ∧ b.len = k

theorem TracksBlocks.wordAddr_eq (h : TracksBlocks m₀ m es L) (i : Nat) :
    wordAddr m₀ i = bitmapIxToAddress m (BitVec.ofNat 32 i) := by
  simp only [wordAddr, bitmapIxToAddress, h.base]

theorem TracksBlocks.start_lt (h : TracksBlocks m₀ m es L) {b : Block} (hb : b ∈ L.blocks) :
    b.start < 2 ^ 30 := by
  have hn := h.represents.addressable
  have hin := L.inside b hb
  have hbl := b.start_le_last
  omega

/-- The block that starts at a live word. -/
theorem TracksBlocks.exists_block (h : TracksBlocks m₀ m es L) (hi : i < n)
    (hlive : (wordAddr m₀ i, k) ∈ liveBlocks es) :
    ∃ b ∈ L.blocks, b.start = i ∧ b.len = k := by
  have hn := h.represents.addressable
  obtain ⟨b, hb, haddr, hlen⟩ := (h.live _ _).mp hlive
  exact ⟨b, hb, wordAddr_inj (h.start_lt hb) (by omega) haddr, hlen⟩

theorem TracksBlocks.no_block (h : TracksBlocks m₀ m es L)
    (hdead : ∀ k, (wordAddr m₀ i, k) ∉ liveBlocks es) : ∀ b ∈ L.blocks, b.start ≠ i := by
  rintro b hb rfl
  exact hdead b.len ((h.live _ _).mpr ⟨b, hb, rfl, rfl⟩)

theorem TracksBlocks.free_live (h : TracksBlocks m₀ m es L) (hi : i < n)
    (hlive : (wordAddr m₀ i, k) ∈ liveBlocks es) :
    ∃ b ∈ L.blocks, b.start = i ∧ b.len = k
      ∧ memoryFree m (wordAddr m₀ i) = (true, clearBlock m b) := by
  obtain ⟨b, hb, rfl, rfl⟩ := h.exists_block hi hlive
  refine ⟨b, hb, rfl, rfl, ?_⟩
  rw [h.wordAddr_eq]
  exact memoryFree_block h.represents hb

theorem TracksBlocks.free_dead (h : TracksBlocks m₀ m es L) (hi : i < n)
    (hdead : ∀ k, (wordAddr m₀ i, k) ∉ liveBlocks es) :
    memoryFree m (wordAddr m₀ i) = (false, m) := by
  rw [h.wordAddr_eq]
  exact memoryFree_reject h.represents hi (h.no_block hdead)

theorem TracksBlocks.allocate (h : TracksBlocks m₀ m es L) {k : UINT} {r : Option UINT}
    (hcall : memoryAllocate m k = (r, m')) :
    ∃ L' : Layout n, TracksBlocks m₀ m' (.allocate k r :: es) L' := by
  rcases memoryAllocate_cases h.represents k with hfail | ⟨b, hapart, hin, hlen, hok⟩
  · rw [hfail] at hcall
    obtain ⟨rfl, rfl⟩ := Prod.mk.inj hcall
    exact ⟨L, h.represents, h.base, h.live⟩
  · rw [hok, ← h.wordAddr_eq] at hcall
    obtain ⟨rfl, rfl⟩ := Prod.mk.inj hcall
    refine ⟨L.insert b hapart hin, codeBlock_represents h.represents hapart hin, ?_, ?_⟩
    · rw [codeBlock_memoryBaseAddress, h.base]
    · intro p l
      rw [liveBlocks, List.mem_cons, h.live, Prod.mk.injEq]
      simp only [Layout.mem_insert_blocks, exists_eq_or_imp, hlen]
      exact or_congr_left (and_congr eq_comm eq_comm)

theorem TracksBlocks.free (h : TracksBlocks m₀ m es L) (hi : i < n) {r : Bool}
    (hcall : memoryFree m (wordAddr m₀ i) = (r, m')) :
    ∃ L' : Layout n, TracksBlocks m₀ m' (.free (wordAddr m₀ i) r :: es) L' := by
  by_cases hlive : ∃ k, (wordAddr m₀ i, k) ∈ liveBlocks es
  · obtain ⟨k, hlive⟩ := hlive
    obtain ⟨b, hb, rfl, -, hfree⟩ := h.free_live hi hlive
    rw [hfree] at hcall
    obtain ⟨rfl, rfl⟩ := Prod.mk.inj hcall
    refine ⟨L.erase b, clearBlock_represents h.represents hb, ?_, ?_⟩
    · rw [clearBlock_memoryBaseAddress, h.base]
    · intro p l
      rw [liveBlocks, List.mem_filter, h.live]
      constructor
      · rintro ⟨⟨c, hc, hp, hl⟩, hne⟩
        have hcb : c ≠ b := by
          rintro rfl
          simp [← hp] at hne
        exact ⟨c, Layout.mem_erase_blocks.mpr ⟨hcb, hc⟩, hp, hl⟩
      · rintro ⟨c, hc, hp, hl⟩
        obtain ⟨hcb, hcL⟩ := Layout.mem_erase_blocks.mp hc
        have hne : p ≠ wordAddr m₀ b.start := by
          intro heq
          have hs := wordAddr_inj (h.start_lt hcL) (h.start_lt hb) (hp.trans heq)
          exact hcb (Layout.eq_of_start_eq hcL hb hs)
        exact ⟨⟨c, hcL, hp, hl⟩, by simpa using hne⟩
  · -- a rejected release has no live block to forget
    have hdead : ∀ k, (wordAddr m₀ i, k) ∉ liveBlocks es := not_exists.mp hlive
    rw [h.free_dead hi hdead] at hcall
    obtain ⟨rfl, rfl⟩ := Prod.mk.inj hcall
    refine ⟨L, h.represents, h.base, ?_⟩
    intro p l
    rw [liveBlocks, List.mem_filter, ← h.live]
    constructor
    · exact fun hp => hp.1
    · intro hp
      refine ⟨hp, ?_⟩
      rw [decide_eq_true_eq]
      rintro rfl
      exact hdead l hp

theorem run_tracksBlocks (hinit : Represents m₀ (Layout.empty m₀.memorySize.toNat))
    (hrun : ManagedRun m₀ es m) :
    ∃ L : Layout m₀.memorySize.toNat, TracksBlocks m₀ m es L := by
  induction hrun with
  | nil => exact ⟨_, hinit, rfl, by simp [liveBlocks]⟩
  | allocate k _ hcall ih =>
    obtain ⟨L, hL⟩ := ih
    exact hL.allocate hcall
  | free _ hi hcall ih =>
    obtain ⟨L, hL⟩ := ih
    exact hL.free hi hcall

/-- The statuses after a release. -/
theorem Represents.status_clearBlock (hrep : Represents m L) {b : Block} (hb : b ∈ L.blocks)
    {j : Nat} (hj : j < n) :
    status (clearBlock m b) (BitVec.ofNat 32 j)
      = if b.start ≤ j ∧ j < b.start + b.len then freeOrUsed else status m (BitVec.ofNat 32 j) := by
  have hpos := b.pos
  have hlast : b.last = b.start + b.len - 1 := rfl
  rw [(clearBlock_represents hrep hb).codes j hj, statusCode_erase hb, hrep.codes j hj]
  by_cases hends : b.start = j ∨ b.last = j
  · rw [if_pos hends, if_pos (by omega)]
  · rw [if_neg hends]
    by_cases hin : b.start ≤ j ∧ j < b.start + b.len
    · -- an interior word looks free already
      rw [if_pos hin]
      have hcov : b.Covers j := ⟨hin.1, by omega⟩
      rcases statusCode_cases L j with ⟨hc, -⟩ | ⟨-, c, hc, hl, hs⟩ | ⟨-, c, hc, hs, hl⟩
          | ⟨-, c, hc, hs, hl⟩
      · exact hc
      all_goals
        have hcb : b = c := Layout.eq_of_covers hb hc hcov ⟨by omega, by omega⟩
        subst hcb
        omega
    · rw [if_neg hin]

theorem freesExactly_of_represents
    (hinit : Represents m₀ (Layout.empty m₀.memorySize.toNat)) : FreesExactly m₀ := by
  refine ⟨fun es m hrun i hi => ?_, fun es m hrun i k hi hlive j hj => ?_,
    fun es m hrun i hi hdead => ?_, fun es m hrun k i m' hi hcall => ?_⟩
  · obtain ⟨L, hL⟩ := run_tracksBlocks hinit hrun
    constructor
    · intro htrue
      by_contra hdead
      rw [hL.free_dead hi (not_exists.mp hdead)] at htrue
      cases htrue
    · rintro ⟨k, hlive⟩
      obtain ⟨b, -, -, -, hfree⟩ := hL.free_live hi hlive
      rw [hfree]
  · obtain ⟨L, hL⟩ := run_tracksBlocks hinit hrun
    obtain ⟨b, hb, rfl, rfl, hfree⟩ := hL.free_live hi hlive
    rw [hfree]
    exact hL.represents.status_clearBlock hb hj
  · obtain ⟨L, hL⟩ := run_tracksBlocks hinit hrun
    exact hL.free_dead hi hdead
  · obtain ⟨L, hL⟩ := run_tracksBlocks hinit hrun
    exact ⟨m, memoryFree_memoryAllocate hL.represents hcall, rfl⟩

/-! ## A bitmap whose size wrapped -/

/-- Behind a START the scan of `memory_allocate` passes over free words. -/
theorem allocScan_skip {k : UINT} {s e f w : Nat} : ∀ (d i : Nat),
    (∀ j, i ≤ j → j < i + d → status m (BitVec.ofNat 32 j) = freeOrUsed) →
      allocScan m k (d + w) i ⟨.skip, s, e, f⟩ = allocScan m k w (i + d) ⟨.skip, s, e, f⟩ := by
  intro d
  induction d with
  | zero =>
    intro i _
    rw [Nat.zero_add, Nat.add_zero]
  | succ d ih =>
    intro i hfree
    have hstep : allocScanStep k freeOrUsed i ⟨.skip, s, e, f⟩ = some ⟨.skip, s, e, f⟩ := by
      simp [allocScanStep, freeOrUsed]
    rw [show d + 1 + w = (d + w) + 1 by omega, allocScan, if_neg (by simp),
      hfree i (Nat.le_refl i) (by omega), hstep]
    show allocScan m k (d + w) (i + 1) _ = _
    rw [ih (i + 1) fun j hlo hhi => hfree j (by omega) (by omega)]
    congr 1
    omega

/-- On an all-free bitmap, a block of more than one word begins at the base. -/
theorem memoryAllocate_all_free_eq (hready : m.memoryBaseAddress ≠ 0#32)
    (hfree : ∀ i, status m i = freeOrUsed) {k : UINT} (hk : 1 < k.toNat)
    (hroom : k.toNat ≤ statusCount m) :
    memoryAllocate m k = (some (wordAddr m 0),
      setStatus (setStatus m 0#32 startStatus) (BitVec.ofNat 32 (k.toNat - 1)) endStatus) := by
  obtain ⟨w, hw⟩ : ∃ w, statusCount m = w + 1 := ⟨statusCount m - 1, by omega⟩
  have hscan : allocScan m k (statusCount m) 0 ⟨.init, 0, 0, 0⟩
      = some ⟨.allocDone, 0, k.toNat - 1, k.toNat⟩ := by
    have hk1 : k ≠ 1#32 := by
      rintro rfl
      exact absurd hk (by decide)
    rw [hw, allocScan, if_neg (by simp), hfree]
    simp only [allocScanStep, hk1, if_true, if_false]
    rw [allocScan_all_free hfree w 1 1 Nat.one_pos hk (by omega)]
    simp only [Option.some.injEq, AllocScan.mk.injEq, true_and, and_true]
    omega
  have hne : ¬0 = k.toNat - 1 := by omega
  simp only [memoryAllocate, if_neg hready, hscan, if_true, if_neg hne]
  rfl

/-- The word behind the first block is found. -/
theorem allocScan_behind {N : Nat} (hN : 2 ≤ N) (hwide : N < statusCount m)
    (hstart : status m 0#32 = startStatus)
    (hbetween : ∀ j, 1 ≤ j → j < N - 1 → status m (BitVec.ofNat 32 j) = freeOrUsed)
    (hend : status m (BitVec.ofNat 32 (N - 1)) = endStatus)
    (hfree : status m (BitVec.ofNat 32 N) = freeOrUsed) :
    allocScan m 1#32 (statusCount m) 0 ⟨.init, 0, 0, 0⟩ = some ⟨.allocDone, N, N, 0⟩ := by
  obtain ⟨w, hw⟩ : ∃ w, statusCount m = ((N - 2) + ((w + 1) + 1)) + 1 :=
    ⟨statusCount m - N - 1, by omega⟩
  have hfirst : allocScanStep 1#32 startStatus 0 ⟨.init, 0, 0, 0⟩ = some ⟨.skip, 0, 0, 0⟩ := by
    decide
  have hlast : allocScanStep 1#32 endStatus (N - 1) ⟨.skip, 0, 0, 0⟩ = some ⟨.init, 0, 0, 0⟩ := by
    simp [allocScanStep, endStatus, freeOrUsed]
  have htake : allocScanStep 1#32 freeOrUsed N ⟨.init, 0, 0, 0⟩ = some ⟨.allocDone, N, N, 0⟩ := by
    simp [allocScanStep, freeOrUsed]
  have hone : 1 + (N - 2) = N - 1 := by omega
  have hnext : N - 1 + 1 = N := by omega
  rw [hw, allocScan, if_neg (by simp), hstart, hfirst]
  show allocScan m 1#32 ((N - 2) + ((w + 1) + 1)) 1 _ = _
  rw [allocScan_skip (N - 2) 1 fun j hlo hhi => hbetween j hlo (by omega), hone, allocScan,
    if_neg (by simp), hend, hlast]
  show allocScan m 1#32 (w + 1) (N - 1 + 1) _ = _
  rw [hnext, allocScan, if_neg (by simp), hfree, htake]
  cases w <;> simp [allocScan]

/-- **The manager hands out one address twice.** Word `2 ^ 30` of the bitmap has the address of word
0. -/
theorem memoryAllocate_alias (hready : m.memoryBaseAddress ≠ 0#32)
    (hscan : allocScan m 1#32 (statusCount m) 0 ⟨.init, 0, 0, 0⟩
      = some ⟨.allocDone, 2 ^ 30, 2 ^ 30, 0⟩) :
    memoryAllocate m 1#32
      = (some (wordAddr m 0), setStatus m (BitVec.ofNat 32 (2 ^ 30)) startEnd) := by
  have haddr : bitmapIxToAddress m (BitVec.ofNat 32 (2 ^ 30)) = wordAddr m 0 := by
    rw [wordAddr, bitmapIxToAddress, bitmapIxToAddress]
    congr 1
  simp only [memoryAllocate, if_neg hready, hscan, if_true]
  rw [haddr]

theorem status_congr (h : m.bitmap = m'.bitmap) (i : UINT) : status m i = status m' i := by
  unfold status
  rw [h]

/-- A bitmap with more statuses than a 32-bit address space has words releases the wrong block. -/
theorem not_freesExactly {data dataSize bits bitsSize : UINT} {contents : List UINT}
    (h : memoryInit data dataSize bits bitsSize contents = some m₀)
    (hwide : 2 ^ 28 ≤ bitsSize.toNat % 2 ^ 30) (hsize : 0 < m₀.memorySize.toNat) :
    ¬FreesExactly m₀ := by
  obtain ⟨hcount, hwords⟩ := memoryInit_counts h
  obtain ⟨hdata, -, hmod, hm⟩ := memoryInit_eq_some h
  have hready : m₀.memoryBaseAddress ≠ 0#32 := by
    rw [hm]
    exact hdata
  have hlen : m₀.bitmap.length = bitsSize.toNat / 4 := by
    rw [hm, List.length_replicate, BitVec.toNat_ushiftRight, Nat.shiftRight_eq_div_pow]
  have hfree : ∀ i, status m₀ i = freeOrUsed := fun i => status_replicate_zero (by rw [hm]) i
  have htop : 2 ^ 30 < statusCount m₀ := by omega
  have hroom : 2 ^ 30 / 16 < m₀.bitmap.length := by omega
  -- the first block takes the words whose addresses differ
  let m₁ := setStatus (setStatus m₀ 0#32 startStatus) (BitVec.ofNat 32 (2 ^ 30 - 1)) endStatus
  have hfirst : memoryAllocate m₀ (BitVec.ofNat 32 (2 ^ 30)) = (some (wordAddr m₀ 0), m₁) :=
    memoryAllocate_all_free_eq hready hfree (by decide) (Nat.le_of_lt htop)
  have hto : ∀ j, j < 2 ^ 31 → (BitVec.ofNat 32 j).toNat = j := by
    intro j hj
    rw [BitVec.toNat_ofNat]
    omega
  have hstatus : ∀ j, j < 2 ^ 31 → status m₁ (BitVec.ofNat 32 j)
      = if 2 ^ 30 - 1 = j then endStatus else if 0 = j then startStatus else freeOrUsed := by
    intro j hj
    have hzero : (0#32 : UINT) = BitVec.ofNat 32 0 := rfl
    rw [status_setStatus (by decide) (by rw [hto j hj]; exact hj) (by decide)
      (by rw [setStatus_bitmap_length, hto _ (by decide)]; omega),
      status_setStatus (by decide) (by rw [hto j hj]; exact hj) (by decide)
      (by rw [hzero, hto _ (by decide)]; omega), hfree, hzero]
    simp only [ofNat_inj_of_lt (show 2 ^ 30 - 1 < 2 ^ 31 by decide) hj,
      ofNat_inj_of_lt (show 0 < 2 ^ 31 by decide) hj]
  -- the second one has the same address
  let m₂ := setStatus m₁ (BitVec.ofNat 32 (2 ^ 30)) startEnd
  have hsecond : memoryAllocate m₁ 1#32 = (some (wordAddr m₀ 0), m₂) := by
    apply memoryAllocate_alias (m := m₁) hready
    apply allocScan_behind (m := m₁) (by decide) htop
    · exact (hstatus 0 (by decide)).trans (by decide)
    · intro j hlo hhi
      rw [hstatus j (by omega), if_neg (by omega), if_neg (by omega)]
    · rw [hstatus _ (by decide), if_pos rfl]
    · rw [hstatus _ (by decide), if_neg (by decide), if_neg (by decide)]
  intro hexact
  obtain ⟨m₃, hrelease, hbitmap⟩ :=
    hexact.restores _ _ (.allocate _ .nil hfirst) 1#32 0 m₂ hsize hsecond
  have hroom₂ : 2 ^ 30 / 16 < m₁.bitmap.length := by
    simpa [m₁] using hroom
  have hstatus₂ : ∀ j, j < 2 ^ 31 → status m₂ (BitVec.ofNat 32 j)
      = if 2 ^ 30 = j then startEnd else status m₁ (BitVec.ofNat 32 j) := by
    intro j hj
    rw [status_setStatus (by decide) (by rw [hto j hj]; exact hj) (by decide)
      (by rw [hto _ (by decide)]; exact hroom₂)]
    simp only [ofNat_inj_of_lt (show 2 ^ 30 < 2 ^ 31 by decide) hj]
  -- the release finds the START of the first block
  have hfound : memoryFree m₂ (wordAddr m₀ 0)
      = freeScan (setStatus m₂ 0#32 freeOrUsed) (statusCount m₀) 0 := by
    have hix : addressToBitmapIx m₂ (wordAddr m₀ 0) = 0#32 :=
      addressToBitmapIx_bitmapIxToAddress m₀ (i := 0#32) (by decide)
    have hstart : status m₂ 0#32 = startStatus := by
      have := hstatus₂ 0 (by decide)
      rw [if_neg (by decide), hstatus 0 (by decide), if_neg (by decide), if_pos rfl] at this
      exact this
    rw [memoryFree, hix, if_pos hstart]
    rfl
  have hstatus₃ : ∀ j, j < 2 ^ 31 → status (setStatus m₂ 0#32 freeOrUsed) (BitVec.ofNat 32 j)
      = if 0 = j then freeOrUsed else status m₂ (BitVec.ofNat 32 j) := by
    intro j hj
    have hzero : (0#32 : UINT) = BitVec.ofNat 32 0 := rfl
    rw [hzero, status_setStatus (by decide) (by rw [hto j hj]; exact hj) (by decide)
      (by rw [hto _ (by decide), setStatus_bitmap_length]; omega)]
    simp only [ofNat_inj_of_lt (show 0 < 2 ^ 31 by decide) hj]
  have hscan := freeScan_eq (m := setStatus m₂ 0#32 freeOrUsed) (l := 2 ^ 30 - 1) (2 ^ 30 - 1)
    (statusCount m₀) 0 (by omega) (by omega)
    (by
      intro j _ hj
      rw [hstatus₃ j (by omega)]
      split
      · decide
      · rw [hstatus₂ j (by omega), if_neg (by omega), hstatus j (by omega), if_neg (by omega)]
        split <;> decide)
    (by rw [hstatus₃ _ (by decide), if_neg (by decide), hstatus₂ _ (by decide),
      if_neg (by decide), hstatus _ (by decide), if_pos rfl])
  rw [hfound, hscan] at hrelease
  obtain ⟨-, rfl⟩ := Prod.mk.inj hrelease
  -- so that word 0 has lost its START
  have hlost := status_congr hbitmap (BitVec.ofNat 32 0)
  rw [status_setStatus (by decide) (by decide) (by decide)
    (by rw [hto _ (by decide), setStatus_bitmap_length, setStatus_bitmap_length]; omega),
    if_neg (by decide), hstatus₃ 0 (by decide), if_pos rfl, hstatus 0 (by decide),
    if_neg (by decide), if_pos rfl] at hlost
  exact absurd hlost (by decide)

end

/-- **Releases are exact exactly when the bitmap fits**, or when there is nothing to manage. -/
theorem freesExactly_iff {data dataSize bits bitsSize : UINT} {contents : List UINT}
    {m₀ : MemoryState} (h : memoryInit data dataSize bits bitsSize contents = some m₀) :
    FreesExactly m₀ ↔ bitsSize.toNat % 2 ^ 30 < 2 ^ 28 ∨ m₀.memorySize = 0#32 := by
  constructor
  · intro hexact
    by_contra hnot
    rw [not_or, Nat.not_lt] at hnot
    apply not_freesExactly h hnot.1 _ hexact
    apply Nat.pos_of_ne_zero
    exact fun hzero => hnot.2 (BitVec.eq_of_toNat_eq hzero)
  · rintro (hfits | hzero)
    · exact freesExactly_of_represents (represents_of_memoryInit h hfits)
    · -- no word to release
      have hnone : ∀ i, ¬i < m₀.memorySize.toNat := by
        intro i
        rw [hzero]
        exact Nat.not_lt_zero i
      exact ⟨fun _ _ _ i hi => absurd hi (hnone i), fun _ _ _ i _ hi => absurd hi (hnone i),
        fun _ _ _ i hi => absurd hi (hnone i), fun _ _ _ _ i _ hi => absurd hi (hnone i)⟩

theorem freesExactly_64_bytes :
    ∃ m₀, memoryInit 0x20000000#32 64#32 0x30000000#32 4#32 (List.replicate 16 0#32) = some m₀
      ∧ FreesExactly m₀ := by
  obtain ⟨m₀, hinit⟩ : ∃ m₀, memoryInit 0x20000000#32 64#32 0x30000000#32 4#32
      (List.replicate 16 0#32) = some m₀ := ⟨_, rfl⟩
  exact ⟨m₀, hinit, (freesExactly_iff hinit).mpr (.inl (by decide))⟩

/-- In a 64-byte region with a bitmap of `2 ^ 28 + 4` bytes, a block of one word that is released at
once takes the block before it along. -/
theorem not_freesExactly_wrapped :
    ∃ m₀, memoryInit 0x20000000#32 64#32 0x30000000#32 0x10000004#32 (List.replicate 16 0#32)
        = some m₀ ∧ m₀.memorySize = 16#32 ∧ ¬FreesExactly m₀ := by
  obtain ⟨m₀, hinit, hsize⟩ : ∃ m₀, memoryInit 0x20000000#32 64#32 0x30000000#32 0x10000004#32
      (List.replicate 16 0#32) = some m₀ ∧ m₀.memorySize = 16#32 := ⟨_, rfl, rfl⟩
  exact ⟨m₀, hinit, hsize, not_freesExactly hinit (by decide) (by rw [hsize]; decide)⟩

end LispBM
