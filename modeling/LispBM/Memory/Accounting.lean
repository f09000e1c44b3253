import LispBM.Memory.FirstFit

/-!
# LispBM — live blocks, complete first fit and the count of free words

`memory_allocate` and `memory_num_free` are two scans over the same statuses, written
independently. Both are compared with the blocks that a run of the manager has handed out and not
taken back (`liveBlocks`): the first finds the lowest run of words outside them, the second counts
the words outside them.

Neither holds for a bitmap with more statuses than there are managed words, which `memory_init`
lets through when `16 * bits_size` wraps: the scans go through the statuses, not through the words.
-/

namespace LispBM

open BlockLayout

variable {m₀ m : MemoryState} {n : Nat} {L : Layout n} {es : List MemEvent}

/-! ## The live blocks of a run -/

/-- Address and size of the blocks that were allocated and not freed since (latest event first). -/
def liveBlocks : List MemEvent → List (UINT × Nat)
  | [] => []
  | .allocate k (some p) :: es => (p, k.toNat) :: liveBlocks es
  | .allocate _ none :: es => liveBlocks es
  | .free p _ :: es => (liveBlocks es).filter fun b => b.1 ≠ p

/-- The number of words in live blocks. -/
def liveWords (es : List MemEvent) : Nat := ((liveBlocks es).map Prod.snd).sum

/-- Managed word `i` belongs to a live block: it is the `j`-th word from the block's address. -/
def LiveWord (m₀ : MemoryState) (es : List MemEvent) (i : Nat) : Prop :=
  ∃ b ∈ liveBlocks es, ∃ j, j < b.2 ∧ wordAddr m₀ i = b.1 + BitVec.ofNat 32 (4 * j)

theorem wordAddr_add (m : MemoryState) (s j : Nat) :
    wordAddr m (s + j) = wordAddr m s + BitVec.ofNat 32 (4 * j) := by
  apply BitVec.eq_of_toNat_eq
  simp only [wordAddr, bitmapIxToAddress, BitVec.toNat_add, BitVec.toNat_shiftLeft,
    BitVec.toNat_ofNat, Nat.shiftLeft_eq]
  omega

/-- In a run of the block allocator the live blocks are the blocks of the layout. -/
theorem BlockRun.mem_liveBlocks (hn : n < 2 ^ 30) (hrun : BlockRun (wordAddr m₀) es L) :
    ∀ p l, (p, l) ∈ liveBlocks es ↔ ∃ b ∈ L.blocks, wordAddr m₀ b.start = p ∧ b.len = l := by
  have hstart : ∀ (L : Layout n) (b : Block), b ∈ L.blocks → b.start < 2 ^ 30 := by
    intro L b hb
    have := b.start_le_last
    have := L.inside b hb
    omega
  induction hrun with
  | nil => simp [liveBlocks]
  | allocateNone k _ ih => exact ih
  | allocateSome b _ hlen hapart hin ih =>
    intro p l
    rw [liveBlocks, List.mem_cons, ih, Prod.mk.injEq]
    simp only [Layout.mem_insert_blocks, exists_eq_or_imp, hlen]
    exact or_congr_left (and_congr eq_comm eq_comm)
  | @free es L b hrun hb ih =>
    intro p l
    rw [liveBlocks, List.mem_filter, ih]
    constructor
    · intro h
      obtain ⟨⟨c, hc, hp, hl⟩, hne⟩ := h
      have hcb : c ≠ b := by
        intro h
        simp [← hp, h] at hne
      exact ⟨c, Layout.mem_erase_blocks.mpr ⟨hcb, hc⟩, hp, hl⟩
    · intro h
      obtain ⟨c, hc, hp, hl⟩ := h
      obtain ⟨hcb, hcL⟩ := Layout.mem_erase_blocks.mp hc
      have hne : p ≠ wordAddr m₀ b.start := by
        intro h
        have hs := wordAddr_inj (hstart L c hcL) (hstart L b hb) (hp.trans h)
        exact hcb (Layout.eq_of_start_eq hcL hb hs)
      exact ⟨⟨c, hcL, hp, hl⟩, by simpa using hne⟩

theorem BlockRun.nodup_liveBlocks (hn : n < 2 ^ 30) (hrun : BlockRun (wordAddr m₀) es L) :
    (liveBlocks es).Nodup := by
  induction hrun with
  | nil => simp [liveBlocks]
  | allocateNone k _ ih => exact ih
  | @allocateSome es L k b hrun hlen hapart hin ih =>
    have hfresh : (wordAddr m₀ b.start, k.toNat) ∉ liveBlocks es := by
      intro h
      obtain ⟨c, hc, hp, hl⟩ := (hrun.mem_liveBlocks hn _ _).mp h
      have hb := b.start_le_last
      have hcs := c.start_le_last
      have hcin := L.inside c hc
      have hs := wordAddr_inj (by omega) (by omega) hp
      rcases hapart c hc with h | h <;> omega
    exact List.nodup_cons.mpr ⟨hfresh, ih⟩
  | free _ _ ih => exact ih.filter _

/-- The sizes of the live blocks add up to the size of the layout. -/
theorem BlockRun.liveWords_eq (hn : n < 2 ^ 30) (hrun : BlockRun (wordAddr m₀) es L) :
    liveWords es = L.size := by
  have hstart : ∀ b ∈ L.blocks, b.start < 2 ^ 30 := by
    intro b hb
    have := b.start_le_last
    have := L.inside b hb
    omega
  have hperm : (liveBlocks es).Perm
      (L.blocks.toList.map fun b => (wordAddr m₀ b.start, b.len)) := by
    apply (List.perm_ext_iff_of_nodup (hrun.nodup_liveBlocks hn) ?_).mpr
    · intro b
      rw [hrun.mem_liveBlocks hn, List.mem_map]
      simp only [Finset.mem_toList, Prod.ext_iff]
    · apply List.Nodup.map_on _ L.blocks.nodup_toList
      intro b hb c hc h
      rw [Finset.mem_toList] at hb hc
      exact Layout.eq_of_start_eq hb hc
        (wordAddr_inj (hstart b hb) (hstart c hc) (congrArg Prod.fst h))
  rw [liveWords, (hperm.map Prod.snd).sum_eq, List.map_map]
  show (L.blocks.toList.map Block.len).sum = L.size
  rw [Finset.sum_map_toList, Layout.size]

theorem BlockRun.liveWord_iff (hn : n < 2 ^ 30) (hrun : BlockRun (wordAddr m₀) es L) {i : Nat}
    (hi : i < n) : LiveWord m₀ es i ↔ L.Covered i := by
  constructor
  · intro h
    obtain ⟨⟨p, l⟩, hp, j, hj, hword⟩ := h
    obtain ⟨b, hb, rfl, rfl⟩ := (hrun.mem_liveBlocks hn p l).mp hp
    have hin := L.inside b hb
    have hpos := b.pos
    rw [Block.last] at hin
    simp only [← wordAddr_add] at hword
    have hij := wordAddr_inj (by omega) (by omega) hword
    exact ⟨b, hb, by omega, by rw [Block.last]; omega⟩
  · intro h
    obtain ⟨b, hb, hlo, hhi⟩ := h
    have hpos := b.pos
    rw [Block.last] at hhi
    refine ⟨_, (hrun.mem_liveBlocks hn _ _).mpr ⟨b, hb, rfl, rfl⟩, i - b.start, by omega, ?_⟩
    rw [← wordAddr_add, show b.start + (i - b.start) = i from by omega]

/-! ## The count of free words -/

/-- What the `memory_num_free` scan knows before looking at word `i`: the scan is in `SKIP` midway
through a block, and has counted the free words. -/
def NumFreeInv (L : Layout n) (i : Nat) (c : AllocState × Nat) : Prop :=
  c.2 = L.freeBelow i ∧ c.1 ≠ .allocDone ∧ (c.1 = .skip ↔ L.Midway i)

theorem numFreeStep_inv {i : Nat} {c : AllocState × Nat} (hinv : NumFreeInv L i c) :
    ∃ c', numFreeStep (statusCode L i) c = some c' ∧ NumFreeInv L (i + 1) c' := by
  obtain ⟨st, sum⟩ := c
  obtain ⟨hsum, hlive, hskip⟩ : sum = L.freeBelow i ∧ st ≠ .allocDone ∧ (st = .skip ↔ L.Midway i) :=
    hinv
  rcases statusCode_cases L i with ⟨hc, hs, hl⟩ | ⟨hc, b, hb, hl, hs⟩ | ⟨hc, b, hb, hs, hl⟩
      | ⟨hc, b, hb, hs, hl⟩
  · -- a free or interior word: only the state tells them apart
    rw [hc]
    by_cases hmid : L.Midway i
    · have hcov : L.Covered i := by
        obtain ⟨b, hb, hlo, hhi⟩ := hmid
        exact ⟨b, hb, by omega, hhi⟩
      rw [hskip.mpr hmid]
      exact ⟨(.skip, sum), rfl, by rw [hsum, Layout.freeBelow_succ_of_covered hcov], by simp,
        by simp [Layout.midway_succ hmid hl]⟩
    · have hcov := Layout.not_covered_of_not_midway hmid hs
      have hnext := Layout.not_midway_succ hmid hs
      refine ⟨(.freeLengthCheck, sum + 1), ?_, ?_, by simp, by simp [hnext]⟩
      · cases st with
        | init => rfl
        | freeLengthCheck => rfl
        | skip => exact absurd (hskip.mp rfl) hmid
        | allocDone => exact absurd rfl hlive
      · show sum + 1 = L.freeBelow (i + 1)
        rw [hsum, Layout.freeBelow_succ_of_not_covered hcov]
  · -- the last word of a block
    have hnext : ¬L.Midway (i + 1) := hl ▸ Layout.not_midway_succ_of_last hb
    refine ⟨(.init, sum), by rw [hc]; rfl, ?_, by simp, by simp [hnext]⟩
    show sum = L.freeBelow (i + 1)
    rw [hsum, Layout.freeBelow_succ_of_covered ⟨b, hb, by omega, by omega⟩]
  · -- the first word of a longer block
    have hnext : L.Midway (i + 1) := ⟨b, hb, by omega, by omega⟩
    refine ⟨(.skip, sum), by rw [hc]; rfl, ?_, by simp, by simp [hnext]⟩
    show sum = L.freeBelow (i + 1)
    rw [hsum, Layout.freeBelow_succ_of_covered ⟨b, hb, by omega, by omega⟩]
  · -- a block of one word
    have hnext : ¬L.Midway (i + 1) := hl ▸ Layout.not_midway_succ_of_last hb
    refine ⟨(.init, sum), by rw [hc]; rfl, ?_, by simp, by simp [hnext]⟩
    show sum = L.freeBelow (i + 1)
    rw [hsum, Layout.freeBelow_succ_of_covered ⟨b, hb, by omega, by omega⟩]

/-- Induction on the words left. -/
theorem numFreeScan_inv (hrep : Represents m L) : ∀ (w i : Nat) (c : AllocState × Nat),
    i + w = n → NumFreeInv L i c → ∃ c', numFreeScan m w i c = some c' ∧ NumFreeInv L n c' := by
  intro w
  induction w with
  | zero =>
    intro i c hi hinv
    exact ⟨c, rfl, (show i = n by omega) ▸ hinv⟩
  | succ w ih =>
    intro i c hi hinv
    obtain ⟨c', hstep, hinv'⟩ := numFreeStep_inv hinv
    obtain ⟨c'', hrun, hend⟩ := ih (i + 1) c' (by omega) hinv'
    refine ⟨c'', ?_, hend⟩
    rw [numFreeScan, hrep.codes i (by omega), hstep]
    exact hrun

/-- **`memory_num_free` counts the words outside the blocks.** -/
theorem memoryNumFree_represents (hrep : Represents m L) :
    (memoryNumFree m).toNat + L.size = n := by
  have hn := hrep.addressable
  have hsum := L.freeBelow_add_size
  obtain ⟨c, hscan, hcount, -, -⟩ := numFreeScan_inv hrep n 0 (.init, 0) (by omega)
    ⟨rfl, by simp, by simp [Layout.not_midway_zero]⟩
  rw [memoryNumFree, if_neg hrep.ready, hrep.count, hscan]
  show (BitVec.ofNat 32 c.2).toNat + L.size = n
  rw [BitVec.toNat_ofNat, hcount]
  omega

/-- On an all-free bitmap every status counts. -/
theorem numFreeScan_all_free (hfree : ∀ i, status m i = freeOrUsed) :
    ∀ (w i sum : Nat) (st : AllocState), st = .init ∨ st = .freeLengthCheck →
      ∃ st', numFreeScan m w i (st, sum) = some (st', sum + w) := by
  intro w
  induction w with
  | zero => exact fun i sum st _ => ⟨st, rfl⟩
  | succ w ih =>
    intro i sum st hst
    obtain ⟨st', hrun⟩ := ih (i + 1) (sum + 1) .freeLengthCheck (Or.inr rfl)
    refine ⟨st', ?_⟩
    have hstep : numFreeStep freeOrUsed (st, sum) = some (.freeLengthCheck, sum + 1) := by
      rcases hst with rfl | rfl <;> rfl
    rw [numFreeScan, hfree, hstep, show sum + (w + 1) = sum + 1 + w from by omega]
    exact hrun

theorem memoryNumFree_all_free (hready : m.memoryBaseAddress ≠ 0#32)
    (hfree : ∀ i, status m i = freeOrUsed) : (memoryNumFree m).toNat = statusCount m := by
  obtain ⟨st, hscan⟩ := numFreeScan_all_free hfree (statusCount m) 0 0 .init (Or.inl rfl)
  have hlt : statusCount m < 2 ^ 32 := (m.bitmapSize <<< 4).isLt
  rw [memoryNumFree, if_neg hready, hscan]
  show (BitVec.ofNat 32 (0 + statusCount m)).toNat = statusCount m
  rw [BitVec.toNat_ofNat]
  omega

/-! ## Complete first fit -/

/-- `k` consecutive managed words from word `s` on that belong to no live block. -/
structure Vacant (m₀ : MemoryState) (es : List MemEvent) (s k : Nat) : Prop where
  inside : s + k ≤ m₀.memorySize.toNat
  dead : ∀ i, s ≤ i → i < s + k → ¬LiveWord m₀ es i

/-- After every run, a request for `k` words succeeds exactly when there are `k` consecutive words
outside the live blocks, at the first such place; a request that fails changes nothing, and one
for no words fails. -/
def CompleteFirstFit (m₀ : MemoryState) : Prop :=
  ∀ es m, MemRun m₀ es m → ∀ k : UINT,
    (0 < k.toNat → ((memoryAllocate m k).1.isSome ↔ ∃ s, Vacant m₀ es s k.toNat))
    ∧ (∀ p, (memoryAllocate m k).1 = some p →
        ∃ s, p = wordAddr m₀ s ∧ Vacant m₀ es s k.toNat ∧ ∀ s', Vacant m₀ es s' k.toNat → s ≤ s')
    ∧ ((memoryAllocate m k).1 = none → (memoryAllocate m k).2 = m)
    ∧ (k = 0#32 → (memoryAllocate m k).1 = none)

theorem BlockRun.vacant_iff (hn : n < 2 ^ 30) (hrun : BlockRun (wordAddr m₀) es L)
    (hsize : m₀.memorySize.toNat = n) (s k : Nat) : Vacant m₀ es s k ↔ FreeRun L s k := by
  constructor
  · intro h
    have hin := h.inside
    exact ⟨by omega, fun j h₁ h₂ hcov =>
      h.dead j h₁ h₂ ((hrun.liveWord_iff hn (by omega)).mpr hcov)⟩
  · intro h
    have hin := h.inside
    exact ⟨by omega, fun j h₁ h₂ hlive =>
      h.free j h₁ h₂ ((hrun.liveWord_iff hn (by omega)).mp hlive)⟩

/-- What `memory_init` set up, as long as the bitmap fits. -/
theorem completeFirstFit_of_represents
    (hinit : Represents m₀ (Layout.empty m₀.memorySize.toNat)) : CompleteFirstFit m₀ := by
  intro es m hrun k
  obtain ⟨L, hL, hrep, hbase⟩ := run_represents hinit hrun
  have hvac := hL.vacant_iff hinit.addressable rfl
  by_cases hk : 0 < k.toNat
  · have hk0 : k ≠ 0#32 := by
      intro h
      rw [h] at hk
      exact absurd hk (by decide)
    rcases memoryAllocate_firstFit hrep hk with ⟨hnone, hno⟩
        | ⟨b, hapart, hin, m', hlen, hres, -, -, hleast⟩
    · rw [hnone]
      refine ⟨fun _ => ?_, fun p hp => absurd hp (by simp), fun _ => rfl, fun _ => rfl⟩
      simp only [Option.isSome_none, Bool.false_eq_true, false_iff]
      intro h
      obtain ⟨s, hs⟩ := h
      exact hno s ((hvac s k.toNat).mp hs)
    · have hfree : Vacant m₀ es b.start k.toNat := by
        apply (hvac b.start k.toNat).mpr
        have hpos := b.pos
        rw [Block.last] at hin
        refine ⟨by omega, fun j h₁ h₂ hcov => ?_⟩
        obtain ⟨c, hc, hlo, hhi⟩ := hcov
        have hapart' := hapart c hc
        rw [Block.Apart, Block.last] at hapart'
        omega
      rw [hres]
      refine ⟨fun _ => by simp only [Option.isSome_some, true_iff]; exact ⟨_, hfree⟩,
        fun p hp => ?_,
        fun h => absurd h (by simp), fun h => absurd h hk0⟩
      refine ⟨b.start, ?_, hfree, fun s' hs' => hleast s' ((hvac s' k.toNat).mp hs')⟩
      rw [← Option.some.inj hp]
      simp only [wordAddr, bitmapIxToAddress, hbase]
  · -- a block has at least one word
    have hnone : memoryAllocate m k = (none, m) := by
      rcases memoryAllocate_represents hrep k with hnone | ⟨b, -, -, -, hlen, -⟩
      · exact hnone
      · have hpos := b.pos
        omega
    rw [hnone]
    exact ⟨fun h => absurd h hk, fun p hp => absurd hp (by simp), fun _ => rfl, fun _ => rfl⟩

/-- With more statuses than words, one word too many is found. -/
theorem not_completeFirstFit {data dataSize bits bitsSize : UINT} {contents : List UINT}
    (h : memoryInit data dataSize bits bitsSize contents = some m₀)
    (hwide : 2 ^ 28 ≤ bitsSize.toNat % 2 ^ 30) : ¬CompleteFirstFit m₀ := by
  obtain ⟨hcount, hwords⟩ := memoryInit_counts h
  obtain ⟨hdata, -, -, hm⟩ := memoryInit_eq_some h
  have hk : (BitVec.ofNat 32 (m₀.memorySize.toNat + 1)).toNat = m₀.memorySize.toNat + 1 := by
    rw [BitVec.toNat_ofNat]
    omega
  have halloc := memoryAllocate_all_free (m := m₀) (by rw [hm]; exact hdata)
    (fun i => status_replicate_zero (by rw [hm]) i)
    (k := BitVec.ofNat 32 (m₀.memorySize.toNat + 1)) (by omega) (by omega)
  intro hfit
  obtain ⟨-, hplace, -, -⟩ := hfit _ _ .nil (BitVec.ofNat 32 (m₀.memorySize.toNat + 1))
  obtain ⟨s, -, hvacant, -⟩ := hplace _ halloc
  have hinside := hvacant.inside
  omega

/-- **Allocation is complete first fit exactly when the bitmap fits.** -/
theorem completeFirstFit_iff {data dataSize bits bitsSize : UINT} {contents : List UINT}
    (h : memoryInit data dataSize bits bitsSize contents = some m₀) :
    CompleteFirstFit m₀ ↔ bitsSize.toNat % 2 ^ 30 < 2 ^ 28 := by
  constructor
  · intro hfit
    by_contra hwide
    exact not_completeFirstFit h (by omega) hfit
  · intro hfits
    exact completeFirstFit_of_represents (represents_of_memoryInit h hfits)

theorem completeFirstFit_64_bytes :
    ∃ m₀, memoryInit 0x20000000#32 64#32 0x30000000#32 4#32 (List.replicate 16 0#32) = some m₀
      ∧ CompleteFirstFit m₀ := by
  obtain ⟨m₀, hinit⟩ : ∃ m₀, memoryInit 0x20000000#32 64#32 0x30000000#32 4#32
      (List.replicate 16 0#32) = some m₀ := ⟨_, rfl⟩
  exact ⟨m₀, hinit, (completeFirstFit_iff hinit).mpr (by decide)⟩

/-- 17 words of a region of 16 are found under a bitmap whose size wrapped. -/
theorem not_completeFirstFit_wrapped :
    ∃ m₀, memoryInit 0x20000000#32 64#32 0x30000000#32 0x10000004#32 (List.replicate 16 0#32)
        = some m₀ ∧ ¬CompleteFirstFit m₀ := by
  obtain ⟨m₀, hinit⟩ : ∃ m₀, memoryInit 0x20000000#32 64#32 0x30000000#32 0x10000004#32
      (List.replicate 16 0#32) = some m₀ := ⟨_, rfl⟩
  exact ⟨m₀, hinit, not_completeFirstFit hinit (by decide)⟩

/-! ## Accounting -/

/-- After every run the free words and the words of the live blocks are all the words there are;
an allocation of `k` words takes `k` free words, a release gives the block's words back. -/
structure FreeAccounting (m₀ : MemoryState) : Prop where
  total : ∀ es m, MemRun m₀ es m →
    (memoryNumFree m).toNat + liveWords es = (memoryNumWords m₀).toNat
  allocate : ∀ es m, MemRun m₀ es m → ∀ (k p : UINT) (m' : MemoryState),
    memoryAllocate m k = (some p, m') →
      (memoryNumFree m').toNat + k.toNat = (memoryNumFree m).toNat
  free : ∀ es m, MemRun m₀ es m → ∀ (p : UINT) (l : Nat) (m' : MemoryState),
    (p, l) ∈ liveBlocks es → memoryFree m p = (true, m') →
      (memoryNumFree m').toNat = (memoryNumFree m).toNat + l

theorem freeAccounting_of_represents
    (hinit : Represents m₀ (Layout.empty m₀.memorySize.toNat)) : FreeAccounting m₀ := by
  have hn := hinit.addressable
  refine ⟨fun es m hrun => ?_, fun es m hrun k p m' hcall => ?_,
    fun es m hrun p l m' hlive hcall => ?_⟩
  · obtain ⟨L, hL, hrep, -⟩ := run_represents hinit hrun
    rw [hL.liveWords_eq hn]
    exact memoryNumFree_represents hrep
  · obtain ⟨L, hL, hrep, -⟩ := run_represents hinit hrun
    have hbefore := memoryNumFree_represents hrep
    rcases memoryAllocate_represents hrep k with hnone | ⟨b, hapart, hin, m'', hlen, hres, -, hrep'⟩
    · rw [hnone] at hcall
      exact absurd (congrArg Prod.fst hcall) (by simp)
    · rw [hres] at hcall
      obtain ⟨-, rfl⟩ := Prod.mk.inj hcall
      have hafter := memoryNumFree_represents hrep'
      rw [Layout.size_insert] at hafter
      omega
  · obtain ⟨L, hL, hrep, hbase⟩ := run_represents hinit hrun
    have hbefore := memoryNumFree_represents hrep
    obtain ⟨b, hb, rfl, rfl⟩ := (hL.mem_liveBlocks hn p l).mp hlive
    obtain ⟨m'', hres, -, hrep'⟩ := memoryFree_represents hrep hb
    rw [show wordAddr m₀ b.start = bitmapIxToAddress m (BitVec.ofNat 32 b.start) from by
      simp only [wordAddr, bitmapIxToAddress, hbase], hres] at hcall
    obtain ⟨-, rfl⟩ := Prod.mk.inj hcall
    have hafter := memoryNumFree_represents hrep'
    have hsize := Layout.size_erase hb
    omega

/-- **The count of free words is right exactly when the bitmap fits.** -/
theorem freeAccounting_iff {data dataSize bits bitsSize : UINT} {contents : List UINT}
    (h : memoryInit data dataSize bits bitsSize contents = some m₀) :
    FreeAccounting m₀ ↔ bitsSize.toNat % 2 ^ 30 < 2 ^ 28 := by
  constructor
  · intro hacc
    obtain ⟨hcount, hwords⟩ := memoryInit_counts h
    obtain ⟨hdata, -, -, hm⟩ := memoryInit_eq_some h
    have hfree := memoryNumFree_all_free (m := m₀) (by rw [hm]; exact hdata)
      (fun i => status_replicate_zero (by rw [hm]) i)
    have htotal := hacc.total [] m₀ .nil
    rw [show liveWords [] = 0 from rfl, hfree, hcount, memoryNumWords, hwords] at htotal
    omega
  · intro hfits
    exact freeAccounting_of_represents (represents_of_memoryInit h hfits)

theorem freeAccounting_64_bytes :
    ∃ m₀, memoryInit 0x20000000#32 64#32 0x30000000#32 4#32 (List.replicate 16 0#32) = some m₀
      ∧ FreeAccounting m₀ := by
  obtain ⟨m₀, hinit⟩ : ∃ m₀, memoryInit 0x20000000#32 64#32 0x30000000#32 4#32
      (List.replicate 16 0#32) = some m₀ := ⟨_, rfl⟩
  exact ⟨m₀, hinit, (freeAccounting_iff hinit).mpr (by decide)⟩

/-- Under a bitmap whose size wrapped, 16 words count as `2 ^ 30 + 16` free ones. -/
theorem not_freeAccounting_wrapped :
    ∃ m₀, memoryInit 0x20000000#32 64#32 0x30000000#32 0x10000004#32 (List.replicate 16 0#32)
        = some m₀ ∧ memoryNumWords m₀ = 16#32 ∧ (memoryNumFree m₀).toNat = 2 ^ 30 + 16
        ∧ ¬FreeAccounting m₀ := by
  obtain ⟨m₀, hinit, hsize⟩ : ∃ m₀, memoryInit 0x20000000#32 64#32 0x30000000#32 0x10000004#32
      (List.replicate 16 0#32) = some m₀ ∧ m₀.memorySize = 16#32 := ⟨_, rfl, rfl⟩
  obtain ⟨hdata, -, -, hm⟩ := memoryInit_eq_some hinit
  have hfree := memoryNumFree_all_free (m := m₀) (by rw [hm]; exact hdata)
    (fun i => status_replicate_zero (by rw [hm]) i)
  obtain ⟨hcount, -⟩ := memoryInit_counts hinit
  refine ⟨m₀, hinit, hsize, by rw [hfree, hcount]; rfl, fun hacc => ?_⟩
  have htotal := hacc.total [] m₀ .nil
  rw [show liveWords [] = 0 from rfl, hfree, hcount, memoryNumWords, hsize] at htotal
  exact absurd htotal (by decide)

end LispBM
