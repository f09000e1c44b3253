import LispBM.Memory
import LispBM.Lib.BlockLayout

/-!
# LispBM — the bitmap manager refines a block allocator

Free words and interior words of a block carry the same status, so the extent of a block
exists only through scanning. The abstract allocator keeps a `Layout`: a set of pairwise
disjoint blocks. `Represents m L` says that the status map of `m` is exactly the
START / END / START_END encoding of `L`; `memoryAllocate_represents` and
`memoryFree_represents` are the two simulation steps, and `run_represents` carries them
through every sequence of calls that frees only what is live.

The scan invariant is `ScanInv`: outside `skip` the scan stands at a block boundary, inside
`skip` it is midway through a block.
-/

namespace LispBM

open BlockLayout

/-! ## The status encoding of a layout -/

/-- The status of word `i` in the layout `L`. -/
def statusCode {n : Nat} (L : Layout n) (i : Nat) : UINT :=
  if ∃ b ∈ L.blocks, b.start = i ∧ b.last = i then startEnd
  else if ∃ b ∈ L.blocks, b.start = i then startStatus
  else if ∃ b ∈ L.blocks, b.last = i then endStatus
  else freeOrUsed

/-- The status map of `m` is exactly the encoding of the layout `L`. -/
structure Represents (m : MemoryState) {n : Nat} (L : Layout n) : Prop where
  ready : m.memoryBaseAddress ≠ 0#32
  count : statusCount m = n
  addressable : n < 2 ^ 30
  room : n ≤ 16 * m.bitmap.length
  codes : ∀ i, i < n → status m (BitVec.ofNat 32 i) = statusCode L i

/-- The four kinds of word, with the block that explains each code. -/
theorem statusCode_cases {n : Nat} (L : Layout n) (i : Nat) :
    (statusCode L i = freeOrUsed ∧ (∀ b ∈ L.blocks, b.start ≠ i) ∧ (∀ b ∈ L.blocks, b.last ≠ i))
      ∨ (statusCode L i = endStatus ∧ ∃ b ∈ L.blocks, b.last = i ∧ b.start < i)
      ∨ (statusCode L i = startStatus ∧ ∃ b ∈ L.blocks, b.start = i ∧ i < b.last)
      ∨ (statusCode L i = startEnd ∧ ∃ b ∈ L.blocks, b.start = i ∧ b.last = i) := by
  unfold statusCode
  split_ifs with h3 h2 h1
  · exact Or.inr (Or.inr (Or.inr ⟨rfl, h3⟩))
  · obtain ⟨b, hb, hs⟩ := h2
    have hle := b.start_le_last
    have hne : b.last ≠ i := fun hl => h3 ⟨b, hb, hs, hl⟩
    exact Or.inr (Or.inr (Or.inl ⟨rfl, b, hb, hs, by omega⟩))
  · obtain ⟨b, hb, hl⟩ := h1
    have hle := b.start_le_last
    have hne : b.start ≠ i := fun hs => h2 ⟨b, hb, hs⟩
    exact Or.inr (Or.inl ⟨rfl, b, hb, hl, by omega⟩)
  · exact Or.inl ⟨rfl, fun b hb hs => h2 ⟨b, hb, hs⟩, fun b hb hl => h1 ⟨b, hb, hl⟩⟩

/-! ## The allocation scan -/

/-- What the `memory_allocate` scan knows before looking at word `i`. -/
def ScanInv {n : Nat} (L : Layout n) (k i : Nat) (c : AllocScan) : Prop :=
  match c.state with
  | .init => ¬L.Midway i
  | .freeLengthCheck =>
      ¬L.Midway i ∧ 0 < c.freeLength ∧ c.startIx + c.freeLength = i
        ∧ ∀ j, c.startIx ≤ j → j < i → ¬L.Covered j
  | .skip => L.Midway i
  | .allocDone =>
      c.startIx ≤ c.endIx ∧ c.endIx < i ∧ c.endIx + 1 = c.startIx + k
        ∧ ∀ j, c.startIx ≤ j → j ≤ c.endIx → ¬L.Covered j

/-- One scan step keeps the invariant: the status code says how the scan moves between
boundary and midway. -/
theorem allocScanStep_inv {n : Nat} {L : Layout n} {k : UINT} {i : Nat} {c : AllocScan}
    (hinv : ScanInv L k.toNat i c) (hlive : c.state ≠ .allocDone) :
    ∃ c', allocScanStep k (statusCode L i) i c = some c' ∧ ScanInv L k.toNat (i + 1) c' := by
  obtain ⟨st, s, e, f⟩ := c
  rcases statusCode_cases L i with ⟨hc, hs, hl⟩ | ⟨hc, b, hb, hl, hs⟩ | ⟨hc, b, hb, hs, hl⟩
      | ⟨hc, b, hb, hs, hl⟩
  · -- a free or interior word
    rw [hc]
    cases st with
    | init =>
      have hmid : ¬L.Midway i := hinv
      have hcov := Layout.not_covered_of_not_midway hmid hs
      by_cases hk : k = 1#32
      · subst hk
        refine ⟨⟨.allocDone, i, i, f⟩, by simp [allocScanStep, freeOrUsed], ?_⟩
        refine ⟨le_refl _, Nat.lt_succ_self i, by simp, ?_⟩
        intro j hj1 hj2
        have : j = i := by simp only at hj1 hj2; omega
        exact this ▸ hcov
      · refine ⟨⟨.freeLengthCheck, i, e, 1⟩, by simp [allocScanStep, freeOrUsed, hk], ?_⟩
        refine ⟨Layout.not_midway_succ hmid hs, Nat.one_pos, rfl, ?_⟩
        intro j hj1 hj2
        have : j = i := by simp only at hj1; omega
        exact this ▸ hcov
    | freeLengthCheck =>
      obtain ⟨hmid, hpos, hsum, hrun⟩ : ¬L.Midway i ∧ 0 < f ∧ s + f = i
        ∧ ∀ j, s ≤ j → j < i → ¬L.Covered j := hinv
      have hcov := Layout.not_covered_of_not_midway hmid hs
      have hrun' : ∀ j, s ≤ j → j ≤ i → ¬L.Covered j := by
        intro j hj1 hj2
        rcases Nat.lt_or_eq_of_le hj2 with hlt | rfl
        · exact hrun j hj1 hlt
        · exact hcov
      by_cases hk : f + 1 = k.toNat
      · refine ⟨⟨.allocDone, s, i, f + 1⟩, by simp [allocScanStep, freeOrUsed, hk], ?_⟩
        exact ⟨by simp only; omega, Nat.lt_succ_self i, by simp only; omega, hrun'⟩
      · refine ⟨⟨.freeLengthCheck, s, e, f + 1⟩, by simp [allocScanStep, freeOrUsed, hk], ?_⟩
        refine ⟨Layout.not_midway_succ hmid hs, Nat.succ_pos f, by simp only; omega, ?_⟩
        exact fun j hj1 hj2 => hrun' j hj1 (by omega)
    | skip =>
      have hmid : L.Midway i := hinv
      exact ⟨⟨.skip, s, e, f⟩, by simp [allocScanStep, freeOrUsed], Layout.midway_succ hmid hl⟩
    | allocDone => exact absurd rfl hlive
  · -- the last word of a block
    refine ⟨⟨.init, s, e, f⟩, by rw [hc]; simp [allocScanStep, endStatus, freeOrUsed], ?_⟩
    exact hl ▸ Layout.not_midway_succ_of_last hb
  · -- the first word of a longer block
    refine ⟨⟨.skip, s, e, f⟩, ?_, b, hb, by omega, by omega⟩
    rw [hc]
    simp [allocScanStep, startStatus, endStatus, freeOrUsed]
  · -- a block of one word
    refine ⟨⟨.init, s, e, f⟩,
      by rw [hc]; simp [allocScanStep, startEnd, startStatus, endStatus, freeOrUsed], ?_⟩
    exact hl ▸ Layout.not_midway_succ_of_last hb

/-- The whole scan keeps the invariant. Induction on the words left. -/
theorem allocScan_inv {m : MemoryState} {n : Nat} {L : Layout n} (hrep : Represents m L)
    {k : UINT} : ∀ (w i : Nat) (c : AllocScan), i + w = n → ScanInv L k.toNat i c →
      ∃ c' j, j ≤ n ∧ allocScan m k w i c = some c' ∧ ScanInv L k.toNat j c' := by
  intro w
  induction w with
  | zero =>
    intro i c hi hinv
    exact ⟨c, i, by omega, rfl, hinv⟩
  | succ w ih =>
    intro i c hi hinv
    by_cases hdone : c.state = .allocDone
    · exact ⟨c, i, by omega, by simp [allocScan, hdone], hinv⟩
    · obtain ⟨c', hstep, hinv'⟩ := allocScanStep_inv hinv hdone
      obtain ⟨c'', j, hj, hrun, hend⟩ := ih (i + 1) c' (by omega) hinv'
      refine ⟨c'', j, hj, ?_, hend⟩
      rw [allocScan, if_neg hdone, hrep.codes i (by omega), hstep]
      exact hrun

/-! ## Writing the statuses of one block -/

theorem ofNat_inj_of_lt {i j : Nat} (hi : i < 2 ^ 31) (hj : j < 2 ^ 31) :
    BitVec.ofNat 32 i = BitVec.ofNat 32 j ↔ i = j := by
  constructor
  · intro h
    have := congrArg BitVec.toNat h
    simp only [BitVec.toNat_ofNat] at this
    omega
  · rintro rfl
    rfl

theorem status_setStatus_ofNat {m : MemoryState} {n i j : Nat} {s : UINT} (hn : n < 2 ^ 30)
    (hroom : n ≤ 16 * m.bitmap.length) (hi : i < n) (hj : j < n) (hs : s.toNat < 4) :
    status (setStatus m (BitVec.ofNat 32 i) s) (BitVec.ofNat 32 j)
      = if i = j then s else status m (BitVec.ofNat 32 j) := by
  have hti : (BitVec.ofNat 32 i).toNat = i := by rw [BitVec.toNat_ofNat]; omega
  have htj : (BitVec.ofNat 32 j).toNat = j := by rw [BitVec.toNat_ofNat]; omega
  rw [status_setStatus (by omega) (by omega) hs (by rw [hti]; omega)]
  simp only [ofNat_inj_of_lt (show i < 2 ^ 31 by omega) (show j < 2 ^ 31 by omega)]

/-- The statuses around a block: its own words are re-coded, all others keep their code. -/
theorem statusCode_insert {n : Nat} {L : Layout n} {b : Block} {hapart hin} (i : Nat) :
    statusCode (L.insert b hapart hin) i
      = if b.start = i then (if b.last = i then startEnd else startStatus)
        else if b.last = i then endStatus else statusCode L i := by
  have hb : b ∈ (L.insert b hapart hin).blocks := by simp
  have hbl := b.start_le_last
  -- no other block starts or ends inside `b`
  have hother : ∀ c ∈ L.blocks, b.Covers i → c.start ≠ i ∧ c.last ≠ i := by
    intro c hc hcov
    have hcl := c.start_le_last
    obtain ⟨h1, h2⟩ := hcov
    rcases hapart c hc with h | h <;> constructor <;> omega
  by_cases hs : b.start = i
  · rw [if_pos hs]
    by_cases hl : b.last = i
    · rw [if_pos hl]
      unfold statusCode
      rw [if_pos ⟨b, hb, hs, hl⟩]
    · rw [if_neg hl]
      unfold statusCode
      rw [if_neg, if_pos ⟨b, hb, hs⟩]
      rintro ⟨c, hc, hcs, hcl⟩
      rcases Layout.mem_insert_blocks.mp hc with rfl | hc
      · exact hl hcl
      · exact (hother c hc ⟨by omega, by omega⟩).1 hcs
  · rw [if_neg hs]
    by_cases hl : b.last = i
    · rw [if_pos hl]
      unfold statusCode
      have hno : ∀ c ∈ (L.insert b hapart hin).blocks, c.start ≠ i := by
        intro c hc
        rcases Layout.mem_insert_blocks.mp hc with rfl | hc
        · exact hs
        · exact (hother c hc ⟨by omega, by omega⟩).1
      rw [if_neg (fun ⟨c, hc, hcs, _⟩ => hno c hc hcs), if_neg (fun ⟨c, hc, hcs⟩ => hno c hc hcs),
        if_pos ⟨b, hb, hl⟩]
    · rw [if_neg hl]
      unfold statusCode
      simp only [Layout.mem_insert_blocks, exists_eq_or_imp, hs, hl, false_and, false_or]

theorem statusCode_erase {n : Nat} {L : Layout n} {b : Block} (hb : b ∈ L.blocks) (i : Nat) :
    statusCode (L.erase b) i
      = if b.start = i ∨ b.last = i then freeOrUsed else statusCode L i := by
  have hbl := b.start_le_last
  have hother : ∀ c ∈ (L.erase b).blocks, b.Covers i → c.start ≠ i ∧ c.last ≠ i := by
    intro c hc hcov
    obtain ⟨hne, hcL⟩ := Layout.mem_erase_blocks.mp hc
    have hcl := c.start_le_last
    obtain ⟨h1, h2⟩ := hcov
    rcases L.apart b hb c hcL hne.symm with h | h <;> constructor <;> omega
  by_cases hi : b.start = i ∨ b.last = i
  · have hcov : b.Covers i := by rcases hi with h | h <;> exact ⟨by omega, by omega⟩
    rw [if_pos hi]
    unfold statusCode
    rw [if_neg (fun ⟨c, hc, hcs, _⟩ => (hother c hc hcov).1 hcs),
      if_neg (fun ⟨c, hc, hcs⟩ => (hother c hc hcov).1 hcs),
      if_neg (fun ⟨c, hc, hcl⟩ => (hother c hc hcov).2 hcl)]
  · obtain ⟨hs, hl⟩ := not_or.mp hi
    rw [if_neg hi]
    -- `b` explains no status at `i`, so dropping it from the existentials changes nothing
    have hdrop : ∀ P : Block → Prop, (P b → False) →
        ((∃ c ∈ (L.erase b).blocks, P c) ↔ ∃ c ∈ L.blocks, P c) := by
      intro P hP
      constructor
      · rintro ⟨c, hc, hp⟩
        exact ⟨c, (Layout.mem_erase_blocks.mp hc).2, hp⟩
      · rintro ⟨c, hc, hp⟩
        refine ⟨c, Layout.mem_erase_blocks.mpr ⟨?_, hc⟩, hp⟩
        rintro rfl
        exact hP hp
    unfold statusCode
    simp only [hdrop (fun c => c.start = i ∧ c.last = i) (fun h => hs h.1),
      hdrop (fun c => c.start = i) hs, hdrop (fun c => c.last = i) hl]

/-! ## The two simulation steps -/

/-- The bookkeeping fields of `Represents` survive a status write. -/
theorem Represents.of_codes {m m' : MemoryState} {n : Nat} {L L' : Layout n}
    (hrep : Represents m L) (hbase : m'.memoryBaseAddress = m.memoryBaseAddress)
    (hcount : statusCount m' = statusCount m) (hlen : m'.bitmap.length = m.bitmap.length)
    (hcodes : ∀ i, i < n → status m' (BitVec.ofNat 32 i) = statusCode L' i) :
    Represents m' L' where
  ready := hbase ▸ hrep.ready
  count := hcount.trans hrep.count
  addressable := hrep.addressable
  room := hlen ▸ hrep.room
  codes := hcodes

/-- The statuses that `memory_allocate` writes for a block. -/
def codeBlock (m : MemoryState) (b : Block) : MemoryState :=
  if b.start = b.last then setStatus m (BitVec.ofNat 32 b.start) startEnd
  else
    setStatus (setStatus m (BitVec.ofNat 32 b.start) startStatus) (BitVec.ofNat 32 b.last) endStatus

/-- The statuses that `memory_free` clears for a block. -/
def clearBlock (m : MemoryState) (b : Block) : MemoryState :=
  if b.start = b.last then setStatus m (BitVec.ofNat 32 b.start) freeOrUsed
  else
    setStatus (setStatus m (BitVec.ofNat 32 b.start) freeOrUsed) (BitVec.ofNat 32 b.last) freeOrUsed

@[simp] theorem codeBlock_memoryBaseAddress (m : MemoryState) (b : Block) :
    (codeBlock m b).memoryBaseAddress = m.memoryBaseAddress := by
  unfold codeBlock
  split <;> rfl

@[simp] theorem clearBlock_memoryBaseAddress (m : MemoryState) (b : Block) :
    (clearBlock m b).memoryBaseAddress = m.memoryBaseAddress := by
  unfold clearBlock
  split <;> rfl

theorem codeBlock_represents {m : MemoryState} {n : Nat} {L : Layout n} (hrep : Represents m L)
    {b : Block} (hapart : ∀ c ∈ L.blocks, b.Apart c) (hin : b.last < n) :
    Represents (codeBlock m b) (L.insert b hapart hin) := by
  have hn := hrep.addressable
  have hroom := hrep.room
  have hbl := b.start_le_last
  unfold codeBlock
  -- the two shapes of the write differ only in how many statuses they touch
  split
  · next hone =>
    refine hrep.of_codes rfl rfl (by simp) (fun i hi => ?_)
    rw [status_setStatus_ofNat hn hroom (by omega) hi (by decide), statusCode_insert,
      hrep.codes i hi]
    by_cases hsi : b.start = i
    · rw [if_pos hsi, if_pos hsi, if_pos (by omega)]
    · rw [if_neg hsi, if_neg hsi, if_neg (by omega)]
  · next hone =>
    refine hrep.of_codes rfl rfl (by simp) (fun i hi => ?_)
    rw [status_setStatus_ofNat hn (by simpa using hroom) (by omega) hi (by decide),
      status_setStatus_ofNat hn hroom (by omega) hi (by decide), statusCode_insert,
      hrep.codes i hi]
    by_cases hei : b.last = i
    · rw [if_pos hei, if_neg (by omega), if_pos hei]
    · rw [if_neg hei]
      by_cases hsi : b.start = i
      · rw [if_pos hsi, if_pos hsi, if_neg hei]
      · rw [if_neg hsi, if_neg hsi, if_neg hei]

theorem clearBlock_represents {m : MemoryState} {n : Nat} {L : Layout n} (hrep : Represents m L)
    {b : Block} (hb : b ∈ L.blocks) : Represents (clearBlock m b) (L.erase b) := by
  have hn := hrep.addressable
  have hroom := hrep.room
  have hbl := b.start_le_last
  have hin := L.inside b hb
  unfold clearBlock
  split
  · next hone =>
    refine hrep.of_codes rfl rfl (by simp) (fun i hi => ?_)
    rw [status_setStatus_ofNat hn hroom (by omega) hi (by decide), statusCode_erase hb,
      hrep.codes i hi]
    by_cases hsi : b.start = i
    · rw [if_pos hsi, if_pos (Or.inl hsi)]
    · rw [if_neg hsi, if_neg (by omega)]
  · next hone =>
    refine hrep.of_codes rfl rfl (by simp) (fun i hi => ?_)
    rw [status_setStatus_ofNat hn (by simpa using hroom) hin hi (by decide),
      status_setStatus_ofNat hn hroom (by omega) hi (by decide), statusCode_erase hb,
      hrep.codes i hi]
    by_cases hli : b.last = i
    · rw [if_pos hli, if_pos (Or.inr hli)]
    · rw [if_neg hli]
      by_cases hsi : b.start = i
      · rw [if_pos hsi, if_pos (Or.inl hsi)]
      · rw [if_neg hsi, if_neg (by omega)]

/-- `memory_allocate` fails and changes nothing, or it codes a block of exactly `k` words that
overlaps no other, and returns its address. -/
theorem memoryAllocate_cases {m : MemoryState} {n : Nat} {L : Layout n} (hrep : Represents m L)
    (k : UINT) :
    memoryAllocate m k = (none, m)
      ∨ ∃ b : Block, (∀ c ∈ L.blocks, b.Apart c) ∧ b.last < n ∧ b.len = k.toNat
          ∧ memoryAllocate m k
            = (some (bitmapIxToAddress m (BitVec.ofNat 32 b.start)), codeBlock m b) := by
  have hn := hrep.addressable
  have hroom := hrep.room
  obtain ⟨c, j, hj, hscan, hinv⟩ := allocScan_inv hrep (k := k) n 0
    { state := .init, startIx := 0, endIx := 0, freeLength := 0 } (by omega)
    (Layout.not_midway_zero L)
  by_cases hdone : c.state = .allocDone
  · right
    obtain ⟨hle, hlt, hlen, hrun⟩ : c.startIx ≤ c.endIx ∧ c.endIx < j
        ∧ c.endIx + 1 = c.startIx + k.toNat
        ∧ ∀ i, c.startIx ≤ i → i ≤ c.endIx → ¬L.Covered i := by
      simpa [ScanInv, hdone] using hinv
    let b : Block := ⟨c.startIx, k.toNat, by omega⟩
    have hlast : b.last = c.endIx := by
      show c.startIx + k.toNat - 1 = c.endIx
      omega
    have hapart : ∀ d ∈ L.blocks, b.Apart d :=
      Layout.apart_of_uncovered (fun i h1 h2 => hrun i h1 (hlast ▸ h2))
    refine ⟨b, hapart, by omega, rfl, ?_⟩
    rw [codeBlock, hlast]
    by_cases hone : c.startIx = c.endIx
    · simp [memoryAllocate, hrep.ready, hrep.count, hscan, hdone, hone, b]
    · simp [memoryAllocate, hrep.ready, hrep.count, hscan, hdone, hone, b]
  · left
    simp [memoryAllocate, hrep.ready, hrep.count, hscan, hdone]

/-- **`memory_allocate` simulates adding a block.** It fails and changes nothing, or the
layout gains a block of exactly `k` words that overlaps no other, at the returned address. -/
theorem memoryAllocate_represents {m : MemoryState} {n : Nat} {L : Layout n}
    (hrep : Represents m L) (k : UINT) :
    memoryAllocate m k = (none, m)
      ∨ ∃ (b : Block) (hapart : ∀ c ∈ L.blocks, b.Apart c) (hin : b.last < n) (m' : MemoryState),
          b.len = k.toNat
          ∧ memoryAllocate m k = (some (bitmapIxToAddress m (BitVec.ofNat 32 b.start)), m')
          ∧ m'.memoryBaseAddress = m.memoryBaseAddress
          ∧ Represents m' (L.insert b hapart hin) := by
  rcases memoryAllocate_cases hrep k with hfail | ⟨b, hapart, hin, hlen, hok⟩
  · exact Or.inl hfail
  · exact Or.inr ⟨b, hapart, hin, codeBlock m b, hlen, hok, codeBlock_memoryBaseAddress m b,
      codeBlock_represents hrep hapart hin⟩

/-- The END scan of `memory_free` stops at the last word of the block it started in.
Induction on the distance to that word. -/
theorem freeScan_eq {m : MemoryState} {l : Nat} :
    ∀ (d w i : Nat), i + d = l → d < w →
      (∀ j, i ≤ j → j < l → status m (BitVec.ofNat 32 j) ≠ endStatus) →
      status m (BitVec.ofNat 32 l) = endStatus →
      freeScan m w i = (true, setStatus m (BitVec.ofNat 32 l) freeOrUsed) := by
  intro d
  induction d with
  | zero =>
    intro w i hi hw _ hl
    obtain ⟨w', rfl⟩ : ∃ w', w = w' + 1 := ⟨w - 1, by omega⟩
    have hil : i = l := by omega
    rw [freeScan, hil, if_pos hl]
  | succ d ih =>
    intro w i hi hw hbetween hl
    obtain ⟨w', rfl⟩ : ∃ w', w = w' + 1 := ⟨w - 1, by omega⟩
    rw [freeScan, if_neg (hbetween i (le_refl i) (by omega))]
    exact ih w' (i + 1) (by omega) (by omega) (fun j h1 h2 => hbetween j (by omega) h2) hl

/-- `memory_free` of the address of a block returns 1, and clears the statuses of the block. -/
theorem memoryFree_block {m : MemoryState} {n : Nat} {L : Layout n} (hrep : Represents m L)
    {b : Block} (hb : b ∈ L.blocks) :
    memoryFree m (bitmapIxToAddress m (BitVec.ofNat 32 b.start)) = (true, clearBlock m b) := by
  have hn := hrep.addressable
  have hroom := hrep.room
  have hbl := b.start_le_last
  have hin := L.inside b hb
  have htn : (BitVec.ofNat 32 b.start).toNat = b.start := by rw [BitVec.toNat_ofNat]; omega
  have hix : addressToBitmapIx m (bitmapIxToAddress m (BitVec.ofNat 32 b.start))
      = BitVec.ofNat 32 b.start :=
    addressToBitmapIx_bitmapIxToAddress m (by omega)
  have hcode := hrep.codes b.start (by omega)
  unfold clearBlock
  split
  · next hone =>
    -- a one-word block: START_END
    have hse : statusCode L b.start = startEnd := by
      unfold statusCode
      rw [if_pos ⟨b, hb, rfl, hone.symm⟩]
    simp [memoryFree, hix, hcode, hse, startEnd, startStatus]
  · next hone =>
    -- a longer block: the scan from START finds the block's own END
    have hst : statusCode L b.start = startStatus := by
      rcases statusCode_cases L b.start with ⟨_, hs, _⟩ | ⟨_, c, hc, hcl, hcs⟩ | ⟨h, _⟩
          | ⟨_, c, hc, hcs, hcl⟩
      · exact absurd rfl (hs b hb)
      · have := Layout.eq_of_covers hb hc (i := b.start) ⟨le_refl _, hbl⟩ ⟨by omega, by omega⟩
        subst this
        omega
      · exact h
      · have := Layout.eq_of_start_eq hb hc hcs.symm
        subst this
        exact absurd hcl.symm hone
    let m1 := setStatus m (BitVec.ofNat 32 b.start) freeOrUsed
    have hm1 : ∀ j, j < n → status m1 (BitVec.ofNat 32 j)
        = if b.start = j then freeOrUsed else statusCode L j := by
      intro j hj
      rw [status_setStatus_ofNat hn hroom (by omega) hj (by decide), hrep.codes j hj]
    have hend : status m1 (BitVec.ofNat 32 b.last) = endStatus := by
      rw [hm1 b.last hin, if_neg (by omega)]
      rcases statusCode_cases L b.last with ⟨_, _, hl⟩ | ⟨h, _⟩ | ⟨_, c, hc, hcs, hcl⟩
          | ⟨_, c, hc, hcs, hcl⟩
      · exact absurd rfl (hl b hb)
      · exact h
      · have := Layout.eq_of_covers hb hc (i := b.last) ⟨hbl, le_refl _⟩ ⟨by omega, by omega⟩
        subst this
        omega
      · have := Layout.eq_of_covers hb hc (i := b.last) ⟨hbl, le_refl _⟩ ⟨by omega, by omega⟩
        subst this
        omega
    have hbetween : ∀ j, b.start ≤ j → j < b.last →
        status m1 (BitVec.ofNat 32 j) ≠ endStatus := by
      intro j h1 h2
      rw [hm1 j (by omega)]
      by_cases hsj : b.start = j
      · rw [if_pos hsj]
        decide
      · rw [if_neg hsj]
        rcases statusCode_cases L j with ⟨h, _⟩ | ⟨_, c, hc, hcl, hcs⟩ | ⟨h, _⟩ | ⟨h, _⟩
        · rw [h]
          decide
        · have := Layout.eq_of_covers hb hc (i := j) ⟨h1, by omega⟩ ⟨by omega, by omega⟩
          subst this
          omega
        · rw [h]
          decide
        · rw [h]
          decide
    have hcount : statusCount m1 = n := hrep.count
    rw [memoryFree, hix, if_pos (hcode.trans hst), htn]
    exact freeScan_eq (m := m1) (b.last - b.start) (statusCount m1 - b.start) b.start
      (by omega) (by omega) hbetween hend

/-- **`memory_free` simulates removing a block.** Called with the address of a block of the
layout it returns 1, and the layout loses exactly that block. -/
theorem memoryFree_represents {m : MemoryState} {n : Nat} {L : Layout n} (hrep : Represents m L)
    {b : Block} (hb : b ∈ L.blocks) :
    ∃ m', memoryFree m (bitmapIxToAddress m (BitVec.ofNat 32 b.start)) = (true, m')
      ∧ m'.memoryBaseAddress = m.memoryBaseAddress ∧ Represents m' (L.erase b) :=
  ⟨clearBlock m b, memoryFree_block hrep hb, clearBlock_memoryBaseAddress m b,
    clearBlock_represents hrep hb⟩

/-- **`memory_free` rejects the other words.** -/
theorem memoryFree_reject {m : MemoryState} {n : Nat} {L : Layout n} (hrep : Represents m L)
    {i : Nat} (hi : i < n) (hno : ∀ b ∈ L.blocks, b.start ≠ i) :
    memoryFree m (bitmapIxToAddress m (BitVec.ofNat 32 i)) = (false, m) := by
  have hn := hrep.addressable
  have hix : addressToBitmapIx m (bitmapIxToAddress m (BitVec.ofNat 32 i)) = BitVec.ofNat 32 i :=
    addressToBitmapIx_bitmapIxToAddress m (by rw [BitVec.toNat_ofNat]; omega)
  have hcode := hrep.codes i hi
  rcases statusCode_cases L i with ⟨h, _⟩ | ⟨h, _⟩ | ⟨_, b, hb, hs, _⟩ | ⟨_, b, hb, hs, _⟩
  · simp [memoryFree, hix, hcode, h, freeOrUsed, startStatus, startEnd]
  · simp [memoryFree, hix, hcode, h, endStatus, startStatus, startEnd]
  · exact absurd hs (hno b hb)
  · exact absurd hs (hno b hb)

end LispBM
