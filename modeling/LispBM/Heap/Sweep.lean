import LispBM.Heap.Mark

/-!
# LispBM — the sweep phase

`gc_sweep_phase` walks the cells upwards, pushes every unmarked cell on the free list and
clears the marks as it goes. The free list is rebuilt in place while the part of it that
was already there still carries mark bits, so the chain is not an invariant of the loop.
What is: every cell below the loop index has its final contents (`sweptCell`), every other one
is as marking left it, and the head is `freeHead`. The chain is read off the final heap
(`freeChain_sweep`).
-/

namespace LispBM

/-- The cells below `i` that are not in `M`, the last one first: what the sweep has pushed on
the free list when it arrives at cell `i`. -/
def newlyFree (M : Finset Nat) : Nat → List Nat
  | 0 => []
  | i + 1 => if i ∈ M then newlyFree M i else i :: newlyFree M i

/-- The head of the free list when the sweep arrives at cell `i`. -/
def freeHead (h : HeapState) (M : Finset Nat) : Nat → VALUE
  | 0 => h.freelist
  | i + 1 => if i ∈ M then freeHead h M i else cellPtr i

/-- What the sweep leaves in cell `i`. -/
def sweptCell (h : HeapState) (M : Finset Nat) (i : Nat) : ConsCell :=
  if i ∈ M then h.cell i else ⟨RECOVERED, freeHead h M i⟩

theorem mem_newlyFree {M : Finset Nat} {n j : Nat} : j ∈ newlyFree M n ↔ j < n ∧ j ∉ M := by
  induction n with
  | zero => simp [newlyFree]
  | succ n ih =>
    rw [newlyFree]
    split
    · next hn =>
      rw [ih]
      constructor
      · rintro ⟨hlt, hj⟩
        exact ⟨by omega, hj⟩
      · rintro ⟨hlt, hj⟩
        have : j ≠ n := fun he => hj (he ▸ hn)
        exact ⟨by omega, hj⟩
    · next hn =>
      rw [List.mem_cons, ih]
      constructor
      · rintro (rfl | ⟨hlt, hj⟩)
        · exact ⟨by omega, hn⟩
        · exact ⟨by omega, hj⟩
      · rintro ⟨hlt, hj⟩
        rcases Nat.lt_succ_iff_lt_or_eq.mp hlt with hlt | rfl
        · exact Or.inr ⟨hlt, hj⟩
        · exact Or.inl rfl

theorem nodup_newlyFree (M : Finset Nat) (n : Nat) : (newlyFree M n).Nodup := by
  induction n with
  | zero => simp [newlyFree]
  | succ n ih =>
    rw [newlyFree]
    split
    · exact ih
    · refine List.nodup_cons.mpr ⟨?_, ih⟩
      rw [mem_newlyFree]
      omega

/-- The head of the free list never carries a mark, so clearing the mark of a freshly linked
cell does nothing. -/
theorem valGetGcMark_freeHead {h : HeapState} (hfl : valGetGcMark h.freelist = false)
    (M : Finset Nat) (i : Nat) : valGetGcMark (freeHead h M i) = false := by
  induction i with
  | zero => exact hfl
  | succ i ih =>
    rw [freeHead]
    split
    · exact ih
    · exact valGetGcMark_cellPtr i

/-- The sweep of `markCells h M` has arrived at cell `i`, in the state `g`. -/
structure SweptTo (h : HeapState) (M : Finset Nat) (i : Nat) (g : HeapState) : Prop where
  heapSize : g.heapSize = h.heapSize
  heap_length : g.heap.length = h.heap.length
  done : ∀ j, j < i → g.cell j = sweptCell h M j
  todo : ∀ j, i ≤ j → j < h.heapSize → g.cell j = (markCells h M).cell j
  freelist : g.freelist = freeHead h M i
  numAlloc : g.numAlloc = h.numAlloc - BitVec.ofNat 32 (newlyFree M i).length
  gcRecovered : g.gcRecovered = h.gcRecovered + BitVec.ofNat 32 (newlyFree M i).length
  /-- data may have been given back, but the bitmap is where it was -/
  bitmap : g.memory.bitmap.length = h.memory.bitmap.length
  base : g.memory.memoryBaseAddress = h.memory.memoryBaseAddress

/-- Where `c` passes for an array, the word in its car has a status in the bitmap, as the address
of a word of the memory manager has. -/
def ArrayInside (h : HeapState) (c : ConsCell) : Prop :=
  isSweptArray c = true → hasStatus h.memory (addressToBitmapIx h.memory c.car) = true

/-- What `sweepCell` does to a marked cell: it clears the mark. -/
theorem sweepCell_of_marked {g : HeapState} {i : Nat} (hm : valGetGcMark (g.cell i).cdr = true) :
    sweepCell i g = some (g.setCell i { g.cell i with cdr := valClrGcMark (g.cell i).cdr }) := by
  simp [sweepCell, hm]

theorem sweepArray_isSome_iff {c : ConsCell} {g : HeapState} :
    (sweepArray c g).isSome ↔ ArrayInside g c := by
  simp only [sweepArray, memoryFreeWord, ArrayInside]
  split
  · split <;> simp [*]
  · next hty => simp [hty]

/-- Giving array data back changes nothing but the memory and its counter. -/
theorem sweepArray_some {c : ConsCell} {g g' : HeapState} (h : sweepArray c g = some g') :
    ∃ m n, g' = { g with memory := m, gcRecoveredArrays := n }
      ∧ m.bitmap.length = g.memory.bitmap.length
      ∧ m.memoryBaseAddress = g.memory.memoryBaseAddress := by
  rw [sweepArray, memoryFreeWord] at h
  split at h
  · split at h
    · obtain rfl := by simpa using h
      exact ⟨_, _, rfl, memoryFree_shape _ _⟩
    · simp at h
  · obtain rfl := by simpa using h
    exact ⟨_, _, rfl, rfl, rfl⟩

/-- What `sweepCell` does to an unmarked cell. -/
theorem sweepCell_of_unmarked {g : HeapState} {i : Nat} (hi : i < g.heap.length)
    (hm : valGetGcMark (g.cell i).cdr = false) :
    sweepCell i g = (sweepArray (g.cell i) g).map fun h =>
      { h with
        heap := g.heap.set i ⟨RECOVERED, valClrGcMark g.freelist⟩
        freelist := cellPtr i
        numAlloc := g.numAlloc - 1#32
        gcRecovered := g.gcRecovered + 1#32 } := by
  have hset : ∀ c : ConsCell, (g.heap.set i c).getD i ⟨0#32, 0#32⟩ = c := by
    intro c
    rw [List.getD_eq_getElem?_getD, List.getElem?_set_self hi]
    rfl
  simp only [sweepCell, hm, Bool.not_false, if_true, Option.map_map]
  cases ha : sweepArray (g.cell i) g with
  | none => rfl
  | some g' =>
    obtain ⟨m, n, rfl, -⟩ := sweepArray_some ha
    simp only [Option.map_some, Function.comp, HeapState.setCell, HeapState.cell, hset,
      List.set_set]

section Sweeping

variable {h : HeapState} {M : Finset Nat} {i : Nat} {g g' : HeapState}

/-- A dead cell is still as it was before the collection when the sweep comes to it. -/
theorem SweptTo.cell_of_not_mem (hfit : h.heapSize ≤ h.heap.length) (hi : i < h.heapSize)
    (hs : SweptTo h M i g) (hM : i ∉ M) : g.cell i = h.cell i := by
  rw [hs.todo i le_rfl hi, cell_markCells (by omega), if_neg hM]

theorem SweptTo.arrayInside_iff (hs : SweptTo h M i g) {c : ConsCell} :
    ArrayInside g c ↔ ArrayInside h c := by
  simp [ArrayInside, hasStatus, addressToBitmapIx, hs.bitmap, hs.base]

/-- The cell at which the sweep has arrived is freed or unmarked, unless its data is outside. -/
theorem SweptTo.isSome_iff (hfit : h.heapSize ≤ h.heap.length)
    (hun : ∀ i, i < h.heapSize → valGetGcMark (h.cell i).cdr = false) (hi : i < h.heapSize)
    (hs : SweptTo h M i g) :
    (sweepCell i g).isSome ↔ (i ∉ M → ArrayInside h (h.cell i)) := by
  have hlt : i < g.heap.length := by rw [hs.heap_length]; omega
  by_cases hM : i ∈ M
  · have hcell := hs.todo i le_rfl hi
    rw [cell_markCells (by omega), if_pos hM] at hcell
    simp [sweepCell_of_marked (g := g) (i := i) (by rw [hcell]; simp), hM]
  · have hcell := hs.cell_of_not_mem hfit hi hM
    rw [sweepCell_of_unmarked hlt (by rw [hcell]; exact hun i hi), Option.isSome_map,
      sweepArray_isSome_iff, hcell, hs.arrayInside_iff]
    simp [hM]

/-- One iteration of the sweep. -/
theorem SweptTo.step (hfit : h.heapSize ≤ h.heap.length)
    (hun : ∀ i, i < h.heapSize → valGetGcMark (h.cell i).cdr = false)
    (hfl : valGetGcMark h.freelist = false) (hi : i < h.heapSize)
    (hs : SweptTo h M i g) (hstep : sweepCell i g = some g') : SweptTo h M (i + 1) g' := by
  have hlt : i < g.heap.length := by rw [hs.heap_length]; omega
  by_cases hM : i ∈ M
  · -- a live cell: the mark was put on the old cdr, and clearing it restores the cell
    have hcell := hs.todo i le_rfl hi
    rw [cell_markCells (by omega), if_pos hM] at hcell
    rw [sweepCell_of_marked (by rw [hcell]; simp)] at hstep
    have hrestored : ({ g.cell i with cdr := valClrGcMark (g.cell i).cdr } : ConsCell)
        = h.cell i := by
      rw [hcell]
      simp [valClrGcMark_eq_self (hun i hi)]
    rw [hrestored, Option.some.injEq] at hstep
    subst hstep
    have hnf : newlyFree M (i + 1) = newlyFree M i := by rw [newlyFree, if_pos hM]
    refine ⟨hs.heapSize, by simpa using hs.heap_length, ?_, ?_, ?_, ?_, ?_, hs.bitmap, hs.base⟩
    · intro j hj
      rw [cell_setCell g hlt]
      split
      · next he => rw [← he, sweptCell, if_pos hM]
      · next hne => exact hs.done j (by omega)
    · intro j hj hjs
      rw [cell_setCell_ne g (by omega)]
      exact hs.todo j (by omega) hjs
    · rw [freeHead, if_pos hM]
      exact hs.freelist
    · rw [hnf]
      exact hs.numAlloc
    · rw [hnf]
      exact hs.gcRecovered
  · -- a dead cell goes to the front of the free list
    have hcell := hs.cell_of_not_mem hfit hi hM
    rw [sweepCell_of_unmarked hlt (by rw [hcell]; exact hun i hi)] at hstep
    obtain ⟨g₁, hg₁, rfl⟩ := Option.map_eq_some_iff.mp hstep
    obtain ⟨m, n, rfl, hbitmap, hbase⟩ := sweepArray_some hg₁
    have hclr : valClrGcMark g.freelist = freeHead h M i := by
      rw [hs.freelist]
      exact valClrGcMark_eq_self (valGetGcMark_freeHead hfl M i)
    have hnf : newlyFree M (i + 1) = i :: newlyFree M i := by rw [newlyFree, if_neg hM]
    -- the cells of the new state are those of `g` with cell `i` recycled
    refine ⟨hs.heapSize, by simpa using hs.heap_length, ?_, ?_, ?_, ?_, ?_,
      hbitmap.trans hs.bitmap, hbase.trans hs.base⟩
    · intro j hj
      show (g.setCell i ⟨RECOVERED, valClrGcMark g.freelist⟩).cell j = _
      rw [cell_setCell g hlt, hclr]
      split
      · next he => rw [← he, sweptCell, if_neg hM]
      · next hne => exact hs.done j (by omega)
    · intro j hj hjs
      show (g.setCell i ⟨RECOVERED, valClrGcMark g.freelist⟩).cell j = _
      rw [cell_setCell_ne g (by omega)]
      exact hs.todo j (by omega) hjs
    · rw [freeHead, if_neg hM]
    · show g.numAlloc - 1#32 = _
      rw [hs.numAlloc, hnf, List.length_cons, BitVec.ofNat_add]
      bv_omega
    · show g.gcRecovered + 1#32 = _
      rw [hs.gcRecovered, hnf, List.length_cons, BitVec.ofNat_add]
      bv_omega

/-- **The sweep loop.** Every cell below the loop index has its final contents. -/
theorem sweptTo_gcSweepLoop (hfit : h.heapSize ≤ h.heap.length)
    (hun : ∀ i, i < h.heapSize → valGetGcMark (h.cell i).cdr = false)
    (hfl : valGetGcMark h.freelist = false) : ∀ {i g}, i ≤ h.heapSize →
      gcSweepLoop i (markCells h M) = some g → SweptTo h M i g := by
  intro i
  induction i with
  | zero =>
    intro g _ hg
    obtain rfl : markCells h M = g := by simpa [gcSweepLoop] using hg
    refine ⟨rfl, by simp, by simp, fun _ _ _ => rfl, rfl, ?_, ?_, rfl, rfl⟩
    · simp [newlyFree, markCells]
    · simp [newlyFree, markCells]
  | succ i ih =>
    intro g hi hg
    obtain ⟨g₀, hg₀, hstep⟩ := Option.bind_eq_some_iff.mp hg
    exact (ih (by omega) hg₀).step hfit hun hfl (by omega) hstep

/-- The sweep comes past cell `i` unless the data of a dead cell below it is outside. -/
theorem gcSweepLoop_isSome_iff (hfit : h.heapSize ≤ h.heap.length)
    (hun : ∀ i, i < h.heapSize → valGetGcMark (h.cell i).cdr = false)
    (hfl : valGetGcMark h.freelist = false) : ∀ i, i ≤ h.heapSize →
      ((gcSweepLoop i (markCells h M)).isSome
        ↔ ∀ j, j < i → j ∉ M → ArrayInside h (h.cell j)) := by
  intro i
  induction i with
  | zero => intro _; simp [gcSweepLoop]
  | succ i ih =>
    intro hi
    rw [Nat.forall_lt_succ_right, ← ih (by omega), gcSweepLoop]
    cases hg : gcSweepLoop i (markCells h M) with
    | none => simp
    | some g =>
      have hs := sweptTo_gcSweepLoop hfit hun hfl (by omega) hg
      simpa using hs.isSome_iff hfit hun (by omega)

theorem sweptTo_gcSweepPhase (hfit : h.heapSize ≤ h.heap.length)
    (hun : ∀ i, i < h.heapSize → valGetGcMark (h.cell i).cdr = false)
    (hfl : valGetGcMark h.freelist = false) (hg : gcSweepPhase (markCells h M) = some g) :
    SweptTo h M h.heapSize g :=
  sweptTo_gcSweepLoop hfit hun hfl le_rfl hg

theorem gcSweepPhase_isSome_iff (hfit : h.heapSize ≤ h.heap.length)
    (hun : ∀ i, i < h.heapSize → valGetGcMark (h.cell i).cdr = false)
    (hfl : valGetGcMark h.freelist = false) :
    (gcSweepPhase (markCells h M)).isSome
      ↔ ∀ i, i < h.heapSize → i ∉ M → ArrayInside h (h.cell i) :=
  gcSweepLoop_isSome_iff hfit hun hfl h.heapSize le_rfl

/-! ## The free list after the sweep -/

/-- Two heaps with the same cells along a chain have the same chain. -/
theorem FreeChain.congr {g : HeapState} {v : VALUE} {l : List Nat} (hc : FreeChain h v l)
    (hsize : g.heapSize = h.heapSize) (hcell : ∀ i ∈ l, (g.cell i).cdr = (h.cell i).cdr) :
    FreeChain g v l := by
  induction hc with
  | nil => exact .nil
  | @cons i l hi _ ih =>
    refine .cons (hsize.symm ▸ hi) ?_
    rw [hcell i (by simp)]
    exact ih fun j hj => hcell j (List.mem_cons_of_mem _ hj)

/-- The free list has one reading. -/
theorem FreeChain.unique {g : HeapState} (hsize : g.heapSize ≤ 2 ^ 23) {v : VALUE} {l₁ : List Nat}
    (h₁ : FreeChain g v l₁) : ∀ {l₂ : List Nat}, FreeChain g v l₂ → l₁ = l₂ := by
  induction h₁ with
  | nil =>
    intro l₂ h₂
    generalize hv : NIL = v at h₂
    cases h₂ with
    | nil => rfl
    | cons hi _ =>
      have := congrArg isPtr hv
      rw [isPtr_cellPtr] at this
      exact absurd this (by decide)
  | @cons i l hi _ ih =>
    intro l₂ h₂
    generalize hv : cellPtr i = v at h₂
    cases h₂ with
    | nil =>
      have := congrArg isPtr hv
      rw [isPtr_cellPtr] at this
      exact absurd this (by decide)
    | @cons j l₂ hj hrest =>
      have hij : i = j := by
        have := congrArg ptrIx hv
        rwa [ptrIx_cellPtr (by omega), ptrIx_cellPtr (by omega)] at this
      subst hij
      rw [ih hrest]

/-- **The swept free list.** The newly freed cells, in front of the free list of before. -/
theorem freeChain_sweep {g : HeapState} {l : List Nat} (hc : FreeChain h h.freelist l)
    (hl : ∀ i ∈ l, i ∈ M) (hs : SweptTo h M h.heapSize g) :
    FreeChain g g.freelist (newlyFree M h.heapSize ++ l) := by
  have hbase : FreeChain g h.freelist l := by
    refine hc.congr hs.heapSize fun i hi => ?_
    rw [hs.done i (hc.lt i hi), sweptCell, if_pos (hl i hi)]
  have hchain : ∀ n, n ≤ h.heapSize → FreeChain g (freeHead h M n) (newlyFree M n ++ l) := by
    intro n
    induction n with
    | zero => intro _; exact hbase
    | succ n ih =>
      intro hn
      rw [freeHead, newlyFree]
      split
      · exact ih (by omega)
      · next hM =>
        refine .cons (by rw [hs.heapSize]; omega) ?_
        rw [hs.done n (by omega), sweptCell, if_neg hM]
        exact ih (by omega)
  rw [hs.freelist]
  exact hchain h.heapSize le_rfl

/-- No mark is left after the sweep. -/
theorem SweptTo.unmarked {g : HeapState}
    (hun : ∀ i, i < h.heapSize → valGetGcMark (h.cell i).cdr = false)
    (hfl : valGetGcMark h.freelist = false) (hs : SweptTo h M h.heapSize g) :
    ∀ i, i < h.heapSize → valGetGcMark (g.cell i).cdr = false := by
  intro i hi
  rw [hs.done i hi, sweptCell]
  split
  · exact hun i hi
  · exact valGetGcMark_freeHead hfl M i

end Sweeping

end LispBM
