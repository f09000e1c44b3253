import LispBM.Heap.Collect

/-!
# LispBM — one mark phase in a heap that is marked in part

The mark phases of a collection start with what the earlier ones have marked, the free list among
it. A heap with marks is the same heap without them, with some cells marked
(`markCells_unmarkAll`), so that the mark loop is again a traversal, now of the object graph of the
heap as it is found; its words may carry mark bits (`SameWord`).

* `gcMarkPhase_exact` — `gc_mark_phase` ends, and marks the cells that can be reached and no
  others, if it does not run out of its stack.
-/

namespace LispBM

open GraphTrace

/-! ## Heaps with marks -/

/-- The cell `i` is marked. -/
def IsMarked (h : HeapState) (i : Nat) : Prop := valGetGcMark (h.cell i).cdr = true

instance (h : HeapState) : DecidablePred (IsMarked h) :=
  fun _ => inferInstanceAs (Decidable (_ = _))

/-- What a marked cell of `P` refers to is marked. -/
def MarkedClosed (h : HeapState) (P : VALUE → Prop) : Prop :=
  ∀ v, P v → isHeapPtr v = true → IsMarked h (ptrIx v) → ∀ w ∈ traceFields h v,
    isHeapPtr w = true → IsMarked h (ptrIx w)

/-- From `h` to `h'` the cells that can be reached from `v` have been marked and counted. -/
structure MarksReachable (h : HeapState) (v : VALUE) (h' : HeapState) : Prop where
  marked : ∀ i, IsMarked h' i ↔ IsMarked h i ∨ Live h [v] i
  gcMarked : h'.gcMarked = h.gcMarked + BitVec.ofNat 32 {i | IsMarked h' i ∧ ¬IsMarked h i}.ncard
  car : ∀ i, (h'.cell i).car = (h.cell i).car
  cdr : ∀ i, valClrGcMark (h'.cell i).cdr = valClrGcMark (h.cell i).cdr
  length : h'.heap.length = h.heap.length
  rest : { h' with heap := h.heap, gcMarked := h.gcMarked } = h

/-- The marked cells of `h`. -/
def markedCells (h : HeapState) : Finset Nat := (Finset.range h.heap.length).filter (IsMarked h)

/-- `h` without its marks. -/
def unmarkAll (h : HeapState) : HeapState :=
  { h with
    heap := h.heap.map fun c => { c with cdr := valClrGcMark c.cdr }
    gcMarked := h.gcMarked - BitVec.ofNat 32 (markedCells h).card }

section

variable {h h' : HeapState} {v w : VALUE} {P : VALUE → Prop} {i : Nat} {M N : Finset Nat}

theorem cell_of_le (hi : h.heap.length ≤ i) : h.cell i = ⟨0#32, 0#32⟩ := by
  rw [HeapState.cell, List.getD_eq_getElem?_getD, List.getElem?_eq_none hi, Option.getD_none]

theorem IsMarked.lt_length (hi : IsMarked h i) : i < h.heap.length := by
  by_contra hle
  rw [IsMarked, cell_of_le (Nat.not_lt.mp hle)] at hi
  exact absurd hi (by decide)

theorem mem_markedCells : i ∈ markedCells h ↔ IsMarked h i := by
  rw [markedCells, Finset.mem_filter, Finset.mem_range]
  exact ⟨fun hi => hi.2, fun hi => ⟨hi.lt_length, hi⟩⟩

theorem cell_unmarkAll (h : HeapState) (i : Nat) :
    (unmarkAll h).cell i = { h.cell i with cdr := valClrGcMark (h.cell i).cdr } := by
  rcases Nat.lt_or_ge i h.heap.length with hi | hi
  · simp only [HeapState.cell, unmarkAll, List.getD_eq_getElem?_getD, List.getElem?_map,
      List.getElem?_eq_getElem hi, Option.map_some, Option.getD_some]
  · have hlen : (unmarkAll h).heap.length ≤ i := by
      show (h.heap.map _).length ≤ i
      rwa [List.length_map]
    rw [cell_of_le hi, cell_of_le hlen]
    rfl

theorem valSetGcMark_valClrGcMark (hv : valGetGcMark v = true) :
    valSetGcMark (valClrGcMark v) = v := by
  have h1 : v[1] = true := by
    by_contra hclear
    have hbit : v[1] = false := by simpa using hclear
    have hzero : v &&& gcMask = 0#32 := by
      ext i hi
      interval_cases i <;> simp [gcMask, hbit]
    rw [valGetGcMark, hzero] at hv
    exact absurd hv (by decide)
  ext i hi
  simp only [valSetGcMark, valClrGcMark, gcMask]
  interval_cases i <;> simp [h1]

/-- Marking in two portions. -/
theorem markCells_markCells (hMN : Disjoint M N) :
    markCells (markCells h M) N = markCells h (M ∪ N) := by
  have hcard : (M ∪ N).card = M.card + N.card := Finset.card_union_of_disjoint hMN
  simp only [markCells, hcard, BitVec.ofNat_add, BitVec.add_assoc]
  congr 1
  apply List.ext_getElem
  · simp
  · intro i hi hi'
    simp only [List.getElem_mapIdx, Finset.mem_union]
    by_cases hiN : i ∈ N
    · have hiM : i ∉ M := fun hiM => Finset.disjoint_left.mp hMN hiM hiN
      simp [hiM, hiN]
    · simp [hiN]

/-- A heap with marks is the heap without them, with its marked cells marked. -/
theorem markCells_unmarkAll (h : HeapState) : markCells (unmarkAll h) (markedCells h) = h := by
  have hcount : h.gcMarked - BitVec.ofNat 32 (markedCells h).card
      + BitVec.ofNat 32 (markedCells h).card = h.gcMarked := BitVec.sub_add_cancel _ _
  have hheap : (markCells (unmarkAll h) (markedCells h)).heap = h.heap := by
    apply List.ext_getElem
    · simp [unmarkAll]
    · intro i hi hi'
      have hcell : h.cell i = h.heap[i] := by
        rw [HeapState.cell, List.getD_eq_getElem?_getD, List.getElem?_eq_getElem hi',
          Option.getD_some]
      simp only [markCells, unmarkAll, List.getElem_mapIdx, List.getElem_map, mem_markedCells,
        IsMarked, hcell]
      split
      · next hmark => rw [valSetGcMark_valClrGcMark hmark]
      · next hmark => rw [valClrGcMark_eq_self (by simpa using hmark)]
  show { h with
    heap := (markCells (unmarkAll h) (markedCells h)).heap
    gcMarked := h.gcMarked - BitVec.ofNat 32 (markedCells h).card
      + BitVec.ofNat 32 (markedCells h).card } = h
  rw [hheap, hcount]

/-! ## The mark loop in a heap with marks -/

/-- The same word, up to the mark bit. -/
def SameWord (w v : VALUE) : Prop := valClrGcMark w = valClrGcMark v

theorem sameRef_valClrGcMark (v : VALUE) : SameRef v (valClrGcMark v) := by
  cases hv : valGetGcMark v with
  | true => exact .inr (valSetGcMark_valClrGcMark hv).symm
  | false => exact .inl (valClrGcMark_eq_self hv).symm

theorem SameWord.isPtr_eq (h : SameWord w v) : isPtr w = isPtr v := by
  rw [(sameRef_valClrGcMark w).isPtr_eq, h, (sameRef_valClrGcMark v).isPtr_eq]

theorem SameWord.ptrIx_eq (h : SameWord w v) : ptrIx w = ptrIx v := by
  rw [(sameRef_valClrGcMark w).ptrIx_eq, h, (sameRef_valClrGcMark v).ptrIx_eq]

theorem SameWord.typeOf_eq (h : SameWord w v) : typeOf w = typeOf v := by
  rw [(sameRef_valClrGcMark w).typeOf_eq, h, (sameRef_valClrGcMark v).typeOf_eq]

/-- The fields that the loop pushes, when `M` is marked, are the fields in the heap as it was
found. -/
theorem sameWord_fields (hwv : SameWord w v) (hv : isPtr v = true)
    (hlt : ptrIx v < h.heap.length) (M : Finset Nat) :
    SameWord (car (markCells (unmarkAll h) M) w) (car h v)
      ∧ SameWord (cdr (markCells (unmarkAll h) M) w) (cdr h v) := by
  have hw : isPtr w = true := hwv.isPtr_eq.trans hv
  have hlt' : ptrIx v < (unmarkAll h).heap.length := by
    show _ < (h.heap.map _).length
    rwa [List.length_map]
  have hclr : ∀ x, valClrGcMark (valClrGcMark x) = valClrGcMark x := fun x =>
    valClrGcMark_eq_self (valGetGcMark_valClrGcMark x)
  rw [car_of_isPtr hw, car_of_isPtr hv, cdr_of_isPtr hw, cdr_of_isPtr hv, hwv.ptrIx_eq,
    hwv.typeOf_eq, cell_markCells hlt', cell_unmarkAll]
  constructor
  · split <;> rfl
  · by_cases ht : typeOf v = ptrTypeCons
    · rw [if_pos ht, if_pos ht]
      split
      · exact (valClrGcMark_valSetGcMark _).trans (hclr _)
      · exact hclr _
    · rw [if_neg ht, if_neg ht]
      rfl

/-- Every word is read as itself. -/
theorem MarkDomain.reads_unmarkAll (hd : MarkDomain h P) (hfit : h.heapSize ≤ h.heap.length) :
    Reads (unmarkAll h) (objGraph h) SameWord P (fun _ _ => True) where
  skip := by
    intro w v M hwv hP hnode _ hw
    have hv : isPtr v = true := hwv.isPtr_eq.symm.trans hw
    rw [hd.node_of_isPtr hP hv] at hnode
    exact absurd hnode (by simp)
  node := by
    intro w v k hwv hP hnode
    obtain ⟨hv, hix⟩ := isPtr_of_node hnode
    exact ⟨hwv.isPtr_eq.trans hv, hwv.ptrIx_eq.trans hix, hix ▸ hd.inRange v hP hv⟩
  leaf := by
    intro w v k hwv _ _ hleaf
    rw [hwv.typeOf_eq] at hleaf
    show traceFields h v = []
    simp [traceFields, hleaf]
  fields := by
    intro w v k M hwv hP hnode hleaf
    obtain ⟨hv, -⟩ := isPtr_of_node hnode
    have hlt : ptrIx v < h.heap.length := Nat.lt_of_lt_of_le (hd.inRange v hP hv) hfit
    rw [hwv.typeOf_eq] at hleaf
    have hkids : traceFields h v = [car h v, cdr h v] := by
      simp [traceFields, hleaf, isHeapPtr, hv, hd.noIndirection v hP hv]
    obtain ⟨hcar, hcdr⟩ := sameWord_fields hwv hv hlt M
    have hfields := hd.fields v hP
    rw [hkids] at hfields
    exact ⟨_, _, hkids, ⟨hfields _ (by simp), hcar⟩, hfields _ (by simp), hcdr⟩

theorem isHeapPtr_of_node {k : Nat} (hk : (objGraph h).node v = some k) :
    isHeapPtr v = true ∧ ptrIx v = k := by
  cases hp : isHeapPtr v with
  | false => simp [objGraph, hp] at hk
  | true => exact ⟨rfl, by simpa [objGraph, hp] using hk⟩

/-- `gc_mark_phase` is the traversal that starts with the marked cells as its visited set. -/
theorem gcMarkPhase_eq_trace_marked (hd : MarkDomain h P) (hfit : h.heapSize ≤ h.heap.length)
    (hv : P v) :
    gcMarkPhase v h = ((objGraph h).trace markStackSize (markFuel h) [v] (markedCells h)).map
      (markResult (unmarkAll h)) := by
  have hlen : (unmarkAll h).heap.length = h.heap.length := List.length_map _
  have hfuel : markFuel (unmarkAll h) = markFuel h := by
    rw [markFuel, hlen]
    rfl
  have htrace := gcMarkPhase_eq_trace (hd.reads_unmarkAll hfit) (hlen.symm ▸ hfit)
    (fun i _ => by rw [cell_unmarkAll, valGetGcMark_valClrGcMark]) (rfl : SameWord v v) hv
    (markedCells h) (fun _ _ => trivial)
  rwa [markCells_unmarkAll, hfuel] at htrace

/-- What marking the cells of `N` in a heap with marks changes. -/
theorem marksReachable_markCells (hlive : ∀ i, i ∈ N ↔ ¬IsMarked h i ∧ Live h [v] i)
    (hN : ∀ i ∈ N, i < h.heap.length) : MarksReachable h v (markCells h N) := by
  have hcell : ∀ i, (markCells h N).cell i
      = if i ∈ N then { h.cell i with cdr := valSetGcMark (h.cell i).cdr } else h.cell i := by
    intro i
    rcases Nat.lt_or_ge i h.heap.length with hi | hi
    · exact cell_markCells hi N
    · rw [if_neg fun hiN => absurd (hN i hiN) (Nat.not_lt.mpr hi), cell_of_le hi, cell_of_le]
      rwa [markCells_heap_length]
  have hmarked : ∀ i, IsMarked (markCells h N) i ↔ IsMarked h i ∨ i ∈ N := by
    intro i
    rw [IsMarked, hcell]
    by_cases hiN : i ∈ N
    · simp [hiN]
    · simp [hiN, IsMarked]
  -- What is marked now and was not before is `N`, so the count grows by its size.
  have hnew : {i | IsMarked (markCells h N) i ∧ ¬IsMarked h i} = (N : Set Nat) := by
    ext i
    rw [Set.mem_ofPred_eq, hmarked, Finset.mem_coe]
    have := hlive i
    grind
  refine ⟨fun i => ?_, ?_, fun i => ?_, fun i => ?_, markCells_heap_length h N, rfl⟩
  · rw [hmarked, hlive]
    by_cases hi : IsMarked h i <;> simp [hi]
  · rw [hnew, Set.ncard_coe_finset]
    rfl
  · rw [hcell]
    split <;> rfl
  · rw [hcell]
    split
    · exact valClrGcMark_valSetGcMark _
    · rfl

/-- **One mark phase.** It ends, and if it returns 1, the marked cells are the ones that were marked
and the ones that can be reached. -/
theorem gcMarkPhase_exact (hd : MarkDomain h P) (hfit : h.heapSize ≤ h.heap.length)
    (hcl : MarkedClosed h P) (hv : P v) :
    ∃ ok h', gcMarkPhase v h = some (ok, h') ∧ (ok = true → MarksReachable h v h') := by
  have hphase := gcMarkPhase_eq_trace_marked hd hfit hv
  have hroot : ∀ a ∈ [v], P a := by simpa using hv
  -- every visited vertex is a cell of the heap
  have hcells : ∀ a k, P a → (objGraph h).node a = some k → k ∈ Finset.range h.heapSize := by
    intro a k ha hk
    obtain ⟨hptr, rfl⟩ := isPtr_of_node hk
    exact Finset.mem_range.mpr (hd.inRange a ha hptr)
  have hfuel : [v].length + 2 * (Finset.range h.heapSize \ markedCells h).card < markFuel h := by
    have hcard := Finset.card_le_card
      (Finset.sdiff_subset (s := Finset.range h.heapSize) (t := markedCells h))
    rw [Finset.card_range] at hcard
    rw [List.length_singleton, markFuel]
    omega
  obtain ⟨⟨ok, M⟩, htrace⟩ := Option.isSome_iff_exists.mp
    (@WorkGraph.trace_isSome _ _ _ _ _ hd.domain _ hcells _ (objGraph_kids_length h) markStackSize
      _ _ _ hroot hfuel)
  rw [htrace] at hphase
  refine ⟨ok, _, hphase, ?_⟩
  rintro rfl
  have hsub : markedCells h ⊆ M := WorkGraph.subset_of_trace htrace
  -- nothing waits on the stack at the start: the marked cells are closed
  have hpend : (objGraph h).PendingClosed P [v] (markedCells h) := by
    intro a k ha hak hk c hc k' hk'
    obtain ⟨hap, rfl⟩ := isHeapPtr_of_node hak
    obtain ⟨hcp, rfl⟩ := isHeapPtr_of_node hk'
    exact .inl (mem_markedCells.mpr (hcl a ha hap (mem_markedCells.mp hk) c hc hcp))
  obtain ⟨hclosed, hin⟩ := WorkGraph.trace_complete hd.domain hroot hpend htrace
  have hM : ∀ i, i ∈ M ↔ IsMarked h i ∨ Live h [v] i := by
    intro i
    constructor
    · intro hi
      exact (WorkGraph.trace_sound htrace i hi).imp_left mem_markedCells.mp
    · rintro (hi | ⟨r, hr, a, hra, ha⟩)
      · exact hsub (mem_markedCells.mpr hi)
      · exact hclosed.mem_of_reach hd.domain (hroot r hr) (hin r hr) hra i ha
  have hunion : M = markedCells h ∪ (M \ markedCells h) := (Finset.union_sdiff_of_subset hsub).symm
  have hresult : markCells (unmarkAll h) M = markCells h (M \ markedCells h) := by
    rw [hunion, ← markCells_markCells Finset.disjoint_sdiff, markCells_unmarkAll, ← hunion]
  show MarksReachable h v (markCells (unmarkAll h) M)
  rw [hresult]
  apply marksReachable_markCells
  · intro i
    rw [Finset.mem_sdiff, mem_markedCells, hM]
    grind
  · intro i hi
    rw [Finset.mem_sdiff, mem_markedCells, hM] at hi
    obtain ⟨r, hr, a, hra, ha⟩ := hi.1.resolve_left hi.2
    have hlt := hcells a i (hd.domain.reach (hroot r hr) hra) ha
    exact Nat.lt_of_lt_of_le (Finset.mem_range.mp hlt) hfit

end

/-- The boxed number of `sampleHeap` is marked already. -/
theorem gcMarkPhase_exact_sampleHeap :
    let h := setGcMark sampleHeap (setPtrType (cellPtr 1) ptrTypeBoxedU)
    ∃ ok h', gcMarkPhase (cellPtr 0) h = some (ok, h')
      ∧ (ok = true → MarksReachable h (cellPtr 0) h') := by
  intro h
  have hdomain : MarkDomain h (· ∈ sampleWords) := by
    refine ⟨?_, forall_sampleWords (by decide +kernel), forall_sampleWords (by decide +kernel), ?_⟩
    · have hfields : (sampleWords.flatMap (traceFields h)).all (· ∈ sampleWords) = true := by
        decide +kernel
      simpa [List.all_eq_true] using hfields
    · have hnodup : (sampleWords.map ptrIx).Nodup := by decide +kernel
      intro v w hv hw _ _ hix
      rw [List.inj_on_of_nodup_map hnodup hv hw hix]
  have hclosed : MarkedClosed h (· ∈ sampleWords) := by
    have hall : sampleWords.all (fun v => decide (isHeapPtr v = true → IsMarked h (ptrIx v) →
        (traceFields h v).all (fun w => decide (isHeapPtr w = true → IsMarked h (ptrIx w))) = true))
          = true := by
      decide +kernel
    intro v hv hp hm w hw
    have hws := forall_sampleWords hall v hv hp hm
    exact of_decide_eq_true (List.all_eq_true.mp hws w hw)
  exact gcMarkPhase_exact hdomain (by decide +kernel) hclosed (by decide +kernel)

end LispBM
