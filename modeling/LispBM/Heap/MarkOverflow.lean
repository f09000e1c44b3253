import LispBM.Heap.Collect

/-!
# LispBM — collections whose marking ran out of room

`gc_mark_phase` gives up when its 1024-word stack is full and reports it with the result 0.
`gc_mark_aux` and the collector drivers drop that result and sweep, so the cells the cut
traversal did not come to are recycled, live or not. `noLiveCellRecycled_iff` says when this
does no harm; `carChain` is a heap on which it does.
-/

namespace LispBM

open GraphTrace

/-- If some `gc_mark_phase` call of the collection returns 0, no live cell ends up on the free
list. -/
def NoLiveCellRecycled (h : HeapState) (calls : List MarkCall) : Prop :=
  ∀ oks h' l', collect calls h = some (oks, h') → false ∈ oks →
    FreeChain h' h'.freelist l' → ∀ i, Live h (rootWords calls) i → i ∉ l'

section Recycled

variable {h : HeapState} {calls : List MarkCall} {l : List Nat}

/-- The free list after a collection: the cells the marking calls did not visit, and the ones
that were free. -/
theorem MarkReady.mem_free_iff (hr : MarkReady h calls l) {oks : List Bool} {M : Finset Nat}
    (hv : visits h calls l = some (oks, M)) {oks' : List Bool} {h' : HeapState} {l' : List Nat}
    (hc : collect calls h = some (oks', h')) (hl' : FreeChain h' h'.freelist l') :
    oks' = oks ∧ ∀ i, i ∈ l' ↔ (i < h.heapSize ∧ i ∉ M) ∨ i ∈ l := by
  obtain ⟨rfl, hswept, hchain, -⟩ := hr.swept hv hc
  have hsize : h'.heapSize ≤ 2 ^ 23 := by
    rw [hswept.heapSize]
    exact hr.addressable
  rw [hl'.unique hsize hchain]
  exact ⟨rfl, fun i => by rw [List.mem_append, mem_newlyFree]⟩

/-- **When a cut traversal does no harm.** A collection keeps every live cell although some
`gc_mark_phase` call gave up, exactly if every live cell was visited before its call did. -/
theorem noLiveCellRecycled_iff (hr : GcReady h calls l) :
    NoLiveCellRecycled h calls
      ↔ ∀ i, Live h (rootWords calls) i → VisitedWithinStack h calls l i := by
  obtain ⟨⟨oks, M⟩, hv⟩ := Option.isSome_iff_exists.mp hr.visits_isSome
  constructor
  · intro hkeep i hi
    refine ⟨oks, M, hv, ?_⟩
    by_cases hcut : false ∈ oks
    · obtain ⟨h', hc, -, hchain, -⟩ := hr.collect_swept hv
      have hnot := hkeep oks h' _ hc hcut hchain i hi
      by_contra hM
      exact hnot (List.mem_append_left _ (mem_newlyFree.mpr ⟨hr.live_lt hi, hM⟩))
    · refine hr.visits_of_live hv (fun ok hok => ?_) hi
      cases ok with
      | true => rfl
      | false => exact absurd hok hcut
  · intro hall oks' h' l' hc _ hl' i hi hmem
    obtain ⟨oks'', M', hv', hM'⟩ := hall i hi
    obtain ⟨-, hfree⟩ := hr.mem_free_iff hv' hc hl'
    rcases (hfree i).mp hmem with ⟨-, hM⟩ | hl
    · exact hM hM'
    · exact hr.disjoint i hl hi

end Recycled

/-! ## A chain of cells through the car -/

/-- The cells `0 .. n`, where the car of a cell refers to the next one: a list nested `n + 1`
deep. -/
def carChain (n : Nat) : HeapState :=
  freshHeap ((List.range (n + 1)).map fun i => ⟨if i < n then cellPtr (i + 1) else NIL, NIL⟩)
    NIL (BitVec.ofNat 32 (n + 1))

section Chain

variable {n : Nat}

@[simp] theorem carChain_heapSize (n : Nat) : (carChain n).heapSize = n + 1 := by
  simp [carChain, freshHeap]

theorem carChain_heap_length (n : Nat) : (carChain n).heap.length = n + 1 := by
  simp [carChain, freshHeap]

theorem cell_carChain {i : Nat} (hi : i ≤ n) :
    (carChain n).cell i = ⟨if i < n then cellPtr (i + 1) else NIL, NIL⟩ := by
  have hlt : i < n + 1 := by omega
  simp [carChain, freshHeap, HeapState.cell, List.getD_eq_getElem?_getD,
    List.getElem?_range hlt]

/-- The words of the chain. -/
def chainWord (n : Nat) (v : VALUE) : Prop := v = NIL ∨ ∃ i, i ≤ n ∧ v = cellPtr i

theorem traceFields_NIL (h : HeapState) : traceFields h NIL = [] := by
  simp [traceFields, isHeapPtr, show isPtr NIL = false from by decide]

theorem isHeapPtr_cellPtr {i : Nat} (hi : i < 2 ^ 23) : isHeapPtr (cellPtr i) = true := by
  have hty := typeOf_cellPtr hi
  rw [typeOf_of_isPtr (isPtr_cellPtr i)] at hty
  rw [isHeapPtr, isPtr_cellPtr, hty]
  decide

theorem traceFields_carChain (hn : n < 2 ^ 23) {i : Nat} (hi : i ≤ n) :
    traceFields (carChain n) (cellPtr i) = [if i < n then cellPtr (i + 1) else NIL, NIL] := by
  have hix : ptrIx (cellPtr i) = i := ptrIx_cellPtr (by omega)
  have hty : typeOf (cellPtr i) = ptrTypeCons := typeOf_cellPtr (by omega)
  have hleaf : isLeafType ptrTypeCons = false := by decide
  simp [traceFields, isHeapPtr_cellPtr (show i < 2 ^ 23 by omega), hty, hleaf,
    car_of_isPtr (isPtr_cellPtr i), cdr_of_isPtr (isPtr_cellPtr i), hix, cell_carChain hi]

theorem markDomain_carChain (hn : n < 2 ^ 23) : MarkDomain (carChain n) (chainWord n) where
  fields := by
    rintro v (rfl | ⟨i, hi, rfl⟩) w hw
    · rw [traceFields_NIL] at hw
      exact absurd hw (by simp)
    · rw [traceFields_carChain hn hi] at hw
      rcases List.mem_pair.mp hw with rfl | rfl
      · split
        · exact Or.inr ⟨i + 1, by omega, rfl⟩
        · exact Or.inl rfl
      · exact Or.inl rfl
  inRange := by
    rintro v (rfl | ⟨i, hi, rfl⟩) hp
    · exact absurd hp (by decide)
    · rw [ptrIx_cellPtr (by omega), carChain_heapSize]
      omega
  noIndirection := by
    rintro v (rfl | ⟨i, hi, rfl⟩) hp
    · exact absurd hp (by decide)
    · have := isHeapPtr_cellPtr (show i < 2 ^ 23 by omega)
      simp only [isHeapPtr, Bool.and_eq_true, bne_iff_ne] at this
      exact this.2
  oneType := by
    rintro v w (rfl | ⟨i, hi, rfl⟩) (rfl | ⟨j, hj, rfl⟩) hpv hpw _
    · exact absurd hpv (by decide)
    · exact absurd hpv (by decide)
    · exact absurd hpw (by decide)
    · rw [← typeOf_of_isPtr hpv, ← typeOf_of_isPtr hpw, typeOf_cellPtr (by omega),
        typeOf_cellPtr (by omega)]

theorem chainWord_root {n : Nat} :
    ∀ r ∈ rootWords [MarkCall.phase (cellPtr 0)], chainWord n r := by
  intro r hr
  obtain rfl : r = cellPtr 0 := by simpa [rootWords, MarkCall.words] using hr
  exact Or.inr ⟨0, by omega, rfl⟩

theorem gcReady_carChain (hn : n < 2 ^ 23) :
    GcReady (carChain n) [.phase (cellPtr 0)] [] := by
  refine ⟨⟨by rw [carChain_heapSize, carChain_heap_length], by rw [carChain_heapSize]; omega, ?_,
    (markDomain_carChain hn).restrict chainWord_root, by simp, .nil, by simp, by simp, ?_⟩, ?_⟩
  · intro i hi
    rw [carChain_heapSize] at hi
    rw [cell_carChain (by omega)]
    show valGetGcMark NIL = false
    decide
  · show (BitVec.ofNat 32 (n + 1)).toNat + 0 = (carChain n).heapSize
    rw [BitVec.toNat_ofNat, carChain_heapSize]
    omega
  · intro i hi _ harray
    rw [carChain_heapSize] at hi
    rw [cell_carChain (by omega)] at harray
    have hnil : isSweptArray ⟨if i < n then cellPtr (i + 1) else NIL, NIL⟩ = false := by
      show (typeOf NIL == valTypeSymbol && decSym NIL == defReprArrayType) = false
      decide
    exact absurd (hnil.symm.trans harray) (by simp)

/-- Every cell of the chain hangs on its first one. -/
theorem live_carChain (hn : n < 2 ^ 23) {i : Nat} (hi : i ≤ n) :
    Live (carChain n) (rootWords [.phase (cellPtr 0)]) i := by
  have hreach : (objGraph (carChain n)).Reach (cellPtr 0) (cellPtr i) := by
    induction i with
    | zero => exact .refl
    | succ i ih =>
      refine (ih (by omega)).tail ?_
      show cellPtr (i + 1) ∈ traceFields (carChain n) (cellPtr i)
      rw [traceFields_carChain hn (by omega), if_pos (by omega)]
      exact List.mem_cons_self
  refine ⟨cellPtr 0, by simp [rootWords, MarkCall.words], cellPtr i, hreach, ?_⟩
  rw [(markDomain_carChain hn).node_of_isPtr (Or.inr ⟨i, hi, rfl⟩) (isPtr_cellPtr i),
    ptrIx_cellPtr (by omega)]

/-- The walk down the chain: at cell `k` the `k` cdrs above it are pending. -/
theorem trace_carChain (hn : n < 2 ^ 23) (fuel : Nat) : ∀ k, k ≤ n → k + 1 ≤ markStackSize →
    (objGraph (carChain n)).trace markStackSize (fuel + k) [cellPtr 0] ∅
      = (objGraph (carChain n)).trace markStackSize fuel
          (cellPtr k :: List.replicate k NIL) (Finset.range k) := by
  intro k
  induction k generalizing fuel with
  | zero => intro _ _; rfl
  | succ k ih =>
    intro hk hroom
    have hnode : (objGraph (carChain n)).node (cellPtr k) = some k := by
      rw [(markDomain_carChain hn).node_of_isPtr (Or.inr ⟨k, by omega, rfl⟩) (isPtr_cellPtr k),
        ptrIx_cellPtr (by omega)]
    have hkids : (objGraph (carChain n)).kids (cellPtr k) = [cellPtr (k + 1), NIL] := by
      show traceFields _ _ = _
      rw [traceFields_carChain hn (by omega), if_pos (by omega)]
    rw [show fuel + (k + 1) = fuel + 1 + k from by omega, ih (fuel + 1) (by omega) (by omega),
      WorkGraph.trace, hnode]
    simp only [Finset.mem_range, lt_irrefl, if_false, hkids, List.length_cons, List.length_nil,
      List.length_replicate]
    rw [if_pos (by omega), Finset.range_add_one]
    rfl

/-- At cell 1023 the mark stack is full. -/
theorem visits_carChain (hn : n < 2 ^ 23) (hlong : 1023 ≤ n) :
    visits (carChain n) [.phase (cellPtr 0)] [] = some ([false], Finset.range 1024) := by
  have hnode : (objGraph (carChain n)).node (cellPtr 1023) = some 1023 := by
    rw [(markDomain_carChain hn).node_of_isPtr (Or.inr ⟨1023, hlong, rfl⟩) (isPtr_cellPtr 1023),
      ptrIx_cellPtr (by norm_num)]
  have hkids : ((objGraph (carChain n)).kids (cellPtr 1023)).length = 2 := by
    show (traceFields (carChain n) (cellPtr 1023)).length = 2
    rw [traceFields_carChain hn hlong]
    rfl
  have htrace : (objGraph (carChain n)).trace markStackSize (markFuel (carChain n)) [cellPtr 0] ∅
      = some (false, Finset.range 1024) := by
    obtain ⟨f, hf⟩ : ∃ f, markFuel (carChain n) = f + 1 + 1023 := by
      refine ⟨2 * (n + 1) - 1022, ?_⟩
      rw [markFuel, carChain_heap_length]
      omega
    rw [hf, trace_carChain hn (f + 1) 1023 hlong (by decide), WorkGraph.trace, hnode]
    simp only [Finset.mem_range, lt_irrefl, if_false, hkids, List.length_replicate]
    rw [if_neg (by decide), ← Finset.range_add_one]
  simp [visits, MarkCall.traced, WorkGraph.traceAll, htrace]

end Chain

/-- A list nested 1024 deep fills the mark stack at its last cell, when everything has been
visited: nothing is lost. -/
theorem noLiveCellRecycled_carChain :
    NoLiveCellRecycled (carChain 1023) [.phase (cellPtr 0)] := by
  have hn : 1023 < 2 ^ 23 := by norm_num
  refine (noLiveCellRecycled_iff (gcReady_carChain hn)).mpr fun i hi => ?_
  have hlt := (gcReady_carChain hn).live_lt hi
  rw [carChain_heapSize] at hlt
  exact ⟨[false], _, visits_carChain hn le_rfl, Finset.mem_range.mpr hlt⟩

/-- One level deeper, `heap_perform_gc` puts the innermost cell on the free list although the
root reaches it. -/
theorem not_noLiveCellRecycled_carChain :
    GcReady (carChain 1024) [.phase (cellPtr 0)] []
      ∧ ¬NoLiveCellRecycled (carChain 1024) [.phase (cellPtr 0)] := by
  have hn : 1024 < 2 ^ 23 := by norm_num
  have hr := gcReady_carChain hn
  refine ⟨hr, fun hkeep => ?_⟩
  have hv := visits_carChain hn (by omega)
  obtain ⟨h', hc, -, hchain, -⟩ := hr.collect_swept hv
  refine hkeep [false] h' _ hc (by simp) hchain 1024 (live_carChain hn le_rfl) ?_
  refine List.mem_append_left _ (mem_newlyFree.mpr ⟨?_, by simp⟩)
  rw [carChain_heapSize]
  omega

end LispBM
