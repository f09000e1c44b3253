import LispBM.Heap.Collect

/-!
# LispBM — symbol indirections and the collector

A symbol indirection is a number in a word that has the pointer bit set. `gc_mark_aux` looks at
the pointer type before it follows a word; `gc_mark_phase` looks at the pointer bit only, so it
takes the number of an indirection for the index of a cell. If that cell has a mark by then,
nothing happens. Otherwise the cell is marked, its car is followed and its cdr is not: garbage is
kept, and what only the cdr of a live cell refers to is recycled.

The fields with indirections are *holes* of the heap (`HeapState.fill`). The marking of a heap
with holes is the traversal of `holeGraph`, whatever word the holes hold, as long as it comes to
them at times when the cell with the indirection's number is marked (`Shielded`).
-/

namespace LispBM

open GraphTrace

/-- The word `v` in the car of the cells `cars` and in the cdr of the cells `cdrs`. -/
def HeapState.fill (h : HeapState) (cars cdrs : Finset Nat) (v : VALUE) : HeapState :=
  { h with
    heap := h.heap.mapIdx fun i c =>
      ⟨if i ∈ cars then v else c.car, if i ∈ cdrs then v else c.cdr⟩ }

/-- The object graph of a heap with holes: a hole refers to nothing. -/
def holeGraph (cars cdrs : Finset Nat) (h : HeapState) : WorkGraph (Option VALUE) Nat where
  node a := a.bind (objGraph h).node
  kids a :=
    match a with
    | none => []
    | some v =>
        if isHeapPtr v && !isLeafType (typeOf v) then
          [if ptrIx v ∈ cars then none else some (car h v),
            if ptrIx v ∈ cdrs then none else some (cdr h v)]
        else []
  kids_eq_nil := by
    intro a ha
    cases a with
    | none => rfl
    | some v =>
      cases hp : isHeapPtr v with
      | true => simp [objGraph, hp] at ha
      | false => simp [hp]

/-- Whenever the marking calls come to a hole, cell `i` is on the free list `l` or visited. -/
def Shielded (h : HeapState) (calls : List MarkCall) (l : List Nat) (cars cdrs : Finset Nat)
    (i : Nat) : Prop :=
  ∀ p ∈ (holeGraph cars cdrs h).popsAll markStackSize (markFuel h)
      ((calls.flatMap (MarkCall.traced h.heapSize)).map some) l.toFinset,
    p.1 = none → i < h.heapSize ∧ i ∈ p.2

/-- A cons cell that can be reached. -/
def ReachableCons (h : HeapState) (calls : List MarkCall) (i : Nat) : Prop :=
  ∃ w, ReachableWord h (rootWords calls) w ∧ typeOf w = ptrTypeCons ∧ ptrIx w = i

/-- The heap with the integer `k` in the holes is ready for a collection, and the holes are fields
of cons cells that can be reached and do not pass for arrays. -/
structure HolesReady (h : HeapState) (calls : List MarkCall) (l : List Nat)
    (cars cdrs : Finset Nat) (k : UINT) : Prop where
  ready : GcReady (h.fill cars cdrs (encI k)) calls l
  cons : ∀ i, i ∈ cars ∨ i ∈ cdrs → ReachableCons (h.fill cars cdrs (encI k)) calls i
  pairs : ∀ i ∈ cars, isSweptArray ((h.fill cars cdrs (encI k)).cell i) = false

/-- The collections of two heaps come to an end, free the same cells, with the same contents, and
leave all others as they are. -/
def SameCollection (calls : List MarkCall) (h h' : HeapState) : Prop :=
  ∃ oks g g' l, collect calls h = some (oks, g) ∧ collect calls h' = some (oks, g')
    ∧ FreeChain g g.freelist l ∧ FreeChain g' g'.freelist l
    ∧ (∀ i ∈ l, g.cell i = g'.cell i)
    ∧ ∀ i, i < h.heapSize → i ∉ l → g.cell i = h.cell i ∧ g'.cell i = h'.cell i

/-! ## Heaps with holes -/

section Fill

variable {h : HeapState} {cars cdrs : Finset Nat} {u v : VALUE} {i : Nat}

@[simp] theorem fill_heap_length : (h.fill cars cdrs u).heap.length = h.heap.length := by
  simp [HeapState.fill]

theorem cell_fill (hi : i < h.heap.length) :
    (h.fill cars cdrs u).cell i
      = ⟨if i ∈ cars then u else (h.cell i).car, if i ∈ cdrs then u else (h.cell i).cdr⟩ := by
  simp only [HeapState.cell, HeapState.fill, List.getD_eq_getElem?_getD, List.getElem?_mapIdx,
    List.getElem?_eq_getElem hi, Option.map_some, Option.getD_some]

theorem cell_fill_of_not_mem (hi : i < h.heap.length) (hcar : i ∉ cars) (hcdr : i ∉ cdrs) :
    (h.fill cars cdrs u).cell i = h.cell i := by
  rw [cell_fill hi, if_neg hcar, if_neg hcdr]

theorem car_fill (hv : isPtr v = true) (hlt : ptrIx v < h.heap.length) :
    car (h.fill cars cdrs u) v = if ptrIx v ∈ cars then u else car h v := by
  rw [car_of_isPtr hv, car_of_isPtr hv, cell_fill hlt]

theorem cdr_fill (hv : isPtr v = true) (hlt : ptrIx v < h.heap.length)
    (hcons : ptrIx v ∈ cdrs → typeOf v = ptrTypeCons) :
    cdr (h.fill cars cdrs u) v = if ptrIx v ∈ cdrs then u else cdr h v := by
  rw [cdr_of_isPtr hv, cdr_of_isPtr hv, cell_fill hlt]
  by_cases hc : ptrIx v ∈ cdrs
  · simp [hc, hcons hc]
  · simp [hc]

/-- Filling the holes with an unmarked word marks no cell. -/
theorem unmarked_fill {k : UINT} (hfit : h.heapSize ≤ h.heap.length)
    (hun : ∀ i, i < h.heapSize → valGetGcMark ((h.fill cars cdrs (encI k)).cell i).cdr = false)
    (hu : valGetGcMark u = false) (hi : i < h.heapSize) :
    valGetGcMark ((h.fill cars cdrs u).cell i).cdr = false := by
  have hlt : i < h.heap.length := by omega
  have := hun i hi
  rw [cell_fill hlt] at this ⊢
  by_cases hc : i ∈ cdrs
  · simpa [hc] using hu
  · simpa [hc] using this

end Fill

/-! ## Marking a heap with holes -/

section Ready

variable {h : HeapState} {calls : List MarkCall} {l : List Nat} {cars cdrs : Finset Nat} {k : UINT}
  {u : VALUE}

theorem HolesReady.fits (hr : HolesReady h calls l cars cdrs k) : h.heapSize ≤ h.heap.length := by
  have := hr.ready.fits
  rwa [fill_heap_length] at this

/-- Every reference to a cell with a hole is one to a cons cell. -/
theorem HolesReady.typeOf_eq (hr : HolesReady h calls l cars cdrs k) {v : VALUE}
    (hv : ReachableWord (h.fill cars cdrs (encI k)) (rootWords calls) v) (hp : isPtr v = true)
    (hhole : ptrIx v ∈ cars ∨ ptrIx v ∈ cdrs) : typeOf v = ptrTypeCons := by
  obtain ⟨w, hw, hty, hix⟩ := hr.cons _ hhole
  have hpw := isPtr_of_typeOf_cons hty
  have hsame := hr.ready.domain.oneType v w hv hw hp hpw hix.symm
  rw [typeOf_of_isPtr hp, hsame, ← typeOf_of_isPtr hpw, hty]

/-- A cell with a hole is not free. -/
theorem HolesReady.not_free (hr : HolesReady h calls l cars cdrs k) {i : Nat} (hi : i ∈ l) :
    i ∉ cars ∧ i ∉ cdrs := by
  have hnot : ¬(i ∈ cars ∨ i ∈ cdrs) := by
    intro hhole
    obtain ⟨w, hw, hty, hix⟩ := hr.cons i hhole
    have hnode := hr.ready.domain.node_of_isPtr hw (isPtr_of_typeOf_cons hty)
    obtain ⟨r, hr', hrw⟩ := hw
    exact hr.ready.disjoint i hi ⟨r, hr', w, hrw, hix ▸ hnode⟩
  exact not_or.mp hnot

/-- A reachable word, or a hole. -/
def HoleWord (h : HeapState) (calls : List MarkCall) (a : Option VALUE) : Prop :=
  ∀ v, a = some v → ReachableWord h (rootWords calls) v

/-- **The words of a heap whose holes hold `u`** are read as the items of the graph with holes. -/
theorem HolesReady.reads (hr : HolesReady h calls l cars cdrs k) (u : VALUE) :
    Reads (h.fill cars cdrs u) (holeGraph cars cdrs h) (fun w a => SameRef w (a.getD u))
      (HoleWord (h.fill cars cdrs (encI k)) calls)
      (fun a M => a = none → isPtr u = true → ptrIx u < h.heapSize ∧ ptrIx u ∈ M) where
  skip := by
    intro w a M hwa hP hnode hQ hw
    have hp := hwa.isPtr_eq.symm.trans hw
    rw [hwa.ptrIx_eq]
    cases a with
    | none => exact hQ rfl hp
    | some v =>
      have hv : (objGraph h).node v = some (ptrIx v) :=
        hr.ready.domain.node_of_isPtr (hP v rfl) hp
      exact absurd (hnode.symm.trans hv) (by simp)
  node := by
    intro w a i hwa hP hnode
    cases a with
    | none => exact absurd hnode (by simp [holeGraph])
    | some v =>
      obtain ⟨hv, hix⟩ := isPtr_of_node (h := h) hnode
      refine ⟨hwa.isPtr_eq.trans hv, hwa.ptrIx_eq.trans hix, ?_⟩
      rw [← hix]
      exact hr.ready.domain.inRange v (hP v rfl) hv
  leaf := by
    intro w a i hwa _ hnode hleaf
    cases a with
    | none => rfl
    | some v =>
      rw [hwa.typeOf_eq] at hleaf
      simp only [Option.getD_some] at hleaf
      simp [holeGraph, hleaf]
  fields := by
    intro w a i M hwa hP hnode hleaf
    cases a with
    | none => exact absurd hnode (by simp [holeGraph])
    | some v =>
      have hfits := hr.fits
      have hPv := hP v rfl
      obtain ⟨hv, -⟩ := isPtr_of_node (h := h) hnode
      have hlt : ptrIx v < h.heap.length := by
        have : ptrIx v < h.heapSize := hr.ready.domain.inRange v hPv hv
        omega
      have hcons : ptrIx v ∈ cdrs → typeOf v = ptrTypeCons := fun hc =>
        hr.typeOf_eq hPv hv (Or.inr hc)
      rw [hwa.typeOf_eq] at hleaf
      simp only [Option.getD_some] at hleaf
      have hheap : isHeapPtr v = true := by
        simp [isHeapPtr, hv, hr.ready.domain.noIndirection v hPv hv]
      -- Each field of the cell is an item, a hole if it is one and the word itself if not.
      have hkids : (holeGraph cars cdrs h).kids (some v)
          = [if ptrIx v ∈ cars then none else some (car h v),
            if ptrIx v ∈ cdrs then none else some (cdr h v)] := by
        simp [holeGraph, hheap, hleaf]
      have hfields : ∀ x ∈ [car (h.fill cars cdrs (encI k)) v, cdr (h.fill cars cdrs (encI k)) v],
          ReachableWord (h.fill cars cdrs (encI k)) (rootWords calls) x := by
        intro x hx
        apply hPv.field
        simpa [traceFields, hheap, hleaf] using hx
      rw [car_fill hv hlt, cdr_fill hv hlt hcons] at hfields
      obtain ⟨hcar, hcdr⟩ := sameRef_fields (h := h.fill cars cdrs u) (M := M) hwa hv
        (by simpa using hlt)
      simp only [Option.getD_some] at hcar hcdr
      rw [car_fill hv hlt] at hcar
      rw [cdr_fill hv hlt hcons] at hcdr
      refine ⟨_, _, hkids, ⟨?_, ?_⟩, ?_, ?_⟩
      · intro x hx
        split at hx
        · cases hx
        · next hnot =>
          obtain rfl := Option.some.inj hx
          exact hfields _ (by simp [hnot])
      · split
        · next hc => simpa [hc] using hcar
        · next hc => simpa [hc] using hcar
      · intro x hx
        split at hx
        · cases hx
        · next hnot =>
          obtain rfl := Option.some.inj hx
          exact hfields _ (by simp [hnot])
      · split
        · next hc => simpa [hc] using hcdr
        · next hc => simpa [hc] using hcdr

/-- The cells visited by the marking of a heap with holes. -/
def holeVisits (h : HeapState) (calls : List MarkCall) (l : List Nat) (cars cdrs : Finset Nat) :
    Option (List Bool × Finset Nat) :=
  (holeGraph cars cdrs h).traceAll markStackSize (markFuel h)
    ((calls.flatMap (MarkCall.traced h.heapSize)).map some) l.toFinset

theorem HolesReady.freeChain (hr : HolesReady h calls l cars cdrs k) (u : VALUE) :
    FreeChain (h.fill cars cdrs u) h.freelist l := by
  have hfits := hr.fits
  refine hr.ready.freeChain.congr rfl fun i hi => ?_
  obtain ⟨hcar, hcdr⟩ := hr.not_free hi
  have hlt : i < h.heap.length := by
    have : i < h.heapSize := hr.ready.freeChain.lt i hi
    omega
  rw [cell_fill_of_not_mem hlt hcar hcdr, cell_fill_of_not_mem hlt hcar hcdr]

/-- **A collection of a heap whose holes hold `u`**: the visited cells do not depend on `u`. -/
theorem HolesReady.collect_eq (hr : HolesReady h calls l cars cdrs k)
    (hu : valGetGcMark u = false)
    (hshield : isPtr u = true → Shielded h calls l cars cdrs (ptrIx u)) :
    collect calls (h.fill cars cdrs u) = (holeVisits h calls l cars cdrs).bind
      fun r => (gcSweepPhase (markCells (gcStateInc (h.fill cars cdrs u)) r.2)).map (r.1, ·) := by
  have hfits := hr.ready.fits
  rw [fill_heap_length] at hfits
  have hfit : (gcStateInc (h.fill cars cdrs u)).heapSize
      ≤ (gcStateInc (h.fill cars cdrs u)).heap.length := by
    show h.heapSize ≤ (h.fill cars cdrs u).heap.length
    rw [fill_heap_length]
    exact hfits
  have hread : Reads (gcStateInc (h.fill cars cdrs u)) (holeGraph cars cdrs h) _ _ _ :=
    ⟨(hr.reads u).skip, (hr.reads u).node, (hr.reads u).leaf, (hr.reads u).fields⟩
  have hun : ∀ i, i < h.heapSize → valGetGcMark ((h.fill cars cdrs u).cell i).cdr = false :=
    fun i hi => unmarked_fill hr.fits hr.ready.unmarked hu hi
  have hfuel : markFuel (gcStateInc (h.fill cars cdrs u)) = markFuel h := by
    show 2 * (h.fill cars cdrs u).heap.length + 2 = 2 * h.heap.length + 2
    rw [fill_heap_length]
  -- The marking is the trace of the graph with holes, which does not mention `u`.
  have hmark := markAll_eq_traceAll (f := some) hread hfit hun calls l.toFinset
    (fun w hw => ⟨Or.inl rfl, fun v hv => Option.some.inj hv ▸
      hr.ready.reachableWord_of_mem (traced_subset _ hw)⟩)
    (by
      rw [hfuel]
      exact fun p hp hnone hptr => hshield hptr p hp hnone)
  rw [hfuel] at hmark
  have hchain : FreeChain (gcStateInc (h.fill cars cdrs u)) h.freelist l :=
    (hr.freeChain u).congr rfl (fun _ _ => rfl)
  rw [collect, marks, gcMarkFreelist_eq hfit hr.ready.addressable hchain hr.ready.nodup]
  have hvisits : markAll calls (markCells (gcStateInc (h.fill cars cdrs u)) l.toFinset)
      = (holeVisits h calls l cars cdrs).map
          (markResults (gcStateInc (h.fill cars cdrs u))) := hmark
  simp only [hvisits]
  cases holeVisits h calls l cars cdrs <;> rfl

/-- What the sweep relies on, in a heap whose holes hold `u`. -/
theorem HolesReady.sweepable (hr : HolesReady h calls l cars cdrs k) (u : VALUE) :
    h.heapSize ≤ (h.fill cars cdrs u).heap.length
      ∧ FreeChain (gcStateInc (h.fill cars cdrs u)) h.freelist l := by
  rw [fill_heap_length]
  exact ⟨hr.fits, (hr.freeChain u).congr rfl (fun _ _ => rfl)⟩

/-- The swept heap, cell by cell. -/
theorem HolesReady.swept (hr : HolesReady h calls l cars cdrs k) (hu : valGetGcMark u = false)
    {M : Finset Nat} (hM : l.toFinset ⊆ M) {g : HeapState}
    (hg : gcSweepPhase (markCells (gcStateInc (h.fill cars cdrs u)) M) = some g) :
    FreeChain g g.freelist (newlyFree M h.heapSize ++ l)
      ∧ ∀ i, i < h.heapSize → g.cell i
          = if i ∈ M then (h.fill cars cdrs u).cell i else ⟨RECOVERED, freeHead h M i⟩ := by
  obtain ⟨hfit, hchain⟩ := hr.sweepable u
  have hun : ∀ i, i < h.heapSize → valGetGcMark ((h.fill cars cdrs u).cell i).cdr = false :=
    fun i hi => unmarked_fill hr.fits hr.ready.unmarked hu hi
  have hswept := sweptTo_gcSweepPhase (h := gcStateInc (h.fill cars cdrs u)) hfit hun
    hchain.unmarked_head hg
  refine ⟨freeChain_sweep (h := gcStateInc (h.fill cars cdrs u)) hchain
    (fun i hi => hM (List.mem_toFinset.mpr hi)) hswept, ?_⟩
  intro i hi
  have hhead : ∀ j, freeHead (gcStateInc (h.fill cars cdrs u)) M j = freeHead h M j := by
    intro j
    induction j with
    | zero => rfl
    | succ j ih => rw [freeHead, freeHead, ih]
  have hcell := hswept.done i hi
  rw [sweptCell, hhead] at hcell
  exact hcell

/-- A cell with `u` in its holes passes for an array only if it has none. -/
theorem HolesReady.arrayInside_iff (hr : HolesReady h calls l cars cdrs k)
    (hu : ∀ x, isSweptArray ⟨x, u⟩ = false) {i : Nat} (hi : i < h.heapSize) :
    ArrayInside h ((h.fill cars cdrs u).cell i)
      ↔ i ∈ cars ∨ i ∈ cdrs ∨ ArrayInside h (h.cell i) := by
  have hlt : i < h.heap.length := hi.trans_le hr.fits
  rw [cell_fill hlt]
  by_cases hcdr : i ∈ cdrs
  · simp [ArrayInside, hcdr, hu]
  by_cases hcar : i ∈ cars
  · have hpair := hr.pairs i hcar
    rw [cell_fill hlt, if_neg hcdr] at hpair
    have hty : ∀ x, isSweptArray ⟨x, (h.cell i).cdr⟩ = false := fun _ => hpair
    simp [ArrayInside, hcdr, hcar, hty]
  · simp [hcdr, hcar]

/-- The sweep comes to its end for one word in the holes if it does for the other. -/
theorem HolesReady.sweep_isSome (hr : HolesReady h calls l cars cdrs k) {v : VALUE}
    (hu : valGetGcMark u = false) (hu' : ∀ x, isSweptArray ⟨x, u⟩ = false)
    (hv : valGetGcMark v = false) (hv' : ∀ x, isSweptArray ⟨x, v⟩ = false) {M : Finset Nat}
    (hsome : (gcSweepPhase (markCells (gcStateInc (h.fill cars cdrs v)) M)).isSome) :
    (gcSweepPhase (markCells (gcStateInc (h.fill cars cdrs u)) M)).isSome := by
  have hiff : ∀ {w : VALUE}, valGetGcMark w = false → (∀ x, isSweptArray ⟨x, w⟩ = false) →
      ((gcSweepPhase (markCells (gcStateInc (h.fill cars cdrs w)) M)).isSome
        ↔ ∀ i, i < h.heapSize → i ∉ M → i ∈ cars ∨ i ∈ cdrs ∨ ArrayInside h (h.cell i)) := by
    intro w hw hw'
    obtain ⟨hfit, hchain⟩ := hr.sweepable w
    rw [gcSweepPhase_isSome_iff (h := gcStateInc (h.fill cars cdrs w)) hfit
      (fun i hi => unmarked_fill hr.fits hr.ready.unmarked hw hi) hchain.unmarked_head]
    exact forall₂_congr fun i hi => imp_congr_right fun _ => hr.arrayInside_iff hw' hi
  exact (hiff hu hu').mpr ((hiff hv hv').mp hsome)

end Ready

/-! ## Indirections -/

theorem valGetGcMark_encI (k : UINT) : valGetGcMark (encI k) = false := by
  have h : (k <<< 4 ||| valTypeI) &&& gcMask = 0#32 := by
    ext i hi
    interval_cases i <;> simp [valTypeI, gcMask]
  simp only [valGetGcMark, encI, h]
  decide

theorem valGetGcMark_encSymbolIndirection (n : UINT) :
    valGetGcMark (encSymbolIndirection n) = false := by
  have h : (n <<< 3 ||| ptrTypeSymbolIndirection ||| ptrMask) &&& gcMask = 0#32 := by
    ext i hi
    interval_cases i <;> simp [ptrMask, ptrTypeSymbolIndirection, gcMask]
  simp only [valGetGcMark, encSymbolIndirection, h]
  decide

/-- The cell an indirection is taken for. -/
theorem ptrIx_encSymbolIndirection (n : UINT) :
    ptrIx (encSymbolIndirection n) = n.toNat % 2 ^ 23 := by
  have h : decPtr (encSymbolIndirection n) = (n.setWidth 23).setWidth 32 := by
    ext i hi
    simp only [decPtr, encSymbolIndirection, ptrValMask, ptrTypeSymbolIndirection, ptrMask]
    interval_cases i <;> simp
  rw [ptrIx, h]
  simp only [BitVec.toNat_setWidth]
  omega

/-- An integer is not the symbol of arrays … -/
theorem isSweptArray_encI (x : VALUE) (k : UINT) : isSweptArray ⟨x, encI k⟩ = false := by
  have hty : typeOf (encI k) = valTypeI := typeOf_shift k (by decide)
  simp [isSweptArray, hty, show (valTypeI == valTypeSymbol) = false from by decide]

/-- … and neither is an indirection. -/
theorem isSweptArray_encSymbolIndirection (x : VALUE) (n : UINT) :
    isSweptArray ⟨x, encSymbolIndirection n⟩ = false := by
  have hptr : isPtr (encSymbolIndirection n) = true := by
    have h : (n <<< 3 ||| ptrTypeSymbolIndirection ||| ptrMask) &&& ptrMask = ptrMask := by
      ext i hi
      interval_cases i <;> simp [ptrMask, ptrTypeSymbolIndirection]
    simp only [isPtr, encSymbolIndirection, h]
    decide
  have hbit : (typeOf (encSymbolIndirection n)).getLsbD 28 = true := by
    rw [typeOf, if_pos hptr]
    simp [encSymbolIndirection, ptrTypeSymbolIndirection, ptrMask, ptrTypeMask]
  have hne : typeOf (encSymbolIndirection n) ≠ valTypeSymbol := by
    intro heq
    rw [heq] at hbit
    exact absurd hbit (by decide)
  simp [isSweptArray, hne]

/-- **Shielded indirections are opaque.** If the cell with the number `n` is marked whenever the
marker comes to one of the fields that hold the symbol indirection `n`, a collection does the
same as with an integer in these fields. -/
theorem sameCollection_of_shielded {h : HeapState} {calls : List MarkCall} {l : List Nat}
    {cars cdrs : Finset Nat} {n k : UINT} (hr : HolesReady h calls l cars cdrs k)
    (hshield : Shielded h calls l cars cdrs (n.toNat % 2 ^ 23)) :
    SameCollection calls (h.fill cars cdrs (encSymbolIndirection n))
      (h.fill cars cdrs (encI k)) := by
  have hind := valGetGcMark_encSymbolIndirection n
  have hint := valGetGcMark_encI k
  have heq := hr.collect_eq hind fun _ => by rw [ptrIx_encSymbolIndirection]; exact hshield
  have heq' := hr.collect_eq hint fun hp => by
    rw [encI, isPtr_shift k (by decide)] at hp
    exact absurd hp (by decide)
  -- the collection comes to an end, because it does with integers in the holes
  obtain ⟨⟨oks', g'⟩, hcollect⟩ := Option.isSome_iff_exists.mp hr.ready.collect_isSome
  rw [hcollect] at heq'
  obtain ⟨⟨oks, M⟩, hv, hswept⟩ := Option.bind_eq_some_iff.mp heq'.symm
  obtain ⟨g', hg', hres⟩ := Option.map_eq_some_iff.mp hswept
  obtain ⟨rfl, rfl⟩ := Prod.mk.inj hres
  obtain ⟨g, hg⟩ := Option.isSome_iff_exists.mp
    (hr.sweep_isSome hind (isSweptArray_encSymbolIndirection · n) hint (isSweptArray_encI · k)
      (by rw [hg']; rfl))
  rw [hv, Option.bind_some, hg, Option.map_some] at heq
  have hM : l.toFinset ⊆ M := WorkGraph.subset_of_traceAll hv
  obtain ⟨hchain, hcells⟩ := hr.swept hind hM hg
  obtain ⟨hchain', hcells'⟩ := hr.swept hint hM hg'
  refine ⟨oks, _, _, _, heq, hcollect, hchain, hchain', ?_, ?_⟩
  · intro i hi
    have hlt : i < h.heapSize := by
      rcases List.mem_append.mp hi with hnew | hold
      · exact (mem_newlyFree.mp hnew).1
      · exact hr.ready.freeChain.lt i hold
    rw [hcells i hlt, hcells' i hlt]
    by_cases hiM : i ∈ M
    · have hold : i ∈ l := by
        rcases List.mem_append.mp hi with hnew | hold
        · exact absurd hiM (mem_newlyFree.mp hnew).2
        · exact hold
      obtain ⟨hcar, hcdr⟩ := hr.not_free hold
      have hlen := hr.fits
      rw [cell_fill_of_not_mem (by omega) hcar hcdr, cell_fill_of_not_mem (by omega) hcar hcdr]
    · rw [if_neg hiM, if_neg hiM]
  · intro i hlt hi
    have hiM : i ∈ M := by
      by_contra hiM
      exact hi (List.mem_append_left _ (mem_newlyFree.mpr ⟨hlt, hiM⟩))
    have hlt : i < h.heapSize := hlt
    rw [hcells i hlt, hcells' i hlt, if_pos hiM, if_pos hiM]
    exact ⟨rfl, rfl⟩

/-- A list of three elements, the first of which is a hole. -/
def threeList : HeapState :=
  freshHeap [⟨NIL, cellPtr 1⟩, ⟨encI 1#32, cellPtr 2⟩, ⟨encI 2#32, NIL⟩] NIL 3#32

def threeListCalls : List MarkCall := [.phase (cellPtr 0)]

theorem holesReady_threeList : HolesReady threeList threeListCalls [] {0} ∅ 0#32 where
  ready := @gcReady_of_fullOfLists _ _
    [cellPtr 0, cellPtr 1, cellPtr 2, NIL, encI 0#32, encI 1#32, encI 2#32] (by decide +kernel)
  cons := by
    intro i hi
    obtain rfl : i = 0 := by simpa using hi
    exact ⟨cellPtr 0, ⟨cellPtr 0, by simp [rootWords, threeListCalls, MarkCall.words], .refl⟩,
      typeOf_cellPtr (by decide), ptrIx_cellPtr (by decide)⟩
  pairs := by decide +kernel

/-- The number of the cell that holds the indirection does no harm. -/
theorem sameCollection_of_shielded_threeList :
    SameCollection threeListCalls (threeList.fill {0} ∅ (encSymbolIndirection 0#32))
      (threeList.fill {0} ∅ (encI 0#32)) := by
  apply sameCollection_of_shielded holesReady_threeList
  have h : ((holeGraph {0} ∅ threeList).popsAll markStackSize (markFuel threeList)
      ((threeListCalls.flatMap (MarkCall.traced threeList.heapSize)).map some) (∅ : Finset Nat)).all
        (fun p => !p.1.isNone || decide (0 < threeList.heapSize ∧ 0 ∈ p.2)) = true := by
    decide +kernel
  intro p hp hnone
  have := List.all_eq_true.mp h p hp
  simpa [hnone] using this

/-- **An indirection can free a live cell.** The marker comes to the indirection 1 before it
comes to cell 1 through the list: cell 1 is marked without its cdr, and the last cell of the
list is recycled. -/
theorem not_sameCollection_threeList :
    HolesReady threeList threeListCalls [] {0} ∅ 0#32
      ∧ ¬SameCollection threeListCalls (threeList.fill {0} ∅ (encSymbolIndirection 1#32))
          (threeList.fill {0} ∅ (encI 0#32)) := by
  refine ⟨holesReady_threeList, ?_⟩
  rintro ⟨oks, g, g', l, hcollect, hcollect', hchain, hchain', -⟩
  have hfree : (collect threeListCalls (threeList.fill {0} ∅ (encSymbolIndirection 1#32))).map
      (fun r => r.2.freelist) = some (cellPtr 2) := by decide +kernel
  have hfree' : (collect threeListCalls (threeList.fill {0} ∅ (encI 0#32))).map
      (fun r => r.2.freelist) = some NIL := by decide +kernel
  rw [hcollect, Option.map_some, Option.some.injEq] at hfree
  rw [hcollect', Option.map_some, Option.some.injEq] at hfree'
  rw [hfree] at hchain
  rw [hfree'] at hchain'
  have hnil : l = [] := by
    generalize hv : NIL = v at hchain'
    cases hchain' with
    | nil => rfl
    | cons _ _ =>
      have := congrArg isPtr hv
      rw [isPtr_cellPtr] at this
      exact absurd this (by decide)
  subst hnil
  generalize hv : cellPtr 2 = v at hchain
  cases hchain with
  | nil => exact absurd (congrArg isPtr hv) (by decide)

end LispBM
