import LispBM.Heap.Gc
import LispBM.Lib.GraphTrace

/-!
# LispBM — the mark phase is a bounded depth-first traversal

`gc_mark_phase` keeps its visited set in the mark bits of the very words it traverses. Here
that is taken apart: `markCells h M` is the heap `h` with the cells of `M` marked, and every
marking function applied to `markCells h M` is the abstract traversal of the object graph of
the *unmarked* heap `h` applied to the set `M` (`gcMarkLoop_eq_trace`, `markAll_eq_traceAll`).
The words on the mark stack may carry a mark bit of their own, since the cdr of a cell is
pushed after the cell was marked; `SameRef` absorbs it.
-/

namespace LispBM

open GraphTrace

/-! ## The object graph -/

/-- A word that refers to a heap cell: a pointer other than a symbol indirection. -/
def isHeapPtr (v : VALUE) : Bool := isPtr v && ptrType v != ptrTypeSymbolIndirection

/-- The fields of the cell behind a word that can hold further references: both fields of a
cons cell, none of a boxed number or an array. For the reserved pointer types `car` reads the
cell and `cdr` gives a type error, as for a program. -/
def traceFields (h : HeapState) (v : VALUE) : List VALUE :=
  if isHeapPtr v && !isLeafType (typeOf v) then [car h v, cdr h v] else []

/-- The object graph of a heap: the vertices are cell indices, the items are words. -/
def objGraph (h : HeapState) : WorkGraph VALUE Nat where
  node v := if isHeapPtr v then some (ptrIx v) else none
  kids := traceFields h
  kids_eq_nil := by
    intro v hv
    cases hp : isHeapPtr v with
    | true => simp [hp] at hv
    | false => simp [traceFields, hp]

theorem objGraph_kids_length (h : HeapState) (v : VALUE) : ((objGraph h).kids v).length ≤ 2 := by
  show (traceFields h v).length ≤ 2
  unfold traceFields
  split <;> simp

/-- A set of words, closed under following references, in which every pointer is in range and
is not a symbol indirection, and every cell is referenced through one pointer type. -/
structure MarkDomain (h : HeapState) (P : VALUE → Prop) : Prop where
  fields : ∀ v, P v → ∀ w ∈ traceFields h v, P w
  inRange : ∀ v, P v → isPtr v = true → ptrIx v < h.heapSize
  noIndirection : ∀ v, P v → isPtr v = true → ptrType v ≠ ptrTypeSymbolIndirection
  oneType : ∀ v w, P v → P w → isPtr v = true → isPtr w = true → ptrIx v = ptrIx w →
    ptrType v = ptrType w

/-! ## What `car`, `cdr` and the traversal read from a pointer -/

theorem ne_nil_of_isPtr {v : VALUE} (hv : isPtr v = true) : v ≠ NIL := by
  rintro rfl
  exact absurd hv (by decide)

theorem car_of_isPtr {h : HeapState} {v : VALUE} (hv : isPtr v = true) :
    car h v = (h.cell (ptrIx v)).car := by
  simp [car, hv, ne_nil_of_isPtr hv, refCell]

theorem cdr_of_isPtr {h : HeapState} {v : VALUE} (hv : isPtr v = true) :
    cdr h v = if typeOf v = ptrTypeCons then (h.cell (ptrIx v)).cdr else encSym symreprTerror := by
  simp [cdr, ne_nil_of_isPtr hv, refCell]

/-- Pointers of one type to one cell have the same fields. -/
theorem traceFields_congr {h : HeapState} {v w : VALUE} (hv : isPtr v = true)
    (hw : isPtr w = true) (hix : ptrIx v = ptrIx w) (hty : ptrType v = ptrType w) :
    traceFields h v = traceFields h w := by
  have ht : typeOf v = typeOf w := by rw [typeOf_of_isPtr hv, typeOf_of_isPtr hw, hty]
  have hh : isHeapPtr v = isHeapPtr w := by simp [isHeapPtr, hv, hw, hty]
  simp only [traceFields, hh, ht, car_of_isPtr hv, car_of_isPtr hw, cdr_of_isPtr hv,
    cdr_of_isPtr hw, hix]

theorem MarkDomain.node_of_isPtr {h : HeapState} {P : VALUE → Prop} (hd : MarkDomain h P)
    {v : VALUE} (hP : P v) (hv : isPtr v = true) : (objGraph h).node v = some (ptrIx v) := by
  simp [objGraph, isHeapPtr, hv, hd.noIndirection v hP hv]

theorem node_of_not_isPtr {h : HeapState} {v : VALUE} (hv : isPtr v = false) :
    (objGraph h).node v = none := by
  simp [objGraph, isHeapPtr, hv]

theorem isPtr_of_node {h : HeapState} {v : VALUE} {k : Nat} (hk : (objGraph h).node v = some k) :
    isPtr v = true ∧ ptrIx v = k := by
  cases hp : isHeapPtr v with
  | false => simp [objGraph, hp] at hk
  | true =>
    simp only [objGraph, hp, if_true, Option.some.injEq] at hk
    simp only [isHeapPtr, Bool.and_eq_true] at hp
    exact ⟨hp.1, hk⟩

theorem MarkDomain.domain {h : HeapState} {P : VALUE → Prop} (hd : MarkDomain h P) :
    (objGraph h).Domain P where
  kids := hd.fields
  consistent := by
    intro v w k hv hw hvk hwk
    obtain ⟨hpv, hiv⟩ := isPtr_of_node hvk
    obtain ⟨hpw, hiw⟩ := isPtr_of_node hwk
    have hix := hiv.trans hiw.symm
    exact traceFields_congr hpv hpw hix (hd.oneType v w hv hw hpv hpw hix)

/-! ## Heaps with a set of marked cells -/

/-- The heap `h` with the cells of `M` marked, and counted in `gc_marked`. -/
def markCells (h : HeapState) (M : Finset Nat) : HeapState :=
  { h with
    heap := h.heap.mapIdx (fun i c => if i ∈ M then { c with cdr := valSetGcMark c.cdr } else c)
    gcMarked := h.gcMarked + BitVec.ofNat 32 M.card }

@[simp] theorem markCells_heap_length (h : HeapState) (M : Finset Nat) :
    (markCells h M).heap.length = h.heap.length := by
  simp [markCells]

theorem markCells_empty (h : HeapState) : markCells h ∅ = h := by
  have : h.heap.mapIdx (fun _ c => c) = h.heap := by
    apply List.ext_getElem <;> simp
  simp [markCells, this]

theorem cell_markCells {h : HeapState} {i : Nat} (hi : i < h.heap.length) (M : Finset Nat) :
    (markCells h M).cell i
      = if i ∈ M then { h.cell i with cdr := valSetGcMark (h.cell i).cdr } else h.cell i := by
  simp only [HeapState.cell, markCells, List.getD_eq_getElem?_getD, List.getElem?_mapIdx,
    List.getElem?_eq_getElem hi, Option.map_some, Option.getD_some]

/-- Marking one more cell. -/
theorem setGcMark_markCells {h : HeapState} {M : Finset Nat} {v : VALUE}
    (hlt : ptrIx v < h.heap.length) (hnew : ptrIx v ∉ M) :
    setGcMark { markCells h M with gcMarked := (markCells h M).gcMarked + 1#32 } v
      = markCells h (insert (ptrIx v) M) := by
  have hcell : ({ markCells h M with gcMarked := (markCells h M).gcMarked + 1#32 } :
      HeapState).cell (ptrIx v) = h.cell (ptrIx v) := by
    have := cell_markCells hlt M
    rw [if_neg hnew] at this
    exact this
  have hcount : h.gcMarked + BitVec.ofNat 32 M.card + 1#32
      = h.gcMarked + BitVec.ofNat 32 (insert (ptrIx v) M).card := by
    rw [Finset.card_insert_of_notMem hnew, BitVec.add_assoc]
    congr 1
    rw [← BitVec.ofNat_add]
  have hheap : (h.heap.mapIdx
        (fun i c => if i ∈ M then { c with cdr := valSetGcMark c.cdr } else c)).set (ptrIx v)
          { h.cell (ptrIx v) with cdr := valSetGcMark (h.cell (ptrIx v)).cdr }
      = h.heap.mapIdx (fun i c =>
          if i ∈ insert (ptrIx v) M then { c with cdr := valSetGcMark c.cdr } else c) := by
    apply List.ext_getElem
    · simp
    · intro i h1 h2
      simp only [List.length_mapIdx] at h2
      rw [List.getElem_set]
      -- The cell itself was not marked before, the others are marked if they were.
      by_cases hi : ptrIx v = i
      · subst hi
        simp [HeapState.cell, List.getD_eq_getElem?_getD, List.getElem?_eq_getElem h2]
      · simp [hi, Ne.symm hi]
  simp only [setGcMark, setCdrRaw, refCell, hcell, HeapState.setCell]
  simp only [markCells, hcount, hheap]

theorem getGcMark_markCells {h : HeapState} {M : Finset Nat} {v : VALUE}
    (hlt : ptrIx v < h.heap.length) (hun : valGetGcMark (h.cell (ptrIx v)).cdr = false) :
    getGcMark (markCells h M) v = decide (ptrIx v ∈ M) := by
  rw [getGcMark, refCell, cell_markCells hlt]
  by_cases hM : ptrIx v ∈ M <;> simp [hM, hun]

/-- The same reference, up to the mark bit of the word. -/
def SameRef (w v : VALUE) : Prop := w = v ∨ w = valSetGcMark v

theorem SameRef.isPtr_eq {w v : VALUE} (h : SameRef w v) : isPtr w = isPtr v := by
  rcases h with rfl | rfl <;> simp

theorem SameRef.ptrIx_eq {w v : VALUE} (h : SameRef w v) : ptrIx w = ptrIx v := by
  rcases h with rfl | rfl <;> simp

theorem SameRef.typeOf_eq {w v : VALUE} (h : SameRef w v) : typeOf w = typeOf v := by
  rcases h with rfl | rfl <;> simp

/-- The fields the code pushes, read from the marked heap through a word of the mark stack,
are the fields in the unmarked heap, up to mark bits. -/
theorem sameRef_fields {h : HeapState} {M : Finset Nat} {w v : VALUE} (hwv : SameRef w v)
    (hv : isPtr v = true) (hlt : ptrIx v < h.heap.length) :
    SameRef (car (markCells h M) w) (car h v) ∧ SameRef (cdr (markCells h M) w) (cdr h v) := by
  have hw : isPtr w = true := hwv.isPtr_eq.trans hv
  rw [car_of_isPtr hw, car_of_isPtr hv, cdr_of_isPtr hw, cdr_of_isPtr hv, hwv.ptrIx_eq,
    hwv.typeOf_eq, cell_markCells hlt]
  by_cases hM : ptrIx v ∈ M
  · simp only [hM, if_true]
    refine ⟨Or.inl rfl, ?_⟩
    by_cases ht : typeOf v = ptrTypeCons
    · simp only [ht, if_true]
      exact Or.inr rfl
    · simp only [ht, if_false]
      exact Or.inl rfl
  · simp only [hM, if_false]
    exact ⟨Or.inl rfl, Or.inl rfl⟩

/-! ## `gc_mark_phase` -/

section Marking

variable {h : HeapState}

/-- The visited set an abstract traversal ends with, as a heap. -/
def markResult (h : HeapState) (r : Bool × Finset Nat) : Bool × HeapState := (r.1, markCells h r.2)

theorem pushMark_of_lt {s : List VALUE} (hs : s.length < markStackSize) (v : VALUE) :
    pushMark s v = (true, v :: s) := by
  rw [pushMark, if_neg (by omega)]

theorem pushMark_of_eq {s : List VALUE} (hs : s.length = markStackSize) (v : VALUE) :
    pushMark s v = (false, s) := by
  rw [pushMark, if_pos hs]

/-- The words of the mark stack as items of a graph: `R w a` says that the word `w` is read as
the item `a`. A pointer may be read as an item that refers to no vertex, provided that its cell
is visited whenever the traversal comes to it, which is what `Q` says. -/
structure Reads {ι : Type} (h : HeapState) (g : WorkGraph ι Nat) (R : VALUE → ι → Prop)
    (P : ι → Prop) (Q : ι → Finset Nat → Prop) : Prop where
  skip : ∀ w a M, R w a → P a → g.node a = none → Q a M → isPtr w = true →
    ptrIx w < h.heapSize ∧ ptrIx w ∈ M
  node : ∀ w a k, R w a → P a → g.node a = some k →
    isPtr w = true ∧ ptrIx w = k ∧ k < h.heapSize
  leaf : ∀ w a k, R w a → P a → g.node a = some k → isLeafType (typeOf w) = true → g.kids a = []
  fields : ∀ w a k M, R w a → P a → g.node a = some k → isLeafType (typeOf w) = false →
    ∃ b c, g.kids a = [b, c] ∧ (P b ∧ R (car (markCells h M) w) b)
      ∧ P c ∧ R (cdr (markCells h M) w) c

section Reads

variable {ι : Type} {g : WorkGraph ι Nat} {R : VALUE → ι → Prop} {P : ι → Prop}
  {Q : ι → Finset Nat → Prop}

/-- **The mark loop is a traversal of the unmarked heap.** Induction on the fuel; the words on
the stack are read as the items, and the heap is `markCells h` of the visited set throughout. -/
theorem gcMarkLoop_eq_trace (hread : Reads h g R P Q) (hfit : h.heapSize ≤ h.heap.length)
    (hun : ∀ i, i < h.heapSize → valGetGcMark (h.cell i).cdr = false) :
    ∀ (n : Nat) (s : List VALUE) (as : List ι) (M : Finset Nat), List.Forall₂ R s as →
      (∀ a ∈ as, P a) → s.length ≤ markStackSize →
      (∀ p ∈ g.pops markStackSize n as M, Q p.1 p.2) →
      gcMarkLoop n s (markCells h M)
        = (g.trace markStackSize n as M).map (markResult h) := by
  intro n
  induction n with
  | zero => intro s as M _ _ _ _; rfl
  | succ n ih =>
    intro s as M hsame hP hlen hQ
    cases hsame with
    | nil => rfl
    | @cons w a s as hwa hrest =>
      have hP' : ∀ b ∈ as, P b := fun b hb => hP b (List.mem_cons_of_mem _ hb)
      have hPa : P a := hP a (by simp)
      simp only [List.length_cons] at hlen
      have hslen := hrest.length_eq
      rw [WorkGraph.pops, List.forall_mem_cons] at hQ
      obtain ⟨hQa, hQ'⟩ := hQ
      rw [gcMarkLoop, WorkGraph.trace]
      cases hnode : g.node a with
      | none =>
        simp only [hnode] at hQ'
        have hnext := ih s as M hrest hP' (by omega) hQ'
        cases hw : isPtr w with
        | false =>
          simp only [Bool.not_false, if_true]
          exact hnext
        | true =>
          -- a pointer that refers to no vertex: its cell is marked
          obtain ⟨hlt, hM⟩ := hread.skip w a M hwa hPa hnode hQa hw
          have hmark : getGcMark (markCells h M) w = true := by
            rw [getGcMark_markCells (by omega) (hun _ hlt)]
            exact decide_eq_true hM
          simp only [hmark, Bool.not_true, Bool.false_eq_true, if_false, if_true]
          exact hnext
      | some k =>
        obtain ⟨hw, hix, hk⟩ := hread.node w a k hwa hPa hnode
        have hlt : ptrIx w < h.heap.length := by omega
        have hwun : valGetGcMark (h.cell (ptrIx w)).cdr = false := hun _ (by omega)
        simp only [hnode] at hQ'
        simp only [hw, Bool.not_true, Bool.false_eq_true, if_false,
          getGcMark_markCells hlt hwun, decide_eq_true_eq, hix]
        by_cases hM : k ∈ M
        · rw [if_pos hM] at hQ'
          simp only [hM, if_true]
          exact ih s as M hrest hP' (by omega) hQ'
        · rw [if_neg hM] at hQ'
          have hmark := setGcMark_markCells hlt (by rw [hix]; exact hM)
          rw [hix] at hmark
          simp only [hM, if_false, hmark]
          cases hleaf : isLeafType (typeOf w) with
          | true =>
            -- boxed number or array: nothing is pushed
            have hkids := hread.leaf w a k hwa hPa hnode hleaf
            rw [hkids, List.length_nil, if_pos (by omega)] at hQ'
            simp only [hkids, if_true, List.length_nil]
            rw [if_pos (by omega)]
            exact ih s as _ hrest hP' (by omega) hQ'
          | false =>
            obtain ⟨b, c, hkids, ⟨hPb, hcar⟩, hPc, hcdr⟩ :=
              hread.fields w a k (insert k M) hwa hPa hnode hleaf
            rw [hkids] at hQ' ⊢
            -- the first push always fits: the popped word made room for it
            simp only [Bool.false_eq_true, if_false,
              pushMark_of_lt (show s.length < markStackSize by omega)]
            simp only [List.length_cons, List.length_nil] at hQ' ⊢
            by_cases hroom : s.length + 1 = markStackSize
            · rw [pushMark_of_eq (by simpa using hroom),
                if_neg (show ¬(0 + 1 + 1 + as.length ≤ markStackSize) by omega)]
              rfl
            · have hfits : 0 + 1 + 1 + as.length ≤ markStackSize := by omega
              rw [if_pos hfits] at hQ'
              rw [pushMark_of_lt (by simp only [List.length_cons]; omega), if_pos hfits]
              simp only [Bool.and_self, if_true]
              refine ih _ _ _ (.cons hcar (.cons hcdr hrest)) ?_ (by simp; omega) hQ'
              intro x hx
              simp only [List.cons_append, List.nil_append, List.mem_cons] at hx
              rcases hx with rfl | rfl | hx
              · exact hPb
              · exact hPc
              · exact hP' x hx

theorem gcMarkPhase_eq_trace (hread : Reads h g R P Q) (hfit : h.heapSize ≤ h.heap.length)
    (hun : ∀ i, i < h.heapSize → valGetGcMark (h.cell i).cdr = false) {v : VALUE} {a : ι}
    (hR : R v a) (hP : P a) (M : Finset Nat)
    (hQ : ∀ p ∈ g.pops markStackSize (markFuel h) [a] M, Q p.1 p.2) :
    gcMarkPhase v (markCells h M)
      = (g.trace markStackSize (markFuel h) [a] M).map (markResult h) := by
  have hfuel : markFuel (markCells h M) = markFuel h := by simp [markFuel]
  cases hv : isPtr v with
  | false =>
    have hnode : g.node a = none := by
      cases hnode : g.node a with
      | none => rfl
      | some k =>
        have hptr := (hread.node v a k hR hP hnode).1
        rw [hv] at hptr
        exact absurd hptr (by decide)
    simp [gcMarkPhase, markFuel, WorkGraph.trace, hnode, hv, markResult]
  | true =>
    rw [gcMarkPhase, hfuel]
    simp only [hv, Bool.not_true, Bool.false_eq_true, if_false]
    exact gcMarkLoop_eq_trace hread hfit hun _ _ _ _ (.cons hR .nil) (by simpa using hP)
      (by simp [markStackSize]) hQ

end Reads

/-- The words a marking call traverses from: `gc_mark_aux` filters. -/
def MarkCall.traced (heapSize : Nat) : MarkCall → List VALUE
  | .phase v => [v]
  | .aux ws => ws.filter (isAuxRoot heapSize)

/-- The results of a sequence of traversals, as a heap. -/
def markResults (h : HeapState) (r : List Bool × Finset Nat) : List Bool × HeapState :=
  (r.1, markCells h r.2)

section Calls

variable {ι : Type} {g : WorkGraph ι Nat} {R : VALUE → ι → Prop} {P : ι → Prop}
  {Q : ι → Finset Nat → Prop} {f : VALUE → ι}

theorem gcMarkAux_eq_traceAll (hread : Reads h g R P Q) (hfit : h.heapSize ≤ h.heap.length)
    (hun : ∀ i, i < h.heapSize → valGetGcMark (h.cell i).cdr = false) :
    ∀ (ws : List VALUE) (M : Finset Nat),
      (∀ w ∈ ws.filter (isAuxRoot h.heapSize), R w (f w) ∧ P (f w)) →
      (∀ p ∈ g.popsAll markStackSize (markFuel h) ((ws.filter (isAuxRoot h.heapSize)).map f) M,
        Q p.1 p.2) →
      gcMarkAux ws (markCells h M)
        = (g.traceAll markStackSize (markFuel h) ((ws.filter (isAuxRoot h.heapSize)).map f) M).map
            (markResults h) := by
  intro ws
  induction ws with
  | nil => intro M _ _; rfl
  | cons w ws ih =>
    intro M hP hQ
    have hsize : (markCells h M).heapSize = h.heapSize := rfl
    rw [gcMarkAux, hsize]
    -- A word that points nowhere into the heap is skipped.
    cases hw : isAuxRoot h.heapSize w with
    | false =>
      rw [List.filter_cons_of_neg (by simp [hw])] at hP hQ ⊢
      simpa using ih M hP hQ
    | true =>
      rw [List.filter_cons_of_pos hw] at hP hQ ⊢
      rw [List.map_cons] at hQ ⊢
      rw [WorkGraph.popsAll, List.forall_mem_append] at hQ
      obtain ⟨hR, hPw⟩ := hP w (by simp)
      rw [if_pos rfl, gcMarkPhase_eq_trace hread hfit hun hR hPw M hQ.1, WorkGraph.traceAll]
      cases htr : g.trace markStackSize (markFuel h) [f w] M with
      | none => rfl
      | some r =>
        have hQ' := hQ.2
        simp only [htr] at hQ'
        simp only [Option.map_some, markResult]
        rw [ih r.2 (fun a ha => hP a (List.mem_cons_of_mem _ ha)) hQ']
        cases g.traceAll markStackSize (markFuel h) _ r.2 <;> rfl

theorem MarkCall.run_eq_traceAll (hread : Reads h g R P Q) (hfit : h.heapSize ≤ h.heap.length)
    (hun : ∀ i, i < h.heapSize → valGetGcMark (h.cell i).cdr = false) (c : MarkCall)
    (M : Finset Nat) (hP : ∀ w ∈ c.traced h.heapSize, R w (f w) ∧ P (f w))
    (hQ : ∀ p ∈ g.popsAll markStackSize (markFuel h) ((c.traced h.heapSize).map f) M,
      Q p.1 p.2) :
    c.run (markCells h M)
      = (g.traceAll markStackSize (markFuel h) ((c.traced h.heapSize).map f) M).map
          (markResults h) := by
  cases c with
  | phase v =>
    obtain ⟨hR, hPv⟩ := hP v (by simp [MarkCall.traced])
    simp only [MarkCall.traced, List.map_cons, List.map_nil] at hQ ⊢
    rw [WorkGraph.popsAll, List.forall_mem_append] at hQ
    rw [MarkCall.run, gcMarkPhase_eq_trace hread hfit hun hR hPv M hQ.1, WorkGraph.traceAll]
    cases g.trace markStackSize (markFuel h) [f v] M <;> rfl
  | aux ws => exact gcMarkAux_eq_traceAll hread hfit hun ws M hP hQ

/-- **All marking calls of a collection are traversals of the unmarked heap.** -/
theorem markAll_eq_traceAll (hread : Reads h g R P Q) (hfit : h.heapSize ≤ h.heap.length)
    (hun : ∀ i, i < h.heapSize → valGetGcMark (h.cell i).cdr = false) :
    ∀ (cs : List MarkCall) (M : Finset Nat),
      (∀ w ∈ cs.flatMap (MarkCall.traced h.heapSize), R w (f w) ∧ P (f w)) →
      (∀ p ∈ g.popsAll markStackSize (markFuel h)
          ((cs.flatMap (MarkCall.traced h.heapSize)).map f) M, Q p.1 p.2) →
      markAll cs (markCells h M)
        = (g.traceAll markStackSize (markFuel h)
            ((cs.flatMap (MarkCall.traced h.heapSize)).map f) M).map (markResults h) := by
  intro cs
  induction cs with
  | nil => intro M _ _; rfl
  | cons c cs ih =>
    intro M hP hQ
    rw [List.flatMap_cons, List.map_append] at hQ ⊢
    rw [List.flatMap_cons] at hP
    rw [WorkGraph.popsAll_append, List.forall_mem_append] at hQ
    rw [markAll, c.run_eq_traceAll hread hfit hun M
      (fun w hw => hP w (List.mem_append_left _ hw)) hQ.1, WorkGraph.traceAll_append]
    cases htr : g.traceAll markStackSize (markFuel h) ((c.traced h.heapSize).map f) M with
    | none => rfl
    | some r =>
      have hQ' := hQ.2
      simp only [htr] at hQ'
      simp only [Option.map_some, markResults]
      rw [ih r.2 (fun w hw => hP w (List.mem_append_right _ hw)) hQ']
      cases g.traceAll markStackSize (markFuel h) _ r.2 <;> rfl

end Calls

/-- In a domain without symbol indirections every word is read as itself. -/
theorem MarkDomain.reads {P : VALUE → Prop} (hd : MarkDomain h P)
    (hfit : h.heapSize ≤ h.heap.length) :
    Reads h (objGraph h) SameRef P (fun _ _ => True) where
  skip := by
    intro w v M hwv hP hnode _ hw
    have hv : isPtr v = true := hwv.isPtr_eq.symm.trans hw
    rw [hd.node_of_isPtr hP hv] at hnode
    exact absurd hnode (by simp)
  node := by
    intro w v k hwv hP hnode
    obtain ⟨hv, hix⟩ := isPtr_of_node hnode
    exact ⟨hwv.isPtr_eq.trans hv, hwv.ptrIx_eq.trans hix, hix ▸ hd.inRange v hP hv⟩
  leaf := by
    intro w v k hwv _ _ hleaf
    rw [hwv.typeOf_eq] at hleaf
    show traceFields h v = []
    simp [traceFields, hleaf]
  fields := by
    intro w v k M hwv hP hnode hleaf
    obtain ⟨hv, -⟩ := isPtr_of_node hnode
    have hlt : ptrIx v < h.heap.length := by have := hd.inRange v hP hv; omega
    rw [hwv.typeOf_eq] at hleaf
    -- Without indirections both fields are followed, the car first.
    have hkids : traceFields h v = [car h v, cdr h v] := by
      simp [traceFields, hleaf, isHeapPtr, hv, hd.noIndirection v hP hv]
    obtain ⟨hcar, hcdr⟩ := sameRef_fields (M := M) hwv hv hlt
    have hfields := hd.fields v hP
    rw [hkids] at hfields
    exact ⟨_, _, hkids, ⟨hfields _ (by simp), hcar⟩, hfields _ (by simp), hcdr⟩

end Marking

/-! ## The free list -/

/-- `v` is the head of a chain of cells that ends in NIL: the cells of `l` in order. -/
inductive FreeChain (h : HeapState) : VALUE → List Nat → Prop where
  | nil : FreeChain h NIL []
  | cons {i : Nat} {l : List Nat} (hi : i < h.heapSize) (hrest : FreeChain h (h.cell i).cdr l) :
      FreeChain h (cellPtr i) (i :: l)

theorem FreeChain.lt {h : HeapState} {v : VALUE} {l : List Nat} (hc : FreeChain h v l) :
    ∀ i ∈ l, i < h.heapSize := by
  induction hc with
  | nil => simp
  | cons hi _ ih =>
    intro j hj
    rcases List.mem_cons.mp hj with rfl | hj
    · exact hi
    · exact ih j hj

theorem length_le_of_nodup_of_lt {l : List Nat} {n : Nat} (hnd : l.Nodup)
    (hlt : ∀ i ∈ l, i < n) : l.length ≤ n := by
  rw [← List.toFinset_card_of_nodup hnd, ← Finset.card_range n]
  refine Finset.card_le_card (fun i hi => ?_)
  exact Finset.mem_range.mpr (hlt i (List.mem_toFinset.mp hi))

/-- `gc_mark_freelist` walks the chain and marks exactly its cells. Induction on the chain;
the word walked along is the chain pointer up to the mark just set. -/
theorem gcMarkFreelistLoop_eq {h : HeapState} (hfit : h.heapSize ≤ h.heap.length)
    (hsize : h.heapSize ≤ 2 ^ 23) {v : VALUE} {l : List Nat} (hc : FreeChain h v l) :
    ∀ (n : Nat) (w : VALUE) (M : Finset Nat), SameRef w v → l.Nodup → (∀ i ∈ l, i ∉ M) →
      l.length < n →
      gcMarkFreelistLoop n w (markCells h M) = some (markCells h (M ∪ l.toFinset)) := by
  induction hc with
  | nil =>
    intro n w M hw _ _ hn
    obtain ⟨n, rfl⟩ : ∃ k, n = k + 1 := ⟨n - 1, by omega⟩
    have hp : isPtr w = false := hw.isPtr_eq.trans (by decide)
    simp [gcMarkFreelistLoop, hp]
  | @cons i l hi hrest ih =>
    intro n w M hw hnd hM hn
    obtain ⟨n, rfl⟩ : ∃ k, n = k + 1 := ⟨n - 1, by simp at hn; omega⟩
    obtain ⟨hil, hnd⟩ := List.nodup_cons.mp hnd
    have hp : isPtr w = true := hw.isPtr_eq.trans (isPtr_cellPtr i)
    have hix : ptrIx w = i := hw.ptrIx_eq.trans (ptrIx_cellPtr (by omega))
    have hiM : i ∉ M := hM i (by simp)
    have hlt : ptrIx w < h.heap.length := by omega
    -- `set_gc_mark` and the counter commute; together they are `markCells` of one more cell
    have hmark : { setGcMark (markCells h M) w with
          gcMarked := (setGcMark (markCells h M) w).gcMarked + 1#32 }
        = markCells h (insert i M) := by
      rw [← hix]
      exact setGcMark_markCells hlt (hix ▸ hiM)
    have hcdr : SameRef (refCell (setGcMark (markCells h M) w) w).cdr (h.cell i).cdr := by
      right
      have hcell := cell_markCells (h := h) (i := i) (by omega) (insert i M)
      rw [← hmark, if_pos (Finset.mem_insert_self i M)] at hcell
      rw [refCell, hix]
      exact congrArg ConsCell.cdr hcell
    rw [gcMarkFreelistLoop, if_pos hp]
    simp only [hmark]
    rw [ih n _ (insert i M) hcdr hnd ?_ (by simp at hn; omega)]
    · congr 2
      ext j
      simp only [Finset.mem_union, Finset.mem_insert, List.toFinset_cons]
      tauto
    · intro j hj hjM
      rcases Finset.mem_insert.mp hjM with rfl | hjM
      · exact hil hj
      · exact hM j (List.mem_cons_of_mem _ hj) hjM

theorem gcMarkFreelist_eq {h : HeapState} (hfit : h.heapSize ≤ h.heap.length)
    (hsize : h.heapSize ≤ 2 ^ 23) {l : List Nat} (hc : FreeChain h h.freelist l) (hnd : l.Nodup) :
    gcMarkFreelist h = some (true, markCells h l.toFinset) := by
  have hlen := length_le_of_nodup_of_lt hnd hc.lt
  have hloop := gcMarkFreelistLoop_eq hfit hsize hc (walkFuel h) h.freelist ∅ (Or.inl rfl) hnd
    (by simp) (by simp only [walkFuel]; omega)
  rw [markCells_empty, Finset.empty_union] at hloop
  rw [gcMarkFreelist]
  cases hp : isPtr h.freelist with
  | false =>
    -- the empty chain
    generalize hfl : h.freelist = v at hc hp
    cases hc with
    | nil => simp [markCells_empty, show valType NIL = valTypeSymbol from by decide]
    | cons hi _ => exact absurd hp (by simp)
  | true => simp [hloop]

end LispBM
