import LispBM.Heap.Sweep
import Mathlib.Data.Set.Card

/-!
# LispBM — what a collection keeps and what it recycles

A collection starts from a well-formed heap (`MarkReady`) and ends with a heap whose free list is
the old one extended by every cell the marking calls did not visit (`MarkReady.swept`). When no
`gc_mark_phase` call ran out of mark stack, the visited cells are exactly the live ones and
the collection is exact, unless the sweep takes a dead pair for an array and passes its car to
`memory_free` (`collectsExactly_iff`). No driver looks at the result of its
`gc_mark_phase` calls, so a traversal that was cut is swept like a complete one: a live cell it
did not come to is recycled (`noLiveCellRecycled_iff`).
-/

namespace LispBM

open GraphTrace

/-! ## Live cells -/

/-- The words a marking call is given. -/
def MarkCall.words : MarkCall → List VALUE
  | .phase v => [v]
  | .aux ws => ws

/-- All root words of a collection. -/
def rootWords (calls : List MarkCall) : List VALUE := calls.flatMap MarkCall.words

/-- A word that a program can get at from the roots. -/
def ReachableWord (h : HeapState) (roots : List VALUE) (v : VALUE) : Prop :=
  ∃ r ∈ roots, (objGraph h).Reach r v

/-- A cell that a program can get at from the roots. -/
def Live (h : HeapState) (roots : List VALUE) (i : Nat) : Prop :=
  (objGraph h).Reachable roots i

/-- A heap that is ready for the marking calls `calls`; `l` are the cells of its free list. -/
structure MarkReady (h : HeapState) (calls : List MarkCall) (l : List Nat) : Prop where
  fits : h.heapSize ≤ h.heap.length
  addressable : h.heapSize ≤ 2 ^ 23
  unmarked : ∀ i, i < h.heapSize → valGetGcMark (h.cell i).cdr = false
  domain : MarkDomain h (ReachableWord h (rootWords calls))
  stackTypes : ∀ ws, MarkCall.aux ws ∈ calls → ∀ w ∈ ws, isPtr w = true →
    isHeapPtrType (ptrType w) = true
  freeChain : FreeChain h h.freelist l
  nodup : l.Nodup
  disjoint : ∀ i ∈ l, ¬Live h (rootWords calls) i
  numAlloc : h.numAlloc.toNat + l.length = h.heapSize

theorem MarkDomain.mono {h : HeapState} {P Q : VALUE → Prop} (hd : MarkDomain h P)
    (hQ : ∀ v, Q v → P v) (hfields : ∀ v, Q v → ∀ w ∈ traceFields h v, Q w) :
    MarkDomain h Q where
  fields := hfields
  inRange v hv := hd.inRange v (hQ v hv)
  noIndirection v hv := hd.noIndirection v (hQ v hv)
  oneType v w hv hw := hd.oneType v w (hQ v hv) (hQ w hw)

/-- A domain that contains the roots contains every word reachable from them. -/
theorem MarkDomain.reachableWord {h : HeapState} {P : VALUE → Prop} {roots : List VALUE}
    (hd : MarkDomain h P) (hroots : ∀ r ∈ roots, P r) {v : VALUE}
    (hv : ReachableWord h roots v) : P v := by
  obtain ⟨r, hr, hrv⟩ := hv
  exact hd.domain.reach (hroots r hr) hrv

theorem ReachableWord.field {h : HeapState} {roots : List VALUE} {v w : VALUE}
    (hv : ReachableWord h roots v) (hw : w ∈ traceFields h v) : ReachableWord h roots w := by
  obtain ⟨r, hr, hrv⟩ := hv
  exact ⟨r, hr, hrv.tail hw⟩

theorem MarkDomain.restrict {h : HeapState} {P : VALUE → Prop} {roots : List VALUE}
    (hd : MarkDomain h P) (hroots : ∀ r ∈ roots, P r) :
    MarkDomain h (ReachableWord h roots) :=
  hd.mono (fun _ hv => hd.reachableWord hroots hv) (fun _ hv _ hw => hv.field hw)

/-- `gc_state_inc` only resets counters: it changes no cell. -/
theorem objGraph_gcStateInc (h : HeapState) : objGraph (gcStateInc h) = objGraph h := rfl

theorem MarkDomain.gcStateInc {h : HeapState} {P : VALUE → Prop} (hd : MarkDomain h P) :
    MarkDomain (gcStateInc h) P :=
  ⟨hd.fields, hd.inRange, hd.noIndirection, hd.oneType⟩

theorem FreeChain.unmarked_head {h : HeapState} {v : VALUE} {l : List Nat}
    (hc : FreeChain h v l) : valGetGcMark v = false := by
  cases hc with
  | nil => decide
  | cons _ _ => exact valGetGcMark_cellPtr _

section Ready

variable {h : HeapState} {calls : List MarkCall} {l : List Nat}

theorem MarkReady.reachableWord_of_mem (_hr : MarkReady h calls l) {w : VALUE}
    (hw : w ∈ rootWords calls) : ReachableWord h (rootWords calls) w := ⟨w, hw, .refl⟩

/-- The words the marking calls trace from are root words. -/
theorem traced_subset (n : Nat) {w : VALUE} (hw : w ∈ calls.flatMap (MarkCall.traced n)) :
    w ∈ rootWords calls := by
  obtain ⟨c, hc, hwc⟩ := List.mem_flatMap.mp hw
  refine List.mem_flatMap.mpr ⟨c, hc, ?_⟩
  cases c with
  | phase v => exact hwc
  | aux ws => exact List.mem_of_mem_filter hwc

/-- The words `gc_mark_aux` skips refer to no cell, so nothing is lost by skipping them. -/
theorem MarkReady.live_iff_traced (hr : MarkReady h calls l) {i : Nat} :
    Live h (rootWords calls) i
      ↔ (objGraph h).Reachable (calls.flatMap (MarkCall.traced h.heapSize)) i := by
  constructor
  · rintro ⟨r, hmem, a, hra, ha⟩
    obtain ⟨c, hc, hrc⟩ := List.mem_flatMap.mp hmem
    cases c with
    | phase v => exact ⟨r, List.mem_flatMap.mpr ⟨_, hc, hrc⟩, a, hra, ha⟩
    | aux ws =>
      cases hp : isPtr r with
      | true =>
        have hrange := hr.domain.inRange r (hr.reachableWord_of_mem hmem) hp
        have haux : isAuxRoot h.heapSize r = true := by
          simp [isAuxRoot, hp, hr.stackTypes ws hc r hrc hp, hrange]
        exact ⟨r, List.mem_flatMap.mpr ⟨_, hc, List.mem_filter.mpr ⟨hrc, haux⟩⟩, a, hra, ha⟩
      | false =>
        have hnode := node_of_not_isPtr (h := h) hp
        rcases hra.cases_head with rfl | ⟨b, hb, -⟩
        · exact absurd (hnode.symm.trans ha) (by simp)
        · rw [(objGraph h).kids_eq_nil r hnode] at hb
          exact absurd hb (by simp)
  · rintro ⟨r, hmem, a, hra, ha⟩
    exact ⟨r, traced_subset _ hmem, a, hra, ha⟩

theorem MarkReady.live_lt (hr : MarkReady h calls l) {i : Nat} (hi : Live h (rootWords calls) i) :
    i < h.heapSize := by
  obtain ⟨r, hmem, a, hra, ha⟩ := hi
  obtain ⟨hp, rfl⟩ := isPtr_of_node ha
  exact hr.domain.inRange a ⟨r, hmem, hra⟩ hp

/-! ## A collection, whether or not its marking was cut -/

/-- The visited set the marking calls of a collection end with, and which of its
`gc_mark_phase` calls came to their end: a depth-first traversal of the object graph from each
root in turn, given up when more than `markStackSize` fields are pending. -/
def visits (h : HeapState) (calls : List MarkCall) (l : List Nat) :
    Option (List Bool × Finset Nat) :=
  (objGraph h).traceAll markStackSize (markFuel h)
    (calls.flatMap (MarkCall.traced h.heapSize)) l.toFinset

/-- The marking phase is the traversal. -/
theorem MarkReady.marks_eq (hr : MarkReady h calls l) :
    marks calls h = (visits h calls l).map (markResults (gcStateInc h)) := by
  have hread := hr.domain.gcStateInc.reads hr.fits
  have hmark := markAll_eq_traceAll (f := id) hread hr.fits hr.unmarked calls l.toFinset
    (fun w hw => ⟨Or.inl rfl, hr.reachableWord_of_mem (traced_subset _ hw)⟩) (fun _ _ => trivial)
  rw [List.map_id, objGraph_gcStateInc] at hmark
  have hfree : FreeChain (gcStateInc h) (gcStateInc h).freelist l :=
    hr.freeChain.congr rfl (fun _ _ => rfl)
  rw [marks, gcMarkFreelist_eq (h := gcStateInc h) hr.fits hr.addressable hfree hr.nodup]
  exact hmark

/-- The marking always comes to an end. -/
theorem MarkReady.visits_isSome (hr : MarkReady h calls l) : (visits h calls l).isSome := by
  refine WorkGraph.traceAll_isSome hr.domain.domain (U := Finset.range h.heapSize) ?_
    (objGraph_kids_length h) ?_
    (fun w hw => hr.reachableWord_of_mem (traced_subset _ hw))
  · intro a k ha hk
    obtain ⟨hp, rfl⟩ := isPtr_of_node hk
    exact Finset.mem_range.mpr (hr.domain.inRange a ha hp)
  · have := hr.fits
    simp only [Finset.card_range, markFuel]
    omega

theorem MarkReady.subset_visits {oks : List Bool} {M : Finset Nat}
    (hv : visits h calls l = some (oks, M)) : l.toFinset ⊆ M :=
  WorkGraph.subset_of_traceAll hv

/-- The calls visit free cells (through `gc_mark_freelist`) and live cells only. -/
theorem MarkReady.live_of_visits (hr : MarkReady h calls l) {oks : List Bool} {M : Finset Nat}
    (hv : visits h calls l = some (oks, M)) {i : Nat} (hi : i ∈ M) :
    i ∈ l ∨ Live h (rootWords calls) i := by
  rcases WorkGraph.traceAll_sound hv i hi with hl | hre
  · exact Or.inl (List.mem_toFinset.mp hl)
  · exact Or.inr (hr.live_iff_traced.mpr hre)

/-- **Completeness of marking.** If no call was cut, every live cell was visited. -/
theorem MarkReady.visits_of_live (hr : MarkReady h calls l) {oks : List Bool} {M : Finset Nat}
    (hv : visits h calls l = some (oks, M)) (hok : ∀ ok ∈ oks, ok = true) {i : Nat}
    (hi : Live h (rootWords calls) i) : i ∈ M := by
  have hclosed : (objGraph h).Closed (ReachableWord h (rootWords calls)) l.toFinset := by
    -- no reachable word refers to a free cell
    intro a k ha hak hk
    obtain ⟨r, hmem, hra⟩ := ha
    exact absurd ⟨r, hmem, a, hra, hak⟩ (hr.disjoint k (List.mem_toFinset.mp hk))
  exact (WorkGraph.traceAll_complete hr.domain.domain
    (fun w hw => hr.reachableWord_of_mem (traced_subset _ hw)) hclosed hv hok).2 i
    (hr.live_iff_traced.mp hi)

theorem MarkReady.collect_eq (hr : MarkReady h calls l) {oks : List Bool} {M : Finset Nat}
    (hv : visits h calls l = some (oks, M)) :
    collect calls h = (gcSweepPhase (markCells (gcStateInc h) M)).map (oks, ·) := by
  rw [collect, hr.marks_eq, hv]
  rfl

/-- **The heap after a collection**, whether or not its marking was cut. -/
theorem MarkReady.swept (hr : MarkReady h calls l) {oks oks' : List Bool} {M : Finset Nat}
    {h' : HeapState} (hv : visits h calls l = some (oks, M))
    (hc : collect calls h = some (oks', h')) :
    oks' = oks ∧ SweptTo (gcStateInc h) M h.heapSize h'
      ∧ FreeChain h' h'.freelist (newlyFree M h.heapSize ++ l)
      ∧ ∀ i, i < h.heapSize → valGetGcMark (h'.cell i).cdr = false := by
  have hhead : valGetGcMark (gcStateInc h).freelist = false := hr.freeChain.unmarked_head
  rw [hr.collect_eq hv] at hc
  obtain ⟨g, hg, hres⟩ := Option.map_eq_some_iff.mp hc
  obtain ⟨rfl, rfl⟩ := Prod.mk.inj hres
  have hswept := sweptTo_gcSweepPhase (h := gcStateInc h) hr.fits hr.unmarked hhead hg
  have hfree : FreeChain (gcStateInc h) (gcStateInc h).freelist l :=
    hr.freeChain.congr rfl (fun _ _ => rfl)
  refine ⟨rfl, hswept, ?_, hswept.unmarked (h := gcStateInc h) hr.unmarked hhead⟩
  exact freeChain_sweep (h := gcStateInc h) hfree
    (fun i hi => MarkReady.subset_visits hv (List.mem_toFinset.mpr hi)) hswept

/-- **When a collection comes to its end.** The sweep is stopped by nothing but a cell that was
not visited, passes for an array and has some other word in its car. -/
theorem MarkReady.collect_isSome_iff (hr : MarkReady h calls l) {oks : List Bool}
    {M : Finset Nat} (hv : visits h calls l = some (oks, M)) :
    (collect calls h).isSome ↔ ∀ i, i < h.heapSize → i ∉ M → ArrayInside h (h.cell i) := by
  rw [hr.collect_eq hv, Option.isSome_map]
  exact gcSweepPhase_isSome_iff (h := gcStateInc h) hr.fits hr.unmarked
    (hr.freeChain.unmarked_head)

end Ready

/-- Cell `i` is visited from some root: by the depth-first walk of the object graph (car before
cdr, one walk per root, over a common set of visited cells) that is given up at an unvisited
cell whose fields would make more than `markStackSize` pending ones. -/
def VisitedWithinStack (h : HeapState) (calls : List MarkCall) (l : List Nat) (i : Nat) : Prop :=
  ∃ oks M, visits h calls l = some (oks, M) ∧ i ∈ M

/-- A heap that is ready for a collection with the marking calls `calls`. -/
structure GcReady (h : HeapState) (calls : List MarkCall) (l : List Nat) : Prop
    extends MarkReady h calls l where
  /-- What the marking does not come to and passes for an array is one. -/
  arrays : ∀ i, i < h.heapSize → ¬VisitedWithinStack h calls l i → ArrayInside h (h.cell i)

/-- A collection of such a heap comes to its end. -/
theorem GcReady.collect_isSome {h : HeapState} {calls : List MarkCall} {l : List Nat}
    (hr : GcReady h calls l) : (collect calls h).isSome := by
  obtain ⟨⟨oks, M⟩, hv⟩ := Option.isSome_iff_exists.mp hr.visits_isSome
  refine (hr.collect_isSome_iff hv).mpr fun i hi hM => hr.arrays i hi ?_
  rintro ⟨oks', M', hv', hi'⟩
  obtain ⟨-, rfl⟩ := Prod.mk.inj (Option.some.inj (hv.symm.trans hv'))
  exact hM hi'

theorem GcReady.collect_swept {h : HeapState} {calls : List MarkCall} {l : List Nat}
    (hr : GcReady h calls l) {oks : List Bool} {M : Finset Nat}
    (hv : visits h calls l = some (oks, M)) :
    ∃ h', collect calls h = some (oks, h') ∧ SweptTo (gcStateInc h) M h.heapSize h'
      ∧ FreeChain h' h'.freelist (newlyFree M h.heapSize ++ l)
      ∧ (∀ i, i < h.heapSize → valGetGcMark (h'.cell i).cdr = false) := by
  obtain ⟨⟨oks', h'⟩, hc⟩ := Option.isSome_iff_exists.mp hr.collect_isSome
  obtain ⟨rfl, hswept⟩ := hr.swept hv hc
  exact ⟨h', hc, hswept⟩

/-! ## Exactness -/

/-- What an exact collection does to a heap with free list `l`. -/
structure ExactCollection (h : HeapState) (roots : List VALUE) (l : List Nat) (h' : HeapState) :
    Prop where
  heapSize : h'.heapSize = h.heapSize
  heap_length : h'.heap.length = h.heap.length
  /-- live cells are kept as they are … -/
  live : ∀ i, Live h roots i → h'.cell i = h.cell i
  /-- … and the free list has every other cell exactly once. -/
  free : ∃ l', FreeChain h' h'.freelist l' ∧ l'.Nodup
    ∧ ∀ i, i ∈ l' ↔ i < h.heapSize ∧ ¬Live h roots i
  unmarked : ∀ i, i < h'.heapSize → valGetGcMark (h'.cell i).cdr = false
  numAlloc : h'.numAlloc.toNat = {i | Live h roots i}.ncard
  gcRecovered : h'.gcRecovered.toNat = {i | i < h.heapSize ∧ ¬Live h roots i ∧ i ∉ l}.ncard

theorem length_newlyFree_add_card {M : Finset Nat} {n : Nat} (hM : ∀ i ∈ M, i < n) :
    (newlyFree M n).length + M.card = n := by
  have hset : (newlyFree M n).toFinset = Finset.range n \ M := by
    ext i
    simp [mem_newlyFree]
  have hsub : M ⊆ Finset.range n := fun i hi => Finset.mem_range.mpr (hM i hi)
  rw [← List.toFinset_card_of_nodup (nodup_newlyFree M n), hset,
    Finset.card_sdiff_add_card_eq_card hsub, Finset.card_range]

theorem ncard_newlyFree (M : Finset Nat) (n : Nat) :
    {i | i < n ∧ i ∉ M}.ncard = (newlyFree M n).length := by
  have hset : {i | i < n ∧ i ∉ M} = ((newlyFree M n).toFinset : Set Nat) := by
    ext i
    simp [mem_newlyFree]
  rw [hset, Set.ncard_coe_finset, List.toFinset_card_of_nodup (nodup_newlyFree M n)]

/-- The visited cells are the free list and, apart from it, the live cells. -/
theorem MarkReady.ncard_live_add {h : HeapState} {calls : List MarkCall} {l : List Nat}
    (hr : MarkReady h calls l) {M : Finset Nat}
    (hM : ∀ i, i ∈ M ↔ i ∈ l ∨ Live h (rootWords calls) i) :
    {i | Live h (rootWords calls) i}.ncard + l.length = M.card := by
  have hlive : {i | Live h (rootWords calls) i} = ((M \ l.toFinset : Finset Nat) : Set Nat) := by
    ext i
    simp only [Set.mem_ofPred_eq, Finset.coe_sdiff, Set.mem_sdiff, Finset.mem_coe, hM i,
      List.mem_toFinset]
    constructor
    · exact fun hi => ⟨Or.inr hi, fun hl => hr.disjoint i hl hi⟩
    · rintro ⟨hl | hi, hnl⟩
      · exact absurd hl hnl
      · exact hi
  have hsub : l.toFinset ⊆ M := fun i hi => (hM i).mpr (Or.inl (List.mem_toFinset.mp hi))
  rw [hlive, Set.ncard_coe_finset, ← List.toFinset_card_of_nodup hr.nodup,
    Finset.card_sdiff_add_card_eq_card hsub]

/-- A collection that visits exactly the free and the live cells is exact. -/
theorem MarkReady.exact_of_visits {h : HeapState} {calls : List MarkCall} {l : List Nat}
    (hr : MarkReady h calls l) {M : Finset Nat} {h' : HeapState}
    (hM : ∀ i, i ∈ M ↔ i ∈ l ∨ Live h (rootWords calls) i)
    (hswept : SweptTo (gcStateInc h) M h.heapSize h')
    (hchain : FreeChain h' h'.freelist (newlyFree M h.heapSize ++ l))
    (hun : ∀ i, i < h.heapSize → valGetGcMark (h'.cell i).cdr = false) :
    ExactCollection h (rootWords calls) l h' := by
  have hlt : ∀ i ∈ M, i < h.heapSize := by
    intro i hi
    rcases (hM i).mp hi with hl | hlive
    · exact hr.freeChain.lt i hl
    · exact hr.live_lt hlive
  have hcard := hr.ncard_live_add hM
  have hfreed := length_newlyFree_add_card hlt
  have halloc := hr.numAlloc
  have hsize := hr.addressable
  refine ⟨hswept.heapSize, hswept.heap_length, ?_, ⟨_, hchain, ?_, ?_⟩, ?_, ?_, ?_⟩
  · -- a live cell is marked, and its mark is taken off again
    intro i hi
    rw [hswept.done i (hr.live_lt hi), sweptCell, if_pos ((hM i).mpr (Or.inr hi))]
    rfl
  · refine List.Nodup.append (nodup_newlyFree M _) hr.nodup fun i hi hl => ?_
    exact (mem_newlyFree.mp hi).2 ((hM i).mpr (Or.inl hl))
  · intro i
    rw [List.mem_append, mem_newlyFree, hM i]
    constructor
    · rintro (⟨hi, hn⟩ | hl)
      · exact ⟨hi, fun hlive => hn (Or.inr hlive)⟩
      · exact ⟨hr.freeChain.lt i hl, hr.disjoint i hl⟩
    · rintro ⟨hi, hn⟩
      by_cases hl : i ∈ l
      · exact Or.inr hl
      · refine Or.inl ⟨hi, ?_⟩
        rintro (hl' | hlive)
        · exact hl hl'
        · exact hn hlive
  · intro i hi
    exact hun i (hswept.heapSize ▸ hi)
  · rw [hswept.numAlloc]
    show (h.numAlloc - _).toNat = _
    bv_omega
  · rw [hswept.gcRecovered]
    show (0#32 + _).toNat = _
    have hset : {i | i < h.heapSize ∧ ¬Live h (rootWords calls) i ∧ i ∉ l}
        = {i | i < h.heapSize ∧ i ∉ M} := by
      ext i
      simp only [Set.mem_ofPred_eq, hM i]
      tauto
    rw [hset, ncard_newlyFree]
    bv_omega

/-- A complete marking visits the free and the live cells and no others. -/
theorem MarkReady.mem_visits_iff {h : HeapState} {calls : List MarkCall} {l : List Nat}
    (hr : MarkReady h calls l) {oks : List Bool} {M : Finset Nat}
    (hv : visits h calls l = some (oks, M)) (hok : ∀ ok ∈ oks, ok = true) (i : Nat) :
    i ∈ M ↔ i ∈ l ∨ Live h (rootWords calls) i := by
  constructor
  · exact hr.live_of_visits hv
  · rintro (hl | hlive)
    · exact MarkReady.subset_visits hv (List.mem_toFinset.mpr hl)
    · exact hr.visits_of_live hv hok hlive

/-- A collection none of whose `gc_mark_phase` calls returned 0 is exact. -/
theorem MarkReady.exact_of_collect {h : HeapState} {calls : List MarkCall} {l : List Nat}
    (hr : MarkReady h calls l) {oks : List Bool} {h' : HeapState}
    (hc : collect calls h = some (oks, h')) (hok : ∀ ok ∈ oks, ok = true) :
    ExactCollection h (rootWords calls) l h' := by
  obtain ⟨⟨oks', M⟩, hv⟩ := Option.isSome_iff_exists.mp hr.visits_isSome
  obtain ⟨rfl, hswept, hchain, hun⟩ := hr.swept hv hc
  exact hr.exact_of_visits (hr.mem_visits_iff hv hok) hswept hchain hun

/-- The cells that cannot be reached and pass for arrays have a word in the car that the memory
manager can look up. -/
def ArraysInside (h : HeapState) (roots : List VALUE) : Prop :=
  ∀ i, i < h.heapSize → ¬Live h roots i → ArrayInside h (h.cell i)

/-- A free cell does not pass for an array: its cdr is the next one or NIL. -/
theorem FreeChain.arrayInside {h : HeapState} (hsize : h.heapSize ≤ 2 ^ 23) {v : VALUE}
    {l : List Nat} (hc : FreeChain h v l) {i : Nat} (hi : i ∈ l) : ArrayInside h (h.cell i) := by
  induction hc with
  | nil => simp at hi
  | @cons j l hj hrest ih =>
    rcases List.mem_cons.mp hi with rfl | hi
    · intro harray
      have hsym : typeOf (h.cell i).cdr = valTypeSymbol
          ∧ decSym (h.cell i).cdr = defReprArrayType := by
        simpa [isSweptArray] using harray
      generalize (h.cell i).cdr = v at hsym hrest
      cases hrest with
      | nil => exact absurd hsym.2 (by decide)
      | @cons k _ hk _ =>
        rw [typeOf_cellPtr (by omega)] at hsym
        exact absurd hsym.1 (by decide)
    · exact ih hi

/-- After a complete marking the collection comes to its end exactly if the dead arrays are
inside. -/
theorem MarkReady.collect_isSome_iff_arraysInside {h : HeapState} {calls : List MarkCall}
    {l : List Nat} (hr : MarkReady h calls l) {oks : List Bool} {M : Finset Nat}
    (hv : visits h calls l = some (oks, M)) (hok : ∀ ok ∈ oks, ok = true) :
    (collect calls h).isSome ↔ ArraysInside h (rootWords calls) := by
  simp only [hr.collect_isSome_iff hv, hr.mem_visits_iff hv hok, not_or, and_imp, ArraysInside]
  constructor
  · intro hall i hi hnl
    by_cases hl : i ∈ l
    · exact hr.freeChain.arrayInside hr.addressable hl
    · exact hall i hi hl hnl
  · exact fun hall i hi _ => hall i hi

/-- The marking terminates, and a complete one is followed by a complete sweep exactly if the dead
arrays are inside. -/
theorem MarkReady.collect_iff_arraysInside {h : HeapState} {calls : List MarkCall} {l : List Nat}
    (hr : MarkReady h calls l) :
    ∃ oks h₁, marks calls h = some (oks, h₁) ∧ ((∀ ok ∈ oks, ok = true) →
      ((∃ h', collect calls h = some (oks, h')) ↔ ArraysInside h (rootWords calls))) := by
  obtain ⟨⟨oks, M⟩, hv⟩ := Option.isSome_iff_exists.mp hr.visits_isSome
  refine ⟨oks, markCells (gcStateInc h) M, by rw [hr.marks_eq, hv]; rfl, fun hok => ?_⟩
  rw [← hr.collect_isSome_iff_arraysInside hv hok]
  constructor
  · rintro ⟨h', hc⟩
    rw [hc]
    rfl
  · intro hsome
    obtain ⟨⟨oks', h'⟩, hc⟩ := Option.isSome_iff_exists.mp hsome
    obtain ⟨rfl, -⟩ := hr.swept hv hc
    exact ⟨h', hc⟩

/-- **When garbage collection is exact.** The marking of a well-formed heap terminates; if none of
its `gc_mark_phase` calls returned 0, the collection keeps the live cells and frees all others,
exactly if no dead pair with the symbol of arrays in its cdr has a word in its car that the
memory manager cannot look up. -/
theorem collectsExactly_iff {h : HeapState} {calls : List MarkCall} {l : List Nat}
    (hr : MarkReady h calls l) :
    ∃ oks h₁, marks calls h = some (oks, h₁)
      ∧ ((∀ ok ∈ oks, ok = true) →
        ((∃ h', collect calls h = some (oks, h') ∧ ExactCollection h (rootWords calls) l h')
          ↔ ArraysInside h (rootWords calls))) := by
  obtain ⟨oks, h₁, hmarks, hends⟩ := hr.collect_iff_arraysInside
  refine ⟨oks, h₁, hmarks, fun hok => ?_⟩
  rw [← hends hok]
  constructor
  · exact fun ⟨h', hc, _⟩ => ⟨h', hc⟩
  · exact fun ⟨h', hc⟩ => ⟨h', hc, hr.exact_of_collect hc hok⟩

section Drivers

variable {h h' : HeapState} {l : List Nat} {oks : List Bool} {env env2 exp exp2 exp3 list : VALUE}
  {auxData : List VALUE}

/-- The drivers of `heap.c` keep what can be reached from their arguments. -/
theorem heapPerformGc_exact (hr : MarkReady h [.phase env] l)
    (hc : heapPerformGc env h = some (oks, h')) (hok : ∀ ok ∈ oks, ok = true) :
    ExactCollection h [env] l h' :=
  hr.exact_of_collect hc hok

theorem heapPerformGcExtra_exact
    (hr : MarkReady h [.phase exp, .phase exp2, .phase env, .phase env2, .phase list] l)
    (hc : heapPerformGcExtra env env2 exp exp2 list h = some (oks, h'))
    (hok : ∀ ok ∈ oks, ok = true) : ExactCollection h [exp, exp2, env, env2, list] l h' :=
  hr.exact_of_collect hc hok

theorem heapPerformGcAux_exact
    (hr : MarkReady h [.phase exp, .phase exp2, .phase exp3, .phase env, .phase env2,
      .aux auxData] l)
    (hc : heapPerformGcAux env env2 exp exp2 exp3 auxData h = some (oks, h'))
    (hok : ∀ ok ∈ oks, ok = true) :
    ExactCollection h ([exp, exp2, exp3, env, env2] ++ auxData) l h' := by
  have hex := hr.exact_of_collect hc hok
  simpa [rootWords, MarkCall.words] using hex

end Drivers

/-- A heap with the given cells, whose collector has not run yet. -/
def freshHeap (cells : List ConsCell) (freelist : VALUE) (numAlloc : UINT) : HeapState where
  heap := cells
  freelist := freelist
  heapSize := cells.length
  numAlloc := numAlloc
  numAllocArrays := 0#32
  gcNum := 0#32
  gcMarked := 0#32
  gcRecovered := 0#32
  gcRecoveredArrays := 0#32
  memory := ⟨[], [], 0#32, 0#32, 0#32⟩

/-- A region of sixteen words, the first of which is in use. -/
def sampleMemory : MemoryState where
  bitmap := [3#32]
  memory := List.replicate 16 0#32
  memorySize := 16#32
  bitmapSize := 1#32
  memoryBaseAddress := 0x1000#32

/-- A circular pair that holds a boxed number, a pair and an array nobody refers to, and one free
cell. -/
def sampleHeap : HeapState :=
  { freshHeap
      [⟨setPtrType (cellPtr 1) ptrTypeBoxedU, cellPtr 0⟩, ⟨42#32, encSym defReprBoxedUType⟩,
        ⟨encI 1#32, NIL⟩, ⟨bitmapIxToAddress sampleMemory 0#32, encSym defReprArrayType⟩,
        ⟨RECOVERED, NIL⟩]
      (cellPtr 4) 4#32 with
    memory := sampleMemory }

/-- The pair is a root, and lies on the stack beside a number. -/
def sampleCalls : List MarkCall := [.phase (cellPtr 0), .aux [encU 7#32, cellPtr 0]]

/-- The words that can be reached in `sampleHeap`. -/
def sampleWords : List VALUE :=
  [cellPtr 0, setPtrType (cellPtr 1) ptrTypeBoxedU, encU 7#32]

-- A bounded quantifier over words is checked as `List.all`: `decide` would take it for a
-- quantifier over all words.
theorem forall_sampleWords {P : VALUE → Prop} [DecidablePred P]
    (h : sampleWords.all (fun v => decide (P v)) = true) : ∀ v ∈ sampleWords, P v :=
  fun v hv => of_decide_eq_true (List.all_eq_true.mp h v hv)

theorem markDomain_sampleHeap : MarkDomain sampleHeap (· ∈ sampleWords) where
  fields := by
    have h : (sampleWords.flatMap (traceFields sampleHeap)).all (· ∈ sampleWords) = true := by
      decide +kernel
    simpa [List.all_eq_true] using h
  inRange := forall_sampleWords (by decide +kernel)
  noIndirection := forall_sampleWords (by decide +kernel)
  oneType := by
    have h : (sampleWords.map ptrIx).Nodup := by decide +kernel
    intro v w hv hw _ _ hix
    rw [List.inj_on_of_nodup_map h hv hw hix]

theorem markReady_sampleHeap : MarkReady sampleHeap sampleCalls [4] := by
  have hroots : ∀ r ∈ rootWords sampleCalls, r ∈ sampleWords := by
    have h : (rootWords sampleCalls).all (· ∈ sampleWords) = true := by decide +kernel
    simpa [List.all_eq_true] using h
  refine ⟨le_rfl, by norm_num [sampleHeap, freshHeap], by decide +kernel,
    markDomain_sampleHeap.restrict hroots, ?_, ?_, by simp, ?_, rfl⟩
  · intro ws hws
    obtain rfl : ws = [encU 7#32, cellPtr 0] := by simpa [sampleCalls] using hws
    intro w hw
    rcases List.mem_pair.mp hw with rfl | rfl <;> decide +kernel
  · have hnil : FreeChain sampleHeap (sampleHeap.cell 4).cdr [] := .nil
    exact .cons (by simp [sampleHeap, freshHeap]) hnil
  · rintro i hi ⟨r, hmem, a, hra, ha⟩
    obtain rfl : i = 4 := by simpa using hi
    have hnot : ∀ w ∈ sampleWords, ptrIx w ≠ 4 := forall_sampleWords (by decide +kernel)
    exact hnot a (markDomain_sampleHeap.reachableWord hroots ⟨r, hmem, hra⟩) (isPtr_of_node ha).2

/-- The only cell with the symbol of arrays is an array: its data is freed with it. -/
theorem arraysInside_sampleHeap (roots : List VALUE) : ArraysInside sampleHeap roots := by
  have h : ∀ i, i < 5 → isSweptArray (sampleHeap.cell i) = true → i = 3 := by decide +kernel
  intro i hi _ hty
  obtain rfl := h i hi hty
  exact hasStatus_bitmapIxToAddress sampleMemory (by decide) (by decide)

theorem collectsExactly_sampleHeap :
    ∃ h', collect sampleCalls sampleHeap = some ([true, true], h')
      ∧ ExactCollection sampleHeap (rootWords sampleCalls) [4] h' := by
  obtain ⟨oks, h₁, hmarks, hexact⟩ := collectsExactly_iff markReady_sampleHeap
  have hoks : (marks sampleCalls sampleHeap).map Prod.fst = some [true, true] := by
    decide +kernel
  obtain rfl : oks = [true, true] := by simpa [hmarks] using hoks
  exact (hexact (by decide)).mpr (arraysInside_sampleHeap _)

/-- The pair `(5 . sym_array)`, which nobody refers to. -/
def droppedPair : HeapState :=
  { freshHeap [⟨encI 5#32, encSym defReprArrayType⟩] NIL 1#32 with memory := sampleMemory }

theorem markReady_droppedPair : MarkReady droppedPair [] [] where
  fits := le_rfl
  addressable := by norm_num [droppedPair, freshHeap]
  unmarked := by decide +kernel
  domain :=
    { fields := fun v hv w hw => hv.field hw
      inRange := fun v hv => absurd hv (by simp [ReachableWord, rootWords])
      noIndirection := fun v hv => absurd hv (by simp [ReachableWord, rootWords])
      oneType := fun v w hv => absurd hv (by simp [ReachableWord, rootWords]) }
  stackTypes := by simp
  freeChain := .nil
  nodup := List.nodup_nil
  disjoint := by simp
  numAlloc := rfl

/-- The sweep takes the dropped pair for an array and hands the number 5 to `memory_free`. -/
theorem not_collectsExactly_droppedPair :
    MarkReady droppedPair [] [] ∧ (marks [] droppedPair).map Prod.fst = some []
      ∧ ¬∃ oks h', collect [] droppedPair = some (oks, h')
        ∧ ExactCollection droppedPair (rootWords []) [] h' := by
  refine ⟨markReady_droppedPair, by decide +kernel, ?_⟩
  have hnone : (collect [] droppedPair).isSome = false := by decide +kernel
  rintro ⟨oks, h', hc, -⟩
  rw [hc] at hnone
  exact absurd hnone (by simp)

/-- A heap without free cells that holds nothing but lists: `ws` has the roots, is closed under
references, and its pointers are those of cons cells. -/
def fullOfLists (h : HeapState) (calls : List MarkCall) (ws : List VALUE) : Bool :=
  decide (h.heapSize ≤ h.heap.length) && decide (h.heapSize ≤ 2 ^ 23) && h.freelist == NIL
    && decide (h.numAlloc.toNat = h.heapSize)
    && (List.range h.heapSize).all
      (fun i => !valGetGcMark (h.cell i).cdr && !isSweptArray (h.cell i))
    && (rootWords calls ++ ws.flatMap (traceFields h)).all (ws.contains ·)
    && ws.all (fun w => !isPtr w || ptrType w == ptrTypeCons && decide (ptrIx w < h.heapSize))

theorem gcReady_of_fullOfLists {h : HeapState} {calls : List MarkCall} {ws : List VALUE}
    (hfull : fullOfLists h calls ws = true) : GcReady h calls [] := by
  simp only [fullOfLists, Bool.and_eq_true, decide_eq_true_eq, beq_iff_eq, List.all_eq_true,
    List.mem_append, List.contains_iff_mem] at hfull
  obtain ⟨⟨⟨⟨⟨⟨hfits, haddr⟩, hfl⟩, hnum⟩, hmarks⟩, hclosed⟩, hptr⟩ := hfull
  have hcons : ∀ w, w ∈ ws → isPtr w = true → ptrType w = ptrTypeCons ∧ ptrIx w < h.heapSize := by
    intro w hw hp
    have := hptr w hw
    simpa [hp] using this
  have hdom : MarkDomain h (· ∈ ws) :=
    { fields := fun v hv w hw => hclosed w (Or.inr (List.mem_flatMap.mpr ⟨v, hv, hw⟩))
      inRange := fun v hv hp => (hcons v hv hp).2
      noIndirection := fun v hv hp => by rw [(hcons v hv hp).1]; decide
      oneType := fun v w hv hw hpv hpw _ => (hcons v hv hpv).1.trans (hcons w hw hpw).1.symm }
  have hroots : ∀ r, r ∈ rootWords calls → r ∈ ws := fun r hr => hclosed r (Or.inl hr)
  have hcells : ∀ i, i < h.heapSize →
      valGetGcMark (h.cell i).cdr = false ∧ isSweptArray (h.cell i) = false := by
    intro i hi
    simpa using hmarks i (List.mem_range.mpr hi)
  refine ⟨⟨hfits, haddr, fun i hi => (hcells i hi).1, hdom.restrict hroots, ?_, ?_,
    List.nodup_nil, by simp, by simpa using hnum⟩, ?_⟩
  · intro us hus w hw hp
    have hmem : w ∈ rootWords calls := List.mem_flatMap.mpr ⟨_, hus, hw⟩
    rw [(hcons w (hroots w hmem) hp).1]
    decide
  · rw [hfl]
    exact .nil
  · intro i hi _ harray
    rw [(hcells i hi).2] at harray
    exact absurd harray (by simp)

end LispBM
