import LispBM.Heap.Collect

/-!
# LispBM — the heap over whole runs

A run starts with `heap_init` and goes on with allocations, writes to live cells, changes of
the root set and collections, in any order. `HeapInv` ties the free list, the allocation
counter, the mark bits and reachability together; every step keeps it (`HeapInv.step`), and
what a program relies on follows from it in every state of a run (`heapRun_spec`).

All of it rests on one way to bound reachability from above: a set of cells whose fields stay
within the set, and that the roots refer to, contains every live cell
(`safeWord_of_reachable`).
-/

namespace LispBM

open GraphTrace

/-! ## Bounding reachability -/

/-- A word that refers, if at all, to a cell of `L`, and as a cons cell. -/
def SafeWord (L : Nat → Prop) (v : VALUE) : Prop :=
  isPtr v = true → typeOf v = ptrTypeCons ∧ L (ptrIx v)

/-- Both fields of every cell of `L` are safe. -/
def SafeCells (h : HeapState) (L : Nat → Prop) : Prop :=
  ∀ i, L i → SafeWord L (h.cell i).car ∧ SafeWord L (h.cell i).cdr

theorem SafeWord.mono {L L' : Nat → Prop} {v : VALUE} (hv : SafeWord L v)
    (hL : ∀ i, L i → L' i) : SafeWord L' v := fun hp => ⟨(hv hp).1, hL _ (hv hp).2⟩

theorem safeWord_of_not_isPtr {L : Nat → Prop} {v : VALUE} (hv : isPtr v = false) :
    SafeWord L v := fun hp => absurd (hv.symm.trans hp) (by simp)

/-- The fields of a cons pointer are the car and the cdr of its cell. -/
theorem traceFields_of_cons {h : HeapState} {v : VALUE} (hv : typeOf v = ptrTypeCons) :
    traceFields h v = [(h.cell (ptrIx v)).car, (h.cell (ptrIx v)).cdr] := by
  have hp := isPtr_of_typeOf_cons hv
  have hleaf : isLeafType ptrTypeCons = false := by decide
  have hheap : isHeapPtr v = true := by
    rw [isHeapPtr, hp, ← typeOf_of_isPtr hp, hv]
    decide
  simp [traceFields, hheap, hv, hleaf, car_of_isPtr hp, cdr_of_isPtr hp]

theorem isPtr_of_mem_traceFields {h : HeapState} {v w : VALUE} (hw : w ∈ traceFields h v) :
    isPtr v = true := by
  cases hp : isPtr v with
  | true => rfl
  | false => simp [traceFields, isHeapPtr, hp] at hw

/-- **A closed set of cells bounds reachability.** -/
theorem safeWord_of_reachable {h : HeapState} {roots : List VALUE} {L : Nat → Prop}
    (hroots : ∀ r ∈ roots, SafeWord L r) (hcells : SafeCells h L) {v : VALUE}
    (hv : ReachableWord h roots v) : SafeWord L v := by
  obtain ⟨r, hr, hrv⟩ := hv
  induction hrv with
  | refl => exact hroots r hr
  | @tail u w _ hstep ih =>
    obtain ⟨hty, hL⟩ := ih (isPtr_of_mem_traceFields hstep)
    have hmem : w ∈ traceFields h u := hstep
    rw [traceFields_of_cons hty] at hmem
    rcases List.mem_pair.mp hmem with rfl | rfl
    · exact (hcells _ hL).1
    · exact (hcells _ hL).2

/-! ## The invariant -/

/-- The heap invariant: `l` is the free list, `roots` are the words the program holds. -/
structure HeapInv (h : HeapState) (roots : List VALUE) (l : List Nat) : Prop where
  fits : h.heapSize ≤ h.heap.length
  addressable : h.heapSize ≤ 2 ^ 23
  unmarked : ∀ i, i < h.heapSize → valGetGcMark (h.cell i).cdr = false
  freeChain : FreeChain h h.freelist l
  nodup : l.Nodup
  numAlloc : h.numAlloc.toNat + l.length = h.heapSize
  safe : ∀ v, ReachableWord h roots v →
    SafeWord (fun i => i < h.heapSize ∧ i ∉ l) v

section Invariant

variable {h : HeapState} {roots : List VALUE} {l : List Nat}

theorem live_of_reachableWord {v : VALUE} (hv : ReachableWord h roots v)
    (hty : typeOf v = ptrTypeCons) : Live h roots (ptrIx v) := by
  have hp := isPtr_of_typeOf_cons hty
  have hheap : isHeapPtr v = true := by
    rw [isHeapPtr, hp, ← typeOf_of_isPtr hp, hty]
    decide
  obtain ⟨r, hr, hrv⟩ := hv
  exact ⟨r, hr, v, hrv, by simp [objGraph, hheap]⟩

/-- A reachable word is safe for the set of live cells. -/
theorem HeapInv.safe_live (hinv : HeapInv h roots l) {v : VALUE}
    (hv : ReachableWord h roots v) : SafeWord (Live h roots) v := by
  intro hp
  have hty := (hinv.safe v hv hp).1
  exact ⟨hty, live_of_reachableWord hv hty⟩

theorem HeapInv.safeCells_live (hinv : HeapInv h roots l) : SafeCells h (Live h roots) := by
  rintro i ⟨r, hr, a, hra, ha⟩
  obtain ⟨hp, rfl⟩ := isPtr_of_node ha
  have hreach : ReachableWord h roots a := ⟨r, hr, hra⟩
  have hfields := traceFields_of_cons (h := h) (hinv.safe a hreach hp).1
  constructor
  · exact hinv.safe_live (hreach.field (by rw [hfields]; simp))
  · exact hinv.safe_live (hreach.field (by rw [hfields]; simp))

theorem HeapInv.live_lt (hinv : HeapInv h roots l) {i : Nat} (hi : Live h roots i) :
    i < h.heapSize ∧ i ∉ l := by
  obtain ⟨r, hr, a, hra, ha⟩ := hi
  obtain ⟨hp, rfl⟩ := isPtr_of_node ha
  exact (hinv.safe a ⟨r, hr, hra⟩ hp).2

theorem HeapInv.length_le (hinv : HeapInv h roots l) : l.length ≤ h.heapSize :=
  length_le_of_nodup_of_lt hinv.nodup hinv.freeChain.lt

/-- The invariant after a step, from a closed set of allocated cells that contains what the
roots refer to. -/
theorem HeapInv.of_safe {L : Nat → Prop} (fits : h.heapSize ≤ h.heap.length)
    (addressable : h.heapSize ≤ 2 ^ 23)
    (unmarked : ∀ i, i < h.heapSize → valGetGcMark (h.cell i).cdr = false)
    (freeChain : FreeChain h h.freelist l) (nodup : l.Nodup)
    (numAlloc : h.numAlloc.toNat + l.length = h.heapSize)
    (hL : ∀ i, L i → i < h.heapSize ∧ i ∉ l) (hroots : ∀ r ∈ roots, SafeWord L r)
    (hcells : SafeCells h L) : HeapInv h roots l :=
  ⟨fits, addressable, unmarked, freeChain, nodup, numAlloc,
    fun _ hv => (safeWord_of_reachable hroots hcells hv).mono hL⟩

end Invariant

/-! ## Initialisation -/

/-- The loop of `generate_freelist` links the cells below `k` and leaves the others alone. -/
theorem generateFreelistLoop_spec {h : HeapState} (hsize : h.heap.length ≤ 2 ^ 23) :
    ∀ k, k < h.heap.length →
      (generateFreelistLoop k h).heap.length = h.heap.length
        ∧ (generateFreelistLoop k h).heapSize = h.heapSize
        ∧ (generateFreelistLoop k h).freelist = h.freelist
        ∧ (generateFreelistLoop k h).numAlloc = h.numAlloc
        ∧ ∀ j, j < k → (generateFreelistLoop k h).cell j = ⟨RECOVERED, cellPtr (j + 1)⟩ := by
  intro k
  induction k with
  | zero => intro _; exact ⟨rfl, rfl, rfl, rfl, fun j hj => absurd hj (by omega)⟩
  | succ k ih =>
    intro hk
    obtain ⟨hlen, hsz, hfl, hna, hcells⟩ := ih (by omega)
    rw [generateFreelistLoop, setCdrRaw_setCarRaw, ptrIx_cellPtr (by omega)]
    refine ⟨by simpa using hlen, hsz, hfl, hna, fun j hj => ?_⟩
    rw [cell_setCell _ (by omega)]
    split
    · next he => rw [← he]
    · exact hcells j (by omega)

/-- `generate_freelist` links every cell to the next one, and the last one to NIL. -/
theorem generateFreelist_spec {h : HeapState} {m : Nat} (hlen : h.heap.length = m + 1)
    (hmax : m + 1 ≤ 2 ^ 23) :
    (generateFreelist h (m + 1)).heap.length = m + 1
      ∧ (generateFreelist h (m + 1)).heapSize = h.heapSize
      ∧ (generateFreelist h (m + 1)).freelist = cellPtr 0
      ∧ (generateFreelist h (m + 1)).numAlloc = h.numAlloc
      ∧ ∀ j, j ≤ m → ((generateFreelist h (m + 1)).cell j).cdr
          = if j < m then cellPtr (j + 1) else NIL := by
  obtain ⟨hlen', hsz, hfl, hna, hcells⟩ :=
    generateFreelistLoop_spec (h := { h with freelist := cellPtr 0 }) (k := m)
      (by show h.heap.length ≤ _; omega) (by show m < h.heap.length; omega)
  have hlen'' : (generateFreelistLoop m { h with freelist := cellPtr 0 }).heap.length = m + 1 :=
    hlen'.trans hlen
  rw [generateFreelist, Nat.add_sub_cancel, setCdrRaw, ptrIx_cellPtr (by omega)]
  refine ⟨by rw [setCell_heap_length, hlen''], hsz, hfl, hna, fun j hj => ?_⟩
  rw [cell_setCell _ (by omega)]
  by_cases hjm : m = j
  · rw [if_pos hjm, if_neg (by omega)]
  · rw [if_neg hjm, if_pos (by omega), hcells j (by omega)]

/-- Cells that are each linked to the next, the last one to NIL, are a chain. -/
theorem freeChain_range {g : HeapState} {m : Nat} (hsize : g.heapSize = m + 1)
    (hcdr : ∀ j, j ≤ m → (g.cell j).cdr = if j < m then cellPtr (j + 1) else NIL) :
    FreeChain g (cellPtr 0) (List.range' 0 (m + 1)) := by
  have hchain : ∀ k, k ≤ m → FreeChain g (cellPtr (m - k)) (List.range' (m - k) (k + 1)) := by
    intro k
    induction k with
    | zero =>
      intro _
      rw [List.range'_succ]
      refine .cons (by omega) ?_
      rw [hcdr _ (by omega), if_neg (by omega)]
      exact .nil
    | succ k ih =>
      intro hk
      rw [List.range'_succ]
      refine .cons (by omega) ?_
      rw [hcdr _ (by omega), if_pos (by omega), show m - (k + 1) + 1 = m - k from by omega]
      exact ih (by omega)
  have := hchain m le_rfl
  rwa [Nat.sub_self] at this

/-- **`heap_init` establishes the invariant**, whatever `malloc` left in the block. -/
theorem heapInv_heapInit {n : Nat} (hn : 1 ≤ n) (hmax : n ≤ 2 ^ 23) {malloced : List ConsCell}
    (hlen : malloced.length = n) (memory : MemoryState) :
    HeapInv (heapInit n malloced memory) [] (List.range' 0 n) := by
  obtain ⟨m, rfl⟩ : ∃ m, n = m + 1 := ⟨n - 1, by omega⟩
  unfold heapInit
  generalize hg₀ : HeapState.mk malloced _ _ _ _ _ _ _ _ _ = h₀
  have hsize₀ : h₀.heapSize = m + 1 := by rw [← hg₀]
  have halloc₀ : h₀.numAlloc = 0#32 := by rw [← hg₀]
  obtain ⟨hglen, hsize, hfree, halloc, hcdr⟩ :=
    generateFreelist_spec (h := h₀) (m := m) (by rw [← hg₀]; exact hlen) hmax
  rw [hsize₀] at hsize
  refine HeapInv.of_safe (L := fun _ => False) (by omega) (by omega) ?_ ?_ List.nodup_range' ?_
    (by simp) (by simp) (fun i hi => hi.elim)
  · intro i hi
    rw [hcdr i (by omega)]
    split
    · exact valGetGcMark_cellPtr _
    · decide
  · rw [hfree]
    exact freeChain_range hsize hcdr
  · rw [halloc, halloc₀, hsize, List.length_range']
    simp

/-! ## Steps -/

/-- A value a program may store: an immediate, or a pointer to a live cons cell, in either case
with the mark bit clear. -/
structure WellFormedValue (h : HeapState) (roots : List VALUE) (v : VALUE) : Prop where
  unmarked : valGetGcMark v = false
  safe : SafeWord (Live h roots) v

/-- What a program and its collector do to the heap, with the words the program holds. The
result of an allocation becomes a root. -/
inductive HeapStep : HeapState → List VALUE → HeapState → List VALUE → Prop where
  | cons {h h' : HeapState} {roots : List VALUE} {a d v : VALUE}
      (ha : WellFormedValue h roots a) (hd : WellFormedValue h roots d)
      (hcons : LispBM.cons a d h = (v, h')) : HeapStep h roots h' (v :: roots)
  | allocate {h h' : HeapState} {roots : List VALUE} {v : VALUE}
      (halloc : heapAllocateCell ptrTypeCons h = (v, h')) : HeapStep h roots h' (v :: roots)
  | setCar {h : HeapState} {roots : List VALUE} {c v : VALUE} (hc : isPtr c = true)
      (hlive : SafeWord (Live h roots) c) (hv : WellFormedValue h roots v) :
      HeapStep h roots (LispBM.setCar h c v) roots
  | setCdr {h : HeapState} {roots : List VALUE} {c v : VALUE} (hc : isPtr c = true)
      (hlive : SafeWord (Live h roots) c) (hv : WellFormedValue h roots v) :
      HeapStep h roots (LispBM.setCdr h c v) roots
  /-- roots are dropped, or words the program can get at are kept as roots -/
  | roots {h : HeapState} {roots roots' : List VALUE}
      (hroots : ∀ r ∈ roots', WellFormedValue h roots r) : HeapStep h roots h roots'
  /-- a collection that finds no dead pair it would take for an array -/
  | collect {h h' : HeapState} {roots : List VALUE} {calls : List MarkCall} {oks : List Bool}
      (hcalls : ∀ w, w ∈ rootWords calls ↔ w ∈ roots) (harrays : ArraysInside h roots)
      (hcollect : LispBM.collect calls h = some (oks, h')) (hok : ∀ ok ∈ oks, ok = true) :
      HeapStep h roots h' roots

/-- The states a run can reach. -/
inductive HeapRun : HeapState → List VALUE → Prop where
  | init {n : Nat} (hn : 1 ≤ n) (hmax : n ≤ 2 ^ 23) (malloced : List ConsCell)
      (hlen : malloced.length = n) (memory : MemoryState) :
      HeapRun (heapInit n malloced memory) []
  | step {h h' : HeapState} {roots roots' : List VALUE} (hrun : HeapRun h roots)
      (hstep : HeapStep h roots h' roots') : HeapRun h' roots'

section Steps

variable {h : HeapState} {roots : List VALUE} {l : List Nat}

theorem HeapInv.safe_root (hinv : HeapInv h roots l) {r : VALUE} (hr : r ∈ roots) :
    SafeWord (Live h roots) r := hinv.safe_live ⟨r, hr, .refl⟩

/-- The heap after its first free cell `i` was taken and filled with `c`. -/
def takeCell (h : HeapState) (i : Nat) (c : ConsCell) : HeapState :=
  { h.setCell i c with freelist := (h.cell i).cdr, numAlloc := h.numAlloc + 1#32 }

theorem cell_takeCell {i : Nat} (hi : i < h.heap.length) (j : Nat) (c : ConsCell) :
    (takeCell h i c).cell j = if i = j then c else h.cell j := cell_setCell h hi j c

/-- Taking the first free cell for `⟨a, d⟩` keeps the invariant; the new cell is a root. -/
theorem HeapInv.take {i : Nat} (hinv : HeapInv h roots (i :: l)) {a d : VALUE}
    (hfl : h.freelist = cellPtr i) (ha : SafeWord (Live h roots) a)
    (hd : SafeWord (Live h roots) d) (hdm : valGetGcMark d = false) :
    HeapInv (takeCell h i ⟨a, d⟩) (cellPtr i :: roots) l := by
  obtain ⟨hil, hnd⟩ := List.nodup_cons.mp hinv.nodup
  have hi : i < h.heapSize := hinv.freeChain.lt i (by simp)
  have hfits := hinv.fits
  have hsize := hinv.addressable
  have hcell := fun j => cell_takeCell (h := h) (i := i) (by omega) j ⟨a, d⟩
  have hrest : FreeChain h (h.cell i).cdr l := by
    have hc := hinv.freeChain
    rw [hfl] at hc
    generalize hv : cellPtr i = v at hc
    cases hc with
    | cons _ hrest => exact hrest
  -- the closed set of after: the live cells of before, and the new cell
  refine HeapInv.of_safe (L := fun j => Live h roots j ∨ j = i)
    (by rw [takeCell, setCell_heap_length]; exact hfits) hsize ?_ ?_ hnd ?_ ?_ ?_ ?_
  · intro j hj
    rw [hcell]
    split
    · exact hdm
    · exact hinv.unmarked j hj
  · refine hrest.congr rfl fun j hj => ?_
    rw [hcell, if_neg (by rintro rfl; exact hil hj)]
  · have := hinv.numAlloc
    simp only [List.length_cons] at this
    show (h.numAlloc + 1#32).toNat + l.length = h.heapSize
    bv_omega
  · rintro j (hj | rfl)
    · obtain ⟨hlt, hnl⟩ := hinv.live_lt hj
      exact ⟨hlt, fun hjl => hnl (List.mem_cons_of_mem _ hjl)⟩
    · exact ⟨hi, hil⟩
  · intro r hr
    rcases List.mem_cons.mp hr with rfl | hr
    · exact fun _ => ⟨typeOf_cellPtr (by omega), Or.inr (ptrIx_cellPtr (by omega))⟩
    · exact (hinv.safe_root hr).mono fun _ => Or.inl
  · intro j hj
    rw [hcell]
    split
    · exact ⟨ha.mono fun _ => Or.inl, hd.mono fun _ => Or.inl⟩
    · next hne =>
      have hlive : Live h roots j := hj.resolve_right (Ne.symm hne)
      obtain ⟨hcar, hcdr⟩ := hinv.safeCells_live j hlive
      exact ⟨hcar.mono fun _ => Or.inl, hcdr.mono fun _ => Or.inl⟩

/-- The two shapes of the free list. -/
theorem HeapInv.freelist_cases (hinv : HeapInv h roots l) :
    (h.freelist = NIL ∧ l = [])
      ∨ ∃ i l', l = i :: l' ∧ h.freelist = cellPtr i ∧ i < h.heapSize := by
  have hc := hinv.freeChain
  generalize hv : h.freelist = v at hc
  cases hc with
  | nil => exact Or.inl ⟨rfl, rfl⟩
  | cons hi _ => exact Or.inr ⟨_, _, rfl, rfl, hi⟩

/-- What `cons` does in a state of a run. -/
theorem HeapInv.cons_cases (hinv : HeapInv h roots l) (a d : VALUE) :
    (l = [] ∧ cons a d h = (encSym symreprMerror, h))
      ∨ ∃ i l', l = i :: l' ∧ h.freelist = cellPtr i ∧ i < h.heapSize
        ∧ cons a d h = (cellPtr i, takeCell h i ⟨a, d⟩) := by
  have hsize := hinv.addressable
  rcases hinv.freelist_cases with ⟨hfl, rfl⟩ | ⟨i, l', rfl, hfl, hi⟩
  · exact Or.inl ⟨rfl, cons_of_nil hfl a d⟩
  · have hty : typeOf h.freelist = ptrTypeCons := by rw [hfl]; exact typeOf_cellPtr (by omega)
    have hix : ptrIx h.freelist = i := by rw [hfl]; exact ptrIx_cellPtr (by omega)
    refine Or.inr ⟨i, l', rfl, hfl, hi, ?_⟩
    rw [cons_of_cons hty, refCell, hix, hfl, takeCell]

/-- `heap_allocate_cell(PTR_TYPE_CONS)` is `cons(NIL, NIL)`. -/
theorem HeapInv.heapAllocateCell_eq_cons (hinv : HeapInv h roots l) :
    heapAllocateCell ptrTypeCons h = cons NIL NIL h := by
  have hsize := hinv.addressable
  rcases hinv.freelist_cases with ⟨hfl, rfl⟩ | ⟨i, l', rfl, hfl, hi⟩
  · rw [heapAllocateCell_of_nil hfl, cons_of_nil hfl]
  · have hty : typeOf h.freelist = ptrTypeCons := by rw [hfl]; exact typeOf_cellPtr (by omega)
    rw [heapAllocateCell_of_cons hty, cons_of_cons hty, or_ptrTypeCons_eq_self hty]

theorem HeapInv.stepCons (hinv : HeapInv h roots l) {a d v : VALUE} {h' : HeapState}
    (ha : WellFormedValue h roots a) (hd : WellFormedValue h roots d)
    (hcons : cons a d h = (v, h')) : ∃ l', HeapInv h' (v :: roots) l' := by
  rcases hinv.cons_cases a d with ⟨rfl, heq⟩ | ⟨i, l', rfl, hfl, -, heq⟩
  · obtain ⟨rfl, rfl⟩ := Prod.mk.inj (hcons.symm.trans heq)
    -- the error symbol is a root that refers to nothing
    refine ⟨[], HeapInv.of_safe (L := Live h' roots) hinv.fits hinv.addressable hinv.unmarked
      hinv.freeChain hinv.nodup hinv.numAlloc (fun i hi => hinv.live_lt hi) ?_
      hinv.safeCells_live⟩
    intro r hr
    rcases List.mem_cons.mp hr with rfl | hr
    · exact safeWord_of_not_isPtr (by decide)
    · exact hinv.safe_root hr
  · obtain ⟨rfl, rfl⟩ := Prod.mk.inj (hcons.symm.trans heq)
    exact ⟨l', hinv.take hfl ha.safe hd.safe hd.unmarked⟩

/-- Overwriting a live cell with well-formed fields keeps the invariant. -/
theorem HeapInv.stepWrite (hinv : HeapInv h roots l) {i : Nat} (hi : Live h roots i) {c : ConsCell}
    (hcar : SafeWord (Live h roots) c.car) (hcdr : SafeWord (Live h roots) c.cdr)
    (hm : valGetGcMark c.cdr = false) : HeapInv (h.setCell i c) roots l := by
  have hfits := hinv.fits
  obtain ⟨hlt, hnl⟩ := hinv.live_lt hi
  have hcell : ∀ j, (h.setCell i c).cell j = if i = j then c else h.cell j :=
    fun j => cell_setCell h (by omega) j c
  refine HeapInv.of_safe (L := Live h roots) (by simpa using hfits) hinv.addressable ?_ ?_
    hinv.nodup hinv.numAlloc (fun j hj => hinv.live_lt hj) (fun r hr => hinv.safe_root hr) ?_
  · intro j hj
    rw [hcell]
    split
    · exact hm
    · exact hinv.unmarked j hj
  · refine hinv.freeChain.congr rfl fun j hj => ?_
    rw [hcell, if_neg (by rintro rfl; exact hnl hj)]
  · intro j hj
    rw [hcell]
    split
    · exact ⟨hcar, hcdr⟩
    · exact hinv.safeCells_live j hj

/-- A heap in a state of a run is ready for a collection from its roots. -/
theorem HeapInv.markReady (hinv : HeapInv h roots l) {calls : List MarkCall}
    (hcalls : ∀ w, w ∈ rootWords calls ↔ w ∈ roots) : MarkReady h calls l := by
  have hreach : ∀ v, ReachableWord h (rootWords calls) v → ReachableWord h roots v :=
    fun v ⟨r, hr, hrv⟩ => ⟨r, (hcalls r).mp hr, hrv⟩
  have hty : ∀ v, ReachableWord h (rootWords calls) v → isPtr v = true →
      ptrType v = ptrTypeCons := fun v hv hp => by
    rw [← typeOf_of_isPtr hp]
    exact (hinv.safe v (hreach v hv) hp).1
  refine ⟨hinv.fits, hinv.addressable, hinv.unmarked, ⟨fun v hv w hw => hv.field hw, ?_, ?_, ?_⟩,
    ?_, hinv.freeChain, hinv.nodup, ?_, hinv.numAlloc⟩
  · exact fun v hv hp => (hinv.safe v (hreach v hv) hp).2.1
  · intro v hv hp
    rw [hty v hv hp]
    decide
  · intro v w hv hw hpv hpw _
    rw [hty v hv hpv, hty w hw hpw]
  · intro ws hws w hw hp
    have hmem : w ∈ rootWords calls := List.mem_flatMap.mpr ⟨_, hws, hw⟩
    rw [hty w ⟨w, hmem, .refl⟩ hp]
    decide
  · rintro i hi ⟨r, hr, a, hra, ha⟩
    exact (hinv.live_lt ⟨r, (hcalls r).mp hr, a, hra, ha⟩).2 hi

/-- The marking calls may take the roots in any order. -/
theorem live_congr {h : HeapState} {roots roots' : List VALUE}
    (hroots : ∀ w, w ∈ roots' ↔ w ∈ roots) (i : Nat) : Live h roots' i ↔ Live h roots i :=
  ⟨fun ⟨r, hr, hri⟩ => ⟨r, (hroots r).mp hr, hri⟩, fun ⟨r, hr, hri⟩ => ⟨r, (hroots r).mpr hr, hri⟩⟩

/-- A collection from the roots: its marking ends, and when it was complete, so does the sweep,
unless it comes to a dead pair it takes for an array. -/
theorem HeapInv.collects (hinv : HeapInv h roots l) {calls : List MarkCall}
    (hcalls : ∀ w, w ∈ rootWords calls ↔ w ∈ roots) :
    ∃ oks h₁, marks calls h = some (oks, h₁) ∧ ((∀ ok ∈ oks, ok = true) →
      ((∃ h', collect calls h = some (oks, h')) ↔ ArraysInside h roots)) := by
  obtain ⟨oks, h₁, hmarks, hexact⟩ := (hinv.markReady hcalls).collect_iff_arraysInside
  refine ⟨oks, h₁, hmarks, fun hok => ?_⟩
  rw [hexact hok]
  simp only [ArraysInside, live_congr hcalls]

/-- The cells of an exact free list and the live cells make up the heap. -/
theorem ncard_live_add_length {P : Nat → Prop} {n : Nat} {l : List Nat} (hP : ∀ i, P i → i < n)
    (hnd : l.Nodup) (hl : ∀ i, i ∈ l ↔ i < n ∧ ¬P i) : {i | P i}.ncard + l.length = n := by
  have hset : {i | P i} = ((Finset.range n \ l.toFinset : Finset Nat) : Set Nat) := by
    ext i
    simp only [Set.mem_ofPred_eq, Finset.coe_sdiff, Set.mem_sdiff, Finset.mem_coe,
      Finset.mem_range, List.mem_toFinset, hl i]
    have := hP i
    tauto
  have hsub : l.toFinset ⊆ Finset.range n := fun i hi =>
    Finset.mem_range.mpr ((hl i).mp (List.mem_toFinset.mp hi)).1
  rw [hset, Set.ncard_coe_finset, ← List.toFinset_card_of_nodup hnd,
    Finset.card_sdiff_add_card_eq_card hsub, Finset.card_range]

theorem HeapInv.stepCollect (hinv : HeapInv h roots l) {calls : List MarkCall} {oks : List Bool}
    {h' : HeapState} (hcalls : ∀ w, w ∈ rootWords calls ↔ w ∈ roots)
    (hcollect : collect calls h = some (oks, h')) (hok : ∀ ok ∈ oks, ok = true) :
    ∃ l', HeapInv h' roots l' := by
  have hready := hinv.markReady hcalls
  have hex := hready.exact_of_collect hcollect hok
  have hlive : ∀ i, Live h roots i → Live h (rootWords calls) i :=
    fun i => (live_congr hcalls i).mpr
  obtain ⟨l', hchain, hnd, hmem⟩ := hex.free
  refine ⟨l', HeapInv.of_safe (L := Live h roots) ?_ ?_ hex.unmarked hchain hnd ?_ ?_
    (fun r hr => hinv.safe_root hr) ?_⟩
  · rw [hex.heapSize, hex.heap_length]
    exact hinv.fits
  · rw [hex.heapSize]
    exact hinv.addressable
  · rw [hex.numAlloc, hex.heapSize]
    exact ncard_live_add_length (fun i hi => hready.live_lt hi) hnd hmem
  · intro i hi
    rw [hex.heapSize]
    exact ⟨hready.live_lt (hlive i hi), fun hl => ((hmem i).mp hl).2 (hlive i hi)⟩
  · intro i hi
    rw [hex.live i (hlive i hi)]
    exact hinv.safeCells_live i hi

/-- **Every step keeps the heap invariant.** -/
theorem HeapInv.step {h' : HeapState} {roots' : List VALUE} (hinv : HeapInv h roots l)
    (hstep : HeapStep h roots h' roots') : ∃ l', HeapInv h' roots' l' := by
  -- Writing a cell keeps the free list; only an allocation and a collection change it.
  cases hstep with
  | cons ha hd hcons => exact hinv.stepCons ha hd hcons
  | allocate halloc =>
    have hnil : WellFormedValue h roots NIL := ⟨by decide, safeWord_of_not_isPtr (by decide)⟩
    rw [hinv.heapAllocateCell_eq_cons] at halloc
    exact hinv.stepCons hnil hnil halloc
  | @setCar _ c v hc hlive hv =>
    obtain ⟨hty, hL⟩ := hlive hc
    obtain ⟨-, hcdr⟩ := hinv.safeCells_live _ hL
    have heq : setCar h c v = h.setCell (ptrIx c) { h.cell (ptrIx c) with car := v } := by
      rw [typeOf_of_isPtr hc] at hty
      simp [setCar, hc, hty, setCarRaw, refCell]
    rw [heq]
    exact ⟨l, hinv.stepWrite hL hv.safe hcdr (hinv.unmarked _ (hinv.live_lt hL).1)⟩
  | @setCdr _ c v hc hlive hv =>
    obtain ⟨hty, hL⟩ := hlive hc
    obtain ⟨hcar, -⟩ := hinv.safeCells_live _ hL
    have heq : setCdr h c v = h.setCell (ptrIx c) { h.cell (ptrIx c) with cdr := v } := by
      simp [setCdr, hty, setCdrRaw, refCell]
    rw [heq]
    exact ⟨l, hinv.stepWrite hL hcar hv.safe hv.unmarked⟩
  | roots hroots =>
    exact ⟨l, HeapInv.of_safe (L := Live h roots) hinv.fits hinv.addressable hinv.unmarked
      hinv.freeChain hinv.nodup hinv.numAlloc (fun i hi => hinv.live_lt hi)
      (fun r hr => (hroots r hr).safe) hinv.safeCells_live⟩
  | collect hcalls _ hcollect hok => exact hinv.stepCollect hcalls hcollect hok

end Steps

theorem HeapRun.inv {h : HeapState} {roots : List VALUE} (hrun : HeapRun h roots) :
    ∃ l, HeapInv h roots l := by
  induction hrun with
  | init hn hmax malloced hlen memory => exact ⟨_, heapInv_heapInit hn hmax hlen memory⟩
  | step _ hstep ih =>
    obtain ⟨l, hinv⟩ := ih
    exact hinv.step hstep

/-! ## What a program can rely on -/

theorem heapNumFreeLoop_eq {h : HeapState} (hsize : h.heapSize ≤ 2 ^ 23) {v : VALUE}
    {l : List Nat} (hc : FreeChain h v l) : ∀ n count, l.length < n →
      heapNumFreeLoop h n v count = some (NIL, count + l.length) := by
  induction hc with
  | nil =>
    intro n count hn
    obtain ⟨n, rfl⟩ : ∃ k, n = k + 1 := ⟨n - 1, by omega⟩
    have hty : (typeOf NIL == ptrTypeCons) = false := by decide
    simp [heapNumFreeLoop, hty]
  | @cons i l hi _ ih =>
    intro n count hn
    obtain ⟨n, rfl⟩ : ∃ k, n = k + 1 := ⟨n - 1, by omega⟩
    simp only [List.length_cons] at hn
    have hty : typeOf (cellPtr i) = ptrTypeCons := typeOf_cellPtr (by omega)
    have hix : ptrIx (cellPtr i) = i := ptrIx_cellPtr (by omega)
    simp only [heapNumFreeLoop, hty, beq_self_eq_true, if_true, refCell, hix, List.length_cons]
    rw [ih n (count + 1) (by omega), show count + 1 + l.length = count + (l.length + 1) from by
      omega]

/-- `heap_num_free` counts the free list. -/
theorem HeapInv.heapNumFree_eq {h : HeapState} {roots : List VALUE} {l : List Nat}
    (hinv : HeapInv h roots l) : heapNumFree h = some l.length := by
  have hfits := hinv.fits
  have hlen := hinv.length_le
  rw [heapNumFree, heapNumFreeLoop_eq hinv.addressable hinv.freeChain _ _
    (by simp only [walkFuel]; omega)]
  have hty : (typeOf NIL == valTypeSymbol) = true := by decide
  simp [hty]

/-- What holds in every state of a run. The last clause says which collections the run can go on
with. -/
structure HeapSpec (h : HeapState) (roots : List VALUE) : Prop where
  /-- the free list is a chain of distinct cells that ends in NIL, and none of them is live -/
  free : ∃ l, FreeChain h h.freelist l ∧ l.Nodup ∧ ∀ i ∈ l, i < h.heapSize ∧ ¬Live h roots i
  count : ∃ n, heapNumFree h = some n ∧ n + (heapNumAllocated h).toNat = h.heapSize
  /-- a cell that `cons` returns was not reachable, and no other cell changes -/
  fresh : ∀ a d, heapNumFree h ≠ some 0 → ∃ i, (cons a d h).1 = cellPtr i ∧ i < h.heapSize
    ∧ ¬Live h roots i ∧ (cons a d h).2.cell i = ⟨a, d⟩
    ∧ ∀ j, j ≠ i → (cons a d h).2.cell j = h.cell j
  outOfMemory : ∀ a d, (cons a d h).1 = encSym symreprMerror ↔ heapNumFree h = some 0
  notFatal : ∀ a d, (cons a d h).1 ≠ encSym symreprFatalError
    ∧ (heapAllocateCell ptrTypeCons h).1 ≠ encSym symreprFatalError
  /-- a collection from the roots comes to its end unless it takes a dead pair for an array -/
  collects : ∀ calls, (∀ w, w ∈ rootWords calls ↔ w ∈ roots) →
    ∃ oks h₁, marks calls h = some (oks, h₁) ∧ ((∀ ok ∈ oks, ok = true) →
      ((∃ h', collect calls h = some (oks, h')) ↔ ArraysInside h roots))

theorem HeapInv.spec {h : HeapState} {roots : List VALUE} {l : List Nat}
    (hinv : HeapInv h roots l) : HeapSpec h roots := by
  have hfits := hinv.fits
  have hnum := hinv.heapNumFree_eq
  -- No pointer is a symbol, so a result tells whether a cell was taken.
  have hne : ∀ i s, isPtr (encSym s) = false → cellPtr i ≠ encSym s := by
    intro i s hs he
    exact absurd ((isPtr_cellPtr i).symm.trans (he ▸ hs)) (by simp)
  have hmerror : isPtr (encSym symreprMerror) = false := by decide
  have hfatal : isPtr (encSym symreprFatalError) = false := by decide
  have hdiff : encSym symreprMerror ≠ encSym symreprFatalError := by decide
  have hcons_ne : ∀ a d, (cons a d h).1 ≠ encSym symreprFatalError := by
    intro a d
    rcases hinv.cons_cases a d with ⟨-, heq⟩ | ⟨i, l', -, -, -, heq⟩
    · rw [heq]
      exact hdiff
    · rw [heq]
      exact hne i _ hfatal
  refine ⟨⟨l, hinv.freeChain, hinv.nodup, fun i hi => ⟨hinv.freeChain.lt i hi,
    fun hlive => (hinv.live_lt hlive).2 hi⟩⟩, ⟨l.length, hnum, ?_⟩, ?_, ?_, ?_,
    fun calls => hinv.collects⟩
  · have := hinv.numAlloc
    rw [heapNumAllocated]
    omega
  · intro a d hpos
    rcases hinv.cons_cases a d with ⟨rfl, -⟩ | ⟨i, l', rfl, -, hi, heq⟩
    · exact absurd hnum hpos
    · have hcell := fun j => cell_takeCell (h := h) (i := i) (by omega) j ⟨a, d⟩
      refine ⟨i, by rw [heq], hi, fun hlive => (hinv.live_lt hlive).2 (by simp), ?_, ?_⟩
      · rw [heq]
        exact (hcell i).trans (if_pos rfl)
      · intro j hj
        rw [heq]
        exact (hcell j).trans (if_neg (Ne.symm hj))
  · intro a d
    rcases hinv.cons_cases a d with ⟨rfl, heq⟩ | ⟨i, l', rfl, -, -, heq⟩
    · rw [heq, hnum]
      simp
    · rw [heq, hnum]
      simp [hne i _ hmerror]
  · intro a d
    refine ⟨hcons_ne a d, ?_⟩
    rw [hinv.heapAllocateCell_eq_cons]
    exact hcons_ne NIL NIL

/-- **The heap over whole runs.** -/
theorem heapRun_spec {h : HeapState} {roots : List VALUE} (hrun : HeapRun h roots) :
    HeapSpec h roots := by
  obtain ⟨l, hinv⟩ := hrun.inv
  exact hinv.spec

/-- A heap of two cells, in a block with old contents, beside a region of sixteen words. -/
def twoCells : HeapState := heapInit 2 [⟨7#32, 7#32⟩, ⟨7#32, 7#32⟩] sampleMemory

/-- The run that takes one of the cells for the pair `(a . d)` of two symbols or numbers and drops
it. -/
theorem heapRun_twoCells {a d : VALUE} (ha : valGetGcMark a = false) (hpa : isPtr a = false)
    (hd : valGetGcMark d = false) (hpd : isPtr d = false) :
    HeapRun (cons a d twoCells).2 [] := by
  have hinit : HeapRun twoCells [] := .init (n := 2) (by omega) (by norm_num) _ rfl _
  have hcons : HeapStep twoCells [] (cons a d twoCells).2 [(cons a d twoCells).1] :=
    .cons ⟨ha, safeWord_of_not_isPtr hpa⟩ ⟨hd, safeWord_of_not_isPtr hpd⟩ rfl
  exact (hinit.step hcons).step (.roots (by simp))

/-- The pair `(1)` is dropped and collected again. -/
theorem heapRun_spec_twoCells :
    ∃ h, collect [] (cons (encI 1#32) NIL twoCells).2 = some ([], h) ∧ HeapSpec h [] := by
  have hdrop := heapRun_twoCells (a := encI 1#32) (d := NIL) (by decide) (by decide) (by decide)
    (by decide)
  have hoks : (collect [] (cons (encI 1#32) NIL twoCells).2).map Prod.fst = some [] := by
    decide +kernel
  have hnot : ∀ i, i < 2 → isSweptArray ((cons (encI 1#32) NIL twoCells).2.cell i) = false := by
    decide +kernel
  have harrays : ArraysInside (cons (encI 1#32) NIL twoCells).2 [] := by
    intro i hi _ harray
    exact absurd ((hnot i hi).symm.trans harray) (by simp)
  obtain ⟨⟨oks, h⟩, hc, rfl⟩ := Option.map_eq_some_iff.mp hoks
  exact ⟨h, hc, heapRun_spec (hdrop.step (.collect (by simp [rootWords]) harrays hc (by simp)))⟩

/-- The pair `(5 . sym_array)` is dropped, and the collection that follows hands the number 5 to
`memory_free`. -/
theorem not_heapRun_twoCells :
    let h := (cons (encI 5#32) (encSym defReprArrayType) twoCells).2
    HeapRun h [] ∧ (marks [] h).map Prod.fst = some [] ∧ collect [] h = none :=
  ⟨heapRun_twoCells (by decide) (by decide) (by decide) (by decide), by decide +kernel,
    by decide +kernel⟩

end LispBM
