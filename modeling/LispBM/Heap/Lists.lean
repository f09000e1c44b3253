import LispBM.Heap.Collect
import LispBM.Heap.Takes

/-!
# LispBM — lists in the heap

`ListOf h v ws is` says that `v` is the proper list of the words `ws`, in the cells `is`. Such a
list has no cell twice, so that a walk over it ends within `walkFuel`.
-/

namespace LispBM

/-- `v` is the list of the words `ws`, in the cells `is`. -/
inductive ListOf (h : HeapState) : VALUE → List VALUE → List Nat → Prop where
  | nil : ListOf h NIL [] []
  | cons {v : VALUE} {ws : List VALUE} {is : List Nat} (hty : typeOf v = ptrTypeCons)
      (hrest : ListOf h (cdr h v) ws is) : ListOf h v (car h v :: ws) (ptrIx v :: is)

section

variable {h h' : HeapState} {v a d : VALUE} {ws : List VALUE} {is l : List Nat}

theorem ListOf.congr (hl : ListOf h v ws is) (hcell : ∀ i ∈ is, h'.cell i = h.cell i) :
    ListOf h' v ws is := by
  induction hl with
  | nil => exact .nil
  | @cons v ws is hty _ ih =>
    have hp := isPtr_of_typeOf_cons hty
    have hv := hcell (ptrIx v) (by simp)
    have hcar : car h' v = car h v := by rw [car_of_isPtr hp, car_of_isPtr hp, hv]
    have hcdr : cdr h' v = cdr h v := by rw [cdr_of_isPtr hp, cdr_of_isPtr hp, hv]
    rw [← hcar]
    refine .cons hty ?_
    rw [hcdr]
    exact ih fun i hi => hcell i (List.mem_cons_of_mem _ hi)

theorem ListOf.uncons {w : VALUE} (hl : ListOf h v (w :: ws) is) :
    typeOf v = ptrTypeCons ∧ car h v = w ∧ ∃ js, is = ptrIx v :: js ∧ ListOf h (cdr h v) ws js := by
  generalize hws : w :: ws = us at hl
  cases hl with
  | nil => cases hws
  | cons hty hrest =>
    obtain ⟨rfl, rfl⟩ := List.cons.inj hws
    exact ⟨hty, rfl, _, rfl, hrest⟩

theorem ListOf.isSymbolNil_eq (hl : ListOf h v ws is) : isSymbolNil v = ws.isEmpty := by
  cases hl with
  | nil => rfl
  | cons hty _ =>
    have hcons : (ptrTypeCons == valTypeSymbol) = false := by decide
    rw [isSymbolNil, isSymbol, hty, hcons]
    rfl

/-! ### The cells of a list -/

theorem ListOf.cells_unique (hl : ListOf h v ws is) : ∀ {ws' : List VALUE} {is' : List Nat},
    ListOf h v ws' is' → is' = is := by
  induction hl with
  | nil =>
    intro ws' is' hl'
    cases hl' with
    | nil => rfl
    | cons hty _ => exact absurd hty (by decide)
  | @cons v ws is hty _ ih =>
    intro ws' is' hl'
    cases hl' with
    | nil => exact absurd hty (by decide)
    | cons _ hrest => rw [ih hrest]

/-- From each of its cells on, a list is a list. -/
theorem ListOf.from_cell (hl : ListOf h v ws is) : ∀ i ∈ is, ∃ u us js,
    typeOf u = ptrTypeCons ∧ ptrIx u = i ∧ ListOf h (cdr h u) us js ∧ i :: js <:+ is := by
  induction hl with
  | nil => simp
  | @cons v ws is hty hrest ih =>
    intro i hi
    rcases List.mem_cons.mp hi with rfl | hi
    · exact ⟨v, ws, is, hty, rfl, hrest, List.suffix_refl _⟩
    · obtain ⟨u, us, js, hu, hix, hlist, hsuf⟩ := ih i hi
      exact ⟨u, us, js, hu, hix, hlist, hsuf.trans (List.suffix_cons _ _)⟩

/-- A list that came back to one of its cells would not end. -/
theorem ListOf.nodup (hl : ListOf h v ws is) : is.Nodup := by
  induction hl with
  | nil => exact List.nodup_nil
  | @cons v ws is hty hrest ih =>
    refine List.nodup_cons.mpr ⟨fun hmem => ?_, ih⟩
    obtain ⟨u, us, js, hu, hix, hlist, hsuf⟩ := hrest.from_cell _ hmem
    have hcdr : cdr h u = cdr h v := by
      rw [cdr_of_isPtr (isPtr_of_typeOf_cons hu), cdr_of_isPtr (isPtr_of_typeOf_cons hty), hu, hty,
        hix]
    rw [hcdr] at hlist
    rw [hrest.cells_unique hlist] at hsuf
    have hlen := hsuf.length_le
    rw [List.length_cons] at hlen
    omega

theorem ListOf.car_mem (hl : ListOf h v ws is) : ∀ i ∈ is, (h.cell i).car ∈ ws := by
  induction hl with
  | nil => simp
  | @cons v ws is hty _ ih =>
    intro i hi
    rcases List.mem_cons.mp hi with rfl | hi
    · rw [← car_of_isPtr (isPtr_of_typeOf_cons hty)]
      exact List.mem_cons_self
    · exact List.mem_cons_of_mem _ (ih i hi)

theorem ListOf.length_eq (hl : ListOf h v ws is) : is.length = ws.length := by
  induction hl with
  | nil => rfl
  | cons _ _ ih => rw [List.length_cons, List.length_cons, ih]

/-- A walk over a list ends within `walkFuel`. -/
theorem ListOf.length_lt_walkFuel (hl : ListOf h v ws is) (hin : ∀ i ∈ is, i < h.heapSize)
    (hfits : h.heapSize ≤ h.heap.length) : ws.length < walkFuel h := by
  have hle := length_le_of_nodup_of_lt hl.nodup hin
  rw [hl.length_eq] at hle
  rw [walkFuel]
  omega

theorem ListOf.lengthLoop_eq (hl : ListOf h v ws is) : ∀ {n k : Nat}, ws.length < n →
    lengthLoop h n v k = some (k + ws.length) := by
  induction hl with
  | nil =>
    intro n k hn
    obtain ⟨n, rfl⟩ := Nat.exists_eq_succ_of_ne_zero (Nat.ne_of_gt hn)
    rfl
  | @cons v ws is hty _ ih =>
    intro n k hn
    rw [List.length_cons] at hn
    obtain ⟨n, rfl⟩ : ∃ m, n = m + 1 := Nat.exists_eq_succ_of_ne_zero (by omega)
    rw [lengthLoop, hty, if_pos (by rfl), ih (by omega), List.length_cons]
    congr 1
    omega

/-! ### The collector -/

theorem isHeapPtr_of_cons (hty : typeOf v = ptrTypeCons) : isHeapPtr v = true := by
  have hp := isPtr_of_typeOf_cons hty
  rw [typeOf_of_isPtr hp] at hty
  rw [isHeapPtr, hp, hty]
  decide

theorem ListOf.live (hl : ListOf h v ws is) {roots : List VALUE} (hv : ReachableWord h roots v) :
    ∀ i ∈ is, Live h roots i := by
  induction hl with
  | nil => simp
  | @cons v ws is hty _ ih =>
    have hheap := isHeapPtr_of_cons hty
    have hleaf : isLeafType (typeOf v) = false := by rw [hty]; decide
    intro i hi
    rcases List.mem_cons.mp hi with rfl | hi
    · obtain ⟨r, hr, hrv⟩ := hv
      exact ⟨r, hr, v, hrv, by simp [objGraph, hheap]⟩
    · refine ih (hv.field ?_) i hi
      simp [traceFields, hheap, hleaf]

theorem ListOf.reachable (hl : ListOf h v ws is) {roots : List VALUE}
    (hv : ReachableWord h roots v) : ∀ w ∈ ws, ReachableWord h roots w := by
  induction hl with
  | nil => simp
  | @cons v ws is hty _ ih =>
    have hheap := isHeapPtr_of_cons hty
    have hleaf : isLeafType (typeOf v) = false := by rw [hty]; decide
    intro w hw
    rcases List.mem_cons.mp hw with rfl | hw
    · exact hv.field (by simp [traceFields, hheap, hleaf])
    · exact ih (hv.field (by simp [traceFields, hheap, hleaf])) w hw

theorem ReachableWord.live {roots : List VALUE} (hv : ReachableWord h roots v)
    (hty : typeOf v = ptrTypeCons) : Live h roots (ptrIx v) := by
  obtain ⟨r, hr, hrv⟩ := hv
  exact ⟨r, hr, v, hrv, by simp [objGraph, isHeapPtr_of_cons hty]⟩

/-! ### A cell put in front -/

/-- `cons(a, d)` took the cell `i` and left `l` free. -/
structure Conses (h : HeapState) (i : Nat) (l : List Nat) (a d : VALUE) (h' : HeapState) :
    Prop where
  eq : LispBM.cons a d h = (cellPtr i, h')
  free : FreeList h' l
  fresh : i ∉ l
  lt : i < h.heapSize
  type : typeOf (cellPtr i) = ptrTypeCons
  ix : ptrIx (cellPtr i) = i
  car : car h' (cellPtr i) = a
  cdr : cdr h' (cellPtr i) = d
  kept : ∀ j, j ∉ i :: l → h'.cell j = h.cell j
  size : h'.heapSize = h.heapSize
  length : h'.heap.length = h.heap.length

theorem FreeList.conses {i : Nat} (hl : FreeList h (i :: l)) (a d : VALUE) :
    ∃ h', Conses h i l a d h' := by
  rcases hl.cons_cases a d with ⟨hnil, -⟩ | ⟨j, l', h', hjl, hj, hcons, hnew, hfree, hkept⟩
  · exact absurd hnil (by simp)
  obtain ⟨rfl, rfl⟩ := List.cons.inj hjl
  have haddr := hl.addressable
  have hix : ptrIx (cellPtr i) = i := ptrIx_cellPtr (by omega)
  have hty : typeOf (cellPtr i) = ptrTypeCons := typeOf_cellPtr (by omega)
  have hcar := car_of_isPtr (h := h') (isPtr_cellPtr i)
  have hcdr := cdr_of_isPtr (h := h') (isPtr_cellPtr i)
  rw [hix, hnew] at hcar hcdr
  rw [if_pos hty] at hcdr
  have hsame : h'.heapSize = h.heapSize ∧ h'.heap.length = h.heap.length := by
    have hfl : typeOf h.freelist = ptrTypeCons := by
      rcases hl.cases with ⟨-, hnil⟩ | ⟨k, l', hkl, hfl, hk, -⟩
      · exact absurd hnil (by simp)
      · rw [hfl]
        exact typeOf_cellPtr (by omega)
    have heq := cons_of_cons hfl a d
    rw [hcons] at heq
    rw [(Prod.mk.inj heq).2]
    exact ⟨rfl, setCell_heap_length _ _ _⟩
  exact ⟨h', hcons, hfree, (List.nodup_cons.mp hl.nodup).1, hj, hty, hix, hcar, hcdr, hkept,
    hsame.1, hsame.2⟩

@[simp] theorem cons_heap_length (a d : VALUE) (h : HeapState) :
    (LispBM.cons a d h).2.heap.length = h.heap.length := by
  unfold LispBM.cons heapAllocateCell
  simp only
  split_ifs <;> simp [setCarRaw, setCdrRaw, clrGcMark]

@[simp] theorem cons_heapSize (a d : VALUE) (h : HeapState) :
    (LispBM.cons a d h).2.heapSize = h.heapSize := by
  unfold LispBM.cons heapAllocateCell
  simp only
  split_ifs <;> simp [setCarRaw, setCdrRaw, clrGcMark]

/-- A walk that takes a free cell with every step ends within `walkFuel`. -/
theorem FreeList.length_lt_walkFuel (hl : FreeList h l) : l.length < walkFuel h := by
  have hle := length_le_of_nodup_of_lt hl.nodup hl.chain.lt
  have := hl.fits
  rw [walkFuel]
  omega

theorem FreeList.cons_eq_merror (hl : FreeList h []) (a d : VALUE) :
    LispBM.cons a d h = (encSym symreprMerror, h) := by
  rcases hl.cons_cases a d with ⟨-, hcons⟩ | ⟨i, l', h', hil, -⟩
  · exact hcons
  · exact absurd hil (by simp)

theorem Conses.listOf {i : Nat} (hc : Conses h i l a d h') (hd : ListOf h d ws is)
    (hused : ∀ j ∈ is, j ∉ i :: l) : ListOf h' (cellPtr i) (a :: ws) (i :: is) := by
  have hrest : ListOf h' (LispBM.cdr h' (cellPtr i)) ws is := by
    rw [hc.cdr]
    exact hd.congr fun j hj => hc.kept j (hused j hj)
  have hlist := ListOf.cons hc.type hrest
  rw [hc.car, hc.ix] at hlist
  exact hlist

/-- A list in a heap with the free list `l`, and none of its cells free. -/
structure Holding (h : HeapState) (v : VALUE) (ws : List VALUE) : Prop where
  exists_cells : ∃ is l, ListOf h v ws is ∧ FreeList h l ∧ ∀ i ∈ is, i ∉ l

theorem Holding.exists_free (hh : Holding h v ws) : ∃ l, FreeList h l := by
  obtain ⟨_, l, -, hfree, -⟩ := hh
  exact ⟨l, hfree⟩

theorem Holding.takes (hh : Holding h v ws) (ht : Takes h h') : Holding h' v ws := by
  obtain ⟨is, l, hlist, hfree, hdisj⟩ := hh
  obtain ⟨l', hsuffix, hfree', hcell⟩ := ht l hfree
  exact ⟨is, l', hlist.congr fun i hi => hcell i (hdisj i hi), hfree',
    fun i hi hl => hdisj i hi (hsuffix.subset hl)⟩

theorem Holding.uncons {w : VALUE} (hh : Holding h v (w :: ws)) :
    typeOf v = ptrTypeCons ∧ car h v = w ∧ Holding h (LispBM.cdr h v) ws := by
  obtain ⟨is, l, hlist, hfree, hdisj⟩ := hh
  obtain ⟨hty, hcar, js, rfl, hrest⟩ := hlist.uncons
  exact ⟨hty, hcar, js, l, hrest, hfree, fun j hj => hdisj j (List.mem_cons_of_mem _ hj)⟩

theorem Holding.cons (hh : Holding h d ws) (hcell : typeOf (LispBM.cons a d h).1 ≠ valTypeSymbol) :
    Holding (LispBM.cons a d h).2 (LispBM.cons a d h).1 (a :: ws) := by
  obtain ⟨is, l, hlist, hfree, hdisj⟩ := hh
  cases l with
  | nil =>
    rw [hfree.cons_eq_merror a d] at hcell
    exact absurd (typeOf_encSym _) hcell
  | cons i l =>
    obtain ⟨h', hc⟩ := hfree.conses a d
    rw [hc.eq]
    refine ⟨i :: is, l, hc.listOf hlist hdisj, hc.free, ?_⟩
    intro j hj
    rcases List.mem_cons.mp hj with rfl | hj
    · exact hc.fresh
    · exact fun hl => hdisj j hj (List.mem_cons_of_mem _ hl)

end

/-! ### Lists of a given heap -/

def isChain (h : HeapState) : VALUE → List Nat → Bool
  | v, [] => v == NIL
  | v, i :: l => v == cellPtr i && decide (i < h.heapSize) && isChain h (h.cell i).cdr l

theorem freeChain_of_isChain {h : HeapState} : ∀ {l : List Nat} {v : VALUE},
    isChain h v l = true → FreeChain h v l
  | [], v, hc => by
    obtain rfl : v = NIL := by simpa [isChain] using hc
    exact .nil
  | i :: l, v, hc => by
    simp only [isChain, Bool.and_eq_true, beq_iff_eq, decide_eq_true_eq] at hc
    obtain ⟨⟨rfl, hi⟩, hrest⟩ := hc
    exact .cons hi (freeChain_of_isChain hrest)

def isListOf (h : HeapState) : VALUE → List VALUE → List Nat → Bool
  | v, [], [] => v == NIL
  | v, w :: ws, i :: is =>
      typeOf v == ptrTypeCons && car h v == w && ptrIx v == i && isListOf h (cdr h v) ws is
  | _, _, _ => false

theorem listOf_of_isListOf {h : HeapState} {ws : List VALUE} : ∀ {v : VALUE} {is : List Nat},
    isListOf h v ws is = true → ListOf h v ws is := by
  induction ws with
  | nil =>
    intro v is hl
    cases is with
    | nil =>
      obtain rfl : v = NIL := by simpa [isListOf] using hl
      exact .nil
    | cons i is => exact absurd hl (by simp [isListOf])
  | cons w ws ih =>
    intro v is hl
    cases is with
    | nil => exact absurd hl (by simp [isListOf])
    | cons i is =>
      simp only [isListOf, Bool.and_eq_true, beq_iff_eq] at hl
      obtain ⟨⟨⟨hty, rfl⟩, rfl⟩, hrest⟩ := hl
      exact .cons hty (ih hrest)

/-- The cells `l` are the free list. -/
def isFreeList (h : HeapState) (l : List Nat) : Bool :=
  isChain h h.freelist l && decide l.Nodup && decide (h.heapSize ≤ h.heap.length)
    && decide (h.heapSize ≤ 2 ^ 23)

theorem freeList_of_isFreeList {h : HeapState} {l : List Nat} (hl : isFreeList h l = true) :
    FreeList h l := by
  simp only [isFreeList, Bool.and_eq_true, decide_eq_true_eq] at hl
  obtain ⟨⟨⟨hchain, hnodup⟩, hfits⟩, haddr⟩ := hl
  exact ⟨freeChain_of_isChain hchain, hnodup, hfits, haddr⟩

end LispBM
