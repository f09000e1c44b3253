import LispBM.Env
import LispBM.Fundamental
import LispBM.Heap.Sweep

/-!
# LispBM — operations that only take cells from the free list

An operation that runs out of memory half way leaves behind the cells it has allocated. `Takes`
says that this is all it does to the cells: it takes a number of cells from the front of the
free list, fills them, and changes no cell that was not on the free list. Every operation of the
evaluators that allocates is of this kind, whether it succeeds or not.
-/

namespace LispBM

/-- `l` are the cells of the free list, each of them once. -/
structure FreeList (h : HeapState) (l : List Nat) : Prop where
  chain : FreeChain h h.freelist l
  nodup : l.Nodup
  fits : h.heapSize ≤ h.heap.length
  addressable : h.heapSize ≤ 2 ^ 23

/-- `h'` is `h` after some cells were taken from the free list. -/
def Takes (h h' : HeapState) : Prop :=
  ∀ l, FreeList h l → ∃ l', l' <:+ l ∧ FreeList h' l' ∧ ∀ i, i ∉ l → h'.cell i = h.cell i

namespace Takes

variable {h h' h'' : HeapState}

theorem of_cells_eq (hheap : h'.heap = h.heap) (hfl : h'.freelist = h.freelist)
    (hsize : h'.heapSize = h.heapSize) : Takes h h' := by
  intro l hl
  have hcell : ∀ i, h'.cell i = h.cell i := fun i => by rw [HeapState.cell, hheap]; rfl
  refine ⟨l, List.suffix_refl l, ⟨?_, hl.nodup, ?_, ?_⟩, fun i _ => hcell i⟩
  · rw [hfl]
    exact hl.chain.congr hsize fun i _ => by rw [hcell]
  · rw [hsize, hheap]
    exact hl.fits
  · rw [hsize]
    exact hl.addressable

theorem refl (h : HeapState) : Takes h h := of_cells_eq rfl rfl rfl

theorem trans (h₁ : Takes h h') (h₂ : Takes h' h'') : Takes h h'' := by
  intro l hl
  obtain ⟨l', hl', hfree', hcell'⟩ := h₁ l hl
  obtain ⟨l'', hl'', hfree'', hcell''⟩ := h₂ l' hfree'
  refine ⟨l'', hl''.trans hl', hfree'', fun i hi => ?_⟩
  rw [hcell'' i fun hi' => hi (hl'.subset hi'), hcell' i hi]

end Takes

/-! ## Allocation -/

variable {h : HeapState} {l : List Nat}

theorem FreeList.cases (hl : FreeList h l) :
    (h.freelist = NIL ∧ l = [])
      ∨ ∃ i l', l = i :: l' ∧ h.freelist = cellPtr i ∧ i < h.heapSize
        ∧ FreeChain h (h.cell i).cdr l' := by
  have hc := hl.chain
  generalize hv : h.freelist = v at hc
  cases hc with
  | nil => exact Or.inl ⟨rfl, rfl⟩
  | cons hi hrest => exact Or.inr ⟨_, _, rfl, rfl, hi, hrest⟩

/-- The free list after its first cell was taken and filled, and other fields were changed. -/
theorem FreeList.take {i : Nat} (hl : FreeList h (i :: l)) {h' : HeapState} {c : ConsCell}
    (hrest : FreeChain h (h.cell i).cdr l) (hheap : h'.heap = (h.setCell i c).heap)
    (hfl : h'.freelist = (h.cell i).cdr) (hsize : h'.heapSize = h.heapSize) :
    FreeList h' l ∧ ∀ j, j ∉ i :: l → h'.cell j = h.cell j := by
  obtain ⟨hil, hnd⟩ := List.nodup_cons.mp hl.nodup
  have hcell : ∀ j, i ≠ j → h'.cell j = h.cell j := fun j hj => by
    rw [← cell_setCell_ne h hj c]
    exact congrArg (fun cells => cells.getD j ⟨0#32, 0#32⟩) hheap
  refine ⟨⟨?_, hnd, ?_, ?_⟩, fun j hj => hcell j ?_⟩
  · rw [hfl]
    exact hrest.congr hsize fun j hj => by rw [hcell j (by rintro rfl; exact hil hj)]
  · rw [hsize, hheap, setCell_heap_length]
    exact hl.fits
  · rw [hsize]
    exact hl.addressable
  · rintro rfl
    exact hj (by simp)

/-- What `cons` does with the free list. -/
theorem FreeList.cons_cases (hl : FreeList h l) (a d : VALUE) :
    (l = [] ∧ cons a d h = (encSym symreprMerror, h))
      ∨ ∃ i l' h', l = i :: l' ∧ i < h.heapSize ∧ cons a d h = (cellPtr i, h')
        ∧ h'.cell i = ⟨a, d⟩ ∧ FreeList h' l' ∧ ∀ j, j ∉ l → h'.cell j = h.cell j := by
  rcases hl.cases with ⟨hfl, rfl⟩ | ⟨i, l', rfl, hfl, hi, hrest⟩
  · exact Or.inl ⟨rfl, cons_of_nil hfl a d⟩
  · have haddr := hl.addressable
    have hfits := hl.fits
    have hty : typeOf h.freelist = ptrTypeCons := by rw [hfl]; exact typeOf_cellPtr (by omega)
    have hix : ptrIx h.freelist = i := by rw [hfl]; exact ptrIx_cellPtr (by omega)
    have hcons := cons_of_cons hty a d
    rw [refCell, hix, hfl] at hcons
    refine Or.inr ⟨i, l', _, rfl, hi, hcons, ?_, hl.take hrest rfl rfl rfl⟩
    have hcell := cell_setCell h (i := i) (by omega) i ⟨a, d⟩
    rw [if_pos rfl] at hcell
    exact hcell

theorem cons_takes (a d : VALUE) (h : HeapState) : Takes h (cons a d h).2 := by
  intro l hl
  rcases hl.cons_cases a d with ⟨rfl, hcons⟩ | ⟨i, l', h', rfl, -, hcons, -, hfree, hkept⟩
  · rw [hcons]
    exact Takes.refl h _ hl
  · rw [hcons]
    exact ⟨l', List.suffix_cons i l', hfree, hkept⟩

theorem consAll_takes : ∀ (ws : List VALUE) (result : VALUE) (h : HeapState),
    Takes h (consAll ws result h).2 := by
  intro ws
  induction ws with
  | nil => intro result h; exact Takes.refl h
  | cons w ws ih =>
    intro result h
    rw [consAll]
    simp only
    split
    · exact cons_takes w result h
    · exact (cons_takes w result h).trans (ih _ _)

theorem setCar_setCdr_heap {g : HeapState} {c a d : VALUE} (hc : typeOf c = ptrTypeCons) :
    (setCdr (setCar g c a) c d).heap = (g.setCell (ptrIx c) ⟨a, d⟩).heap
      ∧ (setCdr (setCar g c a) c d).freelist = g.freelist
      ∧ (setCdr (setCar g c a) c d).heapSize = g.heapSize := by
  have hp := isPtr_of_typeOf_cons hc
  have hpt : ptrType c = ptrTypeCons := by rw [← typeOf_of_isPtr hp, hc]
  rw [setCdr, if_pos (by simp [hc]), setCar, if_pos (by simp [hp, hpt]), setCdrRaw_setCarRaw]
  exact ⟨rfl, rfl, rfl⟩

section Fundamentals

variable {fo : FloatOps} {h' : HeapState} {args : List VALUE} {nargs : UINT} {v : VALUE}

theorem Takes.of_some {r : VALUE × HeapState} (hr : Takes h r.2) (hres : some r = some (v, h')) :
    Takes h h' := by
  obtain rfl := Option.some.inj hres
  exact hr

end Fundamentals

/-! ## Environments -/

section Environments

variable {h' : HeapState} {v : VALUE}

theorem envBuildParamsArgsLoop_takes : ∀ {n : Nat} {param arg env : VALUE} {h : HeapState},
    envBuildParamsArgsLoop n param arg env h = some (v, h') → Takes h h' := by
  intro n
  induction n with
  | zero => intro param arg env h hres; exact absurd hres (by simp [envBuildParamsArgsLoop])
  | succ n ih =>
    intro param arg env h hres
    unfold envBuildParamsArgsLoop at hres
    rcases hentry : cons (car h param) (car h arg) h with ⟨entry, h₁⟩
    rcases henv : cons entry env h₁ with ⟨env₁, h₂⟩
    have htakes₁ : Takes h h₁ := by
      have := cons_takes (car h param) (car h arg) h
      rwa [hentry] at this
    have htakes₂ : Takes h₁ h₂ := by
      have := cons_takes entry env h₁
      rwa [henv] at this
    simp only [hentry, henv] at hres
    split_ifs at hres
    · cases hres
      exact htakes₁
    · cases hres
      exact htakes₁.trans htakes₂
    · exact (htakes₁.trans htakes₂).trans (ih hres)
    · exact Takes.of_some (Takes.refl h) hres

theorem envBuildParamsArgs_takes {params args env : VALUE}
    (hres : envBuildParamsArgs params args env h = some (v, h')) : Takes h h' := by
  unfold envBuildParamsArgs at hres
  obtain ⟨np, -, hres⟩ := Option.bind_eq_some_iff.mp hres
  obtain ⟨na, -, hres⟩ := Option.bind_eq_some_iff.mp hres
  split at hres
  · cases hres
    exact Takes.refl h
  · exact envBuildParamsArgsLoop_takes hres

end Environments

end LispBM
