import LispBM.EcEval
import LispBM.Heap.Builders

/-!
# LispBM — allocations of the explicit-control evaluator

`ec_eval` collects in the middle of a step and repeats the allocation that has failed. A list in a
register or on the stack comes through this (`allocWithGc_onHeap`), provided that the collector
finds the heap in order and does not run out of its stack (`CollectsExactly`).

* `reverse_holding` — `reverse` returns the reversed list, or `out_of_memory`.
-/

namespace LispBM

/-! ## Reversing a list -/

section

variable {h h' : HeapState} {list v : VALUE} {ws us : List VALUE} {l : List Nat}

theorem cons_isSymbol (hl : FreeList h l) (a d : VALUE) :
    (cons a d h).1 = encSym symreprMerror ∧ l = []
      ∨ typeOf (cons a d h).1 ≠ valTypeSymbol
        ∧ ∃ l', FreeList (cons a d h).2 l' ∧ l.length = l'.length + 1 := by
  rcases hl.cons_cases a d with ⟨hnil, hcons⟩ | ⟨i, l', h', rfl, hi, hcons, -, hl', -⟩
  · exact .inl ⟨by rw [hcons], hnil⟩
  · have haddr := hl.addressable
    have hty : typeOf (cellPtr i) = ptrTypeCons := typeOf_cellPtr (by omega)
    rw [hcons]
    refine .inr ⟨?_, l', hl', List.length_cons⟩
    show typeOf (cellPtr i) ≠ valTypeSymbol
    rw [hty]
    decide

/-- `reverse` returns the reversed list, unless the cells do not last. -/
theorem reverse_holding (hlist : Holding h list ws) :
    ∃ v h', reverse list h = some (v, h')
      ∧ (isSymbolMerror v = true ∨ Holding h' v ws.reverse ∧ ws.length < walkFuel h) := by
  obtain ⟨is, l, hl, hfree, hdisj⟩ := hlist
  have hbuilds := builds_consAll hfree ws NIL
  have hlt := hfree.length_lt_walkFuel
  refine ⟨_, _, reverse_eq hfree hl hdisj, ?_⟩
  rcases Nat.lt_or_ge l.length ws.length with hshort | hle
  · left
    rw [hbuilds.short hshort]
    decide
  · obtain ⟨js, hjs, -, l', hl', -, hout⟩ := hbuilds.enough hle
    exact .inr ⟨⟨js, l', hjs.listOf, hl', hout⟩, Nat.lt_of_le_of_lt hle hlt⟩

theorem reverseLoop_takes : ∀ {n : Nat} {curr acc : VALUE} {h : HeapState},
    reverseLoop n curr acc h = some (v, h') → Takes h h' := by
  intro n
  induction n with
  | zero => intro curr acc h hres; cases hres
  | succ n ih =>
    intro curr acc h hres
    rw [reverseLoop] at hres
    split at hres
    · have htakes := cons_takes (car h curr) acc h
      rcases hc : cons (car h curr) acc h with ⟨acc', h₁⟩
      rw [hc] at hres htakes
      simp only at hres htakes
      split at hres
      · cases hres
        exact htakes
      · exact htakes.trans (ih hres)
    · cases hres
      exact Takes.refl _

theorem reverseLoop_heap_length : ∀ {n : Nat} {curr acc : VALUE} {h : HeapState},
    reverseLoop n curr acc h = some (v, h') → h'.heap.length = h.heap.length := by
  intro n
  induction n with
  | zero => intro curr acc h hres; cases hres
  | succ n ih =>
    intro curr acc h hres
    rw [reverseLoop] at hres
    split at hres
    · have hlen := cons_heap_length (car h curr) acc h
      rcases hc : cons (car h curr) acc h with ⟨acc', h₁⟩
      rw [hc] at hres hlen
      simp only at hres hlen
      split at hres
      · cases hres
        exact hlen
      · exact (ih hres).trans hlen
    · cases hres
      rfl

theorem reverse_heap_length (hres : reverse list h = some (v, h')) :
    h'.heap.length = h.heap.length := by
  unfold reverse at hres
  split at hres
  · cases hres
    rfl
  · exact reverseLoop_heap_length hres

theorem reverse_takes (hres : reverse list h = some (v, h')) : Takes h h' := by
  unfold reverse at hres
  split at hres
  · cases hres
    exact Takes.refl _
  · exact reverseLoop_takes hres

end

/-! ## What the machine holds -/

/-- A word of the machine, or an element of one of its lists. -/
inductive Rooted (h : HeapState) (roots : List VALUE) : VALUE → Prop where
  | root {v : VALUE} (hv : v ∈ roots) : Rooted h roots v
  | element {f v : VALUE} {ws : List VALUE} (hf : Rooted h roots f) (hlist : Holding h f ws)
      (hv : v ∈ ws) : Rooted h roots v

section

variable {h h' : HeapState} {roots : List VALUE} {v : VALUE} {ws : List VALUE} {l : List Nat}

theorem Rooted.takes (hv : Rooted h roots v) (ht : Takes h h') : Rooted h' roots v := by
  induction hv with
  | root hv => exact .root hv
  | element _ hlist hv ih => exact .element ih (hlist.takes ht) hv

theorem Rooted.reachable (hv : Rooted h roots v) : ReachableWord h roots v := by
  induction hv with
  | root hv => exact ⟨_, hv, .refl⟩
  | element _ hlist hv ih =>
    obtain ⟨is, l, hlist, -, -⟩ := hlist
    exact hlist.reachable ih _ hv

/-- An exact collection keeps the lists that can be reached. -/
theorem Holding.collected (hlist : Holding h v ws) (hx : ExactCollection h roots l h')
    (hv : ReachableWord h roots v) : Holding h' v ws := by
  obtain ⟨is, l₀, hlist, hfree, -⟩ := hlist
  obtain ⟨l', hchain, hnodup, hmem⟩ := hx.free
  have hlive := hlist.live hv
  refine ⟨is, l', hlist.congr fun i hi => hx.live i (hlive i hi), ⟨hchain, hnodup, ?_, ?_⟩, ?_⟩
  · rw [hx.heapSize, hx.heap_length]
    exact hfree.fits
  · rw [hx.heapSize]
    exact hfree.addressable
  · exact fun i hi hil => ((hmem i).mp hil).2 (hlive i hi)

end

namespace EcEval

/-- A collection in `s` finds the heap in order, and its marking is not cut. -/
def CollectsExactly (s : State) : Prop :=
  (∃ l, GcReady s.store.heap (gcCalls s) l)
    ∧ ∀ oks h', collect (gcCalls s) s.store.heap = some (oks, h') → ∀ ok ∈ oks, ok = true

def withHeap (s : State) (h : HeapState) : State := { s with store := { s.store with heap := h } }

/-- If the allocation fails in `s`, the collection before the second attempt is exact. -/
def RetriesExactly (s : State) (alloc : HeapState → Option (VALUE × HeapState)) : Prop :=
  ∀ v h, alloc s.store.heap = some (v, h) → isSymbolMerror v = true →
    CollectsExactly (withHeap s h)

/-- The lists of `s` are lists of `h` also. -/
structure KeepsRooted (s : State) (h : HeapState) : Prop where
  length : h.heap.length = s.store.heap.heap.length
  lists : ∀ {v ws}, Rooted s.store.heap (rootWords (gcCalls s)) v → Holding s.store.heap v ws →
    Holding h v ws

/-- An allocation that takes cells of the free list. -/
structure Allocates (alloc : HeapState → Option (VALUE × HeapState)) : Prop where
  takes : ∀ {h v h'}, alloc h = some (v, h') → Takes h h'
  length : ∀ {h v h'}, alloc h = some (v, h') → h'.heap.length = h.heap.length

section

variable {s : State} {alloc : HeapState → Option (VALUE × HeapState)}

theorem CollectsExactly.gc_eq (hgc : CollectsExactly s) :
    ∃ h, gc s = some (withHeap s h) ∧ KeepsRooted s h := by
  obtain ⟨⟨l, hready⟩, hmarked⟩ := hgc
  obtain ⟨⟨oks, M⟩, hvisits⟩ := Option.isSome_iff_exists.mp hready.visits_isSome
  obtain ⟨h, hcollect, -⟩ := hready.collect_swept hvisits
  have hexact := hready.exact_of_collect hcollect (hmarked oks h hcollect)
  refine ⟨h, ?_, hexact.heap_length, fun hv hlist => hlist.collected hexact hv.reachable⟩
  rw [gc, hcollect]
  rfl

theorem KeepsRooted.refl (s : State) : KeepsRooted s s.store.heap := ⟨rfl, fun _ hlist => hlist⟩

/-- An allocation that takes cells: its result is that of one attempt in a heap in which the lists
of the machine are still there. -/
theorem allocWithGc_onHeap (halloc : Allocates alloc)
    (hsome : ∀ h, KeepsRooted s h → ∃ v h', alloc h = some (v, h'))
    (hgc : RetriesExactly s alloc) :
    ∃ v h₁ h', allocWithGc s (onHeap alloc) = some (v, withHeap s h') ∧ KeepsRooted s h₁
      ∧ alloc h₁ = some (v, h') := by
  obtain ⟨v, h₀, hfirst⟩ := hsome s.store.heap (.refl s)
  unfold allocWithGc onHeap
  simp only [hfirst, Option.map_some, Option.bind_eq_bind, Option.bind_some]
  cases hmerror : isSymbolMerror v with
  | false => exact ⟨v, s.store.heap, h₀, rfl, .refl s, hfirst⟩
  | true =>
    -- what the first attempt has taken is garbage
    obtain ⟨h₁, hcollect, hkeeps⟩ := (hgc v h₀ hfirst hmerror).gc_eq
    have htakes := halloc.takes hfirst
    have hkeeps₁ : KeepsRooted s h₁ :=
      ⟨hkeeps.length.trans (halloc.length hfirst),
        fun hw hlist => hkeeps.lists (hw.takes htakes) (hlist.takes htakes)⟩
    obtain ⟨v', h', hsecond⟩ := hsome h₁ hkeeps₁
    have hgc' : gc { s with store := { s.store with heap := h₀ } } = some (withHeap s h₁) :=
      hcollect
    simp only [if_true, hgc', Option.bind_some, withHeap, hsecond, Option.map_some]
    exact ⟨v', h₁, h', rfl, hkeeps₁, hsecond⟩

theorem allocates_reverse (list : VALUE) : Allocates (reverse list) :=
  ⟨reverse_takes, reverse_heap_length⟩

end

end EcEval

end LispBM
