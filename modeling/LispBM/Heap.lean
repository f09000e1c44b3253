import LispBM.Memory

/-!
# LispBM — the heap of cons cells (`src/heap.c`)

The heap is an array of two-word cells. Free cells form a list threaded through their cdr
words; `heap_allocate_cell` pops it. The collector's mark bit is bit 1 of the cdr word of a
cell. The collector itself is in `LispBM.Heap.Gc`.

Loops of the source that walk the heap are given `walkFuel` iterations: the walks follow cdr
words and change nothing on the way, so one that visits more cells than there are has entered
a cycle and never returns. That is what `none` stands for.
-/

namespace LispBM

/-- `cons_t`. -/
structure ConsCell where
  car : VALUE
  cdr : VALUE
deriving DecidableEq, Repr

/-- `heap_state_t`, together with the state of the memory manager that owns the data of array
cells. `heap` is the memory from the heap's base address on; its first `heapSize` cells are
the heap. -/
structure HeapState where
  heap : List ConsCell
  freelist : VALUE
  heapSize : Nat
  numAlloc : UINT
  numAllocArrays : UINT
  gcNum : UINT
  gcMarked : UINT
  gcRecovered : UINT
  gcRecoveredArrays : UINT
  memory : MemoryState
deriving DecidableEq, Repr

namespace HeapState

/-- The cell at index `i`. -/
def cell (h : HeapState) (i : Nat) : ConsCell := h.heap.getD i ⟨0#32, 0#32⟩

def setCell (h : HeapState) (i : Nat) (c : ConsCell) : HeapState :=
  { h with heap := h.heap.set i c }

end HeapState

/-! ## Raw cell access -/

def refCell (h : HeapState) (addr : VALUE) : ConsCell := h.cell (ptrIx addr)

/-- `set_car_` on the cell a pointer addresses. -/
def setCarRaw (h : HeapState) (addr v : VALUE) : HeapState :=
  h.setCell (ptrIx addr) { refCell h addr with car := v }

/-- `set_cdr_` on the cell a pointer addresses. -/
def setCdrRaw (h : HeapState) (addr v : VALUE) : HeapState :=
  h.setCell (ptrIx addr) { refCell h addr with cdr := v }

def setGcMark (h : HeapState) (addr : VALUE) : HeapState :=
  setCdrRaw h addr (valSetGcMark (refCell h addr).cdr)

def clrGcMark (h : HeapState) (addr : VALUE) : HeapState :=
  setCdrRaw h addr (valClrGcMark (refCell h addr).cdr)

def getGcMark (h : HeapState) (addr : VALUE) : Bool := valGetGcMark (refCell h addr).cdr

/-! ## Taking values apart -/

def car (h : HeapState) (c : VALUE) : VALUE :=
  if typeOf c == valTypeSymbol && c == NIL then c
  else if isPtr c then (refCell h c).car
  else encSym symreprTerror

def cdr (h : HeapState) (c : VALUE) : VALUE :=
  if typeOf c == valTypeSymbol && c == NIL then c
  else if typeOf c == ptrTypeCons then (refCell h c).cdr
  else encSym symreprTerror

def setCar (h : HeapState) (c v : VALUE) : HeapState :=
  if isPtr c && ptrType c == ptrTypeCons then setCarRaw h c v else h

def setCdr (h : HeapState) (c v : VALUE) : HeapState :=
  if typeOf c == ptrTypeCons then setCdrRaw h c v else h

/-! ## Initialisation -/

/-- The loop of `generate_freelist` over `i = 1 .. num_cells - 1`: cell `i - 1` is linked to
cell `i`. -/
def generateFreelistLoop : Nat → HeapState → HeapState
  | 0, h => h
  | i + 1, h =>
      let h := generateFreelistLoop i h
      setCdrRaw (setCarRaw h (cellPtr i) RECOVERED) (cellPtr i) (cellPtr (i + 1))

def generateFreelist (h : HeapState) (numCells : Nat) : HeapState :=
  let h := { h with freelist := cellPtr 0 }
  let h := generateFreelistLoop (numCells - 1) h
  setCdrRaw h (cellPtr (numCells - 1)) NIL

/-- `heap_init`: `malloced` is the uninitialised block `malloc` returned for `numCells` cells. -/
def heapInit (numCells : Nat) (malloced : List ConsCell) (memory : MemoryState) : HeapState :=
  generateFreelist
    { heap := malloced
      freelist := 0#32
      heapSize := numCells
      numAlloc := 0#32
      numAllocArrays := 0#32
      gcNum := 0#32
      gcMarked := 0#32
      gcRecovered := 0#32
      gcRecoveredArrays := 0#32
      memory := memory }
    numCells

/-! ## Allocation -/

def heapAllocateCell (ty : TYPE) (h : HeapState) : VALUE × HeapState :=
  if !isPtr h.freelist then
    if typeOf h.freelist == valTypeSymbol && h.freelist == NIL then (encSym symreprMerror, h)
    else (encSym symreprFatalError, h)
  else if typeOf h.freelist != ptrTypeCons then (encSym symreprFatalError, h)
  else
    let res := h.freelist
    let h := { h with freelist := cdr h h.freelist, numAlloc := h.numAlloc + 1#32 }
    -- some ok initial values (nil . nil), with the mark clear
    let h := setCarRaw h res NIL
    let h := setCdrRaw h res NIL
    let h := clrGcMark h res
    (res ||| ty, h)

def cons (a d : VALUE) (h : HeapState) : VALUE × HeapState :=
  let (addr, h) := heapAllocateCell ptrTypeCons h
  if isPtr addr then (addr, setCdrRaw (setCarRaw h addr a) addr d) else (addr, h)

/-- Iterations after which a read-only walk over the heap must have revisited a cell. -/
def walkFuel (h : HeapState) : Nat := h.heap.length + 1

def heapNumFreeLoop (h : HeapState) : Nat → VALUE → Nat → Option (VALUE × Nat)
  | 0, _, _ => none
  | n + 1, curr, count =>
      if typeOf curr == ptrTypeCons then heapNumFreeLoop h n (refCell h curr).cdr (count + 1)
      else some (curr, count)

/-- `heap_num_free`; the test after the walk is the source's "prudence". -/
def heapNumFree (h : HeapState) : Option Nat :=
  match heapNumFreeLoop h (walkFuel h) h.freelist 0 with
  | none => none
  | some (curr, count) =>
      if !(typeOf curr == valTypeSymbol) && curr == NIL then some 0 else some count

def heapNumAllocated (h : HeapState) : UINT := h.numAlloc

/-! ## Lists -/

def lengthLoop (h : HeapState) : Nat → VALUE → Nat → Option Nat
  | 0, _, _ => none
  | n + 1, c, len =>
      if typeOf c == ptrTypeCons then lengthLoop h n (cdr h c) (len + 1) else some len

def length (h : HeapState) (c : VALUE) : Option Nat := lengthLoop h (walkFuel h) c 0

def reverseLoop : Nat → VALUE → VALUE → HeapState → Option (VALUE × HeapState)
  | 0, _, _, _ => none
  | n + 1, curr, newList, h =>
      if typeOf curr == ptrTypeCons then
        let (newList, h) := cons (car h curr) newList h
        if typeOf newList == valTypeSymbol then some (encSym symreprMerror, h)
        else reverseLoop n (cdr h curr) newList h
      else some (newList, h)

/-- `reverse`. Every iteration takes a free cell, so the walk ends within the heap size. -/
def reverse (list : VALUE) (h : HeapState) : Option (VALUE × HeapState) :=
  if typeOf list == valTypeSymbol && list == NIL then some (list, h)
  else reverseLoop (walkFuel h) list NIL h

/-- An expression before it is in the heap. -/
inductive Datum where
  | atom (v : VALUE)
  | pair (a d : Datum)

namespace Datum

def sym (id : UINT) : Datum := atom (encSym id)

def int (n : UINT) : Datum := atom (encI n)

def list : List Datum → Datum
  | [] => atom NIL
  | a :: as => pair a (list as)

/-- The expression is built with `cons`, as the reader does it. -/
def build : Datum → HeapState → VALUE × HeapState
  | atom v, h => (v, h)
  | pair a d, h =>
      let (va, h) := a.build h
      let (vd, h) := d.build h
      cons va vd h

end Datum

/-! ## The cell array -/

@[simp] theorem setCell_freelist (h : HeapState) (i : Nat) (c : ConsCell) :
    (h.setCell i c).freelist = h.freelist := rfl

@[simp] theorem setCell_heapSize (h : HeapState) (i : Nat) (c : ConsCell) :
    (h.setCell i c).heapSize = h.heapSize := rfl

@[simp] theorem setCell_heap_length (h : HeapState) (i : Nat) (c : ConsCell) :
    (h.setCell i c).heap.length = h.heap.length := by
  simp [HeapState.setCell]

theorem cell_setCell (h : HeapState) {i : Nat} (hi : i < h.heap.length) (j : Nat) (c : ConsCell) :
    (h.setCell i c).cell j = if i = j then c else h.cell j := by
  simp only [HeapState.cell, HeapState.setCell, List.getD_eq_getElem?_getD]
  by_cases hij : i = j
  · subst hij
    rw [List.getElem?_set_self hi, if_pos rfl]
    rfl
  · rw [List.getElem?_set_ne hij, if_neg hij]

theorem cell_setCell_ne (h : HeapState) {i j : Nat} (hij : i ≠ j) (c : ConsCell) :
    (h.setCell i c).cell j = h.cell j := by
  simp only [HeapState.cell, HeapState.setCell, List.getD_eq_getElem?_getD]
  rw [List.getElem?_set_ne hij]

@[simp] theorem setCell_setCell (h : HeapState) (i : Nat) (c d : ConsCell) :
    (h.setCell i c).setCell i d = h.setCell i d := by
  simp [HeapState.setCell]

theorem setCell_of_length_le (h : HeapState) {i : Nat} (hi : h.heap.length ≤ i) (c : ConsCell) :
    h.setCell i c = h := by
  simp only [HeapState.setCell, List.set_eq_of_length_le hi]

/-- Writing the car and then the cdr of a cell writes the cell. -/
theorem setCdrRaw_setCarRaw (h : HeapState) (addr a d : VALUE) :
    setCdrRaw (setCarRaw h addr a) addr d = h.setCell (ptrIx addr) ⟨a, d⟩ := by
  by_cases hi : ptrIx addr < h.heap.length
  · simp [setCdrRaw, setCarRaw, refCell, cell_setCell h hi]
  · have hle : h.heap.length ≤ ptrIx addr := by omega
    simp [setCdrRaw, setCarRaw, setCell_of_length_le h hle]

/-! ## Allocation takes the first cell of the free list -/

/-- An allocation from a free list that starts with a cons pointer. -/
theorem heapAllocateCell_of_cons {h : HeapState}
    (hfl : typeOf h.freelist = ptrTypeCons) (ty : TYPE) :
    heapAllocateCell ty h
      = (h.freelist ||| ty,
          { h.setCell (ptrIx h.freelist) ⟨NIL, NIL⟩ with
            freelist := (refCell h h.freelist).cdr, numAlloc := h.numAlloc + 1#32 }) := by
  have hp := isPtr_of_typeOf_cons hfl
  have hcdr : cdr h h.freelist = (refCell h h.freelist).cdr := by
    have : ¬(ptrTypeCons = valTypeSymbol) := by decide
    simp [cdr, hfl, this]
  have hnil : ∀ (g : HeapState) (v : VALUE),
      clrGcMark (setCdrRaw (setCarRaw g v NIL) v NIL) v = g.setCell (ptrIx v) ⟨NIL, NIL⟩ := by
    intro g v
    rw [setCdrRaw_setCarRaw]
    by_cases hi : ptrIx v < g.heap.length
    · simp only [clrGcMark, setCdrRaw, refCell, cell_setCell g hi, if_true, setCell_setCell]
      congr 1
    · have hle : g.heap.length ≤ ptrIx v := by omega
      simp [clrGcMark, setCdrRaw, setCell_of_length_le g hle]
  simp only [heapAllocateCell, hp, hfl, bne_self_eq_false, Bool.not_true, Bool.false_eq_true,
    if_false, hcdr, hnil]
  rfl

theorem heapAllocateCell_of_nil {h : HeapState} (hfl : h.freelist = NIL) (ty : TYPE) :
    heapAllocateCell ty h = (encSym symreprMerror, h) := by
  have hp : isPtr NIL = false := by decide
  have ht : typeOf NIL = valTypeSymbol := by decide
  simp [heapAllocateCell, hfl, hp, ht]

theorem or_ptrTypeCons_eq_self {v : VALUE} (h : typeOf v = ptrTypeCons) :
    v ||| ptrTypeCons = v := by
  have hp : v &&& ptrTypeMask = ptrTypeCons := by
    have := typeOf_of_isPtr (isPtr_of_typeOf_cons h)
    rw [h, ptrType] at this
    exact this.symm
  rw [← hp]
  ext i hi
  simp only [BitVec.getElem_or, BitVec.getElem_and]
  cases v[i] <;> simp

/-- `cons` from a free list that starts with a cons pointer. -/
theorem cons_of_cons {h : HeapState} (hfl : typeOf h.freelist = ptrTypeCons) (a d : VALUE) :
    cons a d h
      = (h.freelist,
          { h.setCell (ptrIx h.freelist) ⟨a, d⟩ with
            freelist := (refCell h h.freelist).cdr, numAlloc := h.numAlloc + 1#32 }) := by
  have hp := isPtr_of_typeOf_cons hfl
  rw [cons, heapAllocateCell_of_cons hfl, or_ptrTypeCons_eq_self hfl]
  simp only [hp, if_true, setCdrRaw_setCarRaw]
  simp [HeapState.setCell]

theorem cons_of_nil {h : HeapState} (hfl : h.freelist = NIL) (a d : VALUE) :
    cons a d h = (encSym symreprMerror, h) := by
  have hm : isPtr (encSym symreprMerror) = false := by decide
  rw [cons, heapAllocateCell_of_nil hfl]
  simp [hm]

end LispBM
