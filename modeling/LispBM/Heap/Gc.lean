import LispBM.Heap

/-!
# LispBM — the mark-and-sweep collector (`src/heap.c`)

A collection is `gc_state_inc`, `gc_mark_freelist`, one `gc_mark_phase` per root (through
`gc_mark_aux` for the words of a stack) and `gc_sweep_phase`. The drivers of `heap.c`,
`eval_cps.c` and `ec_eval.c` differ only in the roots they mark, so they are all instances of
`collect`. They drop the results of their `gc_mark_phase` calls; the model returns them beside
the heap, so that statements can speak about them.
-/

namespace LispBM

/-! ## Marking -/

/-- The size of the local stack of `gc_mark_phase`. -/
def markStackSize : Nat := 1024

/-- `push_u32` on the fixed-size local stack of `gc_mark_phase` (top of the stack first). -/
def pushMark (s : List VALUE) (v : VALUE) : Bool × List VALUE :=
  if s.length = markStackSize then (false, s) else (true, v :: s)

/-- The pointer types whose cells `gc_mark_phase` marks without looking inside. -/
def isLeafType (t : TYPE) : Bool :=
  t == ptrTypeBoxedI || t == ptrTypeBoxedU || t == ptrTypeBoxedF || t == ptrTypeArray

/-- The `while` loop of `gc_mark_phase`; `none` when the fuel runs out. -/
def gcMarkLoop : Nat → List VALUE → HeapState → Option (Bool × HeapState)
  | 0, _, _ => none
  | _ + 1, [], h => some (true, h)
  | n + 1, curr :: s, h =>
      if !isPtr curr then gcMarkLoop n s h
      -- circular object on heap, or visited
      else if getGcMark h curr then gcMarkLoop n s h
      else
        let h := { h with gcMarked := h.gcMarked + 1#32 }
        let h := setGcMark h curr
        if isLeafType (typeOf curr) then gcMarkLoop n s h
        else
          let (res₁, s) := pushMark s (cdr h curr)
          let (res₂, s) := pushMark s (car h curr)
          if res₁ && res₂ then gcMarkLoop n s h else some (false, h)

/-- Enough iterations for `gc_mark_phase`: each pop uses up a stack word or a cell, and a cell
gives back two words (`GcReady.visits_isSome`). -/
def markFuel (h : HeapState) : Nat := 2 * h.heap.length + 2

/-- `gc_mark_phase`: the C result (1 or 0) as a boolean, and the heap. -/
def gcMarkPhase (env : VALUE) (h : HeapState) : Option (Bool × HeapState) :=
  if !isPtr env then some (true, h) else gcMarkLoop (markFuel h) [env] h

def gcMarkFreelistLoop : Nat → VALUE → HeapState → Option HeapState
  | 0, _, _ => none
  | n + 1, curr, h =>
      if isPtr curr then
        let h := setGcMark h curr
        gcMarkFreelistLoop n (refCell h curr).cdr { h with gcMarked := h.gcMarked + 1#32 }
      else some h

/-- `gc_mark_freelist`. -/
def gcMarkFreelist (h : HeapState) : Option (Bool × HeapState) :=
  let fl := h.freelist
  if !isPtr fl then
    if valType fl == valTypeSymbol && fl == NIL then some (true, h) else some (false, h)
  else
    match gcMarkFreelistLoop (walkFuel h) fl h with
    | none => none
    | some h => some (true, h)

/-- The pointer types `gc_mark_aux` takes for references to the heap. -/
def isHeapPtrType (t : TYPE) : Bool :=
  t == ptrTypeCons || t == ptrTypeBoxedI || t == ptrTypeBoxedU || t == ptrTypeBoxedF
    || t == ptrTypeArray || t == ptrTypeRef || t == ptrTypeStream

/-- The test `gc_mark_aux` applies to a word before it marks from it. -/
def isAuxRoot (heapSize : Nat) (w : VALUE) : Bool :=
  isPtr w && isHeapPtrType (ptrType w) && decide (ptrIx w < heapSize)

/-- `gc_mark_aux` over the words of a stack. It returns 1 whatever its `gc_mark_phase` calls
returned; their results are the list. -/
def gcMarkAux : List VALUE → HeapState → Option (List Bool × HeapState)
  | [], h => some ([], h)
  | w :: ws, h =>
      if isAuxRoot h.heapSize w then
        match gcMarkPhase w h with
        | none => none
        | some (res, h) =>
            match gcMarkAux ws h with
            | none => none
            | some (ress, h) => some (res :: ress, h)
      else gcMarkAux ws h

/-! ## Sweeping -/

/-- The test `gc_sweep_phase` applies to an unmarked cell: whether its cdr is the symbol of the
type of arrays. It does not look at the car. -/
def isSweptArray (c : ConsCell) : Bool :=
  typeOf c.cdr == valTypeSymbol && decSym c.cdr == defReprArrayType

/-- An unmarked array cell gives its data back to the memory manager: `memory_free` of the car,
whatever word that is. `none` is an access outside the bitmap. -/
def sweepArray (c : ConsCell) (h : HeapState) : Option HeapState :=
  if isSweptArray c then
    (memoryFreeWord h.memory c.car).map fun (_, m) =>
      { h with memory := m, gcRecoveredArrays := h.gcRecoveredArrays + 1#32 }
  else some h

/-- The body of the `gc_sweep_phase` loop at cell `i`. -/
def sweepCell (i : Nat) (h : HeapState) : Option HeapState :=
  let freed :=
    if !valGetGcMark (h.cell i).cdr then
      (sweepArray (h.cell i) h).map fun h =>
        let addr := cellPtr i
        { h.setCell i ⟨RECOVERED, h.freelist⟩ with
          freelist := addr
          numAlloc := h.numAlloc - 1#32
          gcRecovered := h.gcRecovered + 1#32 }
    else some h
  freed.map fun h => h.setCell i { h.cell i with cdr := valClrGcMark (h.cell i).cdr }

/-- The loop of `gc_sweep_phase` over the cells below `i`. -/
def gcSweepLoop : Nat → HeapState → Option HeapState
  | 0, h => some h
  | i + 1, h => (gcSweepLoop i h).bind (sweepCell i)

def gcSweepPhase (h : HeapState) : Option HeapState := gcSweepLoop h.heapSize h

def gcStateInc (h : HeapState) : HeapState :=
  { h with gcNum := h.gcNum + 1#32, gcRecovered := 0#32, gcMarked := 0#32 }

/-! ## Collections -/

/-- A marking call of a collector driver. -/
inductive MarkCall where
  /-- `gc_mark_phase(v)` -/
  | phase (v : VALUE)
  /-- `gc_mark_aux(data, sp)`, with the words `data[0 .. sp)` -/
  | aux (words : List VALUE)

/-- One marking call, with the results of the `gc_mark_phase` calls it makes. -/
def MarkCall.run : MarkCall → HeapState → Option (List Bool × HeapState)
  | .phase v, h =>
      match gcMarkPhase v h with
      | none => none
      | some (res, h) => some ([res], h)
  | .aux ws, h => gcMarkAux ws h

def markAll : List MarkCall → HeapState → Option (List Bool × HeapState)
  | [], h => some ([], h)
  | c :: cs, h =>
      match c.run h with
      | none => none
      | some (ress, h) =>
          match markAll cs h with
          | none => none
          | some (ress', h) => some (ress ++ ress', h)

/-- The marking of a collection that makes the marking calls `calls`: the results of its
`gc_mark_phase` calls and the marked heap. -/
def marks (calls : List MarkCall) (h : HeapState) : Option (List Bool × HeapState) :=
  match gcMarkFreelist (gcStateInc h) with
  | none => none
  | some (_, h) => markAll calls h

/-- A collection that makes the marking calls `calls`: the results of its `gc_mark_phase`
calls and the heap after the sweep. -/
def collect (calls : List MarkCall) (h : HeapState) : Option (List Bool × HeapState) :=
  match marks calls h with
  | none => none
  | some (ress, h) => (gcSweepPhase h).map (ress, ·)

def heapPerformGc (env : VALUE) (h : HeapState) : Option (List Bool × HeapState) :=
  collect [.phase env] h

def heapPerformGcExtra (env env2 exp exp2 list : VALUE) (h : HeapState) :
    Option (List Bool × HeapState) :=
  collect [.phase exp, .phase exp2, .phase env, .phase env2, .phase list] h

def heapPerformGcAux (env env2 exp exp2 exp3 : VALUE) (auxData : List VALUE) (h : HeapState) :
    Option (List Bool × HeapState) :=
  collect [.phase exp, .phase exp2, .phase exp3, .phase env, .phase env2, .aux auxData] h

end LispBM
