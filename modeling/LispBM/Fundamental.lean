import LispBM.Symrepr

/-!
# LispBM — the fundamental operations (`src/fundamental.c`)

`fundamental_exec(args, nargs, op)` reads its arguments from the continuation stack: `args` is
the part of the stack array from the first argument on, so an operation that reads more words
than it was given finds what lies above the stack pointer. `none` stands for what C leaves
undefined: a trapping division, an access outside managed memory, a walk that never ends.

Floating point is a parameter (`FloatOps`), on bit patterns. Signed additions and
multiplications wrap, as they do on the targets.
-/

namespace LispBM

/-- The machine's `float`, on bit patterns: arithmetic, conversions from and to the integer
types, and comparisons. -/
structure FloatOps where
  add : UINT → UINT → UINT
  sub : UINT → UINT → UINT
  mul : UINT → UINT → UINT
  div : UINT → UINT → UINT
  neg : UINT → UINT
  ofI : UINT → UINT
  ofU : UINT → UINT
  toI : UINT → UINT
  toU : UINT → UINT
  eq : UINT → UINT → Bool
  lt : UINT → UINT → Bool

/-! ## Boxed values and arrays (`heap.h`, `heap.c`) -/

/-- `enc_I`, `enc_U` and `enc_F` store the word `x` in a fresh cell of the given kind. -/
def encBoxed (tySym : UINT) (ty : TYPE) (x : UINT) (h : HeapState) : VALUE × HeapState :=
  let (c, h) := cons x (encSym tySym) h
  if typeOf c == valTypeSymbol then (c, h) else (setPtrType c ty, h)

def encBoxedI : UINT → HeapState → VALUE × HeapState := encBoxed defReprBoxedIType ptrTypeBoxedI
def encBoxedU : UINT → HeapState → VALUE × HeapState := encBoxed defReprBoxedUType ptrTypeBoxedU
def encBoxedF : UINT → HeapState → VALUE × HeapState := encBoxed defReprBoxedFType ptrTypeBoxedF

/-- `heap_allocate_array(res, size, type)`: the C result, what is stored in `*res`, and the heap.
Without a free cell the code returns the error symbol, which a caller takes for success. -/
def heapAllocateArray (size : UINT) (type : TYPE) (h : HeapState) :
    Option (UINT × Option VALUE × HeapState) :=
  let (cell, h) := heapAllocateCell ptrTypeCons h
  if typeOf cell == valTypeSymbol then some (cell, none, h)
  else
    let allocateSize :=
      if type == valTypeChar then
        if size % 4#32 = 0#32 then size >>> 2 else (size >>> 2) + 1#32
      else size
    match memoryAllocate h.memory (2#32 + allocateSize) with
    | (none, m) => some (0#32, none, { h with memory := m })
    | (some array, m) => do
        let m ← writeWord m array type
        let m ← writeWord m (array + 4#32) size
        let h := setCar { h with memory := m } cell array
        let h := setCdr h cell (encSym defReprArrayType)
        some (1#32, some (cell ||| ptrTypeArray),
          { h with numAllocArrays := h.numAllocArrays + 1#32 })

/-! ## Numbers -/

section Numbers

variable (fo : FloatOps)

def asI (h : HeapState) (a : VALUE) : UINT :=
  let t := typeOf a
  if t == valTypeI then decI a
  else if t == valTypeU then decU a
  else if t == ptrTypeBoxedI || t == ptrTypeBoxedU then car h a
  else if t == ptrTypeBoxedF then fo.toI (car h a)
  else 0#32

def asU (h : HeapState) (a : VALUE) : UINT :=
  let t := typeOf a
  if t == valTypeI then decI a
  else if t == valTypeU then decU a
  else if t == ptrTypeBoxedI || t == ptrTypeBoxedU then car h a
  else if t == ptrTypeBoxedF then fo.toU (car h a)
  else 0#32

/-- `as_f` is declared to return `UINT`: the float it computes is truncated on return. -/
def asF (h : HeapState) (a : VALUE) : UINT :=
  let t := typeOf a
  if t == valTypeI then fo.toU (fo.ofI (decI a))
  else if t == valTypeU then fo.toU (fo.ofU (decU a))
  else if t == ptrTypeBoxedI || t == ptrTypeBoxedU then fo.toU (fo.ofU (car h a))
  else if t == ptrTypeBoxedF then fo.toU (car h a)
  else 0#32

/-- What a two-operand operation does with its operands. -/
inductive ArithRes where
  | word (x : UINT)
  | error (v : VALUE)
  | trap

/-- The operands of smaller and of larger type code. -/
def byType (a b : VALUE) : VALUE × VALUE := if typeOf a < typeOf b then (a, b) else (b, a)

/-- Encode the result of an operation in the type of the larger operand. -/
def ArithRes.enc (r : ArithRes) (e : UINT → HeapState → VALUE × HeapState) (h : HeapState) :
    Option (VALUE × HeapState) :=
  match r with
  | .word x => some (e x h)
  | .error v => some (v, h)
  | .trap => none

/-- The `switch (type_of(t_max))` that `add2`, `mul2`, `div2`, `mod2` and `sub2` share. `asBI` is
the conversion of the smaller operand in the boxed signed case. -/
def arithSwitch (onI onU onF : UINT → UINT → ArithRes) (asBI : HeapState → VALUE → UINT)
    (tMin tMax : VALUE) (h : HeapState) : Option (VALUE × HeapState) :=
  let t := typeOf tMax
  if t == valTypeI then (onI (decI tMax) (asI fo h tMin)).enc (fun x h => (encI x, h)) h
  else if t == valTypeU then (onU (decU tMax) (asU fo h tMin)).enc (fun x h => (encU x, h)) h
  else if t == ptrTypeBoxedU then (onU (car h tMax) (asU fo h tMin)).enc encBoxedU h
  else if t == ptrTypeBoxedI then (onI (car h tMax) (asBI h tMin)).enc encBoxedI h
  else if t == ptrTypeBoxedF then (onF (car h tMax) (fo.ofU (asF fo h tMin))).enc encBoxedF h
  else some (encSym symreprTerror, h)

def add2 (a b : VALUE) (h : HeapState) : Option (VALUE × HeapState) :=
  let (tMin, tMax) := byType a b
  if !isNumber tMin then some (encSym symreprEerror, h)
  else
    arithSwitch fo (fun x y => .word (x + y)) (fun x y => .word (x + y))
      (fun x y => .word (fo.add x y)) (asI fo) tMin tMax h

/-- `mul2`: the check of `t_min` computes a symbol and drops it. -/
def mul2 (a b : VALUE) (h : HeapState) : Option (VALUE × HeapState) :=
  let (tMin, tMax) := byType a b
  arithSwitch fo (fun x y => .word (x * y)) (fun x y => .word (x * y))
    (fun x y => .word (fo.mul x y)) (asI fo) tMin tMax h

/-- Signed division traps on the quotient that does not fit. -/
def divI (op : UINT → UINT → UINT) (x y : UINT) : ArithRes :=
  if y = 0#32 then .error (encSym symreprDivzero)
  else if x = 0x80000000#32 ∧ y = 0xFFFFFFFF#32 then .trap
  else .word (op x y)

def divU (op : UINT → UINT → UINT) (x y : UINT) : ArithRes :=
  if y = 0#32 then .error (encSym symreprDivzero) else .word (op x y)

def div2 (a b : VALUE) (h : HeapState) : Option (VALUE × HeapState) :=
  let (tMin, tMax) := byType a b
  arithSwitch fo (divI BitVec.sdiv) (divU BitVec.udiv)
    (fun x y => if fo.eq y (fo.ofU 0#32) then .error (encSym symreprDivzero)
      else .word (fo.div x y))
    (asI fo) tMin tMax h

def mod2 (a b : VALUE) (h : HeapState) : Option (VALUE × HeapState) :=
  let (tMin, tMax) := byType a b
  arithSwitch fo (divI BitVec.srem) (divU BitVec.umod)
    (fun _ _ => .error (encSym symreprTerror)) (asI fo) tMin tMax h

def negate (a : VALUE) (h : HeapState) : VALUE × HeapState :=
  let t := typeOf a
  if valTypeChar < t then
    if t == valTypeI then (encI (-decI a), h)
    else if t == valTypeU then (encU (-decU a), h)
    else if t == ptrTypeBoxedU then encBoxedU (-car h a) h
    else if t == ptrTypeBoxedI then encBoxedI (-car h a) h
    else if t == ptrTypeBoxedF then encBoxedF (fo.neg (car h a)) h
    else (encSym symreprTerror, h)
  else (encSym symreprTerror, h)

/-- `sub2` subtracts the operand of smaller type from the other one, in either order, and uses
`as_u` in the boxed signed case. -/
def sub2 (a b : VALUE) (h : HeapState) : Option (VALUE × HeapState) :=
  let (tMin, tMax) := byType a b
  if valTypeChar < typeOf tMin then
    arithSwitch fo (fun x y => .word (x - y)) (fun x y => .word (x - y))
      (fun x y => .word (fo.sub x y)) (asU fo) tMin tMax h
  else some (encSym symreprTerror, h)

def cmp (lt : UINT → UINT → Bool) (a b : UINT) (swapped : Bool) : Int :=
  let res : Int := (if lt b a then 1 else 0) - (if lt a b then 1 else 0)
  if swapped then -res else res

/-- `compare`: -1, 0 or 1; also 1 where a type is not handled. -/
def compare (h : HeapState) (a b : VALUE) : Int :=
  let swapped := decide (typeOf a < typeOf b)
  let (a, b) := if swapped then (b, a) else (a, b)
  if valTypeChar < typeOf b then
    let t := typeOf a
    if t == valTypeI then cmp (fun x y => x.slt y) (decI a) (asI fo h b) swapped
    else if t == valTypeU then cmp (fun x y => x.ult y) (decU a) (asU fo h b) swapped
    else if t == ptrTypeBoxedU then cmp (fun x y => x.ult y) (car h a) (asU fo h b) swapped
    else if t == ptrTypeBoxedI then cmp (fun x y => x.slt y) (car h a) (asU fo h b) swapped
    else if t == ptrTypeBoxedF then cmp fo.lt (car h a) (fo.ofU (asF fo h b)) swapped
    else 1
  else 1

end Numbers

/-! ## Equality -/

/-- `n` consecutive bytes, as `memcmp` reads them. -/
def readBytes (m : MemoryState) : Nat → UINT → Option (List (BitVec 8))
  | 0, _ => some []
  | n + 1, addr => do
      let b ← readByte m addr
      let bs ← readBytes m n (addr + 1#32)
      some (b :: bs)

/-- The size in bytes of the data of an array, by element type; `none` for a type
`array_equality` does not compare. -/
def arrayBytes (eltType : TYPE) (size : UINT) : Option Nat :=
  if eltType == valTypeU || eltType == ptrTypeBoxedU || eltType == valTypeI
      || eltType == ptrTypeBoxedI || eltType == ptrTypeBoxedF then some (size * 4#32).toNat
  else if eltType == valTypeChar then some size.toNat
  else none

def arrayEquality (h : HeapState) (a b : VALUE) : Option Bool :=
  if typeOf a == ptrTypeArray && typeOf a == typeOf b then do
    let a' := car h a
    let b' := car h b
    let ta ← readWord h.memory a'
    let tb ← readWord h.memory b'
    let sa ← readWord h.memory (a' + 4#32)
    let sb ← readWord h.memory (b' + 4#32)
    if ta == tb && sa == sb then
      match arrayBytes ta sa with
      | none => some false
      | some n => do
          let da ← readBytes h.memory n (a' + 8#32)
          let db ← readBytes h.memory n (b' + 8#32)
          some (da == db)
    else some false
  else some false

/-- `struct_eq`, by recursion depth: on a path longer than there are pairs of cells a pair of
cells repeats, and the recursion does not end. -/
def structEqDepth (fo : FloatOps) (h : HeapState) : Nat → VALUE → VALUE → Option Bool
  | 0, _, _ => none
  | n + 1, a, b =>
      if !isPtr a && !isPtr b then
        if valType a == valType b then
          let t := valType a
          if t == valTypeSymbol then some (decSym a == decSym b)
          else if t == valTypeI then some (decI a == decI b)
          else if t == valTypeU then some (decU a == decU b)
          else if t == valTypeChar then some (decChar a == decChar b)
          else some false
        else some false
      else if isPtr a && isPtr b then
        if ptrType a == ptrType b then
          let t := ptrType a
          if t == ptrTypeSymbolIndirection then
            some (decSymbolIndirection a == decSymbolIndirection b)
          else if t == ptrTypeCons then do
            let r ← structEqDepth fo h n (car h a) (car h b)
            if r then structEqDepth fo h n (cdr h a) (cdr h b) else some false
          else if t == ptrTypeBoxedI then some (car h a == car h b)
          else if t == ptrTypeBoxedU then some (car h a == car h b)
          else if t == ptrTypeBoxedF then some (fo.eq (fo.ofU (car h a)) (fo.ofU (car h b)))
          else if t == ptrTypeArray then arrayEquality h a b
          else some false
        else some false
      else some false

def structEq (fo : FloatOps) (h : HeapState) (a b : VALUE) : Option Bool :=
  structEqDepth fo h (walkFuel h * walkFuel h + 1) a b

/-! ## Arrays -/

/-- The index `array_read` and `array_write` take from a value, or the error they return. -/
def arrayIndex (h : HeapState) (index : VALUE) : UINT ⊕ VALUE :=
  let t := typeOf index
  if t == valTypeU then .inl (decU index)
  else if t == valTypeI then
    if (decI index).slt 0#32 then .inr (encSym symreprEerror) else .inl (decI index)
  else if t == ptrTypeBoxedU then .inl (car h index)
  else if t == ptrTypeBoxedI then
    if (car h index).slt 0#32 then .inr (encSym symreprEerror) else .inl (car h index)
  else .inr (encSym symreprNil)

def arrayRead (args : List VALUE) (h : HeapState) : Option (VALUE × HeapState) :=
  let arr := args.getD 0 0#32
  match arrayIndex h (args.getD 1 0#32) with
  | .inr err => some (err, h)
  | .inl ix =>
      if typeOf arr == ptrTypeArray then do
        let array := car h arr
        let eltType ← readWord h.memory array
        let size ← readWord h.memory (array + 4#32)
        if size ≤ ix then some (encSym symreprNil, h)
        else if eltType == valTypeChar then
          let b ← readByte h.memory (array + 8#32 + ix)
          some (encChar b, h)
        else if eltType == valTypeU then
          let w ← readWord h.memory (array + 8#32 + 4#32 * ix)
          some (encU w, h)
        else if eltType == valTypeI then
          let w ← readWord h.memory (array + 8#32 + 4#32 * ix)
          some (encI w, h)
        else if eltType == ptrTypeBoxedU then
          let w ← readWord h.memory (array + 8#32 + 4#32 * ix)
          some (encBoxedU w h)
        else if eltType == ptrTypeBoxedI then
          let w ← readWord h.memory (array + 8#32 + 4#32 * ix)
          some (encBoxedI w h)
        else if eltType == ptrTypeBoxedF then
          let w ← readWord h.memory (array + 8#32 + 4#32 * ix)
          some (encBoxedF w h)
        else some (encSym symreprEerror, h)
      else some (encSym symreprEerror, h)

def arrayWrite (args : List VALUE) (h : HeapState) : Option (VALUE × HeapState) :=
  let arr := args.getD 0 0#32
  let val := args.getD 2 0#32
  match arrayIndex h (args.getD 1 0#32) with
  | .inr err => some (err, h)
  | .inl ix =>
      if typeOf arr == ptrTypeArray then do
        let array := car h arr
        let eltType ← readWord h.memory array
        let size ← readWord h.memory (array + 4#32)
        if typeOf val != eltType || size ≤ ix then some (encSym symreprNil, h)
        else if eltType == valTypeChar then
          let m ← writeByte h.memory (array + 8#32 + ix) (decChar val)
          some (encSym symreprTrue, { h with memory := m })
        else if eltType == valTypeU then
          let m ← writeWord h.memory (array + 8#32 + 4#32 * ix) (decU val)
          some (encSym symreprTrue, { h with memory := m })
        else if eltType == valTypeI then
          let m ← writeWord h.memory (array + 8#32 + 4#32 * ix) (decI val)
          some (encSym symreprTrue, { h with memory := m })
        else if eltType == ptrTypeBoxedU || eltType == ptrTypeBoxedI
            || eltType == ptrTypeBoxedF then
          let m ← writeWord h.memory (array + 8#32 + 4#32 * ix) (car h val)
          some (encSym symreprTrue, { h with memory := m })
        else some (encSym symreprEerror, h)
      else some (encSym symreprNil, h)

/-! ## `fundamental_exec` -/

/-- The arguments `args[1 .. nargs)` the loops over all operands go through. -/
def restArgs (args : List VALUE) (nargs : UINT) : List VALUE :=
  (List.range' 1 (nargs.toNat - 1)).map (args.getD · 0#32)

/-- The loops of `+ - * / mod`: fold the operation, and stop at a symbol. -/
def foldArgs (f : VALUE → VALUE → HeapState → Option (VALUE × HeapState)) :
    List VALUE → VALUE → HeapState → Option (VALUE × HeapState)
  | [], acc, h => some (acc, h)
  | a :: as, acc, h =>
      match f acc a h with
      | none => none
      | some (acc, h) =>
          if typeOf acc == valTypeSymbol then some (acc, h) else foldArgs f as acc h

/-- `cons` the words of a list, given last element first, onto `result`; stop at a symbol. -/
def consAll : List VALUE → VALUE → HeapState → VALUE × HeapState
  | [], result, h => (result, h)
  | a :: as, result, h =>
      let (result, h) := cons a result h
      if typeOf result == valTypeSymbol then (result, h) else consAll as result h

def indexList (h : HeapState) : VALUE → Nat → VALUE
  | l, 0 => car h l
  | l, n + 1 => if typeOf l == ptrTypeCons then indexList h (cdr h l) n else car h l

/-- The loop of `append`: elements `n - 1 .. 0` of the first list go in front of the second. The
elements are read from the heap as it is when their turn comes. -/
def appendLoop (a : VALUE) : Nat → VALUE → HeapState → VALUE × HeapState
  | 0, result, h => (result, h)
  | i + 1, result, h =>
      let (result, h) := cons (indexList h a i) result h
      if typeOf result == valTypeSymbol then (result, h) else appendLoop a i result h

def eqLoop (fo : FloatOps) (h : HeapState) (a : VALUE) : List VALUE → Bool → Option Bool
  | [], r => some r
  | b :: bs, r =>
      if r then
        match structEq fo h a b with
        | none => none
        | some r => eqLoop fo h a bs r
      else eqLoop fo h a bs false

/-- The loop of `num-eq`, `<` and `>`: `none` inside when an operand is not a number. -/
def compareLoop (fo : FloatOps) (h : HeapState) (a : VALUE) (cmpRes : Int) :
    List VALUE → Bool → Option Bool
  | [], r => some r
  | b :: bs, r =>
      if !isNumber b then none else compareLoop fo h a cmpRes bs (r && compare fo h a b == cmpRes)

def compareExec (fo : FloatOps) (cmpRes : Int) (args : List VALUE) (nargs : UINT) (h : HeapState) :
    VALUE :=
  let a := args.getD 0 0#32
  if !isNumber a then encSym symreprTerror
  else
    match compareLoop fo h a cmpRes (restArgs args nargs) true with
    | none => encSym symreprTerror
    | some r => if r then encSym symreprTrue else encSym symreprNil

def symbolToString (args : List VALUE) (nargs : UINT) (st : SymbolTable) (h : HeapState) :
    Option (VALUE × HeapState) :=
  let sym := args.getD 0 0#32
  if nargs < 1#32 || typeOf sym != valTypeSymbol then some (encSym symreprNil, h)
  else do
    let symStr ← symreprLookupName h.memory st (decSym sym)
    match symStr with
    | none => some (encSym symreprNil, h)
    | some str => do
        let len := BitVec.ofNat 32 str.length
        let (res, v, h) ← heapAllocateArray (len + 1#32) valTypeChar h
        if res != 0#32 then
          -- without a free cell `v` was not written and the code uses it as it is
          let v ← v
          let arr := car h v
          if arr == 0#32 then some (encSym symreprMerror, h)
          else
            let m ← writeBytes h.memory (arr + 8#32) (str ++ [0#8])
            some (v, { h with memory := m })
        else some (encSym symreprMerror, h)

/-- `str-to-sym`. The type check of the source applies `type_of` to a comparison, which never
rejects, so any argument is taken for an array. -/
def stringToSymbol (args : List VALUE) (nargs : UINT) (st : SymbolTable) (h : HeapState) :
    Option (VALUE × HeapState × SymbolTable) :=
  if nargs < 1#32 then some (encSym symreprEerror, h, st)
  else do
    let arr := car h (args.getD 0 0#32)
    let eltType ← readWord h.memory arr
    if eltType != valTypeChar then some (encSym symreprEerror, h, st)
    else
      let str ← readCString h.memory (arr + 8#32)
      let found ← symreprLookup h.memory st str
      match found with
      | some sym => some (encSym sym, h, st)
      | none => do
          let (added, m, st) ← symreprAddsym h.memory st str
          match added with
          | some sym => some (encSym sym, { h with memory := m }, st)
          | none => some (encSym symreprEerror, { h with memory := m }, st)

def typeOfExec (args : List VALUE) (nargs : UINT) : VALUE :=
  if nargs != 1#32 then encSym symreprNil
  else
    let t := typeOf (args.getD 0 0#32)
    if t == ptrTypeCons then encSym symreprTypeList
    else if t == ptrTypeArray then encSym symreprTypeArray
    else if t == ptrTypeBoxedI then encSym symreprTypeI32
    else if t == ptrTypeBoxedU then encSym symreprTypeU32
    else if t == ptrTypeBoxedF then encSym symreprTypeFloat
    else if t == valTypeI then encSym symreprTypeI28
    else if t == valTypeU then encSym symreprTypeU28
    else if t == valTypeChar then encSym symreprTypeChar
    else if t == valTypeSymbol then encSym symreprTypeSymbol
    else encSym symreprTerror

/-- The operations of `fundamental_exec` that touch the heap at most; `str-to-sym` also extends
the symbol table and is apart. -/
def fundamentalHeapExec (fo : FloatOps) (args : List VALUE) (nargs : UINT) (op : UINT)
    (st : SymbolTable) (h : HeapState) : Option (VALUE × HeapState) :=
  let arg0 := args.getD 0 0#32
  let arg1 := args.getD 1 0#32
  if op == symIsFundamental then
    if nargs < 1#32 || typeOf arg0 != valTypeSymbol then some (encSym symreprNil, h)
    else if isFundamental arg0 then some (encSym symreprTrue, h)
    else some (encSym symreprNil, h)
  else if op == symSymbolToString then symbolToString args nargs st h
  else if op == symSymbolToUint then
    if typeOf arg0 == valTypeSymbol then some (encU (decSym arg0), h)
    else some (encSym symreprEerror, h)
  else if op == symUintToSymbol then
    if typeOf arg0 == valTypeU then some (encSym (decU arg0), h)
    else some (encSym symreprEerror, h)
  else if op == symMkSymbolIndirect then
    if typeOf arg0 == valTypeU && decU arg0 < 33554432#32 then
      some (encSymbolIndirection (decU arg0), h)
    else some (encSym symreprEerror, h)
  else if op == symCons then some (cons arg0 arg1 h)
  else if op == symCar then some (car h arg0, h)
  else if op == symCdr then some (cdr h arg0, h)
  else if op == symList then
    some (consAll ((List.range nargs.toNat).reverse.map (args.getD · 0#32)) (encSym symreprNil) h)
  else if op == symAppend then
    if nargs != 2#32 then some (encSym symreprEerror, h)
    else do
      let n ← length h arg0
      some (appendLoop arg0 n arg1 h)
  else if op == symAdd then foldArgs (add2 fo) (restArgs args nargs) arg0 h
  else if op == symSub then
    if nargs == 1#32 then some (negate fo arg0 h)
    else foldArgs (sub2 fo) (restArgs args nargs) arg0 h
  else if op == symMul then foldArgs (mul2 fo) (restArgs args nargs) arg0 h
  else if op == symDiv then foldArgs (div2 fo) (restArgs args nargs) arg0 h
  else if op == symMod then foldArgs (mod2 fo) (restArgs args nargs) arg0 h
  else if op == symEq then do
    let r ← eqLoop fo h arg0 (restArgs args nargs) true
    some (if r then encSym symreprTrue else encSym symreprNil, h)
  else if op == symNumeq then some (compareExec fo 0 args nargs h, h)
  else if op == symGt then some (compareExec fo 1 args nargs h, h)
  else if op == symLt then some (compareExec fo (-1) args nargs h, h)
  else if op == symNot then
    if nargs == 0#32 then some (encSym symreprNil, h)
    else if typeOf arg0 == valTypeSymbol && decSym arg0 == symreprNil then
      some (encSym symreprTrue, h)
    else some (encSym symreprNil, h)
  else if op == symArrayRead then arrayRead args h
  else if op == symArrayWrite then arrayWrite args h
  -- `array_create` is empty and leaves the initial result
  else if op == symArrayCreate then some (encSym symreprEerror, h)
  else if op == symTypeOf then some (typeOfExec args nargs, h)
  else some (encSym symreprEerror, h)

/-- `fundamental_exec(args, nargs, op)`. -/
def fundamentalExec (fo : FloatOps) (args : List VALUE) (nargs : UINT) (op : VALUE)
    (st : SymbolTable) (h : HeapState) : Option (VALUE × HeapState × SymbolTable) :=
  if decSym op == symStringToSymbol then stringToSymbol args nargs st h
  else
    match fundamentalHeapExec fo args nargs (decSym op) st h with
    | none => none
    | some (res, h) => some (res, h, st)

end LispBM
