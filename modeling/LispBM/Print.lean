import LispBM.Symrepr

/-!
# LispBM — printing a value (`src/print.c`)

`print_value` works off a stack of 256 words: instructions, and the values they are about. What it
prints goes into a buffer of `len` bytes through `snprintf`, which cuts what does not fit but
returns the length of the whole; the loop ends when the stack is empty or when fewer than five bytes
are left.

The buffer is the memory from `buf` on, of which the caller owns `len` bytes. Lengths are far below
`2 ^ 31`, where no object has that many bytes.
-/

namespace LispBM

namespace Print

abbrev Byte := BitVec 8

def printStackSize : Nat := 256

/-! ## The instructions -/

def print : UINT := 1#32
def printSpace : UINT := 2#32
def startList : UINT := 3#32
def continueList : UINT := 4#32
def endList : UINT := 5#32

/-! ## Text -/

/-- The memory from an address on. -/
abbrev Buffer := Nat → Byte

def Buffer.write (buf : Buffer) (pos : Nat) (bytes : List Byte) : Buffer := fun i =>
  if pos ≤ i ∧ i < pos + bytes.length then bytes.getD (i - pos) 0#8 else buf i

/-- `snprintf(buf + pos, size, ..)`, where `text` is the text as formatted. -/
def snprintf (buf : Buffer) (pos size : Nat) (text : List Byte) : Buffer :=
  buf.write pos (text.take (size - 1) ++ [0#8])

/-- The format `%u`. -/
def formatU (x : UINT) : List Byte := (Nat.toDigits 10 x.toNat).map fun c => BitVec.ofNat 8 c.toNat

/-- The format `%d`. -/
def formatD (x : UINT) : List Byte :=
  if x.toInt < 0 then cstring "-" ++ formatU (-x) else formatU x

/-- The format `%x`. -/
def formatX (x : UINT) : List Byte := (Nat.toDigits 16 x.toNat).map fun c => BitVec.ofNat 8 c.toNat

section

variable (formatF : UINT → List Byte) (h : HeapState) (st : SymbolTable)

def openBrace : List Byte := [0x7B#8]

def closeBrace : List Byte := [0x7D#8]

/-- What is printed for a value that is not a list; an error message for a return of -1. `formatF`
is the format `%f` for the bits of a `float`. -/
def atomText (curr : VALUE) : Option (Except (List Byte) (List Byte)) :=
  let t := typeOf curr
  if t == ptrTypeRef then some (.ok (cstring "_ref_"))
  else if t == ptrTypeBoxedF then some (.ok (openBrace ++ formatF (car h curr) ++ closeBrace))
  else if t == ptrTypeBoxedU then some (.ok (openBrace ++ formatU (car h curr) ++ closeBrace))
  else if t == ptrTypeBoxedI then some (.ok (openBrace ++ formatD (car h curr) ++ closeBrace))
  else if t == ptrTypeArray then do
    let eltType ← readWord h.memory (car h curr)
    if eltType == valTypeChar then
      let chars ← readCString h.memory (car h curr + 8#32)
      some (.ok (cstring "\"" ++ chars ++ cstring "\""))
    else some (.error (cstring "Error: Array type not supported\n"))
  else if t == ptrTypeSymbolIndirection then
    some (.ok (cstring "*" ++ formatU (decSymbolIndirection curr) ++ cstring "*"))
  else if t == valTypeSymbol then do
    match ← symreprLookupName h.memory st (decSym curr) with
    | some name => some (.ok name)
    | none => some (.error (cstring "Error: Symbol not in table " ++ formatU (decSym curr)))
  else if t == valTypeI then some (.ok (formatD (decI curr)))
  else if t == valTypeU then some (.ok (formatU (decU curr)))
  else if t == valTypeChar then some (.ok (cstring "\\#" ++ [decChar curr]))
  else
    some (.error (cstring "Error: print does not recognize type of value: " ++ formatX curr))

/-! ## The loop -/

/-- The variables of `print_value`; the stack begins with its top. -/
structure PrintState where
  stack : List UINT
  buf : Buffer
  offset : Nat
  n : Nat

/-- What an iteration comes to: the next state, or a return of -1 with a message, or something
that C leaves undefined. -/
inductive Step where
  | next (s : PrintState)
  | error (message : List Byte) (s : PrintState)
  | undefined (s : PrintState)

/-- `push_u32` on the stack, which does not grow. -/
def push (s : Bool × List UINT) (v : UINT) : Bool × List UINT :=
  if s.2.length = printStackSize then (false, s.2) else (s.1, v :: s.2)

/-- Pushes, after which the results are looked at. -/
def pushes (s : PrintState) (vs : List UINT) : Step :=
  let (res, stack) := vs.foldl push (true, s.stack)
  if res then .next { s with stack := stack }
  else .error (cstring "Error: Out of print stack\n") { s with stack := stack }

/-- `n = snprintf(buf + offset, len - offset, ..); offset += n;`. -/
def out (len : Nat) (text : List Byte) (s : PrintState) : PrintState :=
  { s with
    buf := snprintf s.buf s.offset (len - s.offset) text
    offset := s.offset + text.length
    n := text.length }

/-- What `START_LIST` and `CONTINUE_LIST` push for a cell. -/
def cellInstrs (curr : VALUE) : List UINT :=
  let carVal := car h curr
  let cdrVal := cdr h curr
  (if typeOf cdrVal == ptrTypeCons then [cdrVal, continueList]
    else if typeOf cdrVal == valTypeSymbol && decSym cdrVal == symreprNil then [endList]
    else [endList, cdrVal, print, printSpace]) ++ [carVal, print]

/-- An iteration of the loop. -/
def printStep (len : Nat) (s : PrintState) : Step :=
  match s.stack with
  | [] => .undefined s
  | instr :: stack =>
      if instr == startList then
        match stack with
        | [] => .undefined s
        | curr :: stack =>
            pushes (out len (cstring "(") { s with stack := stack }) (cellInstrs h curr)
      else if instr == continueList then
        match stack with
        | [] => .undefined s
        | curr :: stack =>
            if typeOf curr == valTypeSymbol && decSym curr == symreprNil then
              .next { s with stack := stack }
            else pushes (out len (cstring " ") { s with stack := stack }) (cellInstrs h curr)
      else if instr == endList then .next (out len (cstring ")") { s with stack := stack })
      else if instr == printSpace then .next (out len (cstring " ") { s with stack := stack })
      else if instr == print then
        match stack with
        | [] => .undefined s
        | curr :: stack =>
            if typeOf curr == ptrTypeCons then
              pushes { s with stack := stack } [curr, startList]
            else
              match atomText formatF h st curr with
              | none => .undefined { s with stack := stack }
              | some (.error message) => .error message { s with stack := stack }
              | some (.ok text) => .next (out len text { s with stack := stack })
      else .error (cstring "Error: Corrupt print stack!") { s with stack := stack }

/-- The loop, with `fuel` iterations. -/
def printLoop (len : Nat) : Nat → PrintState → Option Step
  | 0, _ => none
  | fuel + 1, s =>
      if !s.stack.isEmpty && s.offset + 5 ≤ len then
        match printStep formatF h st len s with
        | .next s => printLoop len fuel s
        | step => some step
      else some (.next s)

/-- What `print_value` returns, with the buffer. -/
inductive Printed where
  | whole (res : Nat) (buf : Buffer)
  | cut (res : Nat) (buf : Buffer)
  | error (message : List Byte) (buf : Buffer)
  | undefined (buf : Buffer)

def Printed.buf : Printed → Buffer
  | .whole _ buf => buf
  | .cut _ buf => buf
  | .error _ buf => buf
  | .undefined buf => buf

/-- After the loop: if there is something left on the stack the text ends with three dots. -/
def finish (len : Nat) : Step → Printed
  | .next s =>
      if s.stack.isEmpty then .whole s.n s.buf
      else .cut len ((snprintf s.buf (len - 5) 4 (cstring "...")).write (len - 1) [0#8])
  | .error message s => .error message s.buf
  | .undefined s => .undefined s.buf

/-- `print_value`; `none` if the loop does not end. -/
def printValue (buf : Buffer) (len : Nat) (t : VALUE) : Option Printed :=
  (printLoop formatF h st len (8 * len + 16) ⟨[print, t], buf, 0, 0⟩).map (finish len)

end

end Print

end LispBM
