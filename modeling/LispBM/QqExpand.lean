import LispBM.Heap

/-!
# LispBM — quasiquotation expansion (`src/qq_expand.c`)

The reader expands a backquoted expression into code that builds it, with calls of `append` and
`list` around quoted parts. The recursion goes down the expression; it has `walkFuel` levels, and
on a path with more cells than there are a cell repeats, so that the source does not return.
-/

namespace LispBM

def symreprComma : UINT := 0x10#32
def symreprCommaat : UINT := 0x11#32

/-- The test `type_of(v) == VAL_TYPE_SYMBOL && dec_sym(v) == s` of the source. -/
def isSymbolOf (s : UINT) (v : VALUE) : Bool := typeOf v == valTypeSymbol && decSym v == s

/-- `cons(a, cons(b, enc_sym(symrepr_nil())))`. -/
def consTwo (a b : VALUE) (h : HeapState) : VALUE × HeapState :=
  let (r, h) := cons b (encSym symreprNil) h
  cons a r h

/-- `append(front, back)` of `qq_expand.c`: the code of a call. -/
def genAppend (front back : VALUE) (h : HeapState) : VALUE × HeapState :=
  let (r, h) := consTwo front back h
  cons (encSym symAppend) r h

mutual

/-- `qq_expand_list`: code for the list of the one element `l`. -/
def qqExpandListDepth : Nat → VALUE → HeapState → Option (VALUE × HeapState)
  | 0, _, _ => none
  | n + 1, l, h =>
      if typeOf l == ptrTypeCons then
        let carVal := car h l
        let cdrVal := cdr h l
        if isSymbolOf symreprComma carVal then
          some (consTwo (encSym symList) (car h cdrVal) h)
        else if isSymbolOf symreprCommaat carVal then some (car h cdrVal, h)
        else do
          let (expandCar, h) ← qqExpandListDepth n carVal h
          let (expandCdr, h) ← qqExpandDepth n cdrVal h
          let (code, h) := genAppend expandCar expandCdr h
          some (consTwo (encSym symList) code h)
      else
        let (aList, h) := cons l (encSym symreprNil) h
        some (consTwo (encSym symreprQuote) aList h)

/-- `qq_expand`: code for the expression itself. -/
def qqExpandDepth : Nat → VALUE → HeapState → Option (VALUE × HeapState)
  | 0, _, _ => none
  | n + 1, qquoted, h =>
      if typeOf qquoted == ptrTypeCons then
        let carVal := car h qquoted
        let cdrVal := cdr h qquoted
        if isSymbolOf symreprComma carVal then some (car h cdrVal, h)
        else if isSymbolOf symreprCommaat carVal then some (encSym symreprRerror, h)
        else do
          let (expandCar, h) ← qqExpandListDepth n carVal h
          let (expandCdr, h) ← qqExpandDepth n cdrVal h
          some (genAppend expandCar expandCdr h)
      else some (consTwo (encSym symreprQuote) qquoted h)

end

def qqExpandList (l : VALUE) (h : HeapState) : Option (VALUE × HeapState) :=
  qqExpandListDepth (walkFuel h) l h

def qqExpand (qquoted : VALUE) (h : HeapState) : Option (VALUE × HeapState) :=
  qqExpandDepth (walkFuel h) qquoted h

end LispBM
