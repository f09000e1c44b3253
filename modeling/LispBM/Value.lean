import Mathlib.Data.BitVec
import Mathlib.Tactic.IntervalCases

/-!
# LispBM — the tagged 32-bit value word

Every Lisp value, every word of a cons cell and every word of a continuation stack is one
32-bit word (`include/typedefs.h`). This module embeds the encodings of `include/heap.h`
and the fixed symbol ids of `include/symrepr.h`:

```
bit 0       pointer / immediate
bit 1       garbage-collection mark (meaningful in the cdr word of a cell)
bits 2-3    type of an immediate          bits 4-31  payload of an immediate
bits 3-25   cell index of a pointer       bits 26-31 type of a pointer
```

The second half is the bit arithmetic the collector rests on: the mark bit is invisible to
the pointer test, the cell index and the pointer type, and clearing a set mark restores the
word.
-/

namespace LispBM

/-- One branch of a chain of tests at a time, without looking into the others. -/
theorem of_ite_eq {α : Type} {p Q : Prop} [Decidable p] {x y r : α}
    (h : (if p then x else y) = r) (hpos : p → x = r → Q) (hneg : y = r → Q) : Q := by
  split at h
  · next hp => exact hpos hp h
  · exact hneg h

abbrev VALUE := BitVec 32
abbrev UINT := BitVec 32
abbrev TYPE := BitVec 32
abbrev CID := BitVec 16

/-! ## Masks and type codes (`heap.h`) -/

def ptrMask : VALUE := 0x00000001#32
def ptrValMask : VALUE := 0x03FFFFF8#32
def ptrTypeMask : VALUE := 0xFC000000#32

def ptrTypeCons : TYPE := 0x10000000#32
def ptrTypeBoxedI : TYPE := 0x20000000#32
def ptrTypeBoxedU : TYPE := 0x30000000#32
def ptrTypeBoxedF : TYPE := 0x40000000#32
def ptrTypeSymbolIndirection : TYPE := 0x50000000#32
def ptrTypeArray : TYPE := 0xD0000000#32
def ptrTypeRef : TYPE := 0xE0000000#32
def ptrTypeStream : TYPE := 0xF0000000#32

def gcMask : VALUE := 0x00000002#32

def valTypeMask : VALUE := 0x0000000C#32
def valTypeSymbol : TYPE := 0x00000000#32
def valTypeChar : TYPE := 0x00000004#32
def valTypeI : TYPE := 0x00000008#32
def valTypeU : TYPE := 0x0000000C#32

/-! ## Fixed symbol ids (`symrepr.h`) -/

def symreprNil : UINT := 0x0#32
def symreprQuote : UINT := 0x1#32
def symreprTrue : UINT := 0x2#32
def symreprIf : UINT := 0x3#32
def symreprLambda : UINT := 0x4#32
def symreprClosure : UINT := 0x5#32
def symreprLet : UINT := 0x6#32
def symreprRerror : UINT := 0x7#32
def symreprTerror : UINT := 0x8#32
def symreprEerror : UINT := 0x9#32
def symreprMerror : UINT := 0xA#32
def symreprDivzero : UINT := 0xB#32
def symreprFatalError : UINT := 0xC#32
def symreprDefine : UINT := 0xD#32
def symreprProgn : UINT := 0xE#32

def defReprArrayType : UINT := 0x20#32
def defReprBoxedIType : UINT := 0x21#32
def defReprBoxedUType : UINT := 0x22#32
def defReprBoxedFType : UINT := 0x23#32
def defReprRecovered : UINT := 0x25#32
def symreprNotFound : UINT := 0x28#32

def symreprTypeList : UINT := 0x29#32
def symreprTypeI28 : UINT := 0x2A#32
def symreprTypeU28 : UINT := 0x2B#32
def symreprTypeFloat : UINT := 0x2C#32
def symreprTypeI32 : UINT := 0x2D#32
def symreprTypeU32 : UINT := 0x2E#32
def symreprTypeArray : UINT := 0x2F#32
def symreprTypeSymbol : UINT := 0x30#32
def symreprTypeChar : UINT := 0x31#32

def fundamentalsStart : UINT := 0x100#32
def symAdd : UINT := 0x100#32
def symSub : UINT := 0x101#32
def symMul : UINT := 0x102#32
def symDiv : UINT := 0x103#32
def symMod : UINT := 0x104#32
def symEq : UINT := 0x105#32
def symNumeq : UINT := 0x106#32
def symLt : UINT := 0x107#32
def symGt : UINT := 0x108#32
def symreprEval : UINT := 0x109#32
def symreprAnd : UINT := 0x110#32
def symreprOr : UINT := 0x111#32
def symNot : UINT := 0x112#32
def symreprYield : UINT := 0x113#32
def symreprWait : UINT := 0x114#32
def symreprSpawn : UINT := 0x115#32
def symCons : UINT := 0x120#32
def symCar : UINT := 0x121#32
def symCdr : UINT := 0x122#32
def symList : UINT := 0x123#32
def symAppend : UINT := 0x124#32
def symArrayRead : UINT := 0x130#32
def symArrayWrite : UINT := 0x131#32
def symArrayCreate : UINT := 0x132#32
def symSymbolToString : UINT := 0x140#32
def symStringToSymbol : UINT := 0x141#32
def symSymbolToUint : UINT := 0x142#32
def symUintToSymbol : UINT := 0x143#32
def symMkSymbolIndirect : UINT := 0x144#32
def symIsFundamental : UINT := 0x150#32
def symTypeOf : UINT := 0x200#32
def fundamentalsEnd : UINT := 0x200#32

def maxSpecialSymbols : UINT := 4096#32

/-! ## Tests and encodings -/

def valType (x : VALUE) : TYPE := x &&& valTypeMask

def ptrType (p : VALUE) : TYPE := p &&& ptrTypeMask

def isPtr (x : VALUE) : Bool := x &&& ptrMask != 0#32

def typeOf (x : VALUE) : TYPE := if isPtr x then x &&& ptrTypeMask else x &&& valTypeMask

def encConsPtr (x : UINT) : VALUE := x <<< 3 ||| ptrTypeCons ||| ptrMask

def encSymbolIndirection (x : UINT) : VALUE :=
  x <<< 3 ||| ptrTypeSymbolIndirection ||| ptrMask

def decSymbolIndirection (p : VALUE) : UINT := (ptrValMask &&& p) >>> 3

def decPtr (p : VALUE) : UINT := (ptrValMask &&& p) >>> 3

def setPtrType (p : VALUE) (t : TYPE) : VALUE := ptrValMask &&& p ||| t ||| ptrMask

def encSym (s : UINT) : VALUE := s <<< 4 ||| valTypeSymbol

def encI (x : UINT) : VALUE := x <<< 4 ||| valTypeI

def encU (x : UINT) : VALUE := x <<< 4 ||| valTypeU

/-- `enc_char` takes a (signed) `char`, so its argument is sign-extended to 32 bits. -/
def encChar (x : BitVec 8) : VALUE := x.signExtend 32 <<< 4 ||| valTypeChar

/-- `dec_i` shifts the signed reinterpretation of the word: an arithmetic shift. -/
def decI (x : VALUE) : UINT := x.sshiftRight 4

def decU (x : VALUE) : UINT := x >>> 4

def decChar (x : VALUE) : BitVec 8 := (x >>> 4).setWidth 8

def decSym (x : VALUE) : UINT := x >>> 4

def valSetGcMark (x : VALUE) : VALUE := x ||| gcMask

def valClrGcMark (x : VALUE) : VALUE := x &&& ~~~gcMask

def valGetGcMark (x : VALUE) : Bool := x &&& gcMask != 0#32

def isNumber (x : VALUE) : Bool :=
  let t := typeOf x
  t == valTypeI || t == valTypeU || t == ptrTypeBoxedI || t == ptrTypeBoxedU || t == ptrTypeBoxedF

def isSpecial (symrep : VALUE) : Bool :=
  typeOf symrep == valTypeSymbol && decSym symrep < maxSpecialSymbols

def isFundamental (symrep : VALUE) : Bool :=
  typeOf symrep == valTypeSymbol && fundamentalsStart ≤ decSym symrep
    && decSym symrep ≤ fundamentalsEnd

def isSymbol (exp : VALUE) : Bool := typeOf exp == valTypeSymbol

def isSymbolNil (exp : VALUE) : Bool := isSymbol exp && decSym exp == symreprNil

def isSymbolEval (exp : VALUE) : Bool := isSymbol exp && decSym exp == symreprEval

def isSymbolMerror (exp : VALUE) : Bool := isSymbol exp && decSym exp == symreprMerror

/-- `symrepr_is_error` compares a symbol *id*; its callers in `eval_cps.c` hand it a value
word, so it is kept on raw words here. -/
def symreprIsError (symrep : UINT) : Bool :=
  symrep == symreprRerror || symrep == symreprTerror || symrep == symreprRerror
    || symrep == symreprMerror || symrep == symreprEerror || symrep == symreprFatalError

/-- The static `NIL` of `heap.c` and `eval_cps.c`. -/
def NIL : VALUE := encSym symreprNil

/-- The static `RECOVERED` of `heap.c`: the car of every cell on the free list. -/
def RECOVERED : VALUE := encSym defReprRecovered

/-- The cell a pointer addresses, as an index into the heap array. -/
def ptrIx (p : VALUE) : Nat := (decPtr p).toNat

/-- The cons pointer to cell `i`. -/
def cellPtr (i : Nat) : VALUE := encConsPtr (BitVec.ofNat 32 i)

/-! ## The mark bit is invisible to the pointer tests -/

@[simp] theorem isPtr_valSetGcMark (v : VALUE) : isPtr (valSetGcMark v) = isPtr v := by
  have h : (v ||| gcMask) &&& ptrMask = v &&& ptrMask := by
    ext i hi
    interval_cases i <;> simp [gcMask, ptrMask]
  simp only [isPtr, valSetGcMark, h]

@[simp] theorem decPtr_valSetGcMark (v : VALUE) : decPtr (valSetGcMark v) = decPtr v := by
  ext i hi
  simp only [decPtr, valSetGcMark, ptrValMask, gcMask]
  interval_cases i <;> simp

@[simp] theorem ptrIx_valSetGcMark (v : VALUE) : ptrIx (valSetGcMark v) = ptrIx v := by
  simp only [ptrIx, decPtr_valSetGcMark]

@[simp] theorem ptrType_valSetGcMark (v : VALUE) : ptrType (valSetGcMark v) = ptrType v := by
  ext i hi
  simp only [ptrType, valSetGcMark, ptrTypeMask, gcMask]
  interval_cases i <;> simp

@[simp] theorem typeOf_valSetGcMark (v : VALUE) : typeOf (valSetGcMark v) = typeOf v := by
  have hv : (v ||| gcMask) &&& valTypeMask = v &&& valTypeMask := by
    ext i hi
    interval_cases i <;> simp [gcMask, valTypeMask]
  have hp : (v ||| gcMask) &&& ptrTypeMask = v &&& ptrTypeMask := ptrType_valSetGcMark v
  have hs := isPtr_valSetGcMark v
  simp only [typeOf, hs]
  simp only [valSetGcMark, hv, hp]

@[simp] theorem valGetGcMark_valSetGcMark (v : VALUE) : valGetGcMark (valSetGcMark v) = true := by
  have h : (v ||| gcMask) &&& gcMask = gcMask := by
    ext i hi
    interval_cases i <;> simp [gcMask]
  simp only [valGetGcMark, valSetGcMark, h]
  decide

@[simp] theorem valGetGcMark_valClrGcMark (v : VALUE) :
    valGetGcMark (valClrGcMark v) = false := by
  have h : v &&& ~~~gcMask &&& gcMask = 0#32 := by
    ext i hi
    interval_cases i <;> simp [gcMask]
  simp only [valGetGcMark, valClrGcMark, h]
  decide

@[simp] theorem valClrGcMark_valSetGcMark (v : VALUE) :
    valClrGcMark (valSetGcMark v) = valClrGcMark v := by
  ext i hi
  simp only [valClrGcMark, valSetGcMark, gcMask]
  interval_cases i <;> simp

/-- A word whose mark is clear is left alone by clearing. -/
theorem valClrGcMark_eq_self {v : VALUE} (h : valGetGcMark v = false) : valClrGcMark v = v := by
  have hbit : v &&& gcMask = 0#32 := by simpa [valGetGcMark] using h
  have h1 : v[1] = false := by
    have := congrArg (fun w : VALUE => w[1]) hbit
    simpa [gcMask] using this
  ext i hi
  simp only [valClrGcMark, gcMask]
  interval_cases i <;> simp [h1]

/-! ## Cons pointers and immediates -/

@[simp] theorem isPtr_encConsPtr (x : UINT) : isPtr (encConsPtr x) = true := by
  have h : (x <<< 3 ||| ptrTypeCons ||| ptrMask) &&& ptrMask = ptrMask := by
    ext i hi
    interval_cases i <;> simp [ptrMask, ptrTypeCons]
  simp only [isPtr, encConsPtr, h]
  decide

/-- The upper bits of an index below `2 ^ 23` are clear. -/
theorem getElem_eq_false_of_lt {x : UINT} {n i : Nat} (h : x.toNat < 2 ^ n) (hn : n ≤ i)
    (hi : i < 32) : x[i] = false := by
  rw [← BitVec.getLsbD_eq_getElem hi, BitVec.getLsbD, Nat.testBit_lt_two_pow]
  exact lt_of_lt_of_le h (Nat.pow_le_pow_right (by decide) hn)

theorem decPtr_encConsPtr {x : UINT} (h : x.toNat < 2 ^ 23) : decPtr (encConsPtr x) = x := by
  have hbit : ∀ i (hi : i < 32), 23 ≤ i → x[i] = false := fun i hi hn =>
    getElem_eq_false_of_lt h hn hi
  ext i hi
  simp only [decPtr, encConsPtr, ptrValMask, ptrTypeCons, ptrMask]
  interval_cases i <;> simp [hbit]

theorem ptrType_encConsPtr {x : UINT} (h : x.toNat < 2 ^ 23) :
    ptrType (encConsPtr x) = ptrTypeCons := by
  have hbit : ∀ i (hi : i < 32), 23 ≤ i → x[i] = false := fun i hi hn =>
    getElem_eq_false_of_lt h hn hi
  ext i hi
  simp only [ptrType, encConsPtr, ptrTypeMask, ptrTypeCons, ptrMask]
  interval_cases i <;> simp [hbit]

@[simp] theorem valGetGcMark_encConsPtr (x : UINT) : valGetGcMark (encConsPtr x) = false := by
  have h : (x <<< 3 ||| ptrTypeCons ||| ptrMask) &&& gcMask = 0#32 := by
    ext i hi
    interval_cases i <;> simp [ptrMask, ptrTypeCons, gcMask]
  simp only [valGetGcMark, encConsPtr, h]
  decide

@[simp] theorem isPtr_cellPtr (i : Nat) : isPtr (cellPtr i) = true := isPtr_encConsPtr _

@[simp] theorem valGetGcMark_cellPtr (i : Nat) : valGetGcMark (cellPtr i) = false :=
  valGetGcMark_encConsPtr _

theorem toNat_ofNat_of_lt {i : Nat} (h : i < 2 ^ 23) : (BitVec.ofNat 32 i).toNat = i := by
  rw [BitVec.toNat_ofNat]
  omega

@[simp] theorem ptrIx_cellPtr {i : Nat} (h : i < 2 ^ 23) : ptrIx (cellPtr i) = i := by
  have hi := toNat_ofNat_of_lt h
  rw [ptrIx, cellPtr, decPtr_encConsPtr (by rw [hi]; exact h), hi]

theorem typeOf_cellPtr {i : Nat} (h : i < 2 ^ 23) : typeOf (cellPtr i) = ptrTypeCons := by
  have hi := toNat_ofNat_of_lt h
  have ht := ptrType_encConsPtr (x := BitVec.ofNat 32 i) (by rw [hi]; exact h)
  simpa [typeOf, cellPtr, ptrType] using ht

/-- A word with a type code below its payload is not a pointer. -/
theorem isPtr_shift (x : UINT) {t : TYPE} (ht : t &&& valTypeMask = t) :
    isPtr (x <<< 4 ||| t) = false := by
  have h : (x <<< 4 ||| t) &&& ptrMask = 0#32 := by
    rw [← ht]
    ext i hi
    interval_cases i <;> simp [ptrMask, valTypeMask]
  simp only [isPtr, h]
  decide

theorem typeOf_shift (x : UINT) {t : TYPE} (ht : t &&& valTypeMask = t) :
    typeOf (x <<< 4 ||| t) = t := by
  have h : (x <<< 4 ||| t) &&& valTypeMask = t &&& valTypeMask := by
    ext i hi
    interval_cases i <;> simp [valTypeMask]
  rw [typeOf, isPtr_shift x ht]
  exact h.trans ht

@[simp] theorem isPtr_encSym (s : UINT) : isPtr (encSym s) = false := isPtr_shift s (by decide)

@[simp] theorem typeOf_encSym (s : UINT) : typeOf (encSym s) = valTypeSymbol :=
  typeOf_shift s (by decide)

theorem decSym_encSym {s : UINT} (hs : s.toNat < 2 ^ 28) : decSym (encSym s) = s := by
  have hbit : ∀ i (hi : i < 32), 28 ≤ i → s[i] = false := fun i hi hn =>
    getElem_eq_false_of_lt hs hn hi
  ext i hi
  simp only [decSym, encSym, valTypeSymbol]
  interval_cases i <;> simp [hbit]

theorem decU_encU {x : UINT} (h : x.toNat < 2 ^ 28) : decU (encU x) = x := by
  have hbit : ∀ i (hi : i < 32), 28 ≤ i → x[i] = false := fun i hi hn =>
    getElem_eq_false_of_lt h hn hi
  ext i hi
  simp only [decU, encU, valTypeU]
  interval_cases i <;> simp [hbit]

theorem decChar_encChar (c : BitVec 8) : decChar (encChar c) = c := by
  ext i hi
  simp only [decChar, encChar, valTypeChar]
  interval_cases i <;> simp [BitVec.getElem_signExtend]

theorem typeOf_of_isPtr {v : VALUE} (h : isPtr v = true) : typeOf v = ptrType v := by
  simp [typeOf, ptrType, h]

/-- A word of cons type is a pointer: no immediate type code has bit 28 set. -/
theorem isPtr_of_typeOf_cons {v : VALUE} (h : typeOf v = ptrTypeCons) : isPtr v = true := by
  by_contra hp
  have hv : v &&& valTypeMask = ptrTypeCons := by
    simpa [typeOf, hp] using h
  have := congrArg (fun w : VALUE => w[28]) hv
  simp [valTypeMask, ptrTypeCons] at this

theorem ptrIx_lt (v : VALUE) : ptrIx v < 2 ^ 23 := by
  have h : (decPtr v).toNat ≤ 0x03FFFFF8 >>> 3 := by
    rw [decPtr, BitVec.toNat_ushiftRight, BitVec.toNat_and]
    have : ptrValMask.toNat &&& v.toNat ≤ 0x03FFFFF8 := by
      refine le_trans Nat.and_le_left ?_
      decide
    simp only [Nat.shiftRight_eq_div_pow]
    omega
  rw [ptrIx]
  omega

end LispBM
