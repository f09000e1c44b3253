import LispBM.Heap

/-!
# LispBM — words and strings in managed memory, and the symbol table (`src/symrepr.c`)

Array data and the names of interned symbols live in the region of the memory manager and are
reached through raw 32-bit addresses. An access outside the region, or to a word at an unaligned
address, is undefined in C and gives `none` here. Bytes are little-endian within a word.
-/

namespace LispBM

/-! ## Access by address -/

/-- The word index of an aligned address. -/
def wordIndex (m : MemoryState) (addr : UINT) : Option Nat :=
  let ix := ((addr - m.memoryBaseAddress) >>> 2).toNat
  if addr % 4#32 = 0#32 ∧ m.memoryBaseAddress ≤ addr ∧ ix < m.memory.length then some ix else none

def readWord (m : MemoryState) (addr : UINT) : Option UINT :=
  (wordIndex m addr).map (m.memory.getD · 0#32)

def writeWord (m : MemoryState) (addr w : UINT) : Option MemoryState :=
  (wordIndex m addr).map fun ix => { m with memory := m.memory.set ix w }

/-- The aligned address of the word a byte lies in, and the position of its lowest bit. -/
def byteSlot (addr : UINT) : UINT × Nat := (addr &&& 0xFFFFFFFC#32, 8 * (addr &&& 3#32).toNat)

def readByte (m : MemoryState) (addr : UINT) : Option (BitVec 8) :=
  (readWord m (byteSlot addr).1).map fun (w : UINT) =>
    BitVec.setWidth 8 (w >>> (byteSlot addr).2)

def writeByte (m : MemoryState) (addr : UINT) (b : BitVec 8) : Option MemoryState := do
  let (waddr, bit) := byteSlot addr
  let w ← readWord m waddr
  writeWord m waddr (w &&& ~~~(0xFF#32 <<< bit) ||| b.setWidth 32 <<< bit)

/-- `memcpy` of bytes to consecutive addresses. -/
def writeBytes (m : MemoryState) (addr : UINT) : List (BitVec 8) → Option MemoryState
  | [] => some m
  | b :: bs => do
      let m ← writeByte m addr b
      writeBytes m (addr + 1#32) bs

/-- The bytes of a C string, without its NUL. A string is not longer than the region, which
bounds the recursion. -/
def readCStringLoop (m : MemoryState) : Nat → UINT → Option (List (BitVec 8))
  | 0, _ => none
  | n + 1, addr => do
      let b ← readByte m addr
      if b = 0#8 then some []
      else
        let bs ← readCStringLoop m n (addr + 1#32)
        some (b :: bs)

def readCString (m : MemoryState) (addr : UINT) : Option (List (BitVec 8)) :=
  readCStringLoop m (4 * m.memory.length) addr

/-- The bytes of a string literal. -/
def cstring (s : String) : List (BitVec 8) := s.toList.map fun c => BitVec.ofNat 8 c.toNat

/-! ## Symbols -/

/-- `special_symbols`. -/
def specialSymbols : List (String × UINT) :=
  [("nil", symreprNil), ("quote", symreprQuote), ("t", symreprTrue), ("if", symreprIf),
    ("lambda", symreprLambda), ("closure", symreprClosure), ("let", symreprLet),
    ("define", symreprDefine), ("progn", symreprProgn), ("comma", 0x10#32), ("splice", 0x11#32),
    ("read_error", symreprRerror), ("type_error", symreprTerror), ("eval_error", symreprEerror),
    ("out_of_memory", symreprMerror), ("fatal_error", symreprFatalError),
    ("division_by_zero", symreprDivzero), ("sym_array", defReprArrayType),
    ("sym_boxed_i", defReprBoxedIType), ("sym_boxed_u", defReprBoxedUType),
    ("sym_boxed_f", defReprBoxedFType), ("sym_ref", 0x24#32), ("sym_recovered", defReprRecovered),
    ("sym_bytecode", 0x26#32), ("sym_nonsense", 0x27#32), ("variable_not_bound", symreprNotFound),
    ("type-list", symreprTypeList), ("type-i28", symreprTypeI28), ("type-u28", symreprTypeU28),
    ("type-float", symreprTypeFloat), ("type-i32", symreprTypeI32), ("type-u32", symreprTypeU32),
    ("type-array", symreprTypeArray), ("type-symbol", symreprTypeSymbol),
    ("type-char", symreprTypeChar), ("type-ref", 0x32#32),
    ("+", symAdd), ("-", symSub), ("*", symMul), ("/", symDiv), ("mod", symMod), ("=", symEq),
    ("<", symLt), (">", symGt), ("eval", symreprEval), ("and", symreprAnd), ("or", symreprOr),
    ("not", symNot), ("yield", symreprYield), ("wait", symreprWait), ("spawn", symreprSpawn),
    ("num-eq", symNumeq), ("car", symCar), ("cdr", symCdr), ("cons", symCons), ("list", symList),
    ("append", symAppend), ("array-read", symArrayRead), ("array-write", symArrayWrite),
    ("array-create", symArrayCreate), ("type-of", symTypeOf), ("sym-to-str", symSymbolToString),
    ("str-to-sym", symStringToSymbol), ("sym-to-u", symSymbolToUint),
    ("u-to-sym", symUintToSymbol), ("mk-sym-indirect", symMkSymbolIndirect),
    ("is-fundamental", symIsFundamental)]

/-- The globals of `symrepr.c`: the address of the newest entry of the symbol list (0 for NULL)
and the next id. An entry is three words: name, id, next. -/
structure SymbolTable where
  symlist : UINT
  nextSymbolId : UINT
deriving DecidableEq, Repr

/-- `lookup_symrepr_name_memory`: the name of an interned symbol, `some none` for NULL. The list
has fewer entries than the region has words. -/
def lookupNameLoop (m : MemoryState) (id : UINT) : Nat → UINT → Option (Option (List (BitVec 8)))
  | 0, _ => none
  | n + 1, curr =>
      if curr = 0#32 then some none
      else do
        let cid ← readWord m (curr + 4#32)
        if id = cid then
          let name ← readWord m curr
          let bs ← readCString m name
          some (some bs)
        else
          let next ← readWord m (curr + 8#32)
          lookupNameLoop m id n next

/-- `symrepr_lookup_name`. -/
def symreprLookupName (m : MemoryState) (st : SymbolTable) (id : UINT) :
    Option (Option (List (BitVec 8))) :=
  if id < maxSpecialSymbols then
    match specialSymbols.find? (·.2 == id) with
    | some (name, _) => some (some (cstring name))
    | none => lookupNameLoop m id (m.memory.length + 1) st.symlist
  else lookupNameLoop m id (m.memory.length + 1) st.symlist

def symreprLookupLoop (m : MemoryState) (name : List (BitVec 8)) : Nat → UINT → Option (Option UINT)
  | 0, _ => none
  | n + 1, curr =>
      if curr = 0#32 then some none
      else do
        let str ← readWord m curr
        let bs ← readCString m str
        if name = bs then
          let id ← readWord m (curr + 4#32)
          some (some id)
        else
          let next ← readWord m (curr + 8#32)
          symreprLookupLoop m name n next

/-- `symrepr_lookup`: the id of a name, `some none` for the result 0. -/
def symreprLookup (m : MemoryState) (st : SymbolTable) (name : List (BitVec 8)) :
    Option (Option UINT) :=
  match specialSymbols.find? (fun p => cstring p.1 == name) with
  | some (_, id) => some (some id)
  | none => symreprLookupLoop m name (m.memory.length + 1) st.symlist

/-- `symrepr_addsym`: the new id, or `none` inside for the result 0. The name is given `n` words,
not `n` bytes, as in the source. -/
def symreprAddsym (m : MemoryState) (st : SymbolTable) (name : List (BitVec 8)) :
    Option (Option UINT × MemoryState × SymbolTable) :=
  let n := name.length + 1
  if n = 1 then some (none, m, st)
  else
    match memoryAllocate m 3#32 with
    | (none, m) => some (none, m, st)
    | (some entry, m) =>
        match memoryAllocate m (BitVec.ofNat 32 n) with
        | (none, m) => some (none, (memoryFree m entry).2, st)
        | (some storage, m) => do
            let id := maxSpecialSymbols + st.nextSymbolId
            let m ← writeBytes m storage (name ++ [0#8])
            let m ← writeWord m entry storage
            let m ← writeWord m (entry + 8#32) st.symlist
            let m ← writeWord m (entry + 4#32) id
            some (some id, m, { symlist := entry, nextSymbolId := st.nextSymbolId + 1#32 })

end LispBM
