import LispBM.Compression
import LispBM.Fundamental
import LispBM.QqExpand

/-!
# LispBM — the reader (`src/tokpar.c`)

The tokenizer works on a stream of characters given by four functions; a program is read from a
string or from a compressed program. `next_token` tries a dozen recognisers in order, and what one
of them has dropped is gone for the others. The parser builds the program in the heap and enters
the names it meets in the symbol table.

The loops of the recognisers look ahead for as long as characters are of a kind. They are given
`fuel` iterations, more than there are characters; `none` also stands for what C leaves undefined,
as in `LispBM.Fundamental`. Texts have no NUL, and reading past the end gives NUL.
-/

namespace LispBM

namespace Tokpar

open Compression (chr CString isspace DecompState decompressIncremental initState)
open BitBuffer (Byte)

/-- `token`. -/
inductive Token where
  | openpar
  | closepar
  | quote
  | backquote
  | comma
  | commaat
  | symbol (text : List Byte)
  | int (i : UINT)
  | uint (u : UINT)
  | boxedInt (i : UINT)
  | boxedUint (u : UINT)
  | boxedFloat (f : UINT)
  | string (text : List Byte)
  | char (c : Byte)
  | error
  | eof
deriving DecidableEq, Repr

/-- The parts of the C library the reader uses: whether `malloc` has a block of a size, and the
bits of the `float` that `strtod` reads. -/
structure Libc where
  malloc : Nat → Bool
  strtod : List Byte → UINT

/-- `tokenizer_char_stream`, with `σ` the type of the state it points to. -/
structure CharStream (σ : Type) where
  more : σ → Bool
  get : σ → Byte × σ
  peek : σ → Nat → Byte
  drop : σ → Nat → σ

/-! ## Characters -/

def isLower (c : Byte) : Bool := chr 'a' ≤ c && c ≤ chr 'z'

def isUpper (c : Byte) : Bool := chr 'A' ≤ c && c ≤ chr 'Z'

def isDigit (c : Byte) : Bool := chr '0' ≤ c && c ≤ chr '9'

def symchar0 (c : Byte) : Bool := isLower c || isUpper c || (cstring "+-*/=<>").contains c

def symchar (c : Byte) : Bool := symchar0 c || isDigit c

/-- `tolower` of the C library in the "C" locale. -/
def tolower (c : Byte) : Byte := if isUpper c then c + 32#8 else c

/-- `isgraph` of the C library in the "C" locale. -/
def isgraph (c : Byte) : Bool := 33#8 ≤ c && c ≤ 126#8

def isHexDigit (c : Byte) : Bool :=
  isDigit c || (chr 'a' ≤ c && c ≤ chr 'f') || (chr 'A' ≤ c && c ≤ chr 'F')

def hexValue (c : Byte) : UINT :=
  if chr 'a' ≤ c && c ≤ chr 'f' then 10#32 + (c - chr 'a').setWidth 32
  else if chr 'A' ≤ c && c ≤ chr 'F' then 10#32 + (c - chr 'A').setWidth 32
  else (c - chr '0').setWidth 32

def digitValue (c : Byte) : UINT := (c - chr '0').setWidth 32

/-! ## The recognisers -/

/-- A recogniser: the token it has found, or `none` for the result 0, and the stream after it. -/
abbrev Recogniser (σ : Type) := σ → Option (Option Token × σ)

section Recognisers

variable (lib : Libc) {σ : Type} (str : CharStream σ) (fuel : Nat)

/-- The loops `while (p(peek(str,n))) n++`. -/
def countWhile (p : Byte → Bool) (s : σ) : Nat → Nat → Option Nat
  | 0, _ => none
  | fuel + 1, n => if p (str.peek s n) then countWhile p s fuel (n + 1) else some n

/-- `n` characters, taken one at a time. -/
def getMany : Nat → σ → List Byte × σ
  | 0, s => ([], s)
  | n + 1, s =>
      let (c, s) := str.get s
      let (cs, s) := getMany n s
      (c :: cs, s)

/-- The next characters are those of a text. -/
def peekIs (s : σ) (start : Nat) (text : List Byte) : Bool :=
  text.zipIdx.all fun (c, i) => str.peek s (start + i) == c

/-- The value of the first `n` characters as a number; `INT` and `UINT` wrap. -/
def numeral (base : UINT) (value : Byte → UINT) (s : σ) (start n : Nat) : UINT :=
  (List.range n).foldl (fun acc i => acc * base + value (str.peek s (start + i))) 0#32

/-- The recognisers of one or two fixed characters. -/
def tokFixed (text : String) (t : Token) : Recogniser σ := fun s =>
  if peekIs str s 0 (cstring text) then some (some t, str.drop s (cstring text).length)
  else some (none, s)

def tokOpenpar : Recogniser σ := tokFixed str "(" .openpar
def tokClosepar : Recogniser σ := tokFixed str ")" .closepar
def tokQuote : Recogniser σ := tokFixed str "'" .quote
def tokBackquote : Recogniser σ := tokFixed str "`" .backquote
def tokCommaat : Recogniser σ := tokFixed str ",@" .commaat
def tokComma : Recogniser σ := tokFixed str "," .comma

/-- `tok_symbol`: the result -1 is the error token. -/
def tokSymbol : Recogniser σ := fun s =>
  if !symchar0 (str.peek s 0) then some (none, s)
  else do
    let len ← countWhile str symchar s fuel 1
    if !lib.malloc (len + 1) then some (some .error, s)
    else
      let (text, s) := getMany str len s
      some (some (.symbol (text.map tolower)), s)

/-- `tok_string`: the double quote at the beginning is removed even if the string is not closed. -/
def tokString : Recogniser σ := fun s =>
  if !(str.peek s 0 == chr '"') then some (none, s)
  else do
    let s := (str.get s).2
    let len ← countWhile str (fun c => c != 0#8 && c != chr '"') s fuel 0
    if str.peek s len != chr '"' then some (none, s)
    else if !lib.malloc (len + 1) then some (some .error, s)
    else
      let (text, s) := getMany str len s
      some (some (.string text), (str.get s).2)

def tokChar : Recogniser σ := fun s =>
  if peekIs str s 0 (cstring "\\#newline") then some (some (.char (chr '\n')), str.drop s 9)
  else if peekIs str s 0 (cstring "\\#") && isgraph (str.peek s 2) then
    some (some (.char (str.peek s 2)), str.drop s 3)
  else some (none, s)

/-- `tok_i`: digits, not followed by one of the characters that continue other numbers. -/
def toki : Recogniser σ := fun s => do
  let n ← countWhile str isDigit s fuel 0
  if (cstring "Uu.I").contains (str.peek s n) then some (none, s)
  else if n = 0 then some (none, s)
  else some (some (.int (numeral str 10#32 digitValue s 0 n)), str.drop s n)

/-- Digits and a suffix. -/
def tokSuffixed (suffix : String) (t : UINT → Token) : Recogniser σ := fun s => do
  let n ← countWhile str isDigit s fuel 0
  if peekIs str s n (cstring suffix) then
    some (some (t (numeral str 10#32 digitValue s 0 n)), str.drop s (n + (cstring suffix).length))
  else some (none, s)

def tokI : Recogniser σ := tokSuffixed str fuel "i32" .boxedInt

def toku : Recogniser σ := tokSuffixed str fuel "u28" .uint

/-- `tok_U`: hexadecimal, or decimal with a suffix. -/
def tokU : Recogniser σ := fun s =>
  if str.peek s 0 == chr '0' && (str.peek s 1 == chr 'x' || str.peek s 1 == chr 'X') then do
    let n ← countWhile str isHexDigit s fuel 2
    some (some (.boxedUint (numeral str 0x10#32 hexValue s 2 (n - 2))), str.drop s n)
  else tokSuffixed str fuel "u32" .boxedUint s

/-- `tok_F`: at most 255 characters of a number are taken from the stream. -/
def tokF : Recogniser σ := fun s => do
  let n ← countWhile str isDigit s fuel 0
  if !(str.peek s n == chr '.') then some (none, s)
  else if !isDigit (str.peek s (n + 1)) then some (none, s)
  else
    let n ← countWhile str isDigit s fuel (n + 1)
    let (fbuf, s) := getMany str (min n 255) s
    some (some (.boxedFloat (lib.strtod fbuf)), s)

/-! ## `next_token` -/

/-- The recognisers in the order in which they are tried. -/
def recognisers : List (Recogniser σ) :=
  [tokQuote str, tokBackquote str, tokCommaat str, tokComma str, tokOpenpar str, tokClosepar str,
    tokSymbol lib str fuel, tokChar str, tokString lib str fuel, tokF lib str fuel, tokU str fuel,
    toku str fuel, tokI str fuel, toki str fuel]

/-- The first recogniser that finds a token. -/
def firstOf : List (Recogniser σ) → σ → Option (Token × σ)
  | [], s => some (.error, s)
  | r :: rs, s =>
      match r s with
      | none => none
      | some (some t, s) => some (t, s)
      | some (none, s) => firstOf rs s

/-- The loop over the characters of a comment. -/
def dropComment : Nat → σ → Option σ
  | 0, _ => none
  | n + 1, s =>
      if str.more s && str.peek s 0 != chr '\n' then dropComment n (str.drop s 1) else some s

/-- Eat white space and comments. -/
def cleanWhitespace : Nat → σ → Option σ
  | 0, _ => none
  | n + 1, s =>
      if str.peek s 0 == chr ';' then do
        let s ← dropComment str fuel s
        cleanWhitespace n s
      else if isspace (str.peek s 0) then cleanWhitespace n (str.drop s 1)
      else some s

def nextToken (s : σ) : Option (Token × σ) :=
  if !str.more s then some (.eof, s)
  else do
    let s ← cleanWhitespace str fuel fuel s
    if !str.more s then some (.eof, s) else firstOf (recognisers lib str fuel) s

end Recognisers

/-! ## The parser -/

/-- What the parser changes: the heap, with the managed memory, and the symbol table. -/
structure ReaderState where
  heap : HeapState
  symtab : SymbolTable

/-- An allocation in the heap. -/
def ReaderState.alloc (st : ReaderState) (f : HeapState → VALUE × HeapState) :
    VALUE × ReaderState :=
  let (v, heap) := f st.heap
  (v, { st with heap := heap })

/-- `TOKSYMBOL`: a name that is not known is added. -/
def parseSymbol (text : List Byte) (st : ReaderState) : Option (VALUE × ReaderState) := do
  let found ← symreprLookup st.heap.memory st.symtab text
  match found with
  | some id => some (encSym id, st)
  | none =>
      let (added, m, symtab) ← symreprAddsym st.heap.memory st.symtab text
      let st : ReaderState := ⟨{ st.heap with memory := m }, symtab⟩
      match added with
      | some id => some (encSym id, st)
      | none => some (encSym symreprRerror, st)

/-- `TOKSTRING`. The result of `heap_allocate_array` is not looked at; when it fails, `v` is used
uninitialised. -/
def parseString (text : List Byte) (st : ReaderState) : Option (VALUE × ReaderState) := do
  let (_, v, heap) ← heapAllocateArray (BitVec.ofNat 32 text.length + 1#32) valTypeChar st.heap
  let v ← v
  let m ← writeBytes heap.memory (car heap v + 8#32) (text ++ [0#8])
  some (v, { st with heap := { heap with memory := m } })

/-- `TOKBOXEDINT` and its siblings; `cons` is not checked. -/
def parseBoxed (tySym : UINT) (ty : TYPE) (x : UINT) (st : ReaderState) : VALUE × ReaderState :=
  st.alloc fun h =>
    let (c, h) := cons x (encSym tySym) h
    (setPtrType c ty, h)

/-- `TOKQUOTE`, `TOKCOMMA` and `TOKCOMMAAT` after the expression was parsed. -/
def wrap (s : UINT) (quoted : VALUE) (st : ReaderState) : VALUE × ReaderState :=
  if isSymbolOf symreprRerror quoted then (quoted, st)
  else st.alloc (consTwo (encSym s) quoted)

/-- `TOKBACKQUOTE` after the expression was parsed. -/
def wrapBackquote (quoted : VALUE) (st : ReaderState) : Option (VALUE × ReaderState) :=
  if isSymbolOf symreprRerror quoted then some (quoted, st)
  else do
    let (expanded, h) ← qqExpand quoted st.heap
    some (expanded, { st with heap := h })

section Parser

variable {σ : Type} (next : σ → Option (Token × σ))

mutual

def parseSexp : Nat → Token → σ → ReaderState → Option (VALUE × σ × ReaderState)
  | 0, _, _, _ => none
  | n + 1, tok, s, st =>
      match tok with
      | .eof => some (encSym symreprRerror, s, st)
      | .error => some (encSym symreprRerror, s, st)
      | .openpar => do
          let (t, s) ← next s
          parseSexpList n t s st
      | .symbol text => do
          let (v, st) ← parseSymbol text st
          some (v, s, st)
      | .string text => do
          let (v, st) ← parseString text st
          some (v, s, st)
      | .int i => some (encI i, s, st)
      | .uint u => some (encU u, s, st)
      | .char c => some (encChar c, s, st)
      | .boxedInt i =>
          let (v, st) := parseBoxed defReprBoxedIType ptrTypeBoxedI i st
          some (v, s, st)
      | .boxedUint u =>
          let (v, st) := parseBoxed defReprBoxedUType ptrTypeBoxedU u st
          some (v, s, st)
      | .boxedFloat f =>
          let (v, st) := parseBoxed defReprBoxedFType ptrTypeBoxedF f st
          some (v, s, st)
      | .quote => do
          let (t, s) ← next s
          let (quoted, s, st) ← parseSexp n t s st
          let (v, st) := wrap symreprQuote quoted st
          some (v, s, st)
      | .backquote => do
          let (t, s) ← next s
          let (quoted, s, st) ← parseSexp n t s st
          let (v, st) ← wrapBackquote quoted st
          some (v, s, st)
      | .commaat => do
          let (t, s) ← next s
          let (splice, s, st) ← parseSexp n t s st
          let (v, st) := wrap symreprCommaat splice st
          some (v, s, st)
      | .comma => do
          let (t, s) ← next s
          let (unquoted, s, st) ← parseSexp n t s st
          let (v, st) := wrap symreprComma unquoted st
          some (v, s, st)
      | .closepar => some (encSym symreprRerror, s, st)

def parseSexpList : Nat → Token → σ → ReaderState → Option (VALUE × σ × ReaderState)
  | 0, _, _, _ => none
  | n + 1, tok, s, st =>
      match tok with
      | .eof => some (encSym symreprRerror, s, st)
      | .error => some (encSym symreprRerror, s, st)
      | .closepar => some (encSym symreprNil, s, st)
      | tok => do
          let (head, s, st) ← parseSexp n tok s st
          let (t, s) ← next s
          let (tail, s, st) ← parseSexpList n t s st
          if isSymbolOf symreprRerror head || isSymbolOf symreprRerror tail then
            some (encSym symreprRerror, s, st)
          else
            let (v, st) := st.alloc (cons head tail)
            some (v, s, st)

end

def parseProgram (sexpFuel : Nat) : Nat → σ → ReaderState → Option (VALUE × σ × ReaderState)
  | 0, _, _ => none
  | n + 1, s, st => do
      let (tok, s) ← next s
      match tok with
      | .error => some (encSym symreprRerror, s, st)
      | .eof => some (encSym symreprNil, s, st)
      | tok =>
          let (head, s, st) ← parseSexp next sexpFuel tok s st
          let (tail, s, st) ← parseProgram sexpFuel n s st
          let (v, st) := st.alloc (cons head tail)
          some (v, s, st)

end Parser

/-- The whole program, from a stream with at most `n` characters. -/
def parseStream (lib : Libc) {σ : Type} (str : CharStream σ) (n : Nat) (s : σ)
    (st : ReaderState) : Option (VALUE × ReaderState) := do
  let (v, _, st) ← parseProgram (nextToken lib str (n + 2)) (2 * n + 3) (n + 2) s st
  some (v, st)

/-! ## Strings -/

/-- `more_string` .. `drop_string`; the state is the rest of the string. -/
def stringStream : CharStream (List Byte) where
  more s := !s.isEmpty
  get s := (s.headD 0#8, s.tail)
  peek s n := s.getD n 0#8
  drop s n := s.drop n

def tokparParse (lib : Libc) (string : CString) (st : ReaderState) :
    Option (VALUE × ReaderState) :=
  parseStream lib stringStream string.chars.length string.chars st

/-! ## Compressed programs -/

/-- `tokenizer_compressed_state`. -/
structure CompressedState where
  ds : DecompState
  decompBuff : List Byte
  decompBytes : Int
  buffPos : Nat

/-- There are bits left; `compressed_bits + 32` is a `uint32_t`. -/
def CompressedState.bitsLeft (s : CompressedState) : Bool :=
  s.ds.i < (s.ds.compressedBits + 32) % 2 ^ 32

def moreCompressed (s : CompressedState) : Bool :=
  s.bitsLeft || (s.buffPos : Int) < s.decompBytes

/-- The next character of the buffer. -/
def CompressedState.buffered (s : CompressedState) : Byte × CompressedState :=
  (s.decompBuff.getD s.buffPos 0#8, { s with buffPos := s.buffPos + 1 })

/-- The buffer is cleared before characters are written to it, also if none are. -/
def getCompressed (s : CompressedState) : Byte × CompressedState :=
  if !s.bitsLeft && s.decompBytes ≤ s.buffPos then (0#8, s)
  else if s.decompBytes ≤ s.buffPos then
    match decompressIncremental s.ds with
    | (some [], ds) => (0#8, { s with ds := ds, decompBuff := List.replicate 32 0#8 })
    | (some cs, ds) =>
        ({ ds := ds, decompBuff := cs ++ List.replicate (32 - cs.length) 0#8,
           decompBytes := cs.length, buffPos := 0 : CompressedState }).buffered
    | (none, ds) =>
        ({ ds := ds, decompBuff := List.replicate 32 0#8, decompBytes := -1,
           buffPos := 0 : CompressedState }).buffered
  else s.buffered

def dropCompressed (s : CompressedState) : Nat → CompressedState
  | 0 => s
  | n + 1 => dropCompressed (getCompressed s).2 n

/-- `peek_compressed` reads ahead and puts the state back. -/
def peekCompressed (s : CompressedState) (n : Nat) : Byte := (getCompressed (dropCompressed s n)).1

def compressedStream : CharStream CompressedState where
  more := moreCompressed
  get := getCompressed
  peek := peekCompressed
  drop := dropCompressed

/-- Every character takes at least one bit. -/
def tokparParseCompressed (lib : Libc) (bytes : List Byte) (st : ReaderState) :
    Option (VALUE × ReaderState) :=
  let ds := initState bytes
  parseStream lib compressedStream ds.compressedBits
    { ds := ds, decompBuff := List.replicate 32 0#8, decompBytes := 0, buffPos := 0 } st

end Tokpar

end LispBM
