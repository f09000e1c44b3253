import LispBM.Symrepr
import LispBM.Lib.BitBuffer
import LispBM.Lib.PrefixCode

/-!
# LispBM — program compression (`src/compression.c`)

Outside string literals a program is written as code words of six or seven bits for characters and
for frequent names, with comments removed and white space collapsed. Inside string literals the
characters are copied, eight bits each. The first four bytes of the result are the number of bits.

Strings are lists of characters without the final NUL. Targets have 32-bit addresses, where no
object has `2 ^ 31` bytes or more. Bit counts are of type `int`; where one would overflow the result
is `none`, as for a failed compression.
-/

namespace LispBM

namespace Compression

open BitBuffer (Byte)
open PrefixCode

/-- A character constant of the source. -/
def chr (c : Char) : Byte := BitVec.ofNat 8 c.toNat

/-- A NUL-terminated string in memory. -/
structure CString where
  chars : List Byte
  no_nul : ∀ c ∈ chars, c ≠ 0#8
  length_lt : chars.length < 2 ^ 31

/-! ## The code table -/

def codeStrings : List (String × String) :=
  [("9", "010111"), ("8", "101110"), ("7", "100001"), ("6", "100010"), ("5", "100100"),
    ("4", "011000"), ("3", "100101"), ("2", "011001"), ("1", "011101"), ("0", "011011"),
    (",", "110101"), ("`", "110110"), (" ", "110000"), ("'", "110111"), ("\\", "101111"),
    ("\"", "111000"), ("#", "110010"), (".", "111001"), (">", "110011"), ("<", "111100"),
    ("=", "111101"), ("/", "111010"), ("*", "110001"), ("-", "111011"), ("+", "110100"),
    ("nil", "101000"), ("cdr", "101001"), ("car", "101010"), ("cons", "100110"),
    ("let", "100111"), ("define", "011110"), ("progn", "011111"), ("quote", "010110"),
    ("list", "101100"), ("if", "011100"), ("lambda", "100011"), ("((", "101101"),
    ("))", "011010"), (")", "101011"), ("(", "100000"), ("z", "001111"), ("y", "000100"),
    ("x", "000000"), ("w", "000001"), ("v", "010011"), ("u", "000010"), ("t", "001000"),
    ("s", "001001"), ("r", "010000"), ("q", "010001"), ("p", "1111111"), ("o", "001100"),
    ("n", "001110"), ("m", "1111100"), ("l", "000101"), ("k", "000110"), ("j", "000011"),
    ("i", "001010"), ("h", "1111110"), ("g", "001101"), ("f", "1111101"), ("e", "000111"),
    ("d", "001011"), ("c", "010100"), ("b", "010010"), ("a", "010101")]

/-- `codes`: keys as characters, code words as bits. -/
def codes : List (List Byte × List Bool) :=
  codeStrings.map fun (key, code) => (cstring key, code.toList.map (· == '1'))

def keyOf (ix : Nat) : List Byte := (codes.getD ix ([], [])).1

def codeOf (ix : Nat) : List Bool := (codes.getD ix ([], [])).2

/-- `match_longest_key`; `none` for -1. -/
def matchLongestKey (string : List Byte) : Option Nat :=
  longest (fun e => e.1.length ≤ string.length && e.1 == string.take e.1.length)
    (fun e => e.1.length) codes

/-- `match_longest_code`; `none` for -1. -/
def matchLongestCode (string : List Byte) (startBit totalBits : Nat) : Option Nat :=
  longest
    (fun e => e.2.length ≤ totalBits - startBit
      && e.2 == (List.range e.2.length).map fun b => BitBuffer.bit string (startBit + b))
    (fun e => e.2.length) codes

/-! ## Compression -/

/-- `string[i]`, which is NUL at the end. -/
def charAt (string : List Byte) (i : Nat) : Byte := string.getD i 0#8

def isWhitespace (c : Byte) : Bool :=
  c == chr '\n' || c == chr ' ' || c == chr '\t' || c == chr '\r'

/-- `isspace` of the C library in the "C" locale. -/
def isspace (c : Byte) : Bool := c == chr ' ' || (9#8 ≤ c && c ≤ 13#8)

/-- The characters of a comment, of which the first is a semicolon. -/
def inComment (c : Byte) : Bool := c != 0#8 && c != chr '\n'

/-- The loop that gobbles up a comment. -/
def skipComment (string : List Byte) (i : Nat) : Nat :=
  i + ((string.drop i).takeWhile inComment).length

/-- The end of a string literal: a double quote without a backslash in front of it. -/
def closesString (string : List Byte) (i : Nat) : Bool :=
  charAt string i == chr '"' && !(charAt string (i - 1) == chr '\\')

/-- The loop of `compressed_length`; `none` for -1. -/
def compressedLengthLoop (string : List Byte) : Nat → Nat → Nat → Bool → Bool → Option Nat
  | 0, _, _, _, _ => none
  | fuel + 1, i, compLen, stringMode, gobbling =>
      if i < string.length then
        if stringMode then
          if closesString string i then
            compressedLengthLoop string fuel (i + 1) (compLen + 8) false gobbling
          else compressedLengthLoop string fuel (i + 1) (compLen + 8) stringMode gobbling
        else if charAt string i == chr ';' then
          compressedLengthLoop string fuel (skipComment string i) compLen stringMode gobbling
        else if isWhitespace (charAt string i) then
          compressedLengthLoop string fuel (i + 1) compLen stringMode true
        else
          let i := if gobbling then i - 1 else i
          let stringMode := charAt string i == chr '"'
          let ix :=
            if isspace (charAt string i) then matchLongestKey [chr ' ']
            else matchLongestKey (string.drop i)
          match ix with
          | none => none
          | some ix =>
              compressedLengthLoop string fuel (i + (keyOf ix).length)
                (compLen + (codeOf ix).length) stringMode false
      else some compLen

/-- Iterations of the loops over a string: a step back is made after each run of white space. -/
def loopFuel (string : List Byte) : Nat := 2 * string.length + 2

def compressedLength (string : List Byte) : Option Nat :=
  compressedLengthLoop string (loopFuel string) 0 0 false false

/-- `emit_string_char_code` and the new `bit_pos`. -/
def emitStringCharCode (compressed : List Byte) (c : Byte) (bitPos : Nat) : List Byte × Nat :=
  ((List.range 8).foldl (fun buf i => BitBuffer.writeBit buf (bitPos + i) (c.getLsbD i)) compressed,
    bitPos + 8)

/-- `emit_code` and the new `bit_pos`. -/
def emitCode (compressed : List Byte) (code : List Bool) (bitPos : Nat) : List Byte × Nat :=
  (BitBuffer.writeBits compressed bitPos code, bitPos + code.length)

/-- The loop of `compression_compress`. White space in the string is overwritten. -/
def compressLoop : Nat → List Byte → Nat → List Byte → Nat → Bool → Bool → Option (List Byte)
  | 0, _, _, _, _, _, _ => none
  | fuel + 1, string, i, compressed, bitPos, stringMode, gobbling =>
      if i < string.length then
        if stringMode then
          if closesString string i then
            let (compressed, bitPos) := emitStringCharCode compressed (chr '"') bitPos
            compressLoop fuel string (i + 1) compressed bitPos false gobbling
          else
            let (compressed, bitPos) := emitStringCharCode compressed (charAt string i) bitPos
            compressLoop fuel string (i + 1) compressed bitPos stringMode gobbling
        else if charAt string i == chr ';' then
          compressLoop fuel string (skipComment string i) compressed bitPos stringMode gobbling
        else if isWhitespace (charAt string i) then
          compressLoop fuel (string.set i (chr ' ')) (i + 1) compressed bitPos stringMode true
        else
          let i := if gobbling then i - 1 else i
          let stringMode := charAt string i == chr '"'
          match matchLongestKey (string.drop i) with
          | none => none
          | some ix =>
              let (compressed, bitPos) := emitCode compressed (codeOf ix) bitPos
              compressLoop fuel string (i + (keyOf ix).length) compressed bitPos stringMode false
      else some compressed

/-- The four bytes of the header. -/
def header (headerValue : Nat) : List Byte :=
  (List.range 4).map fun k => BitVec.ofNat 8 (headerValue >>> (8 * k))

/-- The size of the result in bytes. -/
def sizeBytes (cSizeBits : Nat) : Nat := 4 + cSizeBits / 8 + if 0 < cSizeBits % 8 then 1 else 0

/-- The bytes of the result before the bits are written. -/
def blank (cSizeBits : Nat) : List Byte :=
  header cSizeBits ++ List.replicate (sizeBytes cSizeBits - 4) 0#8

/-- `compression_compress`; `none` for NULL. -/
def compress (malloc : Nat → Bool) (string : CString) : Option (List Byte) :=
  -- -1 is a large `uint32_t`
  let cSizeBits := (compressedLength string.chars).getD 0xFFFFFFFF
  if cSizeBits == 0 then none
  else if !malloc (sizeBytes cSizeBits) then none
  -- `bit_pos` does not get past the last `int`
  else if (compressedLength string.chars).any fun bits => 2 ^ 31 ≤ bits + 32 then none
  else compressLoop (loopFuel string.chars) string.chars 0 (blank cSizeBits) 32 false false

/-! ## Decompression -/

/-- `decomp_state`. -/
structure DecompState where
  compressedBits : Nat
  i : Nat
  stringMode : Bool
  lastStringChar : Byte
  src : List Byte

/-- `compression_init_state`. -/
def initState (src : List Byte) : DecompState where
  compressedBits :=
    (src.getD 0 0#8).toNat + 2 ^ 8 * (src.getD 1 0#8).toNat + 2 ^ 16 * (src.getD 2 0#8).toNat
      + 2 ^ 24 * (src.getD 3 0#8).toNat
  i := 32
  stringMode := false
  lastStringChar := 0#8
  src := src

/-- `read_character`: the character at a bit position. -/
def readCharacter (src : List Byte) (bitPos : Nat) : Byte :=
  (List.range 8).foldl (fun c i => BitBuffer.setBit c i (BitBuffer.bit src (bitPos + i))) 0#8

/-- `compression_decompress_incremental`: the characters written to the buffer, none of them at
the end; `none` for -1. -/
def decompressIncremental (s : DecompState) : Option (List Byte) × DecompState :=
  if s.i < (s.compressedBits + 32) % 2 ^ 32 then
    if s.stringMode then
      let c := readCharacter s.src s.i
      let stringMode := !(c == chr '"' && s.lastStringChar != chr '\\')
      (some [c], { s with i := (s.i + 8) % 2 ^ 32, stringMode := stringMode, lastStringChar := c })
    else
      match matchLongestCode s.src s.i ((s.compressedBits + 32) % 2 ^ 32) with
      | none => (none, s)
      | some ix =>
          let s :=
            if keyOf ix == [chr '"'] then { s with stringMode := true, lastStringChar := 0#8 }
            else s
          (some (keyOf ix), { s with i := (s.i + (codeOf ix).length) % 2 ^ 32 })
  else (some [], s)

/-- The loop of `compression_decompress`: the result and the text after `dest`; `none` if a
character is written behind the `destN` bytes of the buffer. -/
def decompressLoop (destN : Nat) : Nat → DecompState → List Byte → Option (Bool × List Byte)
  | 0, _, _ => none
  | fuel + 1, s, dest =>
      match decompressIncremental s with
      | (none, _) => some (false, dest)
      | (some [], _) => some (true, dest)
      | (some (c :: cs), s) =>
          if dest.length + (c :: cs).length ≤ destN then
            decompressLoop destN fuel s (dest ++ c :: cs)
          else none

/-- `compression_decompress`: the result and the contents of the buffer of `destN` bytes. -/
def decompress (destN : Nat) (src : List Byte) : Option (Bool × List Byte) :=
  let s := initState src
  (decompressLoop destN (s.compressedBits + 2) s []).map fun (ok, dest) =>
    (ok, dest ++ List.replicate (destN - dest.length) 0#8)

end Compression

end LispBM
