import LispBM.Fundamental.Integers
import LispBM.Tokpar.Text

/-!
# LispBM — numerals (`tok_i`, `tok_I`, `tok_u` and `tok_U`)

A numeral is a row of digits in one of five forms. The recognisers add up the digits in a machine
word, which wraps, and `enc_i` and `enc_u` drop its upper bits. No recogniser looks whether the
number fits.

* `lex_numeral` — the token of a numeral;
* `readExpr_numeral` — the number that is read;
* `readsNumeral_iff` — a numeral is exact or rejected when it fits and has a cell, else neither.
-/

namespace LispBM

namespace Tokpar

open Compression (chr CString isspace)
open BitBuffer (Byte)

/-! ## Numerals -/

/-- Digits without a suffix, with one, or in hexadecimal. -/
inductive Form where
  | plain
  | u28
  | i32
  | u32
  | hex
  deriving DecidableEq

namespace Form

/-- The type of the number. -/
def type : Form → IntType
  | plain => .i28
  | u28 => .u28
  | i32 => .i32
  | u32 => .u32
  | hex => .u32

def base : Form → Nat
  | hex => 16
  | _ => 10

def digit : Form → Byte → Bool
  | hex => isHexDigit
  | _ => isDigit

/-- What stands before and after the digits. -/
def before : Form → List Byte
  | hex => cstring "0x"
  | _ => []

def after : Form → List Byte
  | u28 => cstring "u28"
  | i32 => cstring "i32"
  | u32 => cstring "u32"
  | _ => []

def token : Form → UINT → Token
  | plain => .int
  | u28 => .uint
  | i32 => .boxedInt
  | u32 => .boxedUint
  | hex => .boxedUint

/-- The numeral with these digits. -/
def text (form : Form) (digits : List Byte) : List Byte := form.before ++ (digits ++ form.after)

end Form

/-- The value of a digit. -/
def digitNat (c : Byte) : Nat :=
  if isDigit c then c.toNat - 48
  else if chr 'a' ≤ c && c ≤ chr 'f' then c.toNat - 87
  else c.toNat - 55

/-- The number that a row of digits denotes. -/
def denoted (base : Nat) (digits : List Byte) : Nat :=
  digits.foldl (fun acc c => acc * base + digitNat c) 0

/-- The numbers of a type are below it. -/
def bound : IntType → Nat
  | .i28 => 2 ^ 27
  | .u28 => 2 ^ 28
  | .i32 => 2 ^ 31
  | .u32 => 2 ^ 32

/-- A numeral ends at white space, at a closing parenthesis or with the text. -/
def Delimits (rest : List Byte) : Prop :=
  ∀ c ∈ rest.head?, isspace c = true ∨ c = chr ')'

variable {form : Form} {digits rest s : List Byte} {c : Byte} (lib : Libc)

/-! ## Characters -/

theorem digitValue_eq : ∀ c : Byte, isDigit c = true →
    digitValue c = BitVec.ofNat 32 (digitNat c) := by decide +kernel

theorem hexValue_eq : ∀ c : Byte, isHexDigit c = true →
    hexValue c = BitVec.ofNat 32 (digitNat c) := by decide +kernel

/-- A character that delimits continues no numeral. -/
theorem delimiter_spec : ∀ c : Byte, isspace c = true ∨ c = chr ')' ∨ c = 0#8 →
    isHexDigit c = false ∧ isDigit c = false ∧ (cstring "Uu.IixX").contains c = false := by
  decide +kernel

/-- A digit begins no other token. -/
theorem digit_spec : ∀ c : Byte, isDigit c = true →
    symchar0 c = false ∧ isspace c = false
      ∧ (cstring "'`,();\\.uixX" ++ [chr '"']).contains c = false := by decide +kernel

theorem Delimits.first (hrest : Delimits rest) :
    isHexDigit (first rest) = false ∧ isDigit (first rest) = false
      ∧ (cstring "Uu.IixX").contains (first rest) = false := by
  apply delimiter_spec
  cases rest with
  | nil => exact .inr (.inr rfl)
  | cons c cs =>
    rcases hrest c rfl with hspace | hpar
    · exact .inl hspace
    · exact .inr (.inl hpar)

/-! ## Values -/

theorem valueOf_eq {base : Nat} {value : Byte → UINT} {p : Byte → Bool}
    (hvalue : ∀ c, p c = true → value c = BitVec.ofNat 32 (digitNat c))
    (hdigits : ∀ c ∈ digits, p c = true) :
    valueOf (BitVec.ofNat 32 base) value digits = BitVec.ofNat 32 (denoted base digits) := by
  have hfold : ∀ {ds : List Byte} {acc : Nat}, (∀ c ∈ ds, p c = true) →
      ds.foldl (fun acc c => acc * BitVec.ofNat 32 base + value c) (BitVec.ofNat 32 acc)
        = BitVec.ofNat 32 (ds.foldl (fun acc c => acc * base + digitNat c) acc) := by
    intro ds
    induction ds with
    | nil => intro acc _; rfl
    | cons d ds ih =>
      intro acc hds
      rw [List.foldl_cons, List.foldl_cons, hvalue d (hds d (by simp)), ← BitVec.ofNat_mul,
        ← BitVec.ofNat_add]
      exact ih fun c hc => hds c (List.mem_cons_of_mem d hc)
  exact hfold hdigits

theorem takeWhile_append_of_first {p : Byte → Bool} (hdigits : ∀ c ∈ digits, p c = true)
    (hrest : p (first rest) = false) : (digits ++ rest).takeWhile p = digits := by
  rw [List.takeWhile_append_of_pos hdigits]
  cases rest with
  | nil => simp
  | cons c cs =>
    have hc : ¬p c = true := by
      rw [show p c = false from hrest]
      simp
    rw [List.takeWhile_cons_of_neg hc, List.append_nil]

/-! ## The token of a numeral -/

theorem lexFirst_none {f : List Byte → Option Token × List Byte}
    {fs : List (List Byte → Option Token × List Byte)} (h : f s = (none, s)) :
    lexFirst (f :: fs) s = lexFirst fs s := by
  simp only [lexFirst, h]

theorem lexFirst_some {f : List Byte → Option Token × List Byte}
    {fs : List (List Byte → Option Token × List Byte)} {t : Token} (h : f s = (some t, rest)) :
    lexFirst (f :: fs) s = (t, rest) := by
  simp only [lexFirst, h]

theorem ne_of_contains {l : List Byte} {d : Byte} (h : l.contains c = false) (hd : d ∈ l) :
    c ≠ d := by
  rintro rfl
  rw [List.contains_iff_mem.mpr hd] at h
  exact absurd h (by simp)

theorem isPrefixOf_eq_false {text : List Byte} {d : Byte} (htext : text.head? = some d)
    (hne : first s ≠ d) : text.isPrefixOf s = false := by
  cases text with
  | nil => exact absurd htext (by simp)
  | cons e text =>
    obtain rfl := Option.some.inj htext
    cases s with
    | nil => rfl
    | cons c cs =>
      have hce : (e == c) = false := beq_false_of_ne fun h => hne h.symm
      rw [List.isPrefixOf_cons_cons, hce, Bool.false_and]

/-- At a digit the recognisers of numbers are left. -/
theorem lexers_of_digit (hdigit : isDigit (first s) = true) :
    lexFirst (lexers lib) s
      = lexFirst [lexF lib, lexU, lexSuffixed "u28" .uint, lexSuffixed "i32" .boxedInt, lexi]
        s := by
  obtain ⟨hsym, -, hother⟩ := digit_spec _ hdigit
  have hfixed : ∀ {text : String} {t : Token},
      (∃ d ∈ cstring "'`,();\\.uixX" ++ [chr '"'], (cstring text).head? = some d) →
      lexFixed text t s = (none, s) := by
    intro text t ⟨d, hmem, hd⟩
    rw [lexFixed, isPrefixOf_eq_false hd (ne_of_contains hother hmem), if_neg (by simp)]
  have hsymbol : lexSymbol lib s = (none, s) := by
    rw [lexSymbol, hsym]
    rfl
  have hchar : lexChar s = (none, s) := by
    have hbackslash := ne_of_contains hother (show chr '\\' ∈ _ by decide)
    rw [lexChar, isPrefixOf_eq_false (d := chr '\\') (by decide) hbackslash,
      isPrefixOf_eq_false (d := chr '\\') (by decide) hbackslash]
    rfl
  have hstring : lexString lib s = (none, s) := by
    have hquote := ne_of_contains hother (show chr '"' ∈ _ by decide)
    rw [lexString, beq_false_of_ne hquote]
    rfl
  unfold lexers
  rw [lexFirst_none (hfixed (by decide)), lexFirst_none (hfixed (by decide)),
    lexFirst_none (hfixed (by decide)), lexFirst_none (hfixed (by decide)),
    lexFirst_none (hfixed (by decide)), lexFirst_none (hfixed (by decide)), lexFirst_none hsymbol,
    lexFirst_none hchar, lexFirst_none hstring]

/-- A row of decimal digits ends, and is not the beginning of a number with a point or in
hexadecimal. -/
structure EndsDigits (rest : List Byte) : Prop where
  digit : isDigit (first rest) = false
  point : first rest ≠ chr '.'
  lower : first rest ≠ chr 'x'
  upper : first rest ≠ chr 'X'

theorem Delimits.endsDigits (hrest : Delimits rest) : EndsDigits rest := by
  obtain ⟨-, hdigit, hother⟩ := hrest.first
  exact ⟨hdigit, ne_of_contains hother (by decide), ne_of_contains hother (by decide),
    ne_of_contains hother (by decide)⟩

theorem lexF_none (hdigits : ∀ c ∈ digits, isDigit c = true) (hdigit : isDigit (first rest) = false)
    (hpoint : first rest ≠ chr '.') : lexF lib (digits ++ rest) = (none, digits ++ rest) := by
  have hlen : floatLength (digits ++ rest) = 0 := by
    have hnot : (!(first rest == chr '.')) = true := by
      rw [beq_false_of_ne hpoint]
      rfl
    unfold floatLength
    simp only [takeWhile_append_of_first hdigits hdigit, List.drop_left, hnot, if_true]
  rw [lexF, if_pos hlen]

theorem lexSuffixed_eq {suffix : String} {t : UINT → Token}
    (hdigits : ∀ c ∈ digits, isDigit c = true) (hrest : isDigit (first rest) = false) :
    lexSuffixed suffix t (digits ++ rest)
      = if (cstring suffix).isPrefixOf rest then
          (some (t (BitVec.ofNat 32 (denoted 10 digits))), rest.drop (cstring suffix).length)
        else (none, digits ++ rest) := by
  unfold lexSuffixed
  simp only [takeWhile_append_of_first hdigits hrest, List.drop_left]
  rw [← valueOf_eq digitValue_eq hdigits]

theorem hexPrefix_eq_false (hdigits : ∀ c ∈ digits, isDigit c = true) (hne : digits ≠ [])
    (hrest : EndsDigits rest) : hexPrefix (digits ++ rest) = false := by
  have hsecond : first ((digits ++ rest).drop 1) ≠ chr 'x'
      ∧ first ((digits ++ rest).drop 1) ≠ chr 'X' := by
    cases digits with
    | nil => exact absurd rfl hne
    | cons d ds =>
      cases ds with
      | nil => exact ⟨hrest.lower, hrest.upper⟩
      | cons e ds =>
        obtain ⟨-, -, hother⟩ := digit_spec e (hdigits e (by simp))
        exact ⟨ne_of_contains hother (by decide), ne_of_contains hother (by decide)⟩
  rw [hexPrefix, beq_false_of_ne hsecond.1, beq_false_of_ne hsecond.2, Bool.or_false,
    Bool.and_false]

theorem first_append (hne : digits ≠ []) : first (digits ++ rest) = first digits := by
  cases digits with
  | nil => exact absurd rfl hne
  | cons c cs => rfl

theorem isDigit_first (hdigits : ∀ c ∈ digits, isDigit c = true) (hne : digits ≠ []) :
    isDigit (first digits) = true := by
  cases digits with
  | nil => exact absurd rfl hne
  | cons c cs => exact hdigits c (by simp)

/-- At a digit no white space is skipped. -/
theorem lex_of_digit (hdigit : isDigit (first s) = true) :
    lex lib s = lexFirst [lexF lib, lexU, lexSuffixed "u28" .uint, lexSuffixed "i32" .boxedInt,
      lexi] s := by
  cases s with
  | nil => exact absurd hdigit (by decide)
  | cons c cs =>
    obtain ⟨-, hspace, hother⟩ := digit_spec c hdigit
    have hcomment : (c == chr ';') = false := beq_false_of_ne (ne_of_contains hother (by decide))
    have hskip : skipBlanks false (c :: cs) = c :: cs := by
      rw [skipBlanks, hcomment, hspace]
      rfl
    rw [lex, hskip]
    exact lexers_of_digit lib hdigit

theorem lex_decimal (hdigits : ∀ c ∈ digits, isDigit c = true) (hne : digits ≠ [])
    (hrest : EndsDigits rest) :
    lex lib (digits ++ rest) = lexFirst [lexSuffixed "u32" .boxedUint, lexSuffixed "u28" .uint,
      lexSuffixed "i32" .boxedInt, lexi] (digits ++ rest) := by
  have hdigit : isDigit (first (digits ++ rest)) = true := by
    rw [first_append hne]
    exact isDigit_first hdigits hne
  have hU : lexU (digits ++ rest) = lexSuffixed "u32" .boxedUint (digits ++ rest) := by
    rw [lexU, hexPrefix_eq_false hdigits hne hrest]
    rfl
  rw [lex_of_digit lib hdigit, lexFirst_none (lexF_none lib hdigits hrest.digit hrest.point)]
  simp only [lexFirst, hU]

theorem lexi_eq (hdigits : ∀ c ∈ digits, isDigit c = true) (hne : digits ≠ [])
    (hrest : Delimits rest) :
    lexi (digits ++ rest) = (some (.int (BitVec.ofNat 32 (denoted 10 digits))), rest) := by
  obtain ⟨-, hdigit, hother⟩ := hrest.first
  have hsuffix : (cstring "Uu.I").contains (first rest) = false := by
    rw [Bool.eq_false_iff]
    intro hmem
    have hsub : ∀ d ∈ cstring "Uu.I", d ∈ cstring "Uu.IixX" := by decide
    exact ne_of_contains hother (hsub _ (List.contains_iff_mem.mp hmem)) rfl
  have hlen : ¬digits.length = 0 := fun hzero => hne (List.length_eq_zero_iff.mp hzero)
  unfold lexi
  simp only [takeWhile_append_of_first hdigits hdigit, List.drop_left, hsuffix, Bool.false_eq_true,
    if_false, hlen]
  rw [← valueOf_eq digitValue_eq hdigits]

theorem lexU_hex (hdigits : ∀ c ∈ digits, isHexDigit c = true) (hrest : Delimits rest) :
    lexU (cstring "0x" ++ (digits ++ rest))
      = (some (.boxedUint (BitVec.ofNat 32 (denoted 16 digits))), rest) := by
  have hdrop : (cstring "0x" ++ (digits ++ rest)).drop 2 = digits ++ rest := rfl
  have hhex : hexPrefix (cstring "0x" ++ (digits ++ rest)) = true := rfl
  unfold lexU
  simp only [hhex, if_true, hdrop, takeWhile_append_of_first hdigits hrest.first.1,
    List.drop_left]
  rw [← valueOf_eq hexValue_eq hdigits]

theorem endsDigits_append {w : List Byte} {d : Byte} (hw : w.head? = some d)
    (hd : isDigit d = false ∧ d ≠ chr '.' ∧ d ≠ chr 'x' ∧ d ≠ chr 'X') :
    EndsDigits (w ++ rest) := by
  cases w with
  | nil => exact absurd hw (by simp)
  | cons e w =>
    obtain rfl := Option.some.inj hw
    exact ⟨hd.1, hd.2.1, hd.2.2.1, hd.2.2.2⟩

/-- A suffix that is not there. -/
theorem lexFirst_suffix_none {suffix : String} {t : UINT → Token}
    {fs : List (List Byte → Option Token × List Byte)} (hdigits : ∀ c ∈ digits, isDigit c = true)
    (hrest : EndsDigits rest) (hsuffix : (cstring suffix).isPrefixOf rest = false) :
    lexFirst (lexSuffixed suffix t :: fs) (digits ++ rest) = lexFirst fs (digits ++ rest) := by
  apply lexFirst_none
  rw [lexSuffixed_eq hdigits hrest.digit, if_neg (by rw [hsuffix]; decide)]

theorem lexFirst_suffix_some {suffix : String} {t : UINT → Token}
    {fs : List (List Byte → Option Token × List Byte)} (hdigits : ∀ c ∈ digits, isDigit c = true)
    (hrest : EndsDigits (cstring suffix ++ rest)) :
    lexFirst (lexSuffixed suffix t :: fs) (digits ++ (cstring suffix ++ rest))
      = (t (BitVec.ofNat 32 (denoted 10 digits)), rest) := by
  apply lexFirst_some
  have hprefix : (cstring suffix).isPrefixOf (cstring suffix ++ rest) = true :=
    List.isPrefixOf_iff_prefix.mpr (List.prefix_append _ _)
  rw [lexSuffixed_eq hdigits hrest.digit, if_pos hprefix, List.drop_left]

/-- **The token of a numeral** has the number modulo `2 ^ 32`. -/
theorem lex_numeral (hdigits : ∀ c ∈ digits, form.digit c = true) (hne : digits ≠ [])
    (hrest : Delimits rest) :
    lex lib (form.text digits ++ rest)
      = (form.token (BitVec.ofNat 32 (denoted form.base digits)), rest) := by
  have htext : form.text digits ++ rest = form.before ++ (digits ++ (form.after ++ rest)) := by
    rw [Form.text, List.append_assoc, List.append_assoc]
  rw [htext]
  cases form with
  | plain =>
    have hends := hrest.endsDigits
    obtain ⟨-, -, hother⟩ := hrest.first
    show lex lib (digits ++ rest) = _
    -- no suffix begins with a delimiter
    rw [lex_decimal lib hdigits hne hends,
      lexFirst_suffix_none hdigits hends
        (isPrefixOf_eq_false (d := chr 'u') (by decide) (ne_of_contains hother (by decide))),
      lexFirst_suffix_none hdigits hends
        (isPrefixOf_eq_false (d := chr 'u') (by decide) (ne_of_contains hother (by decide))),
      lexFirst_suffix_none hdigits hends
        (isPrefixOf_eq_false (d := chr 'i') (by decide) (ne_of_contains hother (by decide))),
      lexFirst_some (lexi_eq hdigits hne hrest)]
    rfl
  | u28 =>
    have hends : EndsDigits (cstring "u28" ++ rest) :=
      endsDigits_append (d := chr 'u') (by decide) (by decide)
    show lex lib (digits ++ (cstring "u28" ++ rest)) = _
    rw [lex_decimal lib hdigits hne hends, lexFirst_suffix_none hdigits hends rfl,
      lexFirst_suffix_some hdigits hends]
    rfl
  | i32 =>
    have hends : EndsDigits (cstring "i32" ++ rest) :=
      endsDigits_append (d := chr 'i') (by decide) (by decide)
    show lex lib (digits ++ (cstring "i32" ++ rest)) = _
    rw [lex_decimal lib hdigits hne hends, lexFirst_suffix_none hdigits hends rfl,
      lexFirst_suffix_none hdigits hends rfl, lexFirst_suffix_some hdigits hends]
    rfl
  | u32 =>
    have hends : EndsDigits (cstring "u32" ++ rest) :=
      endsDigits_append (d := chr 'u') (by decide) (by decide)
    show lex lib (digits ++ (cstring "u32" ++ rest)) = _
    rw [lex_decimal lib hdigits hne hends, lexFirst_suffix_some hdigits hends]
    rfl
  | hex =>
    have hzero : ∀ c ∈ [chr '0'], isDigit c = true := by decide
    have hx : isDigit (first (chr 'x' :: (digits ++ rest))) = false :=
      show isDigit (chr 'x') = false by decide
    have hpoint : first (chr 'x' :: (digits ++ rest)) ≠ chr '.' :=
      show chr 'x' ≠ chr '.' by decide
    have hzeroF := lexF_none lib hzero hx hpoint
    have hF : lexF lib (cstring "0x" ++ (digits ++ rest))
        = (none, cstring "0x" ++ (digits ++ rest)) := hzeroF
    have hfirst : isDigit (first (cstring "0x" ++ (digits ++ rest))) = true :=
      show isDigit (chr '0') = true by decide
    show lex lib (cstring "0x" ++ (digits ++ rest)) = _
    rw [lex_of_digit lib hfirst, lexFirst_none hF, lexFirst_some (lexU_hex hdigits hrest)]
    rfl

/-! ## The number -/

section

variable {st : ReaderState} {l : List Nat} {v : VALUE}

/-- `v` is a number of type `t` with the value `z`; a boxed number is in a cell that was free. -/
structure NumberRead (h : HeapState) (l : List Nat) (v : VALUE) (t : IntType) (z : Int) : Prop where
  type : typeOf v = t.code
  value : t.value (t.word h v) = z
  fresh : t.boxed = true → ptrIx v ∈ l

/-- The value of the token of a numeral. -/
theorem numberRead_parseBoxed {i : Nat} {k : CellKind} {t : IntType}
    (hl : FreeList st.heap (i :: l))
    (hk : t.code = k.ptrType) (hword : ∀ h v, t.word h v = car h v) (sy : UINT) (z : Int)
    (hz : t.value (BitVec.ofInt 32 z) = t.wrap z) :
    ∃ v st', parseBoxed sy k.ptrType (BitVec.ofInt 32 z) st = (v, st')
      ∧ NumberRead st'.heap (i :: l) v t (t.wrap z) := by
  obtain ⟨h', hc⟩ := hl.conses (BitVec.ofInt 32 z) (encSym sy)
  have hmask : k.ptrType &&& ptrTypeMask = k.ptrType := by cases k <;> decide
  have hp := ptrWord_setPtrType (cellPtr i) hmask
  have hparse : parseBoxed sy k.ptrType (BitVec.ofInt 32 z) st
      = (setPtrType (cellPtr i) k.ptrType, { st with heap := h' }) := by
    rw [parseBoxed, ReaderState.alloc, hc.eq]
  refine ⟨_, _, hparse, hp.typeOf.trans hk.symm, ?_, fun _ => ?_⟩
  · have hcar : car h' (setPtrType (cellPtr i) k.ptrType) = BitVec.ofInt 32 z := by
      rw [car_of_isPtr hp.isPtr, hp.ptrIx, ← car_of_isPtr (isPtr_cellPtr i), hc.car]
    show t.value (t.word h' _) = _
    rw [hword, hcar, hz]
  · rw [hp.ptrIx, hc.ix]
    exact List.mem_cons_self

theorem bmod_of_lt {d n : Nat} (hd : 2 * d < n) : (d : Int).bmod n = d := by
  apply Int.bmod_eq_of_le_mul_two
  · omega
  · omega

/-- A number that fits is left as it is. -/
theorem wrap_of_lt {t : IntType} {d : Nat} (hd : d < bound t) : t.wrap (d : Int) = d := by
  cases t with
  | i28 =>
    have hd : d < 2 ^ 27 := hd
    rw [IntType.wrap]
    exact bmod_of_lt (by omega)
  | u28 =>
    have hd : d < 2 ^ 28 := hd
    exact Int.emod_eq_of_lt (by omega) (by omega)
  | i32 =>
    have hd : d < 2 ^ 31 := hd
    rw [IntType.wrap]
    exact bmod_of_lt (by omega)
  | u32 =>
    have hd : d < 2 ^ 32 := hd
    exact Int.emod_eq_of_lt (by omega) (by omega)

/-- `parse_sexp(next_token(str), str)`. -/
def readExpr (fuel n : Nat) (s : List Byte) (st : ReaderState) :
    Option (VALUE × List Byte × ReaderState) :=
  (nextToken lib stringStream fuel s).bind fun r =>
    parseSexp (nextToken lib stringStream fuel) n r.1 r.2 st

/-- A numeral is read as a number of its type with the value it denotes if that fits, else
`read_error` is reported. -/
def ReadsNumeral (fuel n : Nat) (form : Form) (digits rest : List Byte) (st : ReaderState)
    (l : List Nat) : Prop :=
  ∃ v st', readExpr lib fuel n (form.text digits ++ rest) st = some (v, rest, st')
    ∧ (denoted form.base digits < bound form.type →
      NumberRead st'.heap l v form.type (denoted form.base digits))
    ∧ (bound form.type ≤ denoted form.base digits → v = encSym symreprRerror)

theorem numberRead_token (hl : FreeList st.heap l) (hfree : form.type.boxed = true → l ≠ [])
    (d : Nat) (next : List Byte → Option (Token × List Byte)) (n : Nat) (s : List Byte) :
    ∃ v st', parseSexp next (n + 1) (form.token (BitVec.ofNat 32 d)) s st = some (v, s, st')
      ∧ NumberRead st'.heap l v form.type (form.type.wrap d) := by
  rw [← BitVec.ofInt_natCast]
  cases form with
  | plain =>
    exact ⟨_, st, rfl, typeOf_shift _ (by decide), IntType.value_decI_encI d,
      fun hb => absurd hb (by decide)⟩
  | u28 =>
    exact ⟨_, st, rfl, typeOf_shift _ (by decide), IntType.value_decU_encU d,
      fun hb => absurd hb (by decide)⟩
  | i32 =>
    obtain ⟨i, l, rfl⟩ := List.exists_cons_of_ne_nil (hfree rfl)
    obtain ⟨v, st', hparse, hnum⟩ := numberRead_parseBoxed (k := .boxedI) (t := .i32) hl rfl
      (fun _ _ => rfl) defReprBoxedIType d (IntType.value_i32 d)
    refine ⟨v, st', ?_, hnum⟩
    rw [parseSexp_succ]
    exact congrArg (fun r => some (r.1, s, r.2)) hparse
  | u32 =>
    obtain ⟨i, l, rfl⟩ := List.exists_cons_of_ne_nil (hfree rfl)
    obtain ⟨v, st', hparse, hnum⟩ := numberRead_parseBoxed (k := .boxedU) (t := .u32) hl rfl
      (fun _ _ => rfl) defReprBoxedUType d (IntType.value_u32 d)
    refine ⟨v, st', ?_, hnum⟩
    rw [parseSexp_succ]
    exact congrArg (fun r => some (r.1, s, r.2)) hparse
  | hex =>
    obtain ⟨i, l, rfl⟩ := List.exists_cons_of_ne_nil (hfree rfl)
    obtain ⟨v, st', hparse, hnum⟩ := numberRead_parseBoxed (k := .boxedU) (t := .u32) hl rfl
      (fun _ _ => rfl) defReprBoxedUType d (IntType.value_u32 d)
    refine ⟨v, st', ?_, hnum⟩
    rw [parseSexp_succ]
    exact congrArg (fun r => some (r.1, s, r.2)) hparse

theorem typeOf_token {next : List Byte → Option (Token × List Byte)} {n : Nat} {s s' : List Byte}
    {w : UINT} {st' : ReaderState}
    (h : parseSexp next (n + 1) (form.token w) s st = some (v, s', st')) :
    typeOf v = form.type.code := by
  have hbox : ∀ {k : CellKind} {sy x : UINT},
      typeOf (parseBoxed sy k.ptrType x st).1 = k.ptrType := fun {k sy x} =>
    (ptrWord_setPtrType _ (show k.ptrType &&& ptrTypeMask = k.ptrType by cases k <;> decide)).typeOf
  cases form with
  | plain =>
    cases h
    exact typeOf_shift _ (by decide)
  | u28 =>
    cases h
    exact typeOf_shift _ (by decide)
  | i32 =>
    cases h
    exact hbox (k := .boxedI)
  | u32 =>
    cases h
    exact hbox (k := .boxedU)
  | hex =>
    cases h
    exact hbox (k := .boxedU)

section Read

variable {fuel : Nat} (n : Nat) (hl : FreeList st.heap l)
  (hdigits : ∀ c ∈ digits, form.digit c = true) (hne : digits ≠ []) (hrest : Delimits rest)
  (hfuel : (form.text digits ++ rest).length < fuel)

include hdigits hne hrest hfuel

theorem readExpr_token :
    readExpr lib fuel (n + 1) (form.text digits ++ rest) st
      = parseSexp (nextToken lib stringStream fuel) (n + 1)
        (form.token (BitVec.ofNat 32 (denoted form.base digits))) rest st := by
  rw [readExpr, nextToken_string lib hfuel, lex_numeral lib hdigits hne hrest]
  rfl

include hl

/-- **Numerals.** A numeral is read as a number of its type. The value is the one that is denoted
where that fits, and is reduced into the range of the type where it does not. -/
theorem readExpr_numeral (hfree : form.type.boxed = true → l ≠ []) :
    ∃ v st', readExpr lib fuel (n + 1) (form.text digits ++ rest) st = some (v, rest, st')
      ∧ NumberRead st'.heap l v form.type (form.type.wrap (denoted form.base digits))
      ∧ (denoted form.base digits < bound form.type →
        form.type.wrap (denoted form.base digits) = denoted form.base digits) := by
  obtain ⟨v, st', hparse, hnum⟩ := numberRead_token hl hfree (denoted form.base digits)
    (nextToken lib stringStream fuel) n rest
  rw [readExpr_token lib n hdigits hne hrest hfuel]
  exact ⟨v, st', hparse, hnum, wrap_of_lt⟩

/-- A numeral is exact or rejected exactly when the number fits its type and there is a cell
for it. -/
theorem readsNumeral_iff :
    ReadsNumeral lib fuel (n + 1) form digits rest st l
      ↔ denoted form.base digits < bound form.type ∧ (form.type.boxed = true → l ≠ []) := by
  rw [ReadsNumeral, readExpr_token lib n hdigits hne hrest hfuel]
  constructor
  · intro ⟨v, st', hparse, hfits, herror⟩
    have hlt : denoted form.base digits < bound form.type := by
      by_contra hle
      have hsym := typeOf_token hparse
      rw [herror (Nat.not_lt.mp hle)] at hsym
      cases form <;> exact absurd hsym (by decide)
    refine ⟨hlt, fun hboxed hnil => ?_⟩
    have hfresh := (hfits hlt).fresh hboxed
    rw [hnil] at hfresh
    exact absurd hfresh (by simp)
  · intro ⟨hlt, hfree⟩
    obtain ⟨v, st', hparse, hnum⟩ := numberRead_token hl hfree (denoted form.base digits)
      (nextToken lib stringStream fuel) n rest
    rw [wrap_of_lt hlt] at hnum
    exact ⟨v, st', hparse, fun _ => hnum, fun hle => absurd hlt (Nat.not_lt.mpr hle)⟩

end Read

end

/-- A heap of one free cell and no symbols, to read numerals in. -/
def oneCellReader : ReaderState :=
  ⟨heapInit 1 [⟨0#32, 0#32⟩] ⟨[], [], 0#32, 0#32, 0#32⟩, ⟨0#32, 0#32⟩⟩

/-- The number after the largest `u32`, before a closing parenthesis, is read as 0. -/
theorem readExpr_numeral_wrapped :
    ∃ v st', readExpr ⟨fun _ => true, fun _ => 0#32⟩ 20 1
        (Form.text .u32 (cstring "4294967296") ++ cstring ")") oneCellReader
        = some (v, cstring ")", st')
      ∧ NumberRead st'.heap [0] v .u32 (IntType.u32.wrap (denoted 10 (cstring "4294967296"))) := by
  have hl : FreeList oneCellReader.heap [0] := freeList_of_isFreeList (by decide +kernel)
  have hrest : Delimits (cstring ")") := by
    intro c hc
    obtain rfl := Option.some.inj hc
    exact .inr rfl
  obtain ⟨v, st', hread, hnum, -⟩ := readExpr_numeral ⟨fun _ => true, fun _ => 0#32⟩ 0 hl
    (show ∀ c ∈ cstring "4294967296", Form.digit .u32 c = true by decide) (by decide) hrest
    (show _ < 20 by decide) (by decide)
  exact ⟨v, st', hread, hnum⟩

/-- 134217728 is read as the negative number -134217728, and no error is reported. -/
theorem not_readsNumeral_wrapped :
    (decI (encI 134217728#32)).toInt = -134217728
      ∧ (readExpr ⟨fun _ => true, fun _ => 0#32⟩ 20 1 (cstring "134217728") oneCellReader).map
          Prod.fst = some (encI 134217728#32)
      ∧ ¬ReadsNumeral ⟨fun _ => true, fun _ => 0#32⟩ 20 1 .plain (cstring "134217728") []
        oneCellReader [0] := by
  have hread : (readExpr ⟨fun _ => true, fun _ => 0#32⟩ 20 1 (cstring "134217728")
      oneCellReader).map Prod.fst = some (encI 134217728#32) := by decide +kernel
  refine ⟨by decide +kernel, hread, fun ⟨v, st', hv, _, herror⟩ => ?_⟩
  have hv' : (readExpr ⟨fun _ => true, fun _ => 0#32⟩ 20 1 (cstring "134217728")
      oneCellReader).map Prod.fst = some v := congrArg (Option.map Prod.fst) hv
  rw [hread, herror (by decide +kernel)] at hv'
  exact absurd hv' (by decide)

end Tokpar

end LispBM
