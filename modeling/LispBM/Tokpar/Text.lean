import Mathlib.Data.List.TakeWhile
import LispBM.Tokpar

/-!
# LispBM — the tokens of a text

On a string the loops of the recognisers end at the latest at the final NUL, so that the next
token and the text after it are functions of the text. `lex` is `next_token` without fuel. A token
other than the two that end the parse takes at least one character, which bounds the recursion of
the parser: the fuel of `parseStream` is enough, and more of it changes nothing.
-/

namespace LispBM

namespace Tokpar

open Compression (chr CString isspace)
open BitBuffer (Byte)

/-! ## Recognisers on texts -/

/-- The first character, NUL at the end. -/
def first (s : List Byte) : Byte := s.headD 0#8

/-- White space and comments at the beginning of a text are skipped; `comment` says that the text
begins within a comment. -/
def skipBlanks : Bool → List Byte → List Byte
  | _, [] => []
  | true, c :: cs => if c == chr '\n' then skipBlanks false cs else skipBlanks true cs
  | false, c :: cs =>
      if c == chr ';' then skipBlanks true cs
      else if isspace c then skipBlanks false cs
      else c :: cs

/-- The value of a row of digits. -/
def valueOf (base : UINT) (value : Byte → UINT) (digits : List Byte) : UINT :=
  digits.foldl (fun acc c => acc * base + value c) 0#32

def lexFixed (text : String) (t : Token) (s : List Byte) : Option Token × List Byte :=
  if (cstring text).isPrefixOf s then (some t, s.drop (cstring text).length) else (none, s)

def lexSymbol (lib : Libc) (s : List Byte) : Option Token × List Byte :=
  if !symchar0 (first s) then (none, s)
  else
    let text := s.takeWhile symchar
    if !lib.malloc (text.length + 1) then (some .error, s)
    else (some (.symbol (text.map tolower)), s.drop text.length)

/-- A character of a string literal. -/
def inString (c : Byte) : Bool := c != 0#8 && c != chr '"'

def lexString (lib : Libc) (s : List Byte) : Option Token × List Byte :=
  if !(first s == chr '"') then (none, s)
  else
    let text := s.tail.takeWhile inString
    let rest := s.tail.drop text.length
    if first rest != chr '"' then (none, s.tail)
    else if !lib.malloc (text.length + 1) then (some .error, s.tail)
    else (some (.string text), rest.tail)

def lexChar (s : List Byte) : Option Token × List Byte :=
  if (cstring "\\#newline").isPrefixOf s then (some (.char (chr '\n')), s.drop 9)
  else if (cstring "\\#").isPrefixOf s && isgraph (first (s.drop 2)) then
    (some (.char (first (s.drop 2))), s.drop 3)
  else (none, s)

def lexi (s : List Byte) : Option Token × List Byte :=
  let digits := s.takeWhile isDigit
  let rest := s.drop digits.length
  if (cstring "Uu.I").contains (first rest) then (none, s)
  else if digits.length = 0 then (none, s)
  else (some (.int (valueOf 10#32 digitValue digits)), rest)

def lexSuffixed (suffix : String) (t : UINT → Token) (s : List Byte) : Option Token × List Byte :=
  let digits := s.takeWhile isDigit
  let rest := s.drop digits.length
  if (cstring suffix).isPrefixOf rest then
    (some (t (valueOf 10#32 digitValue digits)), rest.drop (cstring suffix).length)
  else (none, s)

/-- The beginning of a hexadecimal number. -/
def hexPrefix (s : List Byte) : Bool :=
  first s == chr '0' && (first (s.drop 1) == chr 'x' || first (s.drop 1) == chr 'X')

def lexU (s : List Byte) : Option Token × List Byte :=
  if hexPrefix s then
    let digits := (s.drop 2).takeWhile isHexDigit
    (some (.boxedUint (valueOf 0x10#32 hexValue digits)), (s.drop 2).drop digits.length)
  else lexSuffixed "u32" .boxedUint s

/-- The length of a number with a decimal point at the beginning of a text, 0 if there is none. -/
def floatLength (s : List Byte) : Nat :=
  let digits := s.takeWhile isDigit
  let rest := s.drop digits.length
  let fraction := rest.tail.takeWhile isDigit
  if !(first rest == chr '.') then 0
  else if !isDigit (first rest.tail) then 0
  else digits.length + 1 + fraction.length

def lexF (lib : Libc) (s : List Byte) : Option Token × List Byte :=
  if floatLength s = 0 then (none, s)
  else
    (some (.boxedFloat (lib.strtod (s.take (min (floatLength s) 255)))),
      s.drop (min (floatLength s) 255))

def lexers (lib : Libc) : List (List Byte → Option Token × List Byte) :=
  [lexFixed "'" .quote, lexFixed "`" .backquote, lexFixed ",@" .commaat, lexFixed "," .comma,
    lexFixed "(" .openpar, lexFixed ")" .closepar, lexSymbol lib, lexChar, lexString lib, lexF lib,
    lexU, lexSuffixed "u28" .uint, lexSuffixed "i32" .boxedInt, lexi]

def lexFirst : List (List Byte → Option Token × List Byte) → List Byte → Token × List Byte
  | [], s => (.error, s)
  | f :: fs, s =>
      match f s with
      | (some t, s) => (t, s)
      | (none, s) => lexFirst fs s

/-- `next_token` on a text. -/
def lex (lib : Libc) (s : List Byte) : Token × List Byte :=
  match skipBlanks false s with
  | [] => (.eof, [])
  | c :: cs => lexFirst (lexers lib) (c :: cs)

/-! ## The string stream -/

theorem getD_zero_eq_first (s : List Byte) : s.getD 0 0#8 = first s := by
  cases s <;> rfl

theorem getD_eq_first_drop (s : List Byte) (n : Nat) : s.getD n 0#8 = first (s.drop n) := by
  induction n generalizing s with
  | zero => exact getD_zero_eq_first s
  | succ n ih =>
    cases s with
    | nil => rfl
    | cons c cs => exact ih cs

@[simp] theorem peek_stringStream (s : List Byte) (n : Nat) :
    stringStream.peek s n = first (s.drop n) := getD_eq_first_drop s n

/-- A look-ahead loop counts the characters of its kind. -/
theorem countWhile_string {p : Byte → Bool} (hp : p 0#8 = false) (s : List Byte) :
    ∀ (fuel n : Nat), s.length - n < fuel →
    countWhile stringStream p s fuel n = some (n + ((s.drop n).takeWhile p).length) := by
  intro fuel
  induction fuel with
  | zero => intro n hn; exact absurd hn (Nat.not_lt_zero _)
  | succ fuel ih =>
    intro n hn
    rw [countWhile, peek_stringStream]
    cases hs : s.drop n with
    | nil => simp [first, hp]
    | cons c cs =>
      have hcs : s.drop (n + 1) = cs := by
        rw [← List.drop_drop, hs]
        rfl
      have hlt : n < s.length := by
        by_contra hle
        rw [List.drop_eq_nil_of_le (by omega)] at hs
        exact absurd hs (by simp)
      by_cases hc : p c = true
      · rw [if_pos (show p (first (c :: cs)) = true from hc), ih (n + 1) (by omega), hcs,
          List.takeWhile_cons_of_pos hc, List.length_cons]
        congr 1
        omega
      · rw [if_neg (show ¬p (first (c :: cs)) = true from hc), List.takeWhile_cons_of_neg hc]
        rfl

theorem getMany_string : ∀ {n : Nat} {s : List Byte}, n ≤ s.length →
    getMany stringStream n s = (s.take n, s.drop n) := by
  intro n
  induction n with
  | zero => intro s _; rfl
  | succ n ih =>
    intro s hn
    cases s with
    | nil => exact absurd hn (by simp)
    | cons c cs =>
      have hcs : n ≤ cs.length := by simpa using hn
      rw [getMany]
      show (c :: (getMany stringStream n cs).1, (getMany stringStream n cs).2) = _
      rw [ih hcs]
      rfl

theorem peekIs_string (s : List Byte) (start : Nat) {text : List Byte}
    (htext : ∀ c ∈ text, c ≠ 0#8) :
    peekIs stringStream s start text = text.isPrefixOf (s.drop start) := by
  induction text generalizing start with
  | nil => simp [peekIs]
  | cons c text ih =>
    have hrec : peekIs stringStream s start (c :: text)
        = (stringStream.peek s start == c && peekIs stringStream s (start + 1) text) := by
      simp only [peekIs, List.zipIdx_cons, List.all_cons, Nat.add_zero]
      congr 1
      rw [List.zipIdx_succ]
      simp only [List.all_map]
      congr 1
      funext x
      simp [Nat.add_assoc, Nat.add_comm 1]
    rw [hrec, ih (start + 1) fun d hd => htext d (List.mem_cons_of_mem c hd), peek_stringStream]
    cases hs : s.drop start with
    | nil =>
      have hc : c ≠ 0#8 := htext c (by simp)
      have : (first ([] : List Byte) == c) = false := by
        rw [beq_eq_false_iff_ne]
        exact hc.symm
      rw [this]
      rfl
    | cons d ds =>
      have hds : s.drop (start + 1) = ds := by
        rw [← List.drop_drop, hs]
        rfl
      rw [hds]
      show ((d == c) && text.isPrefixOf ds) = ((c == d) && text.isPrefixOf ds)
      rw [Bool.beq_comm]

theorem numeral_string (base : UINT) (value : Byte → UINT) (s : List Byte) (start : Nat)
    {digits : List Byte} (hd : digits <+: s.drop start) :
    numeral stringStream base value s start digits.length = valueOf base value digits := by
  obtain ⟨rest, hrest⟩ := hd
  have hpeek : ∀ i, i < digits.length → stringStream.peek s (start + i) = digits.getD i 0#8 := by
    intro i hi
    show s.getD (start + i) 0#8 = _
    rw [getD_eq_first_drop, ← List.drop_drop, ← hrest, ← getD_eq_first_drop,
      List.getD_eq_getElem?_getD, List.getElem?_append_left hi, List.getD_eq_getElem?_getD]
  rw [numeral, valueOf]
  have hmap : (List.range digits.length).map (fun i => stringStream.peek s (start + i))
      = digits := by
    apply List.ext_getElem
    · simp
    · intro i h₁ h₂
      simp only [List.getElem_map, List.getElem_range]
      rw [hpeek i h₂, List.getD_eq_getElem?_getD, List.getElem?_eq_getElem h₂]
      rfl
  conv_rhs => rw [← hmap, List.foldl_map]

/-! ### The recognisers -/

section Recognisers

variable (lib : Libc) {s : List Byte} {fuel : Nat}

theorem tokFixed_string (text : String) (htext : ∀ c ∈ cstring text, c ≠ 0#8) (t : Token)
    (s : List Byte) : tokFixed stringStream text t s = some (lexFixed text t s) := by
  rw [tokFixed, lexFixed, peekIs_string s 0 htext, List.drop_zero]
  split <;> rfl

theorem length_takeWhile_le (p : Byte → Bool) (s : List Byte) :
    (s.takeWhile p).length ≤ s.length := (List.takeWhile_prefix p).length_le

theorem tokSymbol_string (hfuel : s.length < fuel) :
    tokSymbol lib stringStream fuel s = some (lexSymbol lib s) := by
  rw [tokSymbol, lexSymbol, peek_stringStream, List.drop_zero]
  by_cases h0 : symchar0 (first s) = true
  · cases s with
    | nil => exact absurd h0 (by decide)
    | cons c cs =>
      have hc : symchar c = true := by
        rw [symchar, show symchar0 c = true from h0]
        rfl
      have hcount := countWhile_string (p := symchar) (by decide) (c :: cs) fuel 1 (by omega)
      have hlen : 1 + (((c :: cs).drop 1).takeWhile symchar).length
          = ((c :: cs).takeWhile symchar).length := by
        rw [List.takeWhile_cons_of_pos hc, List.length_cons, Nat.add_comm]
        rfl
      rw [hlen] at hcount
      simp only [h0, hcount, Bool.not_true, Bool.false_eq_true, if_false, Option.bind_eq_bind,
        Option.bind_some]
      rw [getMany_string (length_takeWhile_le symchar _),
        List.prefix_iff_eq_take.mp (List.takeWhile_prefix symchar) |>.symm]
      split <;> rfl
  · simp [h0]

theorem tokString_string (hfuel : s.length < fuel) :
    tokString lib stringStream fuel s = some (lexString lib s) := by
  rw [tokString, lexString, peek_stringStream, List.drop_zero]
  by_cases hq : (first s == chr '"') = true
  · have htail : s.tail.length - 0 < fuel := by
      rw [List.length_tail]
      omega
    have hcount := countWhile_string (p := inString) (by decide) s.tail fuel 0 htail
    rw [Nat.zero_add, List.drop_zero] at hcount
    have hget : (stringStream.get s).2 = s.tail := rfl
    have hin : (fun c : Byte => c != 0#8 && c != chr '"') = inString := rfl
    simp only [hq, hget, hin, hcount, Bool.not_true, Bool.false_eq_true, if_false,
      Option.bind_eq_bind, Option.bind_some, peek_stringStream]
    rw [getMany_string (length_takeWhile_le inString _),
      (List.prefix_iff_eq_take.mp (List.takeWhile_prefix inString)).symm]
    split
    · rfl
    · split <;> rfl
  · simp [hq]

theorem tokChar_string (s : List Byte) : tokChar stringStream s = some (lexChar s) := by
  rw [tokChar, lexChar, peekIs_string s 0 (by decide), peekIs_string s 0 (by decide),
    List.drop_zero, peek_stringStream]
  split
  · rfl
  · split <;> rfl

/-- The digits a number begins with, as the loops see them. -/
theorem countWhile_digits {p : Byte → Bool} (hp : p 0#8 = false) (hfuel : s.length < fuel) :
    countWhile stringStream p s fuel 0 = some (s.takeWhile p).length := by
  have hcount := countWhile_string hp s fuel 0 (by omega)
  rwa [Nat.zero_add, List.drop_zero] at hcount

theorem toki_string (hfuel : s.length < fuel) :
    toki stringStream fuel s = some (lexi s) := by
  have hnum := numeral_string 10#32 digitValue s 0 (List.takeWhile_prefix isDigit)
  rw [List.drop_zero] at hnum
  simp only [toki, lexi, countWhile_digits (p := isDigit) (by decide) hfuel, Option.bind_eq_bind,
    Option.bind_some, peek_stringStream, hnum]
  split
  · rfl
  · split <;> rfl

theorem tokSuffixed_string (suffix : String) (hsuffix : ∀ c ∈ cstring suffix, c ≠ 0#8)
    (t : UINT → Token) (hfuel : s.length < fuel) :
    tokSuffixed stringStream fuel suffix t s = some (lexSuffixed suffix t s) := by
  have hnum := numeral_string 10#32 digitValue s 0 (List.takeWhile_prefix isDigit)
  rw [List.drop_zero] at hnum
  have hdrop : stringStream.drop s ((s.takeWhile isDigit).length + (cstring suffix).length)
      = (s.drop (s.takeWhile isDigit).length).drop (cstring suffix).length := by
    show s.drop _ = _
    rw [List.drop_drop]
  simp only [tokSuffixed, lexSuffixed, countWhile_digits (p := isDigit) (by decide) hfuel,
    Option.bind_eq_bind, Option.bind_some, peekIs_string s _ hsuffix, hnum, hdrop]
  split <;> rfl

theorem tokU_string (hfuel : s.length < fuel) : tokU stringStream fuel s = some (lexU s) := by
  rw [tokU, lexU, hexPrefix, peek_stringStream, peek_stringStream, List.drop_zero]
  split
  · have hcount := countWhile_string (p := isHexDigit) (by decide) s fuel 2 (by omega)
    have hnum := numeral_string 0x10#32 hexValue s 2 (List.takeWhile_prefix isHexDigit)
    have hdrop : stringStream.drop s (2 + ((s.drop 2).takeWhile isHexDigit).length)
        = (s.drop 2).drop ((s.drop 2).takeWhile isHexDigit).length := by
      show s.drop _ = _
      rw [List.drop_drop]
    simp only [hcount, Option.bind_eq_bind, Option.bind_some, Nat.add_sub_cancel_left, hnum, hdrop]
  · exact tokSuffixed_string "u32" (by decide) .boxedUint hfuel

theorem tokF_string (hfuel : s.length < fuel) :
    tokF lib stringStream fuel s = some (lexF lib s) := by
  have hcount := countWhile_digits (p := isDigit) (by decide) hfuel
  have hpoint : ∀ n, s.drop (n + 1) = (s.drop n).tail := by
    intro n
    rw [List.tail_drop]
  have hcount' := countWhile_string (p := isDigit) (by decide) s fuel
    ((s.takeWhile isDigit).length + 1) (by omega)
  rw [hpoint] at hcount'
  simp only [tokF, lexF, hcount, Option.bind_eq_bind, Option.bind_some, peek_stringStream,
    floatLength, hpoint]
  by_cases hdot : (first (s.drop (s.takeWhile isDigit).length) == chr '.') = true
  · by_cases hdigit : isDigit (first (s.drop (s.takeWhile isDigit).length).tail) = true
    · simp only [hdot, hdigit, hcount', Bool.not_true, Bool.false_eq_true, if_false,
        Option.bind_some]
      rw [getMany_string, if_neg (by omega)]
      -- the number is within the text
      have h₁ := length_takeWhile_le isDigit (s.drop (s.takeWhile isDigit).length).tail
      have h₂ : (s.drop (s.takeWhile isDigit).length) ≠ [] := by
        intro hnil
        rw [hnil] at hdot
        exact absurd hdot (by decide)
      have h₃ := List.length_pos_iff.mpr h₂
      rw [List.length_tail, List.length_drop] at h₁
      rw [List.length_drop] at h₃
      omega
    · have hdigit := Bool.eq_false_iff.mpr hdigit
      simp only [hdot, hdigit, Bool.not_true, Bool.not_false, Bool.false_eq_true, if_true, if_false]
  · simp [hdot]

/-- A recogniser of the stream does what one on texts does. -/
def Recognises (r : Recogniser (List Byte)) (f : List Byte → Option Token × List Byte)
    (bound : Nat) : Prop :=
  ∀ s : List Byte, s.length < bound → r s = some (f s)

theorem recognises_of_string (fuel : Nat) :
    List.Forall₂ (fun r f => Recognises r f fuel)
      (recognisers lib stringStream fuel) (lexers lib) := by
  refine .cons (fun s _ => tokFixed_string "'" (by decide) _ s) ?_
  refine .cons (fun s _ => tokFixed_string "`" (by decide) _ s) ?_
  refine .cons (fun s _ => tokFixed_string ",@" (by decide) _ s) ?_
  refine .cons (fun s _ => tokFixed_string "," (by decide) _ s) ?_
  refine .cons (fun s _ => tokFixed_string "(" (by decide) _ s) ?_
  refine .cons (fun s _ => tokFixed_string ")" (by decide) _ s) ?_
  refine .cons (fun s h => tokSymbol_string lib h) ?_
  refine .cons (fun s _ => tokChar_string s) ?_
  refine .cons (fun s h => tokString_string lib h) ?_
  refine .cons (fun s h => tokF_string lib h) ?_
  refine .cons (fun s h => tokU_string h) ?_
  refine .cons (fun s h => tokSuffixed_string "u28" (by decide) _ h) ?_
  refine .cons (fun s h => tokSuffixed_string "i32" (by decide) _ h) ?_
  exact .cons (fun s h => toki_string h) .nil

theorem firstOf_eq {rs : List (Recogniser (List Byte))}
    {fs : List (List Byte → Option Token × List Byte)} {bound : Nat}
    (h : List.Forall₂ (fun r f => Recognises r f bound) rs fs)
    (hrest : ∀ f ∈ fs, ∀ s, (f s).2.length ≤ s.length) :
    ∀ {s : List Byte}, s.length < bound → firstOf rs s = some (lexFirst fs s) := by
  induction h with
  | nil => intro s _; rfl
  | @cons r f rs fs hr _ ih =>
    intro s hs
    rw [firstOf, lexFirst, hr s hs]
    rcases hf : f s with ⟨_ | t, s'⟩
    · have hs' : s'.length ≤ s.length := by
        have := hrest f (by simp) s
        rwa [hf] at this
      exact ih (fun g hg => hrest g (List.mem_cons_of_mem f hg)) (by omega)
    · rfl

/-! ### The rest of the text -/

/-- A recogniser leaves an end of the text, and a shorter one with a token other than the error
token. -/
structure Shortens (f : List Byte → Option Token × List Byte) : Prop where
  rest : ∀ s, (f s).2 <:+ s
  token : ∀ {s t s'}, f s = (some t, s') → t ≠ .error → s'.length < s.length

theorem shortens_lexFixed {text : String} {t : Token} (htext : cstring text ≠ []) :
    Shortens (lexFixed text t) := by
  refine ⟨fun s => ?_, fun {s t' s'} hlex _ => ?_⟩
  · unfold lexFixed
    split
    · exact List.drop_suffix _ _
    · exact List.suffix_refl s
  · unfold lexFixed at hlex
    split at hlex
    · next hp =>
      have hle := (List.isPrefixOf_iff_prefix.mp hp).length_le
      have hpos := List.length_pos_iff.mpr htext
      obtain rfl := (Prod.mk.inj hlex).2
      rw [List.length_drop]
      omega
    · exact absurd (Prod.mk.inj hlex).1 (by simp)

theorem shortens_lexSymbol : Shortens (lexSymbol lib) := by
  refine ⟨fun s => ?_, fun {s t' s'} hlex hne => ?_⟩
  · unfold lexSymbol
    split
    · exact List.suffix_refl s
    · simp only
      split
      · exact List.suffix_refl s
      · exact List.drop_suffix _ _
  · unfold lexSymbol at hlex
    split at hlex
    · exact absurd (Prod.mk.inj hlex).1 (by simp)
    · next h0 =>
      simp only at hlex
      split at hlex
      · exact absurd (Option.some.inj (Prod.mk.inj hlex).1).symm hne
      · cases s with
        | nil => exact absurd (show symchar0 (first []) = false by decide) (by simpa using h0)
        | cons c cs =>
          have hc : symchar c = true := by
            have h0 : symchar0 (first (c :: cs)) = true := by simpa using h0
            rw [symchar, show symchar0 c = true from h0]
            rfl
          obtain rfl := (Prod.mk.inj hlex).2
          rw [List.takeWhile_cons_of_pos hc, List.length_drop, List.length_cons, List.length_cons]
          omega

theorem shortens_lexString : Shortens (lexString lib) := by
  refine ⟨fun s => ?_, fun {s t' s'} hlex hne => ?_⟩
  · unfold lexString
    split
    · exact List.suffix_refl s
    · simp only
      split
      · exact List.tail_suffix s
      · split
        · exact List.tail_suffix s
        · exact ((List.tail_suffix _).trans (List.drop_suffix _ _)).trans (List.tail_suffix s)
  · unfold lexString at hlex
    split at hlex
    · exact absurd (Prod.mk.inj hlex).1 (by simp)
    · next hq =>
      have hs : s ≠ [] := by
        rintro rfl
        exact absurd (show (!(first [] == chr '"')) = true by decide) hq
      simp only at hlex
      split at hlex
      · exact absurd (Prod.mk.inj hlex).1 (by simp)
      · split at hlex
        · exact absurd (Option.some.inj (Prod.mk.inj hlex).1).symm hne
        · obtain rfl := (Prod.mk.inj hlex).2
          have hpos := List.length_pos_iff.mpr hs
          rw [List.length_tail, List.length_drop, List.length_tail]
          omega

theorem ne_nil_of_isPrefixOf {text s : List Byte} (htext : text ≠ [])
    (hp : text.isPrefixOf s = true) : s ≠ [] := by
  rintro rfl
  exact htext (List.prefix_nil.mp (List.isPrefixOf_iff_prefix.mp hp))

theorem shortens_lexChar : Shortens lexChar := by
  refine ⟨fun s => ?_, fun {s t' s'} hlex _ => ?_⟩
  · unfold lexChar
    split
    · exact List.drop_suffix _ _
    · split
      · exact List.drop_suffix _ _
      · exact List.suffix_refl s
  · unfold lexChar at hlex
    split at hlex
    · next hp =>
      have hpos := List.length_pos_iff.mpr (ne_nil_of_isPrefixOf (by decide) hp)
      obtain rfl := (Prod.mk.inj hlex).2
      rw [List.length_drop]
      omega
    · split at hlex
      · next hp =>
        have hp := (Bool.and_eq_true _ _ ▸ hp).1
        have hpos := List.length_pos_iff.mpr (ne_nil_of_isPrefixOf (by decide) hp)
        obtain rfl := (Prod.mk.inj hlex).2
        rw [List.length_drop]
        omega
      · exact absurd (Prod.mk.inj hlex).1 (by simp)

theorem shortens_lexi : Shortens lexi := by
  refine ⟨fun s => ?_, fun {s t' s'} hlex _ => ?_⟩
  · unfold lexi
    simp only
    split
    · exact List.suffix_refl s
    · split
      · exact List.suffix_refl s
      · exact List.drop_suffix _ _
  · unfold lexi at hlex
    simp only at hlex
    split at hlex
    · exact absurd (Prod.mk.inj hlex).1 (by simp)
    · split at hlex
      · exact absurd (Prod.mk.inj hlex).1 (by simp)
      · next hn =>
        obtain rfl := (Prod.mk.inj hlex).2
        have hle := length_takeWhile_le isDigit s
        rw [List.length_drop]
        omega

theorem shortens_lexSuffixed {suffix : String} {t : UINT → Token} (hsuffix : cstring suffix ≠ []) :
    Shortens (lexSuffixed suffix t) := by
  refine ⟨fun s => ?_, fun {s t' s'} hlex _ => ?_⟩
  · unfold lexSuffixed
    simp only
    split
    · exact (List.drop_suffix _ _).trans (List.drop_suffix _ _)
    · exact List.suffix_refl s
  · unfold lexSuffixed at hlex
    simp only at hlex
    split at hlex
    · next hp =>
      have hle := (List.isPrefixOf_iff_prefix.mp hp).length_le
      have hpos := List.length_pos_iff.mpr hsuffix
      obtain rfl := (Prod.mk.inj hlex).2
      rw [List.length_drop] at hle
      rw [List.length_drop, List.length_drop]
      omega
    · exact absurd (Prod.mk.inj hlex).1 (by simp)

theorem shortens_lexU : Shortens lexU := by
  have hsuffixed : Shortens (lexSuffixed "u32" .boxedUint) := shortens_lexSuffixed (by decide)
  refine ⟨fun s => ?_, fun {s t' s'} hlex hne => ?_⟩
  · unfold lexU
    split
    · exact (List.drop_suffix _ _).trans (List.drop_suffix _ _)
    · exact hsuffixed.rest s
  · unfold lexU at hlex
    split at hlex
    · next hx =>
      have hs : s ≠ [] := by
        rintro rfl
        exact absurd hx (by decide)
      have hpos := List.length_pos_iff.mpr hs
      obtain rfl := (Prod.mk.inj hlex).2
      rw [List.length_drop, List.length_drop]
      omega
    · exact hsuffixed.token hlex hne

theorem floatLength_le (s : List Byte) : floatLength s ≤ s.length := by
  unfold floatLength
  simp only
  split
  · exact Nat.zero_le _
  · next hdot =>
    split
    · exact Nat.zero_le _
    · have hne : s.drop (s.takeWhile isDigit).length ≠ [] := by
        intro hnil
        rw [hnil] at hdot
        exact absurd (show (!(first [] == chr '.')) = true by decide) hdot
      have hpos := List.length_pos_iff.mpr hne
      have hfrac := length_takeWhile_le isDigit (s.drop (s.takeWhile isDigit).length).tail
      rw [List.length_tail] at hfrac
      rw [List.length_drop] at hfrac hpos
      omega

theorem shortens_lexF : Shortens (lexF lib) := by
  refine ⟨fun s => ?_, fun {s t' s'} hlex _ => ?_⟩
  · unfold lexF
    split
    · exact List.suffix_refl s
    · exact List.drop_suffix _ _
  · unfold lexF at hlex
    split at hlex
    · exact absurd (Prod.mk.inj hlex).1 (by simp)
    · obtain rfl := (Prod.mk.inj hlex).2
      have hle := floatLength_le s
      rw [List.length_drop]
      omega

theorem shortens_lexers : ∀ f ∈ lexers lib, Shortens f := by
  intro f hf
  simp only [lexers, List.mem_cons, List.not_mem_nil, or_false] at hf
  rcases hf with rfl | rfl | rfl | rfl | rfl | rfl | rfl | rfl | rfl | rfl | rfl | rfl | rfl | rfl
  · exact shortens_lexFixed (by decide)
  · exact shortens_lexFixed (by decide)
  · exact shortens_lexFixed (by decide)
  · exact shortens_lexFixed (by decide)
  · exact shortens_lexFixed (by decide)
  · exact shortens_lexFixed (by decide)
  · exact shortens_lexSymbol lib
  · exact shortens_lexChar
  · exact shortens_lexString lib
  · exact shortens_lexF lib
  · exact shortens_lexU
  · exact shortens_lexSuffixed (by decide)
  · exact shortens_lexSuffixed (by decide)
  · exact shortens_lexi

theorem lexFirst_shortens : ∀ {fs : List (List Byte → Option Token × List Byte)},
    (∀ f ∈ fs, Shortens f) → ∀ s, (lexFirst fs s).2 <:+ s
      ∧ ((lexFirst fs s).1 ≠ .error → (lexFirst fs s).2.length < s.length) := by
  intro fs
  induction fs with
  | nil => intro _ s; exact ⟨List.suffix_refl s, fun h => absurd rfl h⟩
  | cons f fs ih =>
    intro hfs s
    have hf := hfs f (by simp)
    rw [lexFirst]
    rcases heq : f s with ⟨_ | t, s'⟩
    · have hrest : s' <:+ s := by
        have := hf.rest s
        rwa [heq] at this
      obtain ⟨h₁, h₂⟩ := ih (fun g hg => hfs g (List.mem_cons_of_mem f hg)) s'
      have hlen := hrest.length_le
      exact ⟨h₁.trans hrest, fun hne => lt_of_lt_of_le (h₂ hne) hlen⟩
    · have hrest : s' <:+ s := by
        have := hf.rest s
        rwa [heq] at this
      exact ⟨hrest, fun hne => hf.token heq hne⟩

end Recognisers

/-! ## The next token of a text -/

theorem skipBlanks_suffix (comment : Bool) (s : List Byte) : skipBlanks comment s <:+ s := by
  induction s generalizing comment with
  | nil => cases comment <;> exact List.suffix_refl []
  | cons c cs ih =>
    cases comment with
    | true =>
      rw [skipBlanks]
      split
      · exact (ih false).trans (List.suffix_cons c cs)
      · exact (ih true).trans (List.suffix_cons c cs)
    | false =>
      rw [skipBlanks]
      split
      · exact (ih true).trans (List.suffix_cons c cs)
      · split
        · exact (ih false).trans (List.suffix_cons c cs)
        · exact List.suffix_refl _

theorem dropComment_cons {c : Byte} (hc : c ≠ chr '\n') (n : Nat) (cs : List Byte) :
    dropComment stringStream (n + 1) (c :: cs) = dropComment stringStream n cs := by
  have hmore : stringStream.more (c :: cs) = true := rfl
  have hpeek : (stringStream.peek (c :: cs) 0 != chr '\n') = true := by
    rw [peek_stringStream]
    exact bne_iff_ne.mpr hc
  rw [dropComment, hmore, hpeek]
  rfl

theorem dropComment_string : ∀ {n : Nat} {s : List Byte}, s.length < n →
    ∃ s', dropComment stringStream n s = some s' ∧ s' <:+ s
      ∧ skipBlanks true s = skipBlanks false s' := by
  intro n
  induction n with
  | zero => intro s hs; exact absurd hs (Nat.not_lt_zero _)
  | succ n ih =>
    intro s hs
    cases s with
    | nil => exact ⟨[], rfl, List.suffix_refl _, rfl⟩
    | cons c cs =>
      by_cases hc : c = chr '\n'
      · subst hc
        exact ⟨_, rfl, List.suffix_refl _, rfl⟩
      · obtain ⟨s', hs', hsuf, hskip⟩ := ih (s := cs) (by simpa using hs)
        refine ⟨s', ?_, hsuf.trans (List.suffix_cons c cs), ?_⟩
        · rw [dropComment_cons hc]
          exact hs'
        · rw [skipBlanks, if_neg (by simpa using hc)]
          exact hskip

theorem cleanWhitespace_string {fuel : Nat} : ∀ {n : Nat} {s : List Byte}, s.length < fuel →
    s.length < n → cleanWhitespace stringStream fuel n s = some (skipBlanks false s) := by
  intro n
  induction n with
  | zero => intro s _ hs; exact absurd hs (Nat.not_lt_zero _)
  | succ n ih =>
    intro s hfuel hs
    rw [cleanWhitespace, peek_stringStream, List.drop_zero]
    cases s with
    | nil => rfl
    | cons c cs =>
      rw [List.length_cons] at hfuel hs
      show (if (c == chr ';') = true then _ else if isspace c = true then _ else _) = _
      rw [skipBlanks]
      split
      · next hc =>
        -- the semicolon is the first character of the comment
        have hne : c ≠ chr '\n' := by
          rw [beq_iff_eq.mp hc]
          decide
        cases fuel with
        | zero => exact absurd hfuel (Nat.not_lt_zero _)
        | succ k =>
          obtain ⟨s', hs', hsuf, hskip⟩ := dropComment_string (n := k) (s := cs) (by omega)
          have hlen := hsuf.length_le
          rw [dropComment_cons hne, hs', Option.bind_eq_bind, Option.bind_some,
            ih (by omega) (by omega), hskip]
      · split
        · exact ih (s := cs) (by omega) (by omega)
        · rfl

/-- `next_token` on a string. -/
theorem nextToken_string (lib : Libc) {fuel : Nat} {s : List Byte} (hfuel : s.length < fuel) :
    nextToken lib stringStream fuel s = some (lex lib s) := by
  unfold nextToken
  cases s with
  | nil => rfl
  | cons c cs =>
    have hmore : stringStream.more (c :: cs) = true := rfl
    simp only [hmore, Bool.not_true, Bool.false_eq_true, if_false,
      cleanWhitespace_string hfuel hfuel, Option.bind_eq_bind, Option.bind_some]
    have hlen := (skipBlanks_suffix false (c :: cs)).length_le
    unfold lex
    cases hskip : skipBlanks false (c :: cs) with
    | nil => rfl
    | cons d ds =>
      rw [hskip] at hlen
      have hfirst := firstOf_eq (recognises_of_string lib fuel)
        (fun f hf s => ((shortens_lexers lib f hf).rest s).length_le) (s := d :: ds) (by omega)
      rw [hfirst]
      rfl

theorem lex_suffix (lib : Libc) (s : List Byte) : (lex lib s).2 <:+ s := by
  unfold lex
  split
  · exact List.nil_suffix
  · next c cs hskip =>
    have hs := skipBlanks_suffix false s
    rw [hskip] at hs
    exact (lexFirst_shortens (shortens_lexers lib) (c :: cs)).1.trans hs

/-- The tokens after which the parser does not go on with the text. -/
def Token.isEnd : Token → Bool
  | .eof => true
  | .error => true
  | _ => false

theorem lex_length {lib : Libc} {s s' : List Byte} {t : Token} (h : lex lib s = (t, s'))
    (ht : t.isEnd = false) : s'.length < s.length := by
  unfold lex at h
  split at h
  · cases h
    exact absurd ht (by simp [Token.isEnd])
  · next c cs hskip =>
    have hs := (skipBlanks_suffix false s).length_le
    rw [hskip] at hs
    have hlt := (lexFirst_shortens (shortens_lexers lib) (c :: cs)).2
    rw [h] at hlt
    refine lt_of_lt_of_le (hlt ?_) hs
    rintro rfl
    exact absurd ht (by simp [Token.isEnd])

/-! ## The parser on a text -/

section Shapes

variable {σ : Type} (next : σ → Option (Token × σ))

/-- What the parser does after a token. -/
inductive Shape where
  | value (f : ReaderState → Option (VALUE × ReaderState))
  | list
  | form (f : VALUE → ReaderState → Option (VALUE × ReaderState))

/-- Atoms and errors take no further token, a parenthesis opens a list, and the other tokens
change the expression after them. -/
def Token.shape : Token → Shape
  | .openpar => .list
  | .closepar => .value fun st => some (encSym symreprRerror, st)
  | .quote => .form fun q st => some (wrap symreprQuote q st)
  | .backquote => .form wrapBackquote
  | .comma => .form fun q st => some (wrap symreprComma q st)
  | .commaat => .form fun q st => some (wrap symreprCommaat q st)
  | .symbol text => .value (parseSymbol text)
  | .int i => .value fun st => some (encI i, st)
  | .uint u => .value fun st => some (encU u, st)
  | .boxedInt i => .value fun st => some (parseBoxed defReprBoxedIType ptrTypeBoxedI i st)
  | .boxedUint u => .value fun st => some (parseBoxed defReprBoxedUType ptrTypeBoxedU u st)
  | .boxedFloat f => .value fun st => some (parseBoxed defReprBoxedFType ptrTypeBoxedF f st)
  | .string text => .value (parseString text)
  | .char c => .value fun st => some (encChar c, st)
  | .error => .value fun st => some (encSym symreprRerror, st)
  | .eof => .value fun st => some (encSym symreprRerror, st)

theorem parseSexp_succ (n : Nat) (t : Token) (s : σ) (st : ReaderState) :
    parseSexp next (n + 1) t s st =
      match t.shape with
      | .value f => (f st).bind fun (v, st) => some (v, s, st)
      | .list => (next s).bind fun (t, s) => parseSexpList next n t s st
      | .form f => (next s).bind fun (t, s) => (parseSexp next n t s st).bind fun (q, s, st) =>
          (f q st).bind fun (v, st) => some (v, s, st) := by
  cases t <;> rfl

/-- The cell of a list, or the error of one of its parts. -/
def consUnlessError (head tail : VALUE) (st : ReaderState) : VALUE × ReaderState :=
  if isSymbolOf symreprRerror head || isSymbolOf symreprRerror tail then
    (encSym symreprRerror, st)
  else st.alloc (cons head tail)

/-- What the list parser does after a token: the list ends, or has one more element. -/
def Token.endsList : Token → Option VALUE
  | .eof => some (encSym symreprRerror)
  | .error => some (encSym symreprRerror)
  | .closepar => some (encSym symreprNil)
  | _ => none

theorem parseSexpList_succ (n : Nat) (t : Token) (s : σ) (st : ReaderState) :
    parseSexpList next (n + 1) t s st =
      match t.endsList with
      | some v => some (v, s, st)
      | none => (parseSexp next n t s st).bind fun (head, s, st) => (next s).bind fun (t, s) =>
          (parseSexpList next n t s st).bind fun (tail, s, st) =>
            let (v, st) := consUnlessError head tail st
            some (v, s, st) := by
  have hite : ∀ {p : Bool} {a b : VALUE × ReaderState} {s : σ},
      (if p then some (a.1, s, a.2) else some (b.1, s, b.2))
        = some ((if p then a else b).1, s, (if p then a else b).2) := by
    intro p a b s
    cases p <;> rfl
  have hdefault : t.endsList = none → parseSexpList next (n + 1) t s st
      = (parseSexp next n t s st).bind fun (head, s, st) => (next s).bind fun (t, s) =>
          (parseSexpList next n t s st).bind fun (tail, s, st) =>
            let (v, st) := consUnlessError head tail st
            some (v, s, st) := by
    intro ht
    have hrec : parseSexpList next (n + 1) t s st
        = (parseSexp next n t s st).bind fun (head, s, st) => (next s).bind fun (t, s) =>
          (parseSexpList next n t s st).bind fun (tail, s, st) =>
            if isSymbolOf symreprRerror head || isSymbolOf symreprRerror tail then
              some (encSym symreprRerror, s, st)
            else
              let (v, st) := st.alloc (cons head tail)
              some (v, s, st) := by
      cases t <;> first | rfl | exact absurd ht (by simp [Token.endsList])
    rw [hrec]
    congr 1
    funext ⟨head, s, st⟩
    dsimp only
    congr 1
    funext ⟨t, s⟩
    dsimp only
    congr 1
    funext ⟨tail, s, st⟩
    exact hite (a := (encSym symreprRerror, st)) (b := st.alloc (cons head tail))
  cases ht : t.endsList with
  | none => exact hdefault ht
  | some v =>
    cases t with
    | eof => cases ht; rfl
    | error => cases ht; rfl
    | closepar => cases ht; rfl
    | _ => exact absurd ht (by simp [Token.endsList])

/-- The value of a program that ends with a token. -/
def Token.endsProgram : Token → Option VALUE
  | .error => some (encSym symreprRerror)
  | .eof => some (encSym symreprNil)
  | _ => none

theorem parseProgram_succ (a n : Nat) (s : σ) (st : ReaderState) :
    parseProgram next a (n + 1) s st =
      (next s).bind fun (t, s) =>
        match t.endsProgram with
        | some v => some (v, s, st)
        | none => (parseSexp next a t s st).bind fun (head, s, st) =>
            (parseProgram next a n s st).bind fun (tail, s, st) =>
              let (v, st) := st.alloc (cons head tail)
              some (v, s, st) := by
  rw [parseProgram]
  show (next s).bind _ = _
  congr 1
  funext ⟨t, s⟩
  cases t <;> rfl

end Shapes

section Parser

variable (lib : Libc)

def lexNext (s : List Byte) : Option (Token × List Byte) := some (lex lib s)

/-- The parser leaves an end of the text. -/
def Leaves (parse : Token → List Byte → ReaderState → Option (VALUE × List Byte × ReaderState)) :
    Prop :=
  ∀ {t s st v s' st'}, parse t s st = some (v, s', st') → s' <:+ s

theorem parse_leaves : ∀ n, Leaves (parseSexp (lexNext lib) n)
    ∧ Leaves (parseSexpList (lexNext lib) n) := by
  intro n
  induction n with
  | zero =>
    refine ⟨fun {t s st v s' st'} h => ?_, fun {t s st v s' st'} h => ?_⟩
    · exact absurd h (by simp [parseSexp])
    · exact absurd h (by simp [parseSexpList])
  | succ n ih =>
    obtain ⟨hsexp, hlist⟩ := ih
    refine ⟨fun {t s st v s' st'} h => ?_, fun {t s st v s' st'} h => ?_⟩
    · rw [parseSexp_succ] at h
      cases hshape : t.shape with
      | value f =>
        simp only [hshape] at h
        obtain ⟨⟨w, st₁⟩, -, h⟩ := Option.bind_eq_some_iff.mp h
        cases h
        exact List.suffix_refl s
      | list =>
        simp only [hshape, lexNext, Option.bind_some] at h
        exact (hlist h).trans (lex_suffix lib s)
      | form f =>
        simp only [hshape, lexNext, Option.bind_some] at h
        obtain ⟨⟨q, s₁, st₁⟩, h₁, h⟩ := Option.bind_eq_some_iff.mp h
        obtain ⟨⟨w, st₂⟩, -, h⟩ := Option.bind_eq_some_iff.mp h
        cases h
        exact (hsexp h₁).trans (lex_suffix lib s)
    · rw [parseSexpList_succ] at h
      cases hends : t.endsList with
      | some w =>
        simp only [hends] at h
        cases h
        exact List.suffix_refl s
      | none =>
        simp only [hends, lexNext, Option.bind_some] at h
        obtain ⟨⟨head, s₁, st₁⟩, h₁, h⟩ := Option.bind_eq_some_iff.mp h
        obtain ⟨⟨tail, s₂, st₂⟩, h₂, h⟩ := Option.bind_eq_some_iff.mp h
        cases h
        exact (hlist h₂).trans ((lex_suffix lib s₁).trans (hsexp h₁))

/-- Fuel that is enough for an expression or the rest of a list. -/
def sexpFuel (t : Token) (s : List Byte) : Nat := if t.isEnd then 1 else 2 * s.length + 2

def listFuel (t : Token) (s : List Byte) : Nat := if t.isEnd then 1 else 2 * s.length + 3

theorem sexpFuel_pos (t : Token) (s : List Byte) : 0 < sexpFuel t s := by
  unfold sexpFuel
  split <;> omega

theorem listFuel_pos (t : Token) (s : List Byte) : 0 < listFuel t s := by
  unfold listFuel
  split <;> omega

/-- The next token needs less. -/
theorem fuel_lex (s : List Byte) :
    sexpFuel (lex lib s).1 (lex lib s).2 ≤ 2 * s.length + 1
      ∧ listFuel (lex lib s).1 (lex lib s).2 ≤ 2 * s.length + 1 := by
  rcases h : lex lib s with ⟨t, s'⟩
  cases ht : t.isEnd with
  | true =>
    simp only [sexpFuel, listFuel, ht, if_true]
    omega
  | false =>
    have hlt := lex_length h ht
    simp only [sexpFuel, listFuel, ht, Bool.false_eq_true, if_false]
    omega

theorem isEnd_of_shape {t : Token} (h : t.shape = .list ∨ ∃ f, t.shape = .form f) :
    t.isEnd = false := by
  cases t <;> first | rfl | (rcases h with h | ⟨f, h⟩ <;> exact absurd h (by simp [Token.shape]))

theorem isEnd_of_endsList {t : Token} (h : t.endsList = none) : t.isEnd = false := by
  cases t <;> first | rfl | exact absurd h (by simp [Token.endsList])

/-- **Fuel.** More fuel than a text needs changes nothing, and neither does the fuel of the
recognisers. -/
theorem parse_fuel {k : Nat} : ∀ n,
    (∀ {m t s st}, s.length < k → sexpFuel t s ≤ n → sexpFuel t s ≤ m →
      parseSexp (nextToken lib stringStream k) n t s st = parseSexp (lexNext lib) m t s st)
    ∧ (∀ {m t s st}, s.length < k → listFuel t s ≤ n → listFuel t s ≤ m →
      parseSexpList (nextToken lib stringStream k) n t s st
        = parseSexpList (lexNext lib) m t s st) := by
  intro n
  induction n with
  | zero =>
    refine ⟨fun {m t s st} _ hn _ => ?_, fun {m t s st} _ hn _ => ?_⟩
    · exact absurd (lt_of_lt_of_le (sexpFuel_pos t s) hn) (Nat.lt_irrefl _)
    · exact absurd (lt_of_lt_of_le (listFuel_pos t s) hn) (Nat.lt_irrefl _)
  | succ n ih =>
    obtain ⟨hsexp, hlist⟩ := ih
    refine ⟨fun {m t s st} hk hn hm => ?_, fun {m t s st} hk hn hm => ?_⟩
    · obtain ⟨m, rfl⟩ : ∃ m', m = m' + 1 :=
        Nat.exists_eq_succ_of_ne_zero (by have := sexpFuel_pos t s; omega)
      rw [parseSexp_succ, parseSexp_succ]
      cases hshape : t.shape with
      | value f => rfl
      | list =>
        have hend := isEnd_of_shape (Or.inl hshape)
        simp only [sexpFuel, hend, Bool.false_eq_true, if_false] at hn hm
        simp only [nextToken_string lib hk, lexNext, Option.bind_some]
        have hs' := (lex_suffix lib s).length_le
        have hfuel := (fuel_lex lib s).2
        exact hlist (lt_of_le_of_lt hs' hk) (by omega) (by omega)
      | form f =>
        have hend := isEnd_of_shape (Or.inr ⟨f, hshape⟩)
        simp only [sexpFuel, hend, Bool.false_eq_true, if_false] at hn hm
        simp only [nextToken_string lib hk, lexNext, Option.bind_some]
        have hs' := (lex_suffix lib s).length_le
        have hfuel := (fuel_lex lib s).1
        rw [hsexp (m := m) (lt_of_le_of_lt hs' hk) (by omega) (by omega)]
    · obtain ⟨m, rfl⟩ : ∃ m', m = m' + 1 :=
        Nat.exists_eq_succ_of_ne_zero (by have := listFuel_pos t s; omega)
      rw [parseSexpList_succ, parseSexpList_succ]
      cases hends : t.endsList with
      | some v => rfl
      | none =>
        have hend := isEnd_of_endsList hends
        simp only [listFuel, hend, Bool.false_eq_true, if_false] at hn hm
        have hbound : sexpFuel t s = 2 * s.length + 2 := by
          simp only [sexpFuel, hend, Bool.false_eq_true, if_false]
        rw [hsexp (m := m) hk (by omega) (by omega)]
        cases hhead : parseSexp (lexNext lib) m t s st with
        | none => rfl
        | some r =>
          obtain ⟨head, s₁, st₁⟩ := r
          have hs₁ := ((parse_leaves lib m).1 hhead).length_le
          have hnext := nextToken_string lib (lt_of_le_of_lt hs₁ hk)
          simp only [Option.bind_some, hnext, lexNext]
          have hs' := (lex_suffix lib s₁).length_le
          have hfuel := (fuel_lex lib s₁).2
          rw [hlist (m := m) (lt_of_le_of_lt (hs'.trans hs₁) hk) (by omega) (by omega)]

theorem isEnd_of_endsProgram {t : Token} (h : t.endsProgram = none) : t.isEnd = false := by
  cases t <;> first | rfl | exact absurd h (by simp [Token.endsProgram])

theorem parseProgram_fuel {k a b : Nat} : ∀ {n m : Nat} {s : List Byte} {st : ReaderState},
    s.length < k → 2 * s.length + 2 ≤ a → 2 * s.length + 2 ≤ b → s.length < n → s.length < m →
    parseProgram (nextToken lib stringStream k) a n s st
      = parseProgram (lexNext lib) b m s st := by
  intro n
  induction n with
  | zero => intro m s st _ _ _ hn _; exact absurd hn (Nat.not_lt_zero _)
  | succ n ih =>
    intro m s st hk ha hb hn hm
    obtain ⟨m, rfl⟩ : ∃ m', m = m' + 1 := Nat.exists_eq_succ_of_ne_zero (by omega)
    rw [parseProgram_succ, parseProgram_succ, nextToken_string lib hk, lexNext]
    simp only [Option.bind_some]
    cases hends : (lex lib s).1.endsProgram with
    | some v => rfl
    | none =>
      have hlt := lex_length (show lex lib s = ((lex lib s).1, (lex lib s).2) from rfl)
        (isEnd_of_endsProgram hends)
      have hfuel := (fuel_lex lib s).1
      rw [(parse_fuel lib a).1 (m := b) (hlt.trans hk) (by omega) (by omega)]
      simp only
      cases hhead : parseSexp (lexNext lib) b (lex lib s).1 (lex lib s).2 st with
      | none => rfl
      | some r =>
        obtain ⟨head, s₁, st₁⟩ := r
        have hs₁ := ((parse_leaves lib b).1 hhead).length_le
        simp only [Option.bind_some]
        rw [ih (m := m) (by omega) (by omega) (by omega) (by omega) (by omega)]

/-- `tokpar_parse` without fuel for the recognisers. -/
def parseText (s : List Byte) (st : ReaderState) : Option (VALUE × ReaderState) :=
  (parseProgram (lexNext lib) (2 * s.length + 2) (s.length + 1) s st).bind fun (v, _, st) =>
    some (v, st)

/-- **Reading a text.** The fuel of the reader is enough. -/
theorem parseStream_string {n : Nat} {s : List Byte} (hn : s.length ≤ n) (st : ReaderState) :
    parseStream lib stringStream n s st = parseText lib s st := by
  have hprogram := @parseProgram_fuel lib (n + 2) (2 * n + 3) (2 * s.length + 2) (n + 2)
    (s.length + 1) s st (by omega) (by omega) (by omega) (by omega) (by omega)
  rw [parseStream, parseText, hprogram]
  rfl

theorem tokparParse_eq (string : CString) (st : ReaderState) :
    tokparParse lib string st = parseText lib string.chars st :=
  parseStream_string lib (le_refl _) st

end Parser

end Tokpar

end LispBM
