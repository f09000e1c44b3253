import LispBM.Fundamental.Equality
import LispBM.Print.Readable
import LispBM.Tokpar.Numerals
import LispBM.Tokpar.Programs

/-!
# LispBM — what was printed is read back

The text of an expression is read as the expression, whatever delimiter follows it. So the text
that `print_value` leaves for a value is read as a program with one expression, which is equal to
the value.

* `lex_readable` — the token of an atom;
* `readsAs_readable` — the trees of tokens that are read for an expression and for a rest of a list;
* `read_printed` — printing and reading.
-/

namespace LispBM

namespace Tokpar

open Compression (chr CString isspace)
open BitBuffer (Byte)
open Print (Buffer printValue HoldsString)

variable (lib : Libc) {rest s text : List Byte} {c : Byte} {e a d : Sexp}

/-! ## The tokens of atoms -/

/-- What begins neither with white space nor with a comment. -/
theorem lex_cons (hspace : isspace c = false) (hcomment : c ≠ chr ';') :
    lex lib (c :: s) = lexFirst (lexers lib) (c :: s) := by
  have hskip : skipBlanks false (c :: s) = c :: s := by
    rw [skipBlanks, beq_false_of_ne hcomment, hspace]
    rfl
  rw [lex, hskip]

/-- After the recognisers of one or two fixed characters. -/
theorem lexers_of_other (hother : (cstring "'`,()").contains c = false) :
    lexFirst (lexers lib) (c :: s) = lexFirst [lexSymbol lib, lexChar, lexString lib, lexF lib,
      lexU, lexSuffixed "u28" .uint, lexSuffixed "i32" .boxedInt, lexi] (c :: s) := by
  have hfixed : ∀ {text : String} {t : Token},
      (∃ d ∈ cstring "'`,()", (cstring text).head? = some d) →
      lexFixed text t (c :: s) = (none, c :: s) := by
    intro text t ⟨d, hmem, hd⟩
    rw [lexFixed, isPrefixOf_eq_false hd (ne_of_contains hother hmem), if_neg (by simp)]
  unfold lexers
  rw [lexFirst_none (hfixed (by decide)), lexFirst_none (hfixed (by decide)),
    lexFirst_none (hfixed (by decide)), lexFirst_none (hfixed (by decide)),
    lexFirst_none (hfixed (by decide)), lexFirst_none (hfixed (by decide))]

theorem symchar0_spec : ∀ c : Byte, symchar0 c = true →
    isspace c = false ∧ c ≠ chr ';' ∧ (cstring "'`,()").contains c = false := by decide

theorem symchar_delimiter : ∀ c : Byte, isspace c = true ∨ c = chr ')' ∨ c = 0#8 →
    symchar c = false := by decide

theorem symchar_first (hrest : Delimits rest) : symchar (first rest) = false := by
  apply symchar_delimiter
  cases rest with
  | nil => exact .inr (.inr rfl)
  | cons c cs =>
    rcases hrest c rfl with hspace | hpar
    · exact .inl hspace
    · exact .inr (.inl hpar)

/-- **A name** is read up to the delimiter, and is the same in lower case. -/
theorem lex_name (hname : IsName text) (hmalloc : lib.malloc (text.length + 1) = true)
    (hrest : Delimits rest) : lex lib (text ++ rest) = (.symbol text, rest) := by
  cases text with
  | nil => exact absurd hname.begins (by decide)
  | cons c cs =>
    have hbegins : symchar0 c = true := hname.begins
    obtain ⟨hspace, hcomment, hother⟩ := symchar0_spec c hbegins
    have hfirst : symchar0 (first (c :: cs ++ rest)) = true := hbegins
    have hwhile := takeWhile_append_of_first hname.chars (symchar_first hrest)
    have hsymbol : lexSymbol lib (c :: cs ++ rest) = (some (.symbol (c :: cs)), rest) := by
      unfold lexSymbol
      simp only [hfirst, Bool.not_true, Bool.false_eq_true, if_false, hwhile, hmalloc, hname.lower,
        List.drop_left]
    show lex lib (c :: (cs ++ rest)) = _
    rw [lex_cons lib hspace hcomment, lexers_of_other lib hother]
    exact lexFirst_some hsymbol

theorem symbol_none (hc : symchar0 c = false) : lexSymbol lib (c :: s) = (none, c :: s) := by
  have hfirst : symchar0 (first (c :: s)) = false := hc
  rw [lexSymbol, hfirst]
  rfl

/-- **A character.** -/
theorem lex_char (hc : isgraph c = true) (hrest : Delimits rest) :
    lex lib (cstring "\\#" ++ [c] ++ rest) = (.char c, rest) := by
  have hnewline : (cstring "\\#newline").isPrefixOf (cstring "\\#" ++ [c] ++ rest) = false := by
    have hfirst : first rest ≠ chr 'e' := by
      obtain ⟨-, -, hother⟩ := hrest.first
      intro heq
      have hsym := (symchar_first hrest)
      rw [heq] at hsym
      exact absurd hsym (by decide)
    have htail := @isPrefixOf_eq_false rest (cstring "ewline") (chr 'e') rfl hfirst
    show ((chr 'n' == c) && (cstring "ewline").isPrefixOf rest) = false
    rw [htail, Bool.and_false]
  have hprefix : (cstring "\\#").isPrefixOf (cstring "\\#" ++ [c] ++ rest) = true := by
    rw [List.append_assoc]
    exact List.isPrefixOf_iff_prefix.mpr (List.prefix_append _ _)
  have hgraph : isgraph (first ((cstring "\\#" ++ [c] ++ rest).drop 2)) = true := hc
  have hchar : lexChar (cstring "\\#" ++ [c] ++ rest) = (some (.char c), rest) := by
    rw [lexChar, hnewline, hprefix, hgraph]
    rfl
  show lex lib (chr '\\' :: (chr '#' :: c :: rest)) = _
  rw [lex_cons lib (by decide) (by decide), lexers_of_other lib (by decide),
    lexFirst_none (symbol_none lib (by decide))]
  exact lexFirst_some hchar

/-- **A string.** -/
theorem lex_string (hchars : ∀ c ∈ text, c ≠ 0#8 ∧ c ≠ chr '"')
    (hmalloc : lib.malloc (text.length + 1) = true) :
    lex lib (cstring "\"" ++ text ++ cstring "\"" ++ rest) = (.string text, rest) := by
  have hin : ∀ c ∈ text, inString c = true := by
    intro c hc
    obtain ⟨hnul, hquote⟩ := hchars c hc
    rw [inString, bne_iff_ne.mpr hnul, bne_iff_ne.mpr hquote]
    rfl
  have hwhile : (text ++ (cstring "\"" ++ rest)).takeWhile inString = text :=
    takeWhile_append_of_first hin (show inString (chr '"') = false by decide)
  have hstring : lexString lib (chr '"' :: (text ++ (cstring "\"" ++ rest)))
      = (some (.string text), rest) := by
    unfold lexString
    simp only [first, List.headD_cons, beq_self_eq_true, Bool.not_true, Bool.false_eq_true,
      if_false, List.tail_cons, hwhile, List.drop_left, hmalloc]
    rfl
  have htext : cstring "\"" ++ text ++ cstring "\"" ++ rest
      = chr '"' :: (text ++ (cstring "\"" ++ rest)) := by
    rw [List.append_assoc, List.append_assoc]
    rfl
  rw [htext, lex_cons lib (by decide) (by decide), lexers_of_other lib (by decide),
    lexFirst_none (symbol_none lib (by decide)),
    lexFirst_none (show lexChar (chr '"' :: _) = (none, _) from rfl)]
  exact lexFirst_some hstring

/-! ### Numbers -/

/-- The characters of digits. -/
theorem digit_char {c : Char} (hc : c.isDigit = true) :
    isDigit (BitVec.ofNat 8 c.toNat) = true
      ∧ digitNat (BitVec.ofNat 8 c.toNat) = c.toNat - '0'.toNat := by
  have hbounds : 48 ≤ c.toNat ∧ c.toNat ≤ 57 := by
    simp only [Char.isDigit, Bool.and_eq_true, decide_eq_true_eq] at hc
    exact ⟨hc.1, hc.2⟩
  obtain ⟨hlo, hhi⟩ := hbounds
  interval_cases c.toNat <;> decide

/-- `%u` prints digits that denote the number. -/
theorem formatU_spec (x : UINT) : Print.formatU x ≠ []
    ∧ (∀ c ∈ Print.formatU x, isDigit c = true) ∧ denoted 10 (Print.formatU x) = x.toNat := by
  have hdigits : ∀ c ∈ Nat.toDigits 10 x.toNat, c.isDigit = true := fun c hc =>
    Nat.isDigit_of_mem_toDigits (by decide) (by decide) hc
  have hfold : ∀ {cs : List Char} {acc : Nat}, (∀ c ∈ cs, c.isDigit = true) →
      (cs.map fun c => BitVec.ofNat 8 c.toNat).foldl (fun acc c => acc * 10 + digitNat c) acc
        = Nat.ofDigitChars 10 cs acc := by
    intro cs
    induction cs with
    | nil => exact fun _ => rfl
    | cons c cs ih =>
      intro acc hcs
      rw [List.map_cons, List.foldl_cons, (digit_char (hcs c List.mem_cons_self)).2,
        ih fun c hc => hcs c (List.mem_cons_of_mem _ hc), Nat.ofDigitChars_cons, Nat.mul_comm]
  refine ⟨?_, fun c hc => ?_, ?_⟩
  · exact fun h => Nat.toDigits_ne_nil (List.map_eq_nil_iff.mp h)
  · obtain ⟨u, hu, rfl⟩ := List.mem_map.mp hc
    exact (digit_char (hdigits u hu)).1
  · exact (hfold hdigits).trans Nat.ofDigitChars_ten_toDigits

/-- **A number.** -/
theorem lex_int {i : UINT} (hi : i.toNat < 2 ^ 27) (hrest : Delimits rest) :
    lex lib (Print.formatD (decI (encI i)) ++ rest) = (.int i, rest) := by
  have hint := toInt_of_lt hi
  obtain ⟨hne, hdigits, hval⟩ := formatU_spec i
  have hlex := @lex_numeral .plain (Print.formatU i) rest lib hdigits hne hrest
  have hformat : Print.formatD (decI (encI i)) = Print.formatU i := by
    rw [Payload.decI_encI (by omega) (by omega), Print.formatD, if_neg (by omega)]
  have htext : Form.text .plain (Print.formatU i) = Print.formatU i := List.append_nil _
  rw [htext] at hlex
  rw [hformat, hlex]
  show (Token.int (BitVec.ofNat 32 (denoted 10 (Print.formatU i))), rest) = _
  rw [hval, BitVec.ofNat_toNat, BitVec.setWidth_eq]

/-! ## Reading the text of an expression -/

namespace Sexp

/-- The cells that are needed to read the expression. -/
def readCells : Sexp → Nat
  | pair a d => a.readCells + d.readCells + 1
  | string _ => 1
  | _ => 0

/-- The words that are needed if all names are new. -/
def readWords : Sexp → Nat
  | pair a d => a.readWords + d.readWords
  | string text => stringWords text
  | name text => nameWords text
  | _ => 0

/-- The error of the reader has a name that cannot be read. -/
theorem Readable.ne_rerror (he : e.Readable) : e ≠ .rerror := by
  intro heq
  have htype : typeOf (encSym symreprRerror) = valTypeSymbol := typeOf_encSym _
  cases he with
  | @int i hi =>
    obtain heq' := Sexp.atom.inj heq
    rw [← heq', typeOf_encI] at htype
    exact absurd htype (by decide)
  | @char c hc =>
    obtain heq' := Sexp.atom.inj heq
    rw [← heq', typeOf_encChar] at htype
    exact absurd htype (by decide)
  | @special text id hname hid =>
    have hlt : id.toNat < 4096 := specialId_lt hid
    have hid' : id = symreprRerror := by
      have hdec := congrArg decSym (Sexp.atom.inj heq)
      rw [decSym_encSym (by omega)] at hdec
      exact hdec.trans (by decide)
    rw [hid', specialId_iff_specialName] at hid
    obtain rfl := Option.some.inj (hid.symm.trans (show _ = some (cstring "read_error") by decide))
    exact absurd (hname.chars (chr '_') (by decide)) (by decide)
  | _ => exact Sexp.noConfusion heq

/-- Names and strings need memory. -/
def tokenSizes : Sexp → Nat
  | pair a d => max a.tokenSizes d.tokenSizes
  | e => e.text.length

end Sexp

/-- The trees are the expression, and need what it needs. -/
structure Tree.Reads (T : Tree) (e : Sexp) : Prop where
  sexp : T.sexp = e
  cells : T.cells = e.readCells
  words : T.words = e.readWords

structure Trees.Reads (T : Trees) (e : Sexp) : Prop where
  sexp : T.sexp = e
  cells : T.cells = e.readCells
  words : T.words = e.readWords

/-- At the beginning of the text is the expression, and then comes `rest`. -/
def ReadsAs (s : List Byte) (e : Sexp) (rest : List Byte) : Prop :=
  (lex lib s).1.endsList = none ∧ (lex lib s).1.endsProgram = none
    ∧ ∃ k T, treeSexp (lexNext lib) k (lex lib s).1 (lex lib s).2 = some (T, rest) ∧ T.Reads e

/-- At the beginning of the text is the rest of a list. -/
def ReadsRest (s : List Byte) (e : Sexp) (rest : List Byte) : Prop :=
  ∃ k T, treeSexpList (lexNext lib) k (lex lib s).1 (lex lib s).2 = some (T, rest) ∧ T.Reads e

/-- An atom is one token. -/
theorem ReadsAs.token {t : Token} {f : ReaderState → Option (VALUE × ReaderState)}
    (hlex : lex lib s = (t, rest)) (hlist : t.endsList = none) (hprogram : t.endsProgram = none)
    (hshape : t.shape = .value f) (hreads : (Tree.atom t).Reads e) : ReadsAs lib s e rest := by
  rw [ReadsAs, hlex]
  refine ⟨hlist, hprogram, 1, .atom t, ?_, hreads⟩
  rw [treeSexp, hshape]

/-- An element and the rest of the list behind it. -/
theorem ReadsRest.item {middle : List Byte} (hhead : ReadsAs lib s a middle)
    (htail : ReadsRest lib middle d rest) (ha : a ≠ .rerror) (hd : d ≠ .rerror) :
    ReadsRest lib s (.pair a d) rest := by
  obtain ⟨hends, -, j, A, hA, hreadsA⟩ := hhead
  obtain ⟨k, D, hD, hreadsD⟩ := htail
  have hok : ¬(A.sexp = .rerror ∨ D.sexp = .rerror) := by
    rw [hreadsA.sexp, hreadsD.sexp]
    exact fun h => h.elim ha hd
  refine ⟨max j k + 1, .item A D, ?_, ?_, ?_, ?_⟩
  · have hA' := (treeSexp_mono j).1 (Nat.le_max_left j k) hA
    have hD' := (treeSexp_mono k).2 (Nat.le_max_right j k) hD
    rw [treeSexpList, hends]
    simp only [hA', Option.bind_some, lexNext]
    rw [show treeSexpList (lexNext lib) (max j k) (lex lib middle).1 (lex lib middle).2 = _ from
      hD']
    rfl
  · rw [Trees.sexp, Sexp.item, if_neg hok, hreadsA.sexp, hreadsD.sexp]
  · rw [Trees.cells, if_neg hok, hreadsA.cells, hreadsD.cells]
    rfl
  · rw [Trees.words, hreadsA.words, hreadsD.words]
    rfl

/-- A list is a parenthesis, an element and the rest. -/
theorem ReadsAs.list {s' : List Byte} (hlex : lex lib s = (.openpar, s'))
    (hrest : ReadsRest lib s' e rest) : ReadsAs lib s e rest := by
  obtain ⟨k, D, hD, hreads⟩ := hrest
  rw [ReadsAs, hlex]
  refine ⟨rfl, rfl, k + 1, .list D, ?_, hreads.sexp, hreads.cells, hreads.words⟩
  rw [treeSexp]
  show (treeSexpList (lexNext lib) k (lex lib s').1 (lex lib s').2).map _ = _
  rw [hD]
  rfl

theorem lex_openpar : lex lib (cstring "(" ++ s) = (.openpar, s) := by
  show lex lib (chr '(' :: s) = _
  rw [lex_cons lib (by decide) (by decide)]
  rfl

theorem lex_closepar : lex lib (cstring ")" ++ s) = (.closepar, s) := by
  show lex lib (chr ')' :: s) = _
  rw [lex_cons lib (by decide) (by decide)]
  rfl

theorem lex_space : lex lib (cstring " " ++ s) = lex lib s := by
  have hskip : skipBlanks false (cstring " " ++ s) = skipBlanks false s := rfl
  rw [lex, lex, hskip]

/-- The rest of a list begins with a delimiter. -/
theorem delimits_restText : Delimits (e.restText ++ rest) := by
  cases e with
  | pair a d =>
    intro c hc
    obtain rfl := Option.some.inj hc
    exact .inl (by decide)
  | _ =>
    intro c hc
    obtain rfl := Option.some.inj hc
    exact .inr (by decide)

/-- **The text of an expression is read as the expression**, before a delimiter, if `malloc` has
memory for its names and strings. -/
theorem readsAs_readable : ∀ {e : Sexp}, e.Readable →
    (∀ k ≤ e.tokenSizes, lib.malloc (k + 1) = true) →
    (∀ rest, Delimits rest → ReadsAs lib (e.text ++ rest) e rest)
      ∧ (e.isPair = true ∨ e = .nil → ∀ rest, ReadsRest lib (e.restText ++ rest) e rest) := by
  -- after nil comes the parenthesis
  have hnil : ∀ {e : Sexp}, e.isPair = false → (e.isPair = true ∨ e = .nil) →
      ∀ rest, ReadsRest lib (e.restText ++ rest) e rest := by
    intro e hp hlist rest
    obtain hp' | rfl := hlist
    · rw [hp] at hp'
      exact absurd hp' (by decide)
    · refine ⟨1, .ends .closepar, ?_, rfl, rfl, rfl⟩
      rw [show Sexp.nil.restText = cstring ")" from rfl, lex_closepar]
      rfl
  intro e he
  induction he with
  | @int i hi =>
    refine fun _ => ⟨fun rest hrest => ?_, hnil rfl⟩
    have htext : (Sexp.atom (encI i)).text = Print.formatD (decI (encI i)) := by
      rw [Sexp.text, Sexp.atomChars, typeOf_encI]
      rfl
    rw [htext]
    exact .token lib (lex_int lib hi hrest) rfl rfl rfl ⟨rfl, rfl, rfl⟩
  | @char c hc =>
    refine fun _ => ⟨fun rest hrest => ?_, hnil rfl⟩
    have htext : (Sexp.atom (encChar c)).text = cstring "\\#" ++ [c] := by
      rw [Sexp.text, Sexp.atomChars, typeOf_encChar, decChar_encChar]
      rfl
    rw [htext]
    exact .token lib (lex_char lib hc hrest) rfl rfl rfl ⟨rfl, rfl, rfl⟩
  | @special text id hname hid =>
    intro hmalloc
    refine ⟨fun rest hrest => ?_, hnil rfl⟩
    have htext : (Sexp.sym id).text = text := by
      have hlt : id.toNat < 4096 := specialId_lt hid
      show Sexp.atomChars (encSym id) = text
      rw [Sexp.atomChars, typeOf_encSym, decSym_encSym (by omega),
        (specialId_iff_specialName text id).mp hid]
      rfl
    rw [htext]
    have hsize : (Sexp.sym id).tokenSizes = text.length := congrArg List.length htext
    refine .token lib (lex_name lib hname (hmalloc _ (by rw [hsize])) hrest) rfl rfl
      rfl ⟨?_, rfl, ?_⟩
    · show nameSexp text = _
      rw [nameSexp, hid]
    · show nameWords text = _
      rw [nameWords, hid]
      rfl
  | @name text hname hid =>
    intro hmalloc
    refine ⟨fun rest hrest => ?_, hnil rfl⟩
    refine .token lib (lex_name lib hname (hmalloc _ (le_refl _)) hrest) rfl rfl rfl ⟨?_, rfl, rfl⟩
    show nameSexp text = _
    rw [nameSexp, hid]
  | @string text hchars =>
    intro hmalloc
    refine ⟨fun rest _ => ?_, hnil rfl⟩
    have hsize : (Sexp.string text).tokenSizes = text.length + 2 := by
      show (cstring "\"" ++ text ++ cstring "\"").length = _
      rw [List.length_append, List.length_append]
      show 1 + text.length + 1 = _
      omega
    exact .token lib (lex_string lib hchars (hmalloc _ (by omega))) rfl rfl rfl ⟨rfl, rfl, rfl⟩
  | @pair a d ha hd hlist iha ihd =>
    intro hmalloc
    have hsize : (Sexp.pair a d).tokenSizes = max a.tokenSizes d.tokenSizes := rfl
    have hhead := (iha fun k hk => hmalloc k (by omega)).1
    have htail := (ihd fun k hk => hmalloc k (by omega)).2 hlist
    -- the element is delimited by what comes before the next one
    have hitem : ∀ rest, ReadsRest lib (a.text ++ (d.restText ++ rest)) (.pair a d) rest :=
      fun rest => .item lib (hhead _ delimits_restText) (htail rest) ha.ne_rerror hd.ne_rerror
    refine ⟨fun rest _ => ?_, fun _ rest => ?_⟩
    · have htext : (Sexp.pair a d).text ++ rest
          = cstring "(" ++ (a.text ++ (d.restText ++ rest)) := by
        rw [Sexp.text, List.append_assoc, List.append_assoc]
      rw [htext]
      exact .list lib (lex_openpar lib) (hitem rest)
    · have htext : (Sexp.pair a d).restText ++ rest
          = cstring " " ++ (a.text ++ (d.restText ++ rest)) := by
        rw [Sexp.restText, List.append_assoc, List.append_assoc]
      rw [ReadsRest, htext, lex_space]
      exact hitem rest

/-- **The text of an expression is a program** with the one expression. -/
theorem textTrees_readable (he : e.Readable)
    (hmalloc : ∀ k ≤ e.tokenSizes, lib.malloc (k + 1) = true) :
    ∃ T, textTrees lib e.text = .item T (.ends .eof) ∧ T.Reads e := by
  have hreads := (readsAs_readable lib he hmalloc).1 [] (fun c hc => absurd hc (by simp))
  rw [List.append_nil] at hreads
  obtain ⟨-, hends, k, T, hT, hsame⟩ := hreads
  obtain ⟨s', hprogram⟩ := textTrees_spec lib e.text
  rw [treeProgram, lexNext, Option.bind_some] at hprogram
  simp only [hends] at hprogram
  obtain ⟨⟨head, s₁⟩, hhead, hprogram⟩ := Option.bind_eq_some_iff.mp hprogram
  obtain ⟨⟨tail, s₂⟩, htail, hprogram⟩ := Option.map_eq_some_iff.mp hprogram
  -- with more fuel both readings are the same
  have h₁ := (treeSexp_mono _).1 (Nat.le_max_left _ k) hhead
  have h₂ := (treeSexp_mono k).1 (Nat.le_max_right (2 * e.text.length + 2) _) hT
  obtain ⟨rfl, rfl⟩ := Prod.mk.inj (Option.some.inj (h₁.symm.trans h₂))
  have hend : tail = .ends .eof := by
    cases hlen : e.text.length with
    | zero =>
      rw [hlen] at htail
      exact absurd htail (by simp [treeProgram])
    | succ l =>
      rw [hlen] at htail
      exact (Prod.mk.inj (Option.some.inj htail)).1.symm
  subst hend
  exact ⟨head, (Prod.mk.inj hprogram).1.symm, hsame⟩

/-! ## Values of one expression are equal -/

section Equal

variable {n : Nat} {w : World n} {u v : VALUE} {fo : FloatOps}

theorem findName_of_newer {names newer older : List (List Byte)} (hnodup : names.Nodup)
    (hlen : 5 * names.length ≤ 2 ^ 30) (hnames : names = newer ++ text :: older) :
    findName text names = some (symbolId older.length) :=
  (findName_iff_findId hnodup hlen _ _).mpr (findId_symbolId hnames hlen)

/-- A string is an array of its characters and a NUL. -/
theorem Encodes.denotes_string (h : Encodes w v (.string text)) : Denotes w.heap v
    (.array valTypeChar (BitVec.ofNat 32 (text.length + 1)) (text ++ [0#8])) := by
  cases h with
  | @string _ i b _ hp hi hb htext =>
    have hfits := htext.fits
    have hshort := htext.short
    have hregion : Region w.memory := w.holds.region
    have hlast : b.start + b.len - 1 < w.memory.memory.length :=
      w.holds.lt_length hb (by have := b.pos; omega)
    have hcar : car w.heap v = byteAddr w.memory (4 * b.start) := by
      rw [car_of_isPtr hp.isPtr, hp.ptrIx]
      exact congrArg ConsCell.car hi.cell
    have hbytes : dataBytes valTypeChar (BitVec.ofNat 32 (text.length + 1)) = text.length + 1 := by
      rw [dataBytes, if_pos rfl, BitVec.toNat_ofNat, Nat.mod_eq_of_lt hshort]
    have hread := @Region.readBytes_byteAddr w.memory hregion (text ++ [0#8])
      (4 * (b.start + 2)) (by rw [List.length_append, List.length_singleton]; omega)
      fun j hj => by
        rw [List.length_append, List.length_singleton] at hj
        by_cases hlt : j < text.length
        · rw [htext.text.bytes j hlt, List.getD_append _ _ _ _ hlt]
        · obtain rfl : j = text.length := by omega
          rw [htext.text.nul, List.getD_append_right _ _ _ _ (le_refl _), Nat.sub_self]
          rfl
    rw [List.length_append, List.length_singleton] at hread
    have haddr : ∀ k, byteAddr w.memory (4 * b.start) + BitVec.ofNat 32 k
        = byteAddr w.memory (4 * b.start + k) := fun k => byteAddr_add w.memory (4 * b.start) k
    refine .array hp.isPtr ?_ ?_ ?_ (by rw [hbytes]; exact hshort) ?_
    · have hty := hp.typeOf
      rwa [typeOf, hp.isPtr] at hty
    · rw [hcar, ← htext.type]
      exact hregion.readWord_byteAddr (by omega)
    · rw [hcar, ← htext.size]
      show readWord w.memory (byteAddr w.memory (4 * b.start) + BitVec.ofNat 32 4) = _
      rw [haddr]
      exact hregion.readWord_byteAddr (i := b.start + 1) (by omega)
    · rw [hbytes, hcar]
      show readBytes w.memory _ (byteAddr w.memory (4 * b.start) + BitVec.ofNat 32 8) = _
      rw [haddr]
      exact hread

/-- Two values of an expression stand for one tree, which `struct_eq` takes for equal to itself. -/
theorem Encodes.denotes_same : ∀ {e : Sexp} {u v : VALUE}, e.Readable → Encodes w u e →
    Encodes w v e →
    ∃ t : ValueTree, Denotes w.heap u t ∧ Denotes w.heap v t ∧ t.codeEq fo t = true := by
  have hlen : 5 * w.names.length ≤ 2 ^ 30 := by
    have hnames := w.table.five_mul_length_le
    have haddr := w.holds.represents.addressable
    omega
  have htype : ∀ {v : VALUE}, isPtr v = false → valType v = typeOf v := by
    intro v hp
    rw [typeOf, hp]
    rfl
  intro e u v he
  induction he generalizing u v with
  | @int i hi =>
    intro hu hv
    cases hu with
    | atom hu =>
      cases hv with
      | atom _ =>
        have h := Denotes.i28 (h := w.heap) hu.notPtr ((htype hu.notPtr).trans (typeOf_encI i))
        exact ⟨_, h, h, beq_self_eq_true _⟩
  | @char c hc =>
    intro hu hv
    cases hu with
    | atom hu =>
      cases hv with
      | atom _ =>
        have h := Denotes.char (h := w.heap) hu.notPtr ((htype hu.notPtr).trans (typeOf_encChar c))
        exact ⟨_, h, h, beq_self_eq_true _⟩
  | @special text id hname hid =>
    intro hu hv
    cases hu with
    | atom hu =>
      cases hv with
      | atom _ =>
        have h := Denotes.symbol (h := w.heap) hu.notPtr
          ((htype hu.notPtr).trans (typeOf_encSym id))
        exact ⟨_, h, h, beq_self_eq_true _⟩
  | @name text hname hid =>
    intro hu hv
    cases hu with
    | @name newer older _ hu =>
      cases hv with
      | @name newer' older' _ hv =>
        -- a name is in the table once
        have h₁ := findName_of_newer w.table.nodup hlen hu
        have h₂ := findName_of_newer w.table.nodup hlen hv
        rw [Option.some.inj (h₁.symm.trans h₂)]
        have h := Denotes.symbol (h := w.heap) (isPtr_encSym (symbolId older'.length))
          ((htype (isPtr_encSym _)).trans (typeOf_encSym _))
        exact ⟨_, h, h, beq_self_eq_true _⟩
  | @string text hchars =>
    intro hu hv
    refine ⟨_, hu.denotes_string, hv.denotes_string, ?_⟩
    have hsome : (arrayBytes valTypeChar (BitVec.ofNat 32 (text.length + 1))).isSome = true := rfl
    rw [ValueTree.codeEq, hsome]
    simp
  | @pair a d ha hd hlist iha ihd =>
    intro hu hv
    obtain ⟨hpu, hiu, hau, hdu⟩ := hu.pair_inv
    obtain ⟨hpv, hiv, hav, hdv⟩ := hv.pair_inv
    obtain ⟨t₁, h₁, h₁', heq₁⟩ := iha hau hav
    obtain ⟨t₂, h₂, h₂', heq₂⟩ := ihd hdu hdv
    have hix : ∀ {v : VALUE} {c : ConsCell}, w.Has (ptrIx v) c → ptrIx v < w.heap.heap.length :=
      fun hi => lt_of_lt_of_le hi.lt w.freeList.fits
    have hty : ∀ {v : VALUE}, PtrWord v ptrTypeCons (ptrIx v) → ptrType v = ptrTypeCons := by
      intro v hp
      have hty := hp.typeOf
      rwa [typeOf, hp.isPtr] at hty
    refine ⟨.cons t₁ t₂, .cons hpu.isPtr (hty hpu) (hix hiu) h₁ h₂,
      .cons hpv.isPtr (hty hpv) (hix hiv) h₁' h₂', ?_⟩
    rw [ValueTree.codeEq, heq₁, heq₂]
    rfl

/-- **Two values of an expression are equal** for `struct_eq`. -/
theorem structEq_encodes (he : e.Readable) (hu : Encodes w u e) (hv : Encodes w v e) :
    structEq fo w.heap u v = some true := by
  obtain ⟨t, htu, htv, heq⟩ : ∃ t : ValueTree, Denotes w.heap u t ∧ Denotes w.heap v t
      ∧ t.codeEq fo t = true := Encodes.denotes_same he hu hv
  rw [structEq_eq htu htv, heq]

end Equal

/-! ## Printing and reading -/

/-- The text of an expression has no NUL. -/
theorem Sexp.Readable.noNul (he : e.Readable) :
    (∀ c ∈ e.text, c ≠ 0#8) ∧ ∀ c ∈ e.restText, c ≠ 0#8 := by
  have hname : ∀ {text : List Byte}, IsName text → ∀ c ∈ text, c ≠ 0#8 := by
    intro text hname c hc hzero
    rw [hzero] at hc
    exact absurd (hname.chars _ hc) (by decide)
  have hclose : ∀ c ∈ cstring ")", c ≠ 0#8 := by decide
  induction he with
  | @int i hi =>
    refine ⟨fun c hc hzero => ?_, hclose⟩
    have hint := toInt_of_lt hi
    rw [Sexp.text, Sexp.atomChars, typeOf_encI, Payload.decI_encI (by omega) (by omega)] at hc
    change c ∈ Print.formatD i at hc
    rw [Print.formatD, if_neg (by omega), hzero] at hc
    exact absurd ((formatU_spec i).2.1 _ hc) (by decide)
  | @char c hc =>
    refine ⟨fun d hd hzero => ?_, hclose⟩
    rw [Sexp.text, Sexp.atomChars, typeOf_encChar, decChar_encChar] at hd
    change d ∈ [chr '\\', chr '#', c] at hd
    subst hzero
    simp only [List.mem_cons, List.not_mem_nil, or_false] at hd
    rcases hd with hd | hd | hd
    · exact absurd hd (by decide)
    · exact absurd hd (by decide)
    · rw [← hd] at hc
      exact absurd hc (by decide)
  | @special text id hname' hid =>
    refine ⟨fun c hc => hname hname' c ?_, hclose⟩
    have hlt : id.toNat < 4096 := specialId_lt hid
    change c ∈ Sexp.atomChars (encSym id) at hc
    rw [Sexp.atomChars, typeOf_encSym, decSym_encSym (by omega),
      (specialId_iff_specialName text id).mp hid] at hc
    exact hc
  | name hname' hid => exact ⟨hname hname', hclose⟩
  | @string text hchars =>
    refine ⟨fun c hc => ?_, hclose⟩
    rw [Sexp.text, List.mem_append, List.mem_append] at hc
    rcases hc with (hc | hc) | hc
    · obtain rfl := List.mem_singleton.mp hc
      decide
    · exact (hchars c hc).1
    · obtain rfl := List.mem_singleton.mp hc
      decide
  | @pair a d ha hd hlist iha ihd =>
    have hparts : ∀ c ∈ a.text ++ d.restText, c ≠ 0#8 := fun c hc =>
      (List.mem_append.mp hc).elim (iha.1 c) (ihd.2 c)
    refine ⟨fun c hc => ?_, fun c hc => ?_⟩
    · rw [Sexp.text, List.mem_append] at hc
      refine hc.elim (fun hc => ?_) (hparts c)
      obtain rfl := List.mem_singleton.mp hc
      decide
    · rw [Sexp.restText, List.mem_append] at hc
      refine hc.elim (fun hc => ?_) (hparts c)
      obtain rfl := List.mem_singleton.mp hc
      decide

/-- A buffer holds one string. -/
theorem HoldsString.unique {buf : Buffer} {text' : List Byte} (h : HoldsString buf text)
    (h' : HoldsString buf text') (hnul : ∀ c ∈ text, c ≠ 0#8) (hnul' : ∀ c ∈ text', c ≠ 0#8) :
    text = text' := by
  have hlen : ∀ {s t : List Byte}, HoldsString buf s → HoldsString buf t → (∀ c ∈ t, c ≠ 0#8) →
      ¬s.length < t.length := by
    intro s t hs ht hnul hlt
    have hzero := hs.2
    rw [ht.1 _ hlt, List.getD_eq_getElem _ _ hlt] at hzero
    exact hnul _ (List.getElem_mem hlt) hzero
  have h₁ := hlen h h' hnul'
  have h₂ := hlen h' h hnul
  apply List.ext_getElem (by omega)
  intro i hi hi'
  have hi₁ := h.1 i hi
  have hi₂ := h'.1 i hi'
  rw [List.getD_eq_getElem _ _ hi] at hi₁
  rw [List.getD_eq_getElem _ _ hi'] at hi₂
  rw [← hi₁, ← hi₂]

/-- **What was printed is read back.** A value that is a symbol, a number of 28 bits, a character,
a string or a list of these is printed whole if it is not nested too deep and there is room. The
string in the buffer, read in the same state, is a program with one expression, which `struct_eq`
takes for equal to the value. -/
theorem read_printed (formatF : UINT → List Byte) (fo : FloatOps) {n : Nat}
    {w : World n} {v : VALUE}
    (h : Encodes w v e) (he : e.Readable) (hnest : e.nest ≤ 127) {len : Nat}
    (hlen : e.text.length + 5 ≤ len) (buf : Buffer)
    (hmalloc : ∀ k ≤ e.tokenSizes, lib.malloc (k + 1) = true)
    (hfree : e.readCells + 1 ≤ w.free.length) (hroom : w.Room e.readWords) :
    ∃ res buf', printValue formatF w.st.heap w.st.symtab buf len v = some (.whole res buf')
      ∧ HoldsString buf' e.text
      ∧ ∀ string : CString, HoldsString buf' string.chars →
        ∃ (p : VALUE) (w' : World n), tokparParse lib string w.st = some (p, w'.st) ∧ Grown w w'
          ∧ typeOf p = ptrTypeCons ∧ cdr w'.heap p = NIL
          ∧ structEq fo w'.heap (car w'.heap p) v = some true := by
  obtain ⟨res, buf', hprint, hholds⟩ := printValue_readable formatF h he hnest hlen buf
  refine ⟨res, buf', hprint, hholds, fun string hstring => ?_⟩
  have hchars := HoldsString.unique hholds hstring he.noNul.1 string.no_nul
  obtain ⟨T, htrees, hreads⟩ := textTrees_readable lib he hmalloc
  rw [hchars] at htrees
  have hcells : textCells lib string.chars = e.readCells + 1 := by
    rw [textCells, htrees, Trees.programCells, hreads.cells]
    rfl
  have hwords : textWords lib string.chars = e.readWords := by
    rw [textWords, htrees, Trees.words, hreads.words]
    rfl
  have hsexp : textSexp lib string.chars = .pair e .nil := by
    rw [textSexp, htrees, Trees.program, hreads.sexp]
    rfl
  obtain ⟨p, w', hparse, henc, hsp⟩ := tokparParse_builds lib (w := w) (m := 0) string
    (by rw [hcells]; exact hfree) (by rw [hwords]; exact hroom)
  rw [hsexp] at henc
  obtain ⟨hp, -, hcar, hcdr⟩ := henc.pair_inv
  refine ⟨p, w', hparse, hsp.grown, hp.typeOf, ?_, ?_⟩
  · exact hcdr.eq_nil
  · exact structEq_encodes he hcar (h.grown hsp.grown)

def nestedText : CString := ⟨cstring "(a \"b\" (1))", by decide, by decide⟩

/-- The expression of `nestedText`. -/
def nestedSexp : Sexp :=
  .list [.name (cstring "a"), .string (cstring "b"), .list [.atom (encI 1#32)]]

theorem readable_nestedSexp : nestedSexp.Readable := by
  have hnil : Sexp.Readable .nil :=
    @Sexp.Readable.special (cstring "nil") symreprNil ⟨by decide, by decide, by decide⟩ (by decide)
  have hone : Sexp.Readable (.list [.atom (encI 1#32)]) := .pair (.int (by decide)) hnil (.inr rfl)
  have hstring : Sexp.Readable (.string (cstring "b")) := .string (by decide)
  have hname : Sexp.Readable (.name (cstring "a")) :=
    .name ⟨by decide, by decide, by decide⟩ (by decide)
  exact .pair hname (.pair hstring (.pair hone hnil (.inr rfl)) (.inl rfl)) (.inl rfl)

/-- A list is read after the start, printed and read again. -/
theorem read_printed_nestedText :
    ∃ (p : VALUE) (w : World 32),
      tokparParse plainLibc nestedText (startState (List.replicate 24 ⟨0#32, 0#32⟩)
          ⟨[0#32, 0#32], List.replicate 32 0#32, 32#32, 2#32, 0x20000000#32⟩) = some (p, w.st)
      ∧ ∃ res buf', printValue (fun _ => []) w.st.heap w.st.symtab (fun _ => 0#8) 32
          (car w.st.heap p)
          = some (.whole res buf')
        ∧ HoldsString buf' nestedSexp.text
        ∧ ∀ string : CString, HoldsString buf' string.chars →
          ∃ (p' : VALUE) (w' : World 32), tokparParse plainLibc string w.st = some (p', w'.st)
            ∧ Grown w w' ∧ typeOf p' = ptrTypeCons ∧ cdr w'.heap p' = NIL
            ∧ structEq noFloats w'.heap (car w'.heap p') (car w.st.heap p) = some true := by
  have hstart : Start 0x20000000#32 128#32 0x20000080#32 8#32 (List.replicate 32 0#32)
      (List.replicate 24 ⟨0#32, 0#32⟩)
      ⟨[0#32, 0#32], List.replicate 32 0#32, 32#32, 2#32, 0x20000000#32⟩ :=
    ⟨rfl, by decide, by decide, by decide, by decide, by decide, by decide⟩
  obtain ⟨w₀, hst, hlen, -, hroom⟩ := hstart.world
  have hneeds : textCells plainLibc nestedText.chars = 6 ∧ textWords plainLibc nestedText.chars = 8
      ∧ textSexp plainLibc nestedText.chars = .list [nestedSexp] := by
    set_option maxRecDepth 20000 in decide
  obtain ⟨hcells, hwords, hsexp⟩ := hneeds
  rw [List.length_replicate] at hlen
  obtain ⟨p, w, hparse, henc, hsp⟩ := tokparParse_builds plainLibc (w := w₀) (m := 8) nestedText
    (by rw [hcells, hlen]; decide) (by rw [hwords]; exact hroom.mono (by decide))
  rw [hsexp] at henc
  rw [hst] at hparse
  have hfree := hsp.length_free
  rw [hcells, hlen] at hfree
  refine ⟨p, w, hparse, ?_⟩
  exact read_printed plainLibc (fun _ => []) noFloats henc.pair_inv.2.2.1 readable_nestedSexp
    (by decide) (by decide) (fun _ => 0#8) (fun _ _ => rfl) (by rw [hfree]; decide)
    (hsp.room.mono (by decide))

end Tokpar

end LispBM
