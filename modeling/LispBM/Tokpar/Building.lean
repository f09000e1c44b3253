import LispBM.QqExpand.Expansion
import LispBM.Tokpar.Construction
import LispBM.Tokpar.Reading

/-!
# LispBM — what the reader builds

The tokens of a text are a tree, and the tree stands for an expression that does not depend on the
heap: `Trees.program`. The reader builds this expression in cells from the free list, enters the
names that are new, and leaves what was there before alone.

* `expandDepth_encodes` — the expansion of a backquoted expression;
* `build_makes`, `buildProgram_makes` — a tree is built in as many cells as it counts;
* `tokparParse_builds` — every text is read, and its expression is built.
-/

namespace LispBM

namespace Tokpar

open BitBuffer (Byte)
open Compression (CString)

/-! ## Expressions of lists -/

namespace Sexp

/-- The expression that `car` finds in a list. -/
def head : Sexp → Sexp
  | pair a _ => a
  | _ => nil

/-- In every pair the cdr is a pair or nil. -/
def Proper : Sexp → Prop
  | pair a d => a.Proper ∧ d.Proper ∧ (d.isPair = true ∨ d = nil)
  | _ => True

/-- The code of an expression; an element of a list is a call of `list`. -/
def inPlace (e : Sexp) : Position → Sexp
  | .expression => e
  | .element => list [sym symList, e]

/-- The code for an expression that is not a pair. -/
def quoted (e : Sexp) : Position → Sexp
  | .expression => list [sym symreprQuote, e]
  | .element => list [sym symreprQuote, list [e]]

/-- The code for what is spliced in, where `d` is the list after the mark. -/
def spliced (d : Sexp) : Position → Sexp
  | .expression => rerror
  | .element => d.head

/-- What a backquoted expression expands to. -/
def expand : Sexp → Position → Sexp
  | pair a d, p =>
      if a = sym symreprComma then d.head.inPlace p
      else if a = sym symreprCommaat then d.spliced p
      else (list [sym symAppend, a.expand .element, d.expand .expression]).inPlace p
  | e, p => e.quoted p

/-- The cells of a call of `list` around code. -/
def placeCells : Position → Nat
  | .expression => 0
  | .element => 2

def quotedCells : Position → Nat
  | .expression => 2
  | .element => 3

/-- The cells that the expansion takes. -/
def expandCells : Sexp → Position → Nat
  | pair a d, p =>
      if a = sym symreprComma then placeCells p
      else if a = sym symreprCommaat then 0
      else a.expandCells .element + d.expandCells .expression + 3 + placeCells p
  | _, p => quotedCells p

theorem expand_leaf {e : Sexp} (h : e.isPair = false) (p : Position) :
    e.expand p = e.quoted p ∧ e.expandCells p = quotedCells p := by
  cases e with
  | pair a d => exact absurd h (by simp [isPair])
  | _ => exact ⟨rfl, rfl⟩

end Sexp

section Expand

variable {n : Nat} {w w' : World n} {v : VALUE} {e a d : Sexp} {p : Position} {m : Nat}

theorem Sexp.Proper.head (h : e.Proper) : e.head.Proper := by
  cases e with
  | pair a d => exact h.1
  | _ => trivial

theorem Sexp.Proper.inPlace (h : e.Proper) : (e.inPlace p).Proper := by
  cases p with
  | expression => exact h
  | element => exact ⟨trivial, ⟨h, trivial, .inr rfl⟩, .inl rfl⟩

theorem Sexp.expand_proper : ∀ {e : Sexp} {p : Position}, e.Proper → (e.expand p).Proper := by
  -- the code for an atom is a list of two elements
  have hleaf : ∀ {e : Sexp}, e.Proper → (list [sym symreprQuote, e]).Proper := fun he =>
    ⟨trivial, ⟨he, trivial, .inr rfl⟩, .inl rfl⟩
  have hquote : ∀ {e : Sexp} {p : Position}, e.isPair = false → e.Proper → (e.expand p).Proper := by
    intro e p hp he
    rw [(expand_leaf hp p).1]
    cases p with
    | expression => exact hleaf he
    | element => exact hleaf ⟨he, trivial, .inr rfl⟩
  intro e
  induction e with
  | pair a d iha ihd =>
    intro p h
    rw [expand]
    split
    · exact h.2.1.head.inPlace
    split
    · cases p with
      | expression => trivial
      | element => exact h.2.1.head
    · apply Sexp.Proper.inPlace
      exact ⟨trivial, ⟨iha h.1, ⟨ihd h.2.1, trivial, .inr rfl⟩, .inl rfl⟩, .inl rfl⟩
  | _ => exact fun h => hquote rfl h

theorem Encodes.eq_nil (h : Encodes w v .nil) : v = NIL := by
  cases h with
  | atom _ => rfl

/-- `car` of a list. -/
theorem Encodes.head (h : Encodes w v e) (hlist : e.isPair = true ∨ e = .nil) :
    Encodes w (car w.st.heap v) e.head := by
  obtain hp | rfl := hlist
  · cases e with
    | pair a d => exact h.pair_inv.2.2.1
    | _ => exact absurd hp (by simp [Sexp.isPair])
  · rw [h.eq_nil]
    exact encodes_nil

/-- A value for an expression was made without the symbol table. -/
structure MakesCode (w : World n) (x : VALUE × HeapState) (e : Sexp) (cells m : Nat)
    (w' : World n) :
    Prop where
  heap : w'.st.heap = x.2
  symtab : w'.st.symtab = w.st.symtab
  encodes : Encodes w' x.1 e
  spends : Spends w w' cells m

theorem MakesCode.refl (h : Encodes w v e) (hroom : w.Room m) :
    MakesCode w (v, w.st.heap) e 0 m w := ⟨rfl, rfl, h, .refl hroom⟩

theorem exists_makesCode_two (hfree : 2 ≤ w.free.length) (hroom : w.Room m) {u : VALUE}
    (ha : Encodes w v a) (hd : Encodes w u d) :
    ∃ w', MakesCode w (consTwo v u w.st.heap) (.list [a, d]) 2 m w' := by
  obtain ⟨r, w', hcons, hsym, henc, hsp⟩ := w.consTwo_encodes hfree hroom ha hd
  rw [hcons]
  exact ⟨w', rfl, hsym, henc, hsp⟩

theorem exists_makesCode_quote (hfree : (e.expandCells p) ≤ w.free.length) (hroom : w.Room m)
    (he : e.isPair = false) (h : Encodes w v e) :
    ∃ w', MakesCode w (quoteCode v w.st.heap p) (e.expand p) (e.expandCells p) m w' := by
  have hquote : ∀ w : World n, Encodes w (encSym symreprQuote) (.sym symreprQuote) := fun _ =>
    encodes_sym (by decide)
  rw [(Sexp.expand_leaf he p).1, (Sexp.expand_leaf he p).2] at *
  cases p with
  | expression =>
    exact exists_makesCode_two hfree hroom (hquote w) h
  | element =>
    rw [Sexp.quotedCells] at hfree
    obtain ⟨r, w₁, hcons, hsym₁, henc₁, hsp₁⟩ := w.cons_encodes (by omega) hroom h encodes_nil
    have hfree₁ := hsp₁.length_free
    obtain ⟨w₂, h₂⟩ := exists_makesCode_two (by omega) hsp₁.room (hquote w₁) henc₁
    rw [quoteCode, hcons]
    exact ⟨w₂, h₂.heap, h₂.symtab.trans hsym₁, h₂.encodes, hsp₁.trans h₂.spends⟩

/-- Code is put in its place. -/
theorem MakesCode.inPlace {x : VALUE × HeapState} {c : Nat} (h : MakesCode w x e c m w')
    (hfree : c + Sexp.placeCells p ≤ w.free.length) :
    ∃ w', MakesCode w (wrapCode p x) (e.inPlace p) (c + Sexp.placeCells p) m w' := by
  cases p with
  | expression => exact ⟨w', h⟩
  | element =>
    have hfree' := h.spends.length_free
    rw [Sexp.placeCells] at hfree
    obtain ⟨w₂, h₂⟩ := exists_makesCode_two (by omega) h.spends.room
      (encodes_sym (s := symList) (by decide)) h.encodes
    rw [h.heap] at h₂
    exact ⟨w₂, h₂.heap, h₂.symtab.trans h.symtab, h₂.encodes, h.spends.trans h₂.spends⟩

/-- The call of `append` for the codes of the parts. -/
theorem exists_makesCode_append (hfree : 3 ≤ w.free.length) (hroom : w.Room m) {u : VALUE}
    (ha : Encodes w v a) (hd : Encodes w u d) :
    ∃ w', MakesCode w (genAppend v u w.st.heap) (.list [.sym symAppend, a, d]) 3 m w' := by
  obtain ⟨w₁, h₁⟩ := exists_makesCode_two (by omega) hroom ha hd
  have hfree₁ := h₁.spends.length_free
  obtain ⟨r, w₂, hcons, hsym₂, henc₂, hsp₂⟩ := w₁.cons_encodes (by omega) h₁.spends.room
    (encodes_sym (s := symAppend) (by decide)) h₁.encodes
  rw [h₁.heap] at hcons
  refine ⟨w₂, ?_⟩
  show MakesCode w (LispBM.cons (encSym symAppend) (consTwo v u w.st.heap).1
    (consTwo v u w.st.heap).2) _ 3 m w₂
  rw [hcons]
  exact ⟨rfl, hsym₂.trans h₁.symtab, henc₂, h₁.spends.trans hsp₂⟩

/-- **The expansion of an expression.** The induction is on the expression, whose parts are expanded
one after the other. -/
theorem expandDepth_encodes : ∀ {e : Sexp} {p : Position} {k : Nat} {v : VALUE} {w : World n},
    e.depth < k → e.Proper → Encodes w v e → e.expandCells p ≤ w.free.length → w.Room m →
    ∃ x w', expandDepth p k v w.st.heap = some x
      ∧ MakesCode w x (e.expand p) (e.expandCells p) m w' := by
  intro e
  induction e with
  | pair a d iha ihd =>
    intro p k v w hdepth hproper h hfree hroom
    obtain ⟨k, rfl⟩ := Nat.exists_eq_succ_of_ne_zero (Nat.ne_of_gt (Nat.zero_lt_of_lt hdepth))
    have hmax : max a.depth d.depth < k := Nat.lt_of_succ_lt_succ hdepth
    obtain ⟨hp, -, ha, hd⟩ := h.pair_inv
    have hty : typeOf v = ptrTypeCons := hp.typeOf
    have hcomma := ha.isSymbolOf_eq (s := symreprComma) (by decide)
    have hcommaat := ha.isSymbolOf_eq (s := symreprCommaat) (by decide)
    have hhead := hd.head hproper.2.2
    by_cases h₁ : a = .sym symreprComma
    · rw [decide_eq_true h₁] at hcomma
      rw [Sexp.expandCells, if_pos h₁] at hfree ⊢
      rw [Sexp.expand, if_pos h₁]
      obtain ⟨w', hmake⟩ := (MakesCode.refl hhead hroom).inPlace (p := p) (by omega)
      rw [Nat.zero_add] at hmake
      exact ⟨_, w', expandDepth_comma hty hcomma, hmake⟩
    rw [decide_eq_false h₁] at hcomma
    by_cases h₂ : a = .sym symreprCommaat
    · rw [decide_eq_true h₂] at hcommaat
      rw [Sexp.expandCells, if_neg h₁, if_pos h₂]
      rw [Sexp.expand, if_neg h₁, if_pos h₂]
      refine ⟨_, w, expandDepth_commaat hty hcomma hcommaat, ?_⟩
      cases p with
      | expression => exact .refl encodes_rerror hroom
      | element => exact .refl hhead hroom
    · rw [decide_eq_false h₂] at hcommaat
      rw [Sexp.expandCells, if_neg h₁, if_neg h₂] at hfree ⊢
      rw [Sexp.expand, if_neg h₁, if_neg h₂]
      obtain ⟨x, w₁, hx, hmake₁⟩ := iha (p := .element) (k := k) (by omega) hproper.1 ha (by omega)
        hroom
      have hfree₁ := hmake₁.spends.length_free
      obtain ⟨y, w₂, hy, hmake₂⟩ := ihd (p := .expression) (k := k) (by omega) hproper.2.1
        (hd.grown hmake₁.spends.grown) (by omega) hmake₁.spends.room
      have hfree₂ := hmake₂.spends.length_free
      -- the code for the car is still there
      obtain ⟨w₃, hmake₃⟩ := exists_makesCode_append (by omega) hmake₂.spends.room
        (hmake₁.encodes.grown hmake₂.spends.grown) hmake₂.encodes
      rw [hmake₂.heap] at hmake₃
      have hcall : MakesCode w (genAppend x.1 y.1 y.2) _ _ m w₃ :=
        ⟨hmake₃.heap, hmake₃.symtab.trans (hmake₂.symtab.trans hmake₁.symtab), hmake₃.encodes,
          (hmake₁.spends.trans hmake₂.spends).trans hmake₃.spends⟩
      obtain ⟨w₄, hmake₄⟩ := hcall.inPlace hfree
      refine ⟨_, w₄, ?_, hmake₄⟩
      have hpair := @expandDepth_pair w.st.heap v p k hty hcomma hcommaat
      have hy' : expandDepth .expression k (cdr w.st.heap v) x.2 = some y := by
        rw [← hmake₁.heap]
        exact hy
      rw [hpair, show expandDepth .element k (car w.st.heap v) w.st.heap = some x from hx]
      show (expandDepth .expression k (cdr w.st.heap v) x.2).bind _ = _
      rw [hy']
      rfl
  | _ =>
    intro p k v w hdepth hproper h hfree hroom
    obtain ⟨k, rfl⟩ := Nat.exists_eq_succ_of_ne_zero (Nat.ne_of_gt hdepth)
    obtain ⟨w', hmake⟩ := exists_makesCode_quote hfree hroom rfl h
    exact ⟨_, w', expandDepth_leaf h.typeOf_eq_cons, hmake⟩

end Expand

/-! ## The expression of a tree -/

/-- The expression of an atom. -/
def Token.sexp : Token → Sexp
  | .symbol text => nameSexp text
  | .int i => .atom (encI i)
  | .uint u => .atom (encU u)
  | .boxedInt i => .boxed .int i
  | .boxedUint u => .boxed .uint u
  | .boxedFloat f => .boxed .float f
  | .string text => .string text
  | .char c => .atom (encChar c)
  | _ => .rerror

/-- The expression of a mark and the expression `e` behind it. -/
def Token.mark (t : Token) (e : Sexp) : Sexp :=
  if e = .rerror then .rerror
  else
    match t with
    | .quote => .list [.sym symreprQuote, e]
    | .backquote => e.expand .expression
    | .comma => .list [.sym symreprComma, e]
    | .commaat => .list [.sym symreprCommaat, e]
    | _ => e

/-- A pair, unless there is an error in it. -/
def Sexp.item (head tail : Sexp) : Sexp :=
  if head = .rerror ∨ tail = .rerror then .rerror else .pair head tail

/-- The end of a list: nil after a parenthesis, or an error. -/
def Token.closing : Token → Sexp
  | .closepar => .nil
  | _ => .rerror

/-- The end of a program: nil at the end of the text, or an error. -/
def Token.ending : Token → Sexp
  | .eof => .nil
  | _ => .rerror

mutual

def Tree.sexp : Tree → Sexp
  | .atom t => t.sexp
  | .list es => es.sexp
  | .marked t e => t.mark e.sexp

def Trees.sexp : Trees → Sexp
  | .ends t => t.closing
  | .item head tail => head.sexp.item tail.sexp

end

/-- The list of the expressions of a program. An error in one of them is an element. -/
def Trees.program : Trees → Sexp
  | .ends t => t.ending
  | .item head tail => .pair head.sexp tail.program

/-! ### What it takes -/

def Token.cells : Token → Nat
  | .boxedInt _ => 1
  | .boxedUint _ => 1
  | .boxedFloat _ => 1
  | .string _ => 1
  | _ => 0

/-- The words of memory for a token, if a name is new. -/
def Token.words : Token → Nat
  | .symbol text => nameWords text
  | .string text => stringWords text
  | _ => 0

def Token.markCells (t : Token) (e : Sexp) : Nat :=
  if e = .rerror then 0
  else
    match t with
    | .backquote => e.expandCells .expression
    | _ => 2

mutual

def Tree.cells : Tree → Nat
  | .atom t => t.cells
  | .list es => es.cells
  | .marked t e => e.cells + t.markCells e.sexp

def Trees.cells : Trees → Nat
  | .ends _ => 0
  | .item head tail =>
      head.cells + tail.cells + if head.sexp = .rerror ∨ tail.sexp = .rerror then 0 else 1

end

mutual

def Tree.words : Tree → Nat
  | .atom t => t.words
  | .list es => es.words
  | .marked _ e => e.words

def Trees.words : Trees → Nat
  | .ends _ => 0
  | .item head tail => head.words + tail.words

end

/-- The cells of a program: those of its expressions and one for each. -/
def Trees.programCells : Trees → Nat
  | .ends _ => 0
  | .item head tail => head.cells + tail.programCells + 1

/-! ### The trees of a text -/

/-- Names and strings are texts, and a name is not empty. -/
def Token.Clean : Token → Prop
  | .symbol text => text ≠ [] ∧ ∀ c ∈ text, c ≠ 0#8
  | .string text => ∀ c ∈ text, c ≠ 0#8
  | _ => True

mutual

/-- The tokens of the tree are where the parser takes them. -/
def Tree.Ok : Tree → Prop
  | .atom t => (∃ f, t.shape = .value f) ∧ t.Clean
  | .list es => es.Ok
  | .marked t e => (∃ f, t.shape = .form f) ∧ e.Ok

def Trees.Ok : Trees → Prop
  | .ends t => t.endsList.isSome = true
  | .item head tail => head.Ok ∧ tail.Ok

end

def Trees.OkProgram : Trees → Prop
  | .ends t => t.endsProgram.isSome = true
  | .item head tail => head.Ok ∧ tail.OkProgram

section Lexer

variable (lib : Libc) {s s' : List Byte} {t : Token}

theorem ne_zero_of_symchar {c : Byte} (h : symchar c = true) : tolower c ≠ 0#8 := by
  revert c
  decide

theorem ne_zero_of_inString {c : Byte} (h : inString c = true) : c ≠ 0#8 := by
  rintro rfl
  exact absurd h (by decide)

theorem clean_lexFixed {text : String} {u : Token} (h : lexFixed text u s = (some t, s'))
    (hu : u.Clean) : t.Clean := by
  unfold lexFixed at h
  split at h
  · cases h
    exact hu
  · cases h

theorem clean_lexSuffixed {suffix : String} {u : UINT → Token}
    (h : lexSuffixed suffix u s = (some t, s')) (hu : ∀ x, (u x).Clean) : t.Clean := by
  unfold lexSuffixed at h
  simp only at h
  split at h
  · cases h
    exact hu _
  · cases h

/-- A name is made of the characters of names, and begins with one. -/
theorem clean_lexSymbol (h : lexSymbol lib s = (some t, s')) : t.Clean := by
  unfold lexSymbol at h
  split at h
  · cases h
  next hfirst =>
  simp only at h
  split at h
  · cases h
    trivial
  cases h
  refine ⟨?_, fun c hc => ?_⟩
  · cases s with
    | nil => exact absurd hfirst (by decide)
    | cons c cs =>
      have hc : symchar c = true := by
        rw [symchar, Bool.or_eq_true]
        exact .inl (by simpa [first] using hfirst)
      rw [List.takeWhile_cons_of_pos hc]
      exact List.cons_ne_nil _ _
  · obtain ⟨d, hd, rfl⟩ := List.mem_map.mp hc
    exact ne_zero_of_symchar (List.mem_takeWhile_imp hd)

theorem clean_lexChar (h : lexChar s = (some t, s')) : t.Clean := by
  unfold lexChar at h
  split at h
  · cases h
    trivial
  split at h
  · cases h
    trivial
  · cases h

theorem clean_lexString (h : lexString lib s = (some t, s')) : t.Clean := by
  unfold lexString at h
  split at h
  · cases h
  simp only at h
  split at h
  · cases h
  split at h
  · cases h
    trivial
  · cases h
    exact fun c hc => ne_zero_of_inString (List.mem_takeWhile_imp hc)

theorem clean_lexF (h : lexF lib s = (some t, s')) : t.Clean := by
  unfold lexF at h
  split at h
  · cases h
  · cases h
    trivial

theorem clean_lexU (h : lexU s = (some t, s')) : t.Clean := by
  unfold lexU at h
  split at h
  · cases h
    trivial
  · exact clean_lexSuffixed h fun _ => trivial

theorem clean_lexi (h : lexi s = (some t, s')) : t.Clean := by
  unfold lexi at h
  simp only at h
  split at h
  · cases h
  split at h
  · cases h
  · cases h
    trivial

/-- The texts of tokens have no NUL, which ends them in the source. -/
theorem clean_lexers : ∀ f ∈ lexers lib, ∀ {s s' t}, f s = (some t, s') → t.Clean := by
  intro f hf s s' t h
  simp only [lexers, List.mem_cons, List.not_mem_nil, or_false] at hf
  rcases hf with rfl | rfl | rfl | rfl | rfl | rfl | rfl | rfl | rfl | rfl | rfl | rfl | rfl | rfl
  · exact clean_lexFixed h trivial
  · exact clean_lexFixed h trivial
  · exact clean_lexFixed h trivial
  · exact clean_lexFixed h trivial
  · exact clean_lexFixed h trivial
  · exact clean_lexFixed h trivial
  · exact clean_lexSymbol lib h
  · exact clean_lexChar h
  · exact clean_lexString lib h
  · exact clean_lexF lib h
  · exact clean_lexU h
  · exact clean_lexSuffixed h fun _ => trivial
  · exact clean_lexSuffixed h fun _ => trivial
  · exact clean_lexi h

theorem clean_lexFirst : ∀ {fs : List (List Byte → Option Token × List Byte)},
    (∀ f ∈ fs, ∀ {s s' t}, f s = (some t, s') → t.Clean) → ∀ s, (lexFirst fs s).1.Clean := by
  intro fs
  induction fs with
  | nil => exact fun _ _ => trivial
  | cons f fs ih =>
    intro hfs s
    rw [lexFirst]
    rcases heq : f s with ⟨_ | t, s'⟩
    · exact ih (fun f hf => hfs f (List.mem_cons_of_mem _ hf)) s'
    · exact hfs f List.mem_cons_self heq

theorem clean_lex (s : List Byte) : (lex lib s).1.Clean := by
  unfold lex
  split
  · trivial
  · exact clean_lexFirst (clean_lexers lib) _

/-- The trees that are read from a text are in order. -/
theorem treeSexp_ok : ∀ k,
    (∀ {t s e s'}, t.Clean → treeSexp (lexNext lib) k t s = some (e, s') → e.Ok)
    ∧ (∀ {t s e s'}, t.Clean → treeSexpList (lexNext lib) k t s = some (e, s') → e.Ok) := by
  intro k
  induction k with
  | zero =>
    exact ⟨fun _ h => absurd h (by simp [treeSexp]), fun _ h => absurd h (by simp [treeSexpList])⟩
  | succ k ih =>
    obtain ⟨hsexp, hlist⟩ := ih
    refine ⟨fun {t s e s'} ht h => ?_, fun {t s e s'} ht h => ?_⟩
    · rw [treeSexp] at h
      cases hshape : t.shape with
      | value f =>
        rw [hshape] at h
        cases h
        exact ⟨⟨f, hshape⟩, ht⟩
      | list =>
        simp only [hshape, lexNext, Option.bind_some] at h
        obtain ⟨⟨es, s₁⟩, hes, h⟩ := Option.map_eq_some_iff.mp h
        cases h
        exact hlist (clean_lex lib s) hes
      | form f =>
        simp only [hshape, lexNext, Option.bind_some] at h
        obtain ⟨⟨e₁, s₁⟩, he, h⟩ := Option.map_eq_some_iff.mp h
        cases h
        exact ⟨⟨f, hshape⟩, hsexp (clean_lex lib s) he⟩
    · rw [treeSexpList] at h
      cases hends : t.endsList with
      | some v =>
        rw [hends] at h
        cases h
        show t.endsList.isSome = true
        rw [hends]
        rfl
      | none =>
        simp only [hends, lexNext, Option.bind_some] at h
        obtain ⟨⟨head, s₁⟩, hhead, h⟩ := Option.bind_eq_some_iff.mp h
        obtain ⟨⟨tail, s₂⟩, htail, h⟩ := Option.map_eq_some_iff.mp h
        cases h
        exact ⟨hsexp ht hhead, hlist (clean_lex lib s₁) htail⟩

theorem treeProgram_ok {a : Nat} : ∀ {k : Nat} {s s' : List Byte} {es : Trees},
    treeProgram (lexNext lib) a k s = some (es, s') → es.OkProgram := by
  intro k
  induction k with
  | zero => exact fun h => absurd h (by simp [treeProgram])
  | succ k ih =>
    intro s s' es h
    rw [treeProgram, lexNext, Option.bind_some] at h
    cases hends : (lex lib s).1.endsProgram with
    | some v =>
      simp only [hends] at h
      cases h
      show (lex lib s).1.endsProgram.isSome = true
      rw [hends]
      rfl
    | none =>
      simp only [hends] at h
      obtain ⟨⟨head, s₁⟩, hhead, h⟩ := Option.bind_eq_some_iff.mp h
      obtain ⟨⟨tail, s₂⟩, htail, h⟩ := Option.map_eq_some_iff.mp h
      cases h
      exact ⟨(treeSexp_ok lib a).1 (clean_lex lib s) hhead, ih htail⟩

end Lexer

/-! ## Building -/

section Build

variable {n : Nat} {w w' w'' : World n} {v : VALUE} {e : Sexp} {t : Token} {m : Nat}

theorem immediate_of_shift {x : UINT} {ty : TYPE} (ht : ty &&& valTypeMask = ty)
    (htag : ty &&& 3#32 = 0#32) (hne : ty ≠ valTypeSymbol) : Immediate (x <<< 4 ||| ty) where
  notPtr := isPtr_shift x ht
  unmarked := (wfValue_of_immediate (fun _ => none) (immediate_shift x ty htag)).unmarked
  special := fun h => absurd ((typeOf_shift x ht).symm.trans h) hne

/-- **An atom** is the value of its token. -/
theorem atomValue_makes (hshape : ∃ f, t.shape = .value f) (ht : t.Clean)
    (hfree : t.cells ≤ w.free.length) (hroom : w.Room (t.words + m)) :
    Makes w (t.atomValue w.st) t.sexp t.cells m := by
  have hkeep : Spends w w 0 m := .refl (hroom.mono (Nat.le_add_left _ _))
  have herror : Makes w (some (encSym symreprRerror, w.st)) .rerror 0 m :=
    ⟨_, w, rfl, encodes_rerror, hkeep⟩
  cases t with
  | symbol text => exact parseSymbol_encodes w ht.1 ht.2 hroom
  | string text => exact parseString_encodes w hfree ht hroom
  | boxedInt x => exact parseBoxed_encodes w hfree hkeep.room .int x
  | boxedUint x => exact parseBoxed_encodes w hfree hkeep.room .uint x
  | boxedFloat x => exact parseBoxed_encodes w hfree hkeep.room .float x
  | int x =>
    exact ⟨_, w, rfl, .atom (immediate_of_shift (by decide) (by decide) (by decide)), hkeep⟩
  | uint x =>
    exact ⟨_, w, rfl, .atom (immediate_of_shift (by decide) (by decide) (by decide)), hkeep⟩
  | char c =>
    exact ⟨_, w, rfl, .atom (immediate_of_shift (by decide) (by decide) (by decide)), hkeep⟩
  | closepar => exact herror
  | error => exact herror
  | eof => exact herror
  | _ =>
    obtain ⟨f, hf⟩ := hshape
    exact absurd hf (by simp [Token.shape])

/-- The parser knows its error. -/
theorem Encodes.rerror_iff (h : Encodes w v e) :
    isSymbolOf symreprRerror v = true ↔ e = .rerror := by
  rw [h.isSymbolOf_eq (by decide), decide_eq_true_iff]
  rfl

/-- A quote or a comma is a list of two elements. -/
theorem wrap_makes {s : UINT} (hs : s < maxSpecialSymbols) (h : Encodes w v e) (hroom : w.Room m)
    (hfree : (if e = .rerror then 0 else 2) ≤ w.free.length) :
    Makes w (some (wrap s v w.st)) (if e = .rerror then .rerror else .list [.sym s, e])
      (if e = .rerror then 0 else 2) m := by
  unfold wrap
  by_cases he : e = .rerror
  · rw [if_pos he, if_pos he, if_pos (h.rerror_iff.mpr he)]
    exact ⟨v, w, rfl, he ▸ h, .refl hroom⟩
  · rw [if_neg he] at hfree
    rw [if_neg he, if_neg he, if_neg fun herror => he (h.rerror_iff.mp herror)]
    obtain ⟨r, w', hcons, hsym, henc, hsp⟩ := w.consTwo_encodes hfree hroom (encodes_sym hs) h
    exact ⟨r, w', congrArg some (alloc_eq hcons hsym), henc, hsp⟩

theorem wrapBackquote_makes (h : Encodes w v e) (hproper : e.Proper) (hroom : w.Room m)
    (hfree : Token.markCells .backquote e ≤ w.free.length) :
    Makes w (wrapBackquote v w.st) (Token.mark .backquote e) (Token.markCells .backquote e) m := by
  unfold wrapBackquote Token.mark
  rw [Token.markCells] at hfree ⊢
  by_cases he : e = .rerror
  · rw [if_pos he, if_pos he, if_pos (h.rerror_iff.mpr he)]
    exact ⟨v, w, rfl, he ▸ h, .refl hroom⟩
  · rw [if_neg he] at hfree
    rw [if_neg he, if_neg he, if_neg fun herror => he (h.rerror_iff.mp herror)]
    obtain ⟨x, w', hexpand, hmake⟩ :=
      expandDepth_encodes (p := .expression) h.depth_lt_walkFuel hproper h hfree hroom
    have heq : qqExpand v w.st.heap = some x := hexpand
    refine ⟨x.1, w', ?_, hmake.encodes, hmake.spends⟩
    rw [heq]
    show some (x.1, ReaderState.mk x.2 w.st.symtab) = _
    rw [← hmake.heap, ← hmake.symtab]

/-- **A mark** makes an expression of the one behind it. -/
theorem markValue_makes (hshape : ∃ f, t.shape = .form f) (h : Encodes w v e) (hproper : e.Proper)
    (hfree : t.markCells e ≤ w.free.length) (hroom : w.Room m) :
    Makes w (t.markValue v w.st) (t.mark e) (t.markCells e) m := by
  cases t with
  | quote => exact wrap_makes (by decide) h hroom hfree
  | comma => exact wrap_makes (by decide) h hroom hfree
  | commaat => exact wrap_makes (by decide) h hroom hfree
  | backquote => exact wrapBackquote_makes h hproper hroom hfree
  | _ =>
    obtain ⟨f, hf⟩ := hshape
    exact absurd hf (by simp [Token.shape])

/-- A cell of a list. -/
theorem consUnlessError_makes {a d : VALUE} {ea ed : Sexp} (ha : Encodes w a ea)
    (hd : Encodes w d ed) (hroom : w.Room m)
    (hfree : (if ea = .rerror ∨ ed = .rerror then 0 else 1) ≤ w.free.length) :
    Makes w (some (consUnlessError a d w.st)) (ea.item ed)
      (if ea = .rerror ∨ ed = .rerror then 0 else 1) m := by
  have hiff : (isSymbolOf symreprRerror a || isSymbolOf symreprRerror d) = true
      ↔ ea = .rerror ∨ ed = .rerror := by
    rw [Bool.or_eq_true, ha.rerror_iff, hd.rerror_iff]
  unfold consUnlessError Sexp.item
  by_cases he : ea = .rerror ∨ ed = .rerror
  · rw [if_pos he, if_pos he, if_pos (hiff.mpr he)]
    exact ⟨_, w, rfl, encodes_rerror, .refl hroom⟩
  · rw [if_neg he] at hfree
    rw [if_neg he, if_neg he, if_neg fun h => he (hiff.mp h)]
    obtain ⟨r, w', hcons, hsym, henc, hsp⟩ := w.cons_encodes hfree hroom ha hd
    exact ⟨r, w', congrArg some (alloc_eq hcons hsym), henc, hsp⟩

/-! ### The expressions that are read are lists -/

theorem Sexp.proper_of_not_pair (h : e.isPair = false) : e.Proper := by
  cases e with
  | pair a d => exact absurd h (by simp [Sexp.isPair])
  | _ => trivial

theorem Token.sexp_proper (t : Token) : t.sexp.Proper := by
  apply Sexp.proper_of_not_pair
  cases t with
  | symbol text =>
    show (nameSexp text).isPair = false
    unfold nameSexp
    cases specialId text <;> rfl
  | _ => rfl

theorem Token.mark_proper (t : Token) (h : e.Proper) : (t.mark e).Proper := by
  have hwrap : ∀ s, (Sexp.list [.sym s, e]).Proper := fun _ =>
    ⟨trivial, ⟨h, trivial, .inr rfl⟩, .inl rfl⟩
  unfold Token.mark
  split
  · trivial
  cases t with
  | quote => exact hwrap _
  | comma => exact hwrap _
  | commaat => exact hwrap _
  | backquote => exact Sexp.expand_proper h
  | _ => exact h

/-- A list is a pair, nil or an error. -/
theorem Trees.sexp_cases : ∀ es : Trees, es.sexp.isPair = true ∨ es.sexp = .nil
    ∨ es.sexp = .rerror := by
  intro es
  cases es with
  | ends t =>
    show t.closing.isPair = true ∨ t.closing = .nil ∨ t.closing = .rerror
    cases t with
    | closepar => exact .inr (.inl rfl)
    | _ => exact .inr (.inr rfl)
  | item head tail =>
    rw [Trees.sexp, Sexp.item]
    split
    · exact .inr (.inr rfl)
    · exact .inl rfl

mutual

theorem Tree.sexp_proper : ∀ e : Tree, e.sexp.Proper
  | .atom t => t.sexp_proper
  | .list es => es.sexp_proper
  | .marked t e => t.mark_proper e.sexp_proper

theorem Trees.sexp_proper : ∀ es : Trees, es.sexp.Proper
  | .ends t => by
    show t.closing.Proper
    cases t <;> trivial
  | .item head tail => by
    rw [Trees.sexp, Sexp.item]
    split
    · trivial
    next hne =>
    refine ⟨head.sexp_proper, tail.sexp_proper, ?_⟩
    rcases tail.sexp_cases with h | h | h
    · exact .inl h
    · exact .inr h
    · exact absurd (.inr h) hne

end

/-! ### Trees -/

theorem endsList_encodes (h : t.endsList.isSome = true) :
    ∃ v, t.endsList = some v ∧ Encodes w v t.closing := by
  cases t with
  | closepar => exact ⟨_, rfl, encodes_nil⟩
  | eof => exact ⟨_, rfl, encodes_rerror⟩
  | error => exact ⟨_, rfl, encodes_rerror⟩
  | _ => exact absurd h (by simp [Token.endsList])

theorem endsProgram_encodes (h : t.endsProgram.isSome = true) :
    ∃ v, t.endsProgram = some v ∧ Encodes w v t.ending := by
  cases t with
  | eof => exact ⟨_, rfl, encodes_nil⟩
  | error => exact ⟨_, rfl, encodes_rerror⟩
  | _ => exact absurd h (by simp [Token.endsProgram])

mutual

/-- **A tree is built**: its expression, in as many cells as it counts. -/
theorem Tree.build_makes : ∀ {e : Tree} {w : World n} {m : Nat}, e.Ok →
    e.cells ≤ w.free.length → w.Room (e.words + m) →
    Makes w (e.build w.st) e.sexp e.cells m
  | .atom t, w, m, hok, hfree, hroom => atomValue_makes hok.1 hok.2 hfree hroom
  | .list es, w, m, hok, hfree, hroom => Trees.build_makes hok hfree hroom
  | .marked t e, w, m, hok, hfree, hroom => by
    rw [Tree.cells] at hfree ⊢
    obtain ⟨v, w₁, hbuild, henc, hsp⟩ := Tree.build_makes hok.2 (by omega) hroom
    have hfree₁ := hsp.length_free
    obtain ⟨r, w₂, hmark, henc₂, hsp₂⟩ :=
      markValue_makes hok.1 henc e.sexp_proper (by omega) hsp.room
    refine ⟨r, w₂, ?_, henc₂, hsp.trans hsp₂⟩
    show (e.build w.st).bind _ = _
    rw [hbuild]
    exact hmark

theorem Trees.build_makes : ∀ {es : Trees} {w : World n} {m : Nat}, es.Ok →
    es.cells ≤ w.free.length → w.Room (es.words + m) →
    Makes w (es.build w.st) es.sexp es.cells m
  | .ends t, w, m, hok, _, hroom => by
    obtain ⟨v, hends, henc⟩ := endsList_encodes (w := w) hok
    refine ⟨v, w, ?_, henc, .refl (hroom.mono (Nat.le_add_left _ _))⟩
    show t.endsList.map _ = _
    rw [hends]
    rfl
  | .item head tail, w, m, hok, hfree, hroom => by
    rw [Trees.cells] at hfree ⊢
    rw [Trees.words, Nat.add_assoc] at hroom
    obtain ⟨a, w₁, hhead, ha, hsp₁⟩ := Tree.build_makes hok.1 (by omega) hroom
    have hfree₁ := hsp₁.length_free
    obtain ⟨d, w₂, htail, hd, hsp₂⟩ := Trees.build_makes hok.2 (by omega) hsp₁.room
    have hfree₂ := hsp₂.length_free
    obtain ⟨r, w₃, hcons, henc, hsp₃⟩ := consUnlessError_makes (ha.grown hsp₂.grown) hd hsp₂.room
      (by omega)
    refine ⟨r, w₃, ?_, henc, (hsp₁.trans hsp₂).trans hsp₃⟩
    show (head.build w.st).bind _ = _
    rw [hhead]
    show (tail.build w₁.st).bind _ = _
    rw [htail]
    exact hcons

end

/-- **A program is built.** There is a cell for each of its expressions, whatever they are. -/
theorem buildProgram_makes : ∀ {es : Trees} {w : World n} {m : Nat}, es.OkProgram →
    es.programCells ≤ w.free.length → w.Room (es.words + m) →
    Makes w (es.buildProgram w.st) es.program es.programCells m
  | .ends t, w, m, hok, _, hroom => by
    obtain ⟨v, hends, henc⟩ := endsProgram_encodes (w := w) hok
    refine ⟨v, w, ?_, henc, .refl (hroom.mono (Nat.le_add_left _ _))⟩
    show t.endsProgram.map _ = _
    rw [hends]
    rfl
  | .item head tail, w, m, hok, hfree, hroom => by
    rw [Trees.programCells] at hfree ⊢
    rw [Trees.words, Nat.add_assoc] at hroom
    obtain ⟨a, w₁, hhead, ha, hsp₁⟩ := Tree.build_makes hok.1 (by omega) hroom
    have hfree₁ := hsp₁.length_free
    obtain ⟨d, w₂, htail, hd, hsp₂⟩ := buildProgram_makes hok.2 (by omega) hsp₁.room
    have hfree₂ := hsp₂.length_free
    obtain ⟨r, w₃, hcons, hsym, henc, hsp₃⟩ := w₂.cons_encodes (by omega) hsp₂.room
      (ha.grown hsp₂.grown) hd
    refine ⟨r, w₃, ?_, henc, (hsp₁.trans hsp₂).trans hsp₃⟩
    show (head.build w.st).bind _ = _
    rw [hhead]
    show (tail.buildProgram w₁.st).bind _ = _
    rw [htail]
    exact congrArg some (alloc_eq hcons hsym)

end Build

end Tokpar

end LispBM
