import LispBM.Heap.Structures
import LispBM.QqExpand

/-!
# LispBM — what quasiquotation expands to (`src/qq_expand.c`)

A quasiquoted expression is a template: data with holes. The expansion is code that builds the data
and evaluates the expressions in the holes. It goes over the template once and makes the code from
the inside to the outside, in cells from the free list.

* `IsTemplate` — the template that is in the heap, `Template.code` — the code for it;
* `IsTemplate.depth_lt_walkFuel` — the recursion comes to an end;
* `qqExpand_spec` — the expansion is the code for the template, in as many cells as it has words.
-/

namespace LispBM

open Structures

/-! ## Templates -/

/-- A quasiquoted expression: a word that stands for itself, the value of an expression, the words
of a list that is the value of an expression, or a pair. -/
inductive Template where
  | leaf (v : VALUE)
  | unquote (e : VALUE)
  | splice (e : VALUE)
  | pair (a d : Template)
deriving DecidableEq, Repr

/-- Where a part of a template stands: it is an expression by itself or the cdr of a pair, or it is
the car of a pair and thereby an element of a list. -/
inductive Position where
  | expression
  | element
deriving DecidableEq, Repr

/-- The template in the heap. -/
inductive IsTemplate (h : HeapState) : VALUE → Template → Prop where
  | leaf {v : VALUE} (hty : typeOf v ≠ ptrTypeCons) : IsTemplate h v (.leaf v)
  | unquote {v e : VALUE} (hlist : IsList h v [encSym symreprComma, e]) :
      IsTemplate h v (.unquote e)
  | splice {v e : VALUE} (hlist : IsList h v [encSym symreprCommaat, e]) :
      IsTemplate h v (.splice e)
  | pair {v : VALUE} {a d : Template} (hty : typeOf v = ptrTypeCons)
      (hcomma : isSymbolOf symreprComma (car h v) = false)
      (hcommaat : isSymbolOf symreprCommaat (car h v) = false)
      (ha : IsTemplate h (car h v) a) (hd : IsTemplate h (cdr h v) d) : IsTemplate h v (.pair a d)

namespace Template

def depth : Template → Nat
  | pair a d => max a.depth d.depth + 1
  | _ => 0

/-- The code of an expression for a pair; for an element it is a call of `list` on this. -/
def wrapped (h : HeapState) (p : Position) (C : VALUE → Prop) (v : VALUE) : Prop :=
  match p with
  | .expression => C v
  | .element => ∃ x, IsList h v [encSym symList, x] ∧ C x

/-- `v` is the code for the template. The code for an element is for a list of what the element
contributes. -/
def code (h : HeapState) : Position → Template → VALUE → Prop
  | .expression, leaf w, v => IsList h v [encSym symreprQuote, w]
  | .element, leaf w, v => ∃ q, IsList h v [encSym symreprQuote, q] ∧ IsList h q [w]
  | .expression, unquote e, v => v = e
  | .element, unquote e, v => IsList h v [encSym symList, e]
  | .expression, splice _, v => v = encSym symreprRerror
  | .element, splice e, v => v = e
  | p, pair a d, v => wrapped h p
      (fun x => ∃ y z, IsList h x [encSym symAppend, y, z] ∧ code h .element a y
        ∧ code h .expression d z) v

/-- The cells of the code that are not cells of the template. -/
def cost : Position → Template → Nat
  | .expression, leaf _ => 2
  | .element, leaf _ => 3
  | .expression, unquote _ => 0
  | .element, unquote _ => 2
  | _, splice _ => 0
  | .expression, pair a d => cost .element a + cost .expression d + 3
  | .element, pair a d => cost .element a + cost .expression d + 5

end Template

section

variable {h h' : HeapState} {v u w : VALUE} {ws : List VALUE} {t t' a d : Template} {p : Position}
  {l : List Nat} {n : Nat}

/-! ### Templates that are left alone -/

theorem IsTemplate.congr (ht : IsTemplate h v t) :
    (∀ i, Under h v i → h'.cell i = h.cell i) → IsTemplate h' v t := by
  induction ht with
  | leaf hty => exact fun _ => .leaf hty
  | unquote hlist => exact fun hcell => .unquote (hlist.congr hcell)
  | splice hlist => exact fun hcell => .splice (hlist.congr hcell)
  | @pair v a d hty hcomma hcommaat _ _ iha ihd =>
    intro hcell
    have hcar := car_congr hty (hcell _ (.here hty))
    have hcdr := cdr_congr hty (hcell _ (.here hty))
    apply IsTemplate.pair hty
    · rw [hcar]
      exact hcomma
    · rw [hcar]
      exact hcommaat
    · rw [hcar]
      exact iha fun i hi => hcell i (.car hty hi)
    · rw [hcdr]
      exact ihd fun i hi => hcell i (.cdr hty hi)

theorem Template.wrapped_congr {C C' : VALUE → Prop} (hcode : Template.wrapped h p C v)
    (hcell : ∀ i, Under h v i → h'.cell i = h.cell i)
    (hC : ∀ x, (∀ i, Under h x i → Under h v i) → C x → C' x) : Template.wrapped h' p C' v := by
  cases p with
  | expression => exact hC v (fun _ hi => hi) hcode
  | element =>
    obtain ⟨x, hlist, hx⟩ := hcode
    exact ⟨x, hlist.congr hcell, hC x (fun i hi => hlist.under (by simp) hi) hx⟩

theorem code_congr : ∀ {t : Template} {p : Position} {v : VALUE}, t.code h p v →
    (∀ i, Under h v i → h'.cell i = h.cell i) → t.code h' p v := by
  intro t
  induction t with
  | leaf w =>
    intro p v hcode hcell
    cases p with
    | expression => exact IsList.congr hcode hcell
    | element =>
      obtain ⟨q, hv, hq⟩ := hcode
      exact ⟨q, hv.congr hcell, hq.congr fun i hi => hcell i (hv.under (by simp) hi)⟩
  | unquote e =>
    intro p v hcode hcell
    cases p with
    | expression => exact hcode
    | element => exact IsList.congr hcode hcell
  | splice e =>
    intro p v hcode _
    cases p with
    | expression => exact hcode
    | element => exact hcode
  | pair a d iha ihd =>
    intro p v hcode hcell
    rw [Template.code] at hcode ⊢
    apply Template.wrapped_congr hcode hcell
    intro x hx hcall
    obtain ⟨y, z, hlist, hy, hz⟩ := hcall
    refine ⟨y, z, hlist.congr fun i hi => hcell i (hx i hi), ?_, ?_⟩
    · exact iha hy fun i hi => hcell i (hx i (hlist.under (by simp) hi))
    · exact ihd hz fun i hi => hcell i (hx i (hlist.under (by simp) hi))

/-! ### The depth of a template -/

theorem IsTemplate.not_pair (hlist : IsList h v ws) {s : UINT} (hws : ws.head? = some (encSym s))
    (hs : s = symreprComma ∨ s = symreprCommaat) : ¬IsTemplate h v (.pair a d) := by
  obtain ⟨w, ws, rfl⟩ : ∃ w us, ws = w :: us := by
    cases ws with
    | nil => exact absurd hws (by simp)
    | cons w us => exact ⟨w, us, rfl⟩
  obtain rfl : w = encSym s := Option.some.inj hws
  intro ht
  cases ht with
  | pair _ hcomma hcommaat =>
    rw [hlist.head_eq.2] at hcomma hcommaat
    rcases hs with rfl | rfl
    · exact absurd hcomma (by decide)
    · exact absurd hcommaat (by decide)

/-- A value is a pair of the same templates in every way. -/
theorem IsTemplate.pair_inv (ht : IsTemplate h v (.pair a d)) :
    typeOf v = ptrTypeCons ∧ IsTemplate h (car h v) a ∧ IsTemplate h (cdr h v) d := by
  cases ht with
  | pair hty _ _ ha hd => exact ⟨hty, ha, hd⟩

theorem IsTemplate.depth_unique (ht : IsTemplate h v t) : ∀ {t' : Template}, IsTemplate h v t' →
    t'.depth = t.depth := by
  induction ht with
  | @leaf v hty =>
    intro t' ht'
    cases ht' with
    | pair hty' => exact absurd hty' hty
    | _ => rfl
  | unquote hlist =>
    intro t' ht'
    cases t' with
    | pair a d => exact absurd ht' (not_pair hlist rfl (.inl rfl))
    | _ => rfl
  | splice hlist =>
    intro t' ht'
    cases t' with
    | pair a d => exact absurd ht' (not_pair hlist rfl (.inr rfl))
    | _ => rfl
  | @pair v a d hty hcomma hcommaat ha hd iha ihd =>
    intro t' ht'
    cases ht' with
    | leaf hty' => exact absurd hty hty'
    | unquote hlist =>
      exact absurd (.pair hty hcomma hcommaat ha hd) (not_pair hlist rfl (.inl rfl))
    | splice hlist => exact absurd (.pair hty hcomma hcommaat ha hd) (not_pair hlist rfl (.inr rfl))
    | pair _ _ _ ha' hd' => rw [Template.depth, Template.depth, iha ha', ihd hd']

/-- The cells of the pairs on a deepest path. -/
structure DeepPath (h : HeapState) (v : VALUE) (t : Template) (path : List Nat) : Prop where
  length : path.length = t.depth
  nodup : path.Nodup
  under : ∀ i ∈ path, Under h v i
  pairs : ∀ i ∈ path, ∃ u a d, IsTemplate h u (.pair a d) ∧ ptrIx u = i
    ∧ (Template.pair a d).depth ≤ t.depth

/-- No pair is above itself. -/
theorem DeepPath.cons {c : VALUE} {s : Template} {path : List Nat} (hpath : DeepPath h c s path)
    (ht : IsTemplate h v (.pair a d)) (hc : ∀ i, Under h c i → Under h v i)
    (hs : s.depth = max a.depth d.depth) : DeepPath h v (.pair a d) (ptrIx v :: path) := by
  have hlen : (Template.pair a d).depth = s.depth + 1 := by rw [hs]; rfl
  obtain ⟨hty, ha, hd⟩ := ht.pair_inv
  refine ⟨?_, List.nodup_cons.mpr ⟨fun hmem => ?_, hpath.nodup⟩, fun i hi => ?_, fun i hi => ?_⟩
  · rw [List.length_cons, hpath.length, hlen]
  · -- a pair in the same cell is the same pair, and as deep
    obtain ⟨u, a', d', hu, hix, hdepth⟩ := hpath.pairs _ hmem
    obtain ⟨htyu, ha', hd'⟩ := hu.pair_inv
    have hcar : car h u = car h v := by
      rw [car_of_isPtr (isPtr_of_typeOf_cons htyu), car_of_isPtr (isPtr_of_typeOf_cons hty), hix]
    have hcdr : cdr h u = cdr h v := by
      rw [cdr_of_isPtr (isPtr_of_typeOf_cons htyu), cdr_of_isPtr (isPtr_of_typeOf_cons hty),
        if_pos htyu, if_pos hty, hix]
    rw [hcar] at ha'
    rw [hcdr] at hd'
    have hsame : (Template.pair a' d').depth = (Template.pair a d).depth := by
      rw [Template.depth, Template.depth, ha.depth_unique ha', hd.depth_unique hd']
    omega
  · rcases List.mem_cons.mp hi with rfl | hi
    · exact .here hty
    · exact hc i (hpath.under i hi)
  · rcases List.mem_cons.mp hi with rfl | hi
    · exact ⟨v, a, d, ht, rfl, le_refl _⟩
    · obtain ⟨u, a', d', hu, hix, hdepth⟩ := hpath.pairs i hi
      exact ⟨u, a', d', hu, hix, by omega⟩

theorem IsTemplate.exists_deepPath (ht : IsTemplate h v t) : ∃ path, DeepPath h v t path := by
  induction ht with
  | @pair v a d hty hcomma hcommaat ha hd iha ihd =>
    have hpair : IsTemplate h v (.pair a d) := .pair hty hcomma hcommaat ha hd
    rcases Nat.le_total a.depth d.depth with hle | hle
    · obtain ⟨path, hpath⟩ := ihd
      exact ⟨_, hpath.cons hpair (fun _ hi => .cdr hty hi) (Nat.max_eq_right hle).symm⟩
    · obtain ⟨path, hpath⟩ := iha
      exact ⟨_, hpath.cons hpair (fun _ hi => .car hty hi) (Nat.max_eq_left hle).symm⟩
  | _ => exact ⟨[], rfl, List.nodup_nil, by simp, by simp⟩

/-- **The recursion over a template comes to an end**: it is not deeper than there are cells. -/
theorem IsTemplate.depth_lt_walkFuel (ht : IsTemplate h v t) (hl : FreeList h l)
    (huse : Occupied h l [v]) : t.depth < walkFuel h := by
  obtain ⟨path, hpath⟩ := ht.exists_deepPath
  have hsub : path ⊆ List.range h.heapSize := by
    intro i hi
    exact List.mem_range.mpr (huse v List.mem_cons_self i (hpath.under i hi)).1
  have hle := (hpath.nodup.subperm hsub).length_le
  rw [hpath.length, List.length_range] at hle
  have := hl.fits
  rw [walkFuel]
  omega

/-! ## Allocation -/

/-- `cons(a, nil)`. -/
theorem exists_consOne (hl : FreeList h l) (hn : 1 ≤ l.length) (huse : Occupied h l [u]) :
    ∃ r h', cons u NIL h = (r, h') ∧ Makes h l [u] NIL r h' := by
  obtain ⟨i, l, rfl⟩ := List.exists_cons_of_length_pos hn
  have hmakes := @makes_consAll h NIL [u] _ hl hn huse occupied_nil
  obtain ⟨h₁, hc₁⟩ := hl.conses u NIL
  have hall : consAll [u].reverse NIL h = (cellPtr i, h₁) := by
    show consAll [u] NIL h = _
    rw [consAll_cons hc₁]
    rfl
  rw [hall] at hmakes
  exact ⟨cellPtr i, h₁, hc₁.eq, hmakes⟩

/-- `cons(a, cons(b, nil))`. -/
theorem exists_consTwo (hl : FreeList h l) (hn : 2 ≤ l.length) (huse : Occupied h l [u, w]) :
    ∃ r h', consTwo u w h = (r, h') ∧ Makes h l [u, w] NIL r h' := by
  obtain ⟨i, j, l, rfl⟩ : ∃ i j k, l = i :: j :: k := by
    match l, hn with
    | i :: j :: k, _ => exact ⟨i, j, k, rfl⟩
  have hmakes := @makes_consAll h NIL [u, w] _ hl hn huse occupied_nil
  obtain ⟨h₁, hc₁⟩ := hl.conses w NIL
  obtain ⟨h₂, hc₂⟩ := hc₁.free.conses u (cellPtr i)
  have hall : consAll [u, w].reverse NIL h = (cellPtr j, h₂) := by
    show consAll [w, u] NIL h = _
    rw [consAll_cons hc₁, consAll_cons hc₂]
    rfl
  rw [hall] at hmakes
  refine ⟨cellPtr j, h₂, ?_, hmakes⟩
  show cons u (cons w NIL h).1 (cons w NIL h).2 = _
  rw [hc₁.eq]
  exact hc₂.eq

/-- `append(front, back)` of the source. -/
theorem exists_genAppend (hl : FreeList h l) (hn : 3 ≤ l.length) (huse : Occupied h l [u, w]) :
    ∃ r h', genAppend u w h = (r, h') ∧ Makes h l [encSym symAppend, u, w] NIL r h' := by
  obtain ⟨i, j, k, l, rfl⟩ : ∃ i j k r, l = i :: j :: k :: r := by
    match l, hn with
    | i :: j :: k :: r, _ => exact ⟨i, j, k, r, rfl⟩
  have happend : Occupied h (i :: j :: k :: l) [encSym symAppend] := occupied_atom (by decide)
  have hmakes := @makes_consAll h NIL [encSym symAppend, u, w] _ hl hn
    (happend.append huse) occupied_nil
  obtain ⟨h₁, hc₁⟩ := hl.conses w NIL
  obtain ⟨h₂, hc₂⟩ := hc₁.free.conses u (cellPtr i)
  obtain ⟨h₃, hc₃⟩ := hc₂.free.conses (encSym symAppend) (cellPtr j)
  have hall : consAll [encSym symAppend, u, w].reverse NIL h = (cellPtr k, h₃) := by
    show consAll [w, u, encSym symAppend] NIL h = _
    rw [consAll_cons hc₁, consAll_cons hc₂, consAll_cons hc₃]
    rfl
  rw [hall] at hmakes
  refine ⟨cellPtr k, h₃, ?_, hmakes⟩
  have htwo : consTwo u w h = (cellPtr j, h₂) := by
    show cons u (cons w NIL h).1 (cons w NIL h).2 = _
    rw [hc₁.eq]
    exact hc₂.eq
  rw [genAppend, htwo]
  exact hc₃.eq

/-! ## The expansion -/

/-- The two functions of the source. -/
def expandDepth : Position → Nat → VALUE → HeapState → Option (VALUE × HeapState)
  | .expression => qqExpandDepth
  | .element => qqExpandListDepth

/-- `r` is the code for the template, in cells that were free. -/
structure Expands (h : HeapState) (l : List Nat) (p : Position) (t : Template) (r : VALUE)
    (h' : HeapState) : Prop where
  code : t.code h' p r
  grows : TakesFree h l (t.cost p) h'
  occupied : Occupied h' (l.drop (t.cost p)) [r]

/-- What is made of the code for a pair. -/
def wrapCode : Position → VALUE × HeapState → VALUE × HeapState
  | .expression, x => x
  | .element, x => consTwo (encSym symList) x.1 x.2

theorem expandDepth_pair (hty : typeOf v = ptrTypeCons)
    (hcomma : isSymbolOf symreprComma (car h v) = false)
    (hcommaat : isSymbolOf symreprCommaat (car h v) = false) :
    expandDepth p (n + 1) v h = (expandDepth .element n (car h v) h).bind fun x =>
      (expandDepth .expression n (cdr h v) x.2).bind fun y =>
        some (wrapCode p (genAppend x.1 y.1 y.2)) := by
  cases p with
  | expression =>
    show qqExpandDepth (n + 1) v h = _
    rw [qqExpandDepth]
    simp only [hty, beq_self_eq_true, if_true, hcomma, hcommaat, Bool.false_eq_true, if_false]
    rfl
  | element =>
    show qqExpandListDepth (n + 1) v h = _
    rw [qqExpandListDepth]
    simp only [hty, beq_self_eq_true, if_true, hcomma, hcommaat, Bool.false_eq_true, if_false]
    rfl

/-- The code for what is not a pair. -/
def quoteCode (v : VALUE) (h : HeapState) : Position → VALUE × HeapState
  | .expression => consTwo (encSym symreprQuote) v h
  | .element => consTwo (encSym symreprQuote) (cons v NIL h).1 (cons v NIL h).2

theorem expandDepth_leaf (hty : (typeOf v == ptrTypeCons) = false) :
    expandDepth p (n + 1) v h = some (quoteCode v h p) := by
  cases p with
  | expression =>
    show qqExpandDepth (n + 1) v h = _
    rw [qqExpandDepth, hty, if_neg (by decide)]
    rfl
  | element =>
    show qqExpandListDepth (n + 1) v h = _
    rw [qqExpandListDepth, hty, if_neg (by decide)]
    rfl

theorem expandDepth_comma (hty : typeOf v = ptrTypeCons)
    (hcomma : isSymbolOf symreprComma (car h v) = true) :
    expandDepth p (n + 1) v h = some (wrapCode p (car h (cdr h v), h)) := by
  cases p with
  | expression =>
    show qqExpandDepth (n + 1) v h = _
    rw [qqExpandDepth]
    simp only [hty, beq_self_eq_true, if_true, hcomma]
    rfl
  | element =>
    show qqExpandListDepth (n + 1) v h = _
    rw [qqExpandListDepth]
    simp only [hty, beq_self_eq_true, if_true, hcomma]
    rfl

/-- The code for what is spliced in; there is no list to splice it into if it is not an element. -/
def spliceCode (h : HeapState) (v : VALUE) : Position → VALUE
  | .expression => encSym symreprRerror
  | .element => car h (cdr h v)

theorem expandDepth_commaat (hty : typeOf v = ptrTypeCons)
    (hcomma : isSymbolOf symreprComma (car h v) = false)
    (hcommaat : isSymbolOf symreprCommaat (car h v) = true) :
    expandDepth p (n + 1) v h = some (spliceCode h v p, h) := by
  cases p with
  | expression =>
    show qqExpandDepth (n + 1) v h = _
    rw [qqExpandDepth]
    simp only [hty, beq_self_eq_true, if_true, hcomma, hcommaat, Bool.false_eq_true, if_false]
    rfl
  | element =>
    show qqExpandListDepth (n + 1) v h = _
    rw [qqExpandListDepth]
    simp only [hty, beq_self_eq_true, if_true, hcomma, hcommaat, Bool.false_eq_true, if_false]
    rfl

theorem Expands.leaf (hl : FreeList h l) (huse : Occupied h l [v]) (hty : typeOf v ≠ ptrTypeCons)
    (hn : (Template.leaf v).cost p ≤ l.length) :
    ∃ r h', expandDepth p (n + 1) v h = some (r, h') ∧ Expands h l p (.leaf v) r h' := by
  have hquote : ∀ {h' l'}, Occupied h' l' [encSym symreprQuote] := occupied_atom (by decide)
  have hcons : (typeOf v == ptrTypeCons) = false := by rwa [beq_eq_false_iff_ne]
  cases p with
  | expression =>
    obtain ⟨r, h', hmake, hmakes⟩ := exists_consTwo hl hn (hquote.append huse)
    refine ⟨r, h', ?_, hmakes.isList, hmakes.grows, hmakes.occupied⟩
    rw [expandDepth_leaf hcons, quoteCode, hmake]
  | element =>
    change 3 ≤ l.length at hn
    obtain ⟨q, h₁, hone, hmakes₁⟩ := exists_consOne hl (by omega) huse
    have hroom : 2 ≤ (l.drop 1).length := by
      rw [List.length_drop]
      omega
    obtain ⟨r, h₂, htwo, hmakes₂⟩ := exists_consTwo hmakes₁.grows.free hroom
      (hquote.append hmakes₁.occupied)
    have hcell := hmakes₁.occupied.intact hmakes₂.grows.kept
    refine ⟨r, h₂, ?_, ⟨q, hmakes₂.isList, hmakes₁.isList.congr (hcell _ List.mem_cons_self)⟩,
      hmakes₁.grows.trans hmakes₂.grows, ?_⟩
    · rw [expandDepth_leaf hcons, quoteCode, hone]
      exact congrArg some htwo
    · have hocc := hmakes₂.occupied
      rw [List.drop_drop] at hocc
      exact hocc

theorem Expands.unquote {e : VALUE} (hl : FreeList h l) (huse : Occupied h l [v])
    (hlist : IsList h v [encSym symreprComma, e]) (hn : (Template.unquote e).cost p ≤ l.length) :
    ∃ r h', expandDepth p (n + 1) v h = some (r, h') ∧ Expands h l p (.unquote e) r h' := by
  obtain ⟨hty, hcar⟩ := hlist.head_eq
  have he : Occupied h l [e] := by
    obtain ⟨is, hwords⟩ := hlist
    exact (huse.words hwords.listTo).subset (by simp)
  have hcomma : isSymbolOf symreprComma (car h v) = true := by
    rw [hcar]
    decide
  cases p with
  | expression =>
    refine ⟨e, h, ?_, rfl, .refl hl, he⟩
    rw [expandDepth_comma hty hcomma, hlist.second_eq]
    rfl
  | element =>
    have hsym : Occupied h l [encSym symList] := occupied_atom (by decide)
    obtain ⟨r, h', hmake, hmakes⟩ := exists_consTwo hl hn (hsym.append he)
    refine ⟨r, h', ?_, hmakes.isList, hmakes.grows, hmakes.occupied⟩
    rw [expandDepth_comma hty hcomma, hlist.second_eq]
    exact congrArg some hmake

theorem Expands.splice {e : VALUE} (hl : FreeList h l) (huse : Occupied h l [v])
    (hlist : IsList h v [encSym symreprCommaat, e]) :
    ∃ r h', expandDepth p (n + 1) v h = some (r, h') ∧ Expands h l p (.splice e) r h' := by
  obtain ⟨hty, hcar⟩ := hlist.head_eq
  have hcomma : isSymbolOf symreprComma (car h v) = false := by
    rw [hcar]
    decide
  have hcommaat : isSymbolOf symreprCommaat (car h v) = true := by
    rw [hcar]
    decide
  have hexpand := @expandDepth_commaat h v p n hty hcomma hcommaat
  cases p with
  | expression =>
    exact ⟨encSym symreprRerror, h, hexpand, rfl, .refl hl, occupied_atom (by decide)⟩
  | element =>
    obtain ⟨is, hwords⟩ := id hlist
    rw [spliceCode, hlist.second_eq] at hexpand
    exact ⟨e, h, hexpand, rfl, .refl hl, (huse.words hwords.listTo).subset (by simp)⟩

/-- The code for a pair is made of the codes for its parts. -/
theorem Expands.pair {r₁ r₂ : VALUE} {h₁ h₂ : HeapState} (h₁' : Expands h l .element a r₁ h₁)
    (h₂' : Expands h₁ (l.drop (a.cost .element)) .expression d r₂ h₂)
    (hn : (Template.pair a d).cost p ≤ l.length) :
    ∃ r h', wrapCode p (genAppend r₁ r₂ h₂) = (r, h') ∧ Expands h l p (.pair a d) r h' := by
  have hgrows := h₁'.grows.trans h₂'.grows
  have hlen : (l.drop (a.cost .element + d.cost .expression)).length
      = l.length - (a.cost .element + d.cost .expression) := List.length_drop
  have hcost : a.cost .element + d.cost .expression + 3 ≤ l.length := by
    cases p with
    | expression => exact hn
    | element =>
      change a.cost .element + d.cost .expression + 5 ≤ l.length at hn
      omega
  have hocc₂ := h₂'.occupied
  rw [List.drop_drop] at hocc₂
  have hocc₁ := h₂'.grows.occupied h₁'.occupied
  rw [List.drop_drop] at hocc₁
  obtain ⟨x, h₃, happend, hmakes⟩ := exists_genAppend hgrows.free (by omega) (hocc₁.append hocc₂)
  -- the codes of the parts are what they were
  have hcode : ∃ y z, IsList h₃ x [encSym symAppend, y, z] ∧ a.code h₃ .element y
      ∧ d.code h₃ .expression z := by
    refine ⟨r₁, r₂, hmakes.isList, ?_, ?_⟩
    · apply code_congr _ (hocc₁.intact hmakes.grows.kept _ List.mem_cons_self)
      exact code_congr h₁'.code (h₁'.occupied.intact h₂'.grows.kept _ List.mem_cons_self)
    · exact code_congr h₂'.code (hocc₂.intact hmakes.grows.kept _ List.mem_cons_self)
  have hall := hgrows.trans hmakes.grows
  have hocc := hmakes.occupied
  rw [List.drop_drop] at hocc
  cases p with
  | expression => exact ⟨x, h₃, happend, hcode, hall, hocc⟩
  | element =>
    change a.cost .element + d.cost .expression + 5 ≤ l.length at hn
    have hsym : Occupied h₃ (l.drop (a.cost .element + d.cost .expression + 3)) [encSym symList] :=
      occupied_atom (by decide)
    have hroom : 2 ≤ (l.drop (a.cost .element + d.cost .expression + 3)).length := by
      rw [List.length_drop]
      omega
    obtain ⟨r, h₄, htwo, hmakes'⟩ := exists_consTwo hall.free hroom (hsym.append hocc)
    refine ⟨r, h₄, ?_, ⟨x, hmakes'.isList, ?_⟩, hall.trans hmakes'.grows, ?_⟩
    · show consTwo _ (genAppend r₁ r₂ h₂).1 (genAppend r₁ r₂ h₂).2 = _
      rw [happend]
      exact htwo
    · have hpair : (Template.pair a d).code h₃ .expression x := hcode
      exact code_congr hpair (hocc.intact hmakes'.grows.kept _ List.mem_cons_self)
    · have hocc' := hmakes'.occupied
      rw [List.drop_drop] at hocc'
      exact hocc'

/-- **The recursion** makes the code for the template, if there are enough levels and free cells. -/
theorem expandDepth_spec : ∀ {t : Template} {p : Position} {n : Nat} {v : VALUE} {h : HeapState}
    {l : List Nat}, t.depth < n → FreeList h l → IsTemplate h v t → Occupied h l [v] →
    t.cost p ≤ l.length → ∃ r h', expandDepth p n v h = some (r, h') ∧ Expands h l p t r h' := by
  intro t
  induction t with
  | leaf w =>
    intro p n v h l hdepth hl ht huse hn
    obtain ⟨n, rfl⟩ := Nat.exists_eq_succ_of_ne_zero (Nat.ne_of_gt hdepth)
    cases ht with
    | leaf hty => exact Expands.leaf hl huse hty hn
  | unquote e =>
    intro p n v h l hdepth hl ht huse hn
    obtain ⟨n, rfl⟩ := Nat.exists_eq_succ_of_ne_zero (Nat.ne_of_gt hdepth)
    cases ht with
    | unquote hlist => exact Expands.unquote hl huse hlist hn
  | splice e =>
    intro p n v h l hdepth hl ht huse hn
    obtain ⟨n, rfl⟩ := Nat.exists_eq_succ_of_ne_zero (Nat.ne_of_gt hdepth)
    cases ht with
    | splice hlist => exact Expands.splice hl huse hlist
  | pair a d iha ihd =>
    intro p n v h l hdepth hl ht huse hn
    obtain ⟨n, rfl⟩ := Nat.exists_eq_succ_of_ne_zero (Nat.ne_of_gt (Nat.zero_lt_of_lt hdepth))
    have hmax : max a.depth d.depth < n := Nat.lt_of_succ_lt_succ hdepth
    have hcost : a.cost .element + d.cost .expression ≤ l.length := by
      cases p <;> simp only [Template.cost] at hn <;> omega
    cases ht with
    | pair hty hcomma hcommaat ha hd =>
      have hcar : Occupied h l [car h v] := fun w hw i hi =>
        huse v List.mem_cons_self i (.car hty (List.mem_singleton.mp hw ▸ hi))
      have hcdr : Occupied h l [cdr h v] := fun w hw i hi =>
        huse v List.mem_cons_self i (.cdr hty (List.mem_singleton.mp hw ▸ hi))
      obtain ⟨r₁, h₁, hcode₁, hexp₁⟩ :=
        iha (p := .element) (n := n) (by omega) hl ha hcar (by omega)
      have hd₁ := hd.congr (hcdr.intact hexp₁.grows.kept _ List.mem_cons_self)
      obtain ⟨r₂, h₂, hcode₂, hexp₂⟩ := ihd (p := .expression) (n := n) (by omega) hexp₁.grows.free
        hd₁ (hexp₁.grows.occupied hcdr) (by rw [List.length_drop]; omega)
      obtain ⟨r, h', hwrap, hexp⟩ := hexp₁.pair hexp₂ hn
      refine ⟨r, h', ?_, hexp⟩
      rw [expandDepth_pair hty hcomma hcommaat, hcode₁]
      show (expandDepth .expression n (cdr h v) h₁).bind _ = _
      rw [hcode₂]
      exact congrArg some hwrap

/-- **The expansion of a template is the code for it**, in the first free cells; what was there
before is left alone. -/
theorem qqExpand_spec (hl : FreeList h l) (ht : IsTemplate h v t) (huse : Occupied h l [v])
    (hn : t.cost .expression ≤ l.length) :
    ∃ r h', qqExpand v h = some (r, h') ∧ Expands h l .expression t r h' :=
  expandDepth_spec (ht.depth_lt_walkFuel hl huse) hl ht huse hn

/-- As an element the template becomes the code for a list of what is spliced in. -/
theorem qqExpandList_spec (hl : FreeList h l) (ht : IsTemplate h v t) (huse : Occupied h l [v])
    (hn : t.cost .element ≤ l.length) :
    ∃ r h', qqExpandList v h = some (r, h') ∧ Expands h l .element t r h' :=
  expandDepth_spec (ht.depth_lt_walkFuel hl huse) hl ht huse hn

end

end LispBM
