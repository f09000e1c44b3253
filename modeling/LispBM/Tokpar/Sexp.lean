import LispBM.Fundamental.TagSafety
import LispBM.Symrepr.Table
import LispBM.Tokpar

/-!
# LispBM — expressions, and the heaps that hold them

What the reader reads is a tree, `Sexp`; `Encodes` says when a value is one in the heap, the
managed memory and the symbol table. A `World` is a state in which the free list, the blocks of the
memory and the names are known. An operation that allocates only leads to a `Grown` world, in which
every expression is still encoded by the value that encoded it.
-/

namespace LispBM

namespace Tokpar

open BlockLayout
open BitBuffer (Byte)

/-- The numbers that take a cell. -/
inductive Boxed where
  | int
  | uint
  | float
deriving DecidableEq, Repr

namespace Boxed

def ptrType : Boxed → TYPE
  | int => ptrTypeBoxedI
  | uint => ptrTypeBoxedU
  | float => ptrTypeBoxedF

/-- The symbol in the cdr of the cell. -/
def typeSymbol : Boxed → UINT
  | int => defReprBoxedIType
  | uint => defReprBoxedUType
  | float => defReprBoxedFType

end Boxed

/-- Expressions. An atom is a value without a cell that is not the symbol of a name entered in the
symbol table. -/
inductive Sexp where
  | atom (v : VALUE)
  | name (text : List Byte)
  | boxed (k : Boxed) (x : UINT)
  | string (text : List Byte)
  | pair (a d : Sexp)
deriving DecidableEq, Repr

namespace Sexp

def sym (id : UINT) : Sexp := atom (encSym id)

def nil : Sexp := sym symreprNil

def rerror : Sexp := sym symreprRerror

/-- A list with its last cdr. -/
def dotted (es : List Sexp) (tail : Sexp) : Sexp := es.foldr pair tail

def list (es : List Sexp) : Sexp := dotted es nil

def depth : Sexp → Nat
  | pair a d => max a.depth d.depth + 1
  | _ => 0

end Sexp

/-! ## Worlds -/

/-- A state with its free list, its blocks and its names. -/
structure World (n : Nat) where
  st : ReaderState
  free : List Nat
  layout : Layout n
  names : List (List Byte)
  freeList : FreeList st.heap free
  holds : Holds st.heap.memory layout
  table : Names st.heap.memory layout st.symtab names

variable {n : Nat}

namespace World

def heap (w : World n) : HeapState := w.st.heap

def memory (w : World n) : MemoryState := w.st.heap.memory

/-- The cell is not free, and it holds `c`. -/
structure Has (w : World n) (i : Nat) (c : ConsCell) : Prop where
  used : i ∉ w.free
  lt : i < w.heap.heapSize
  cell : w.heap.cell i = c

end World

/-- `w'` is `w` after allocations. -/
structure Grown (w w' : World n) : Prop where
  free : w'.free <:+ w.free
  cell : ∀ i, i ∉ w.free → w'.heap.cell i = w.heap.cell i
  size : w'.heap.heapSize = w.heap.heapSize
  length : w'.heap.heap.length = w.heap.heap.length
  memory : Later w.memory w.layout w'.memory w'.layout
  names : w.names <:+ w'.names

namespace Grown

variable {w w' w'' : World n}

theorem refl (w : World n) : Grown w w :=
  ⟨List.suffix_refl _, fun _ _ => rfl, rfl, rfl, Later.refl _ _, List.suffix_refl _⟩

theorem trans (h₁ : Grown w w') (h₂ : Grown w' w'') : Grown w w'' := by
  refine ⟨h₂.free.trans h₁.free, fun i hi => ?_, ?_, ?_, h₁.memory.trans h₂.memory,
    h₁.names.trans h₂.names⟩
  · rw [h₂.cell i fun h => hi (h₁.free.subset h), h₁.cell i hi]
  · rw [h₂.size, h₁.size]
  · rw [h₂.length, h₁.length]

theorem has (h : Grown w w') {i : Nat} {c : ConsCell} (hc : w.Has i c) : w'.Has i c := by
  refine ⟨fun hi => hc.used (h.free.subset hi), ?_, ?_⟩
  · rw [h.size]
    exact hc.lt
  · rw [h.cell i hc.used, hc.cell]

end Grown

/-! ## Encodings -/

/-- The array that holds a text and its NUL. -/
structure HoldsArray (m : MemoryState) (b : Block) (text : List Byte) : Prop where
  type : wordAt m b.start = valTypeChar
  size : wordAt m (b.start + 1) = BitVec.ofNat 32 (text.length + 1)
  short : text.length + 1 < 2 ^ 32
  fits : text.length + 8 < 4 * b.len
  text : HoldsText m (4 * (b.start + 2)) text

/-- An immediate value that is not an entered name. -/
structure Immediate (v : VALUE) : Prop where
  notPtr : isPtr v = false
  unmarked : valGetGcMark v = false
  special : typeOf v = valTypeSymbol → decSym v < maxSpecialSymbols

/-- The value is the expression. -/
inductive Encodes (w : World n) : VALUE → Sexp → Prop where
  | atom {v : VALUE} (hv : Immediate v) : Encodes w v (.atom v)
  | name {newer older : List (List Byte)} {text : List Byte}
      (hnames : w.names = newer ++ text :: older) :
      Encodes w (encSym (symbolId older.length)) (.name text)
  | boxed {p : VALUE} {i : Nat} {k : Boxed} {x : UINT} (hp : PtrWord p k.ptrType i)
      (hi : w.Has i ⟨x, encSym k.typeSymbol⟩) : Encodes w p (.boxed k x)
  | string {p : VALUE} {i : Nat} {b : Block} {text : List Byte} (hp : PtrWord p ptrTypeArray i)
      (hi : w.Has i ⟨byteAddr w.memory (4 * b.start), encSym defReprArrayType⟩)
      (hb : b ∈ w.layout.blocks) (htext : HoldsArray w.memory b text) : Encodes w p (.string text)
  | pair {p : VALUE} {i : Nat} {c : ConsCell} {a d : Sexp} (hp : PtrWord p ptrTypeCons i)
      (hi : w.Has i c) (ha : Encodes w c.car a) (hd : Encodes w c.cdr d) :
      Encodes w p (.pair a d)

variable {w w' : World n} {v : VALUE} {e : Sexp}

theorem HoldsArray.later {m m' : MemoryState} {L L' : Layout n} {b : Block} {text : List Byte}
    (h : Later m L m' L') (hb : b ∈ L.blocks) (ht : HoldsArray m b text) :
    HoldsArray m' b text := by
  have hfits := ht.fits
  have hcov : ∀ i, i < 2 → L.Covered (b.start + i) := by
    intro i hi
    refine ⟨b, hb, Nat.le_add_right _ _, ?_⟩
    rw [Block.last]
    omega
  refine ⟨?_, ?_, ht.short, hfits, ht.text.congr fun j hj => h.byteAt hb ?_ ?_⟩
  · rw [h.word b.start (hcov 0 (by decide)), ht.type]
  · rw [h.word _ (hcov 1 (by decide)), ht.size]
  · omega
  · omega

/-- An expression stays where it is. -/
theorem Encodes.grown (hg : Grown w w') (h : Encodes w v e) : Encodes w' v e := by
  induction h with
  | atom hv => exact .atom hv
  | @name newer older text hnames =>
    obtain ⟨more, hmore⟩ := hg.names
    refine @Encodes.name _ _ (more ++ newer) _ _ ?_
    rw [← hmore, hnames, List.append_assoc]
  | boxed hp hi => exact .boxed hp (hg.has hi)
  | string hp hi hb htext =>
    refine .string hp ?_ (hg.memory.blocks _ hb) (htext.later hg.memory hb)
    rw [hg.memory.same.byteAddr]
    exact hg.has hi
  | pair hp hi _ _ iha ihd => exact .pair hp (hg.has hi) iha ihd

/-! ### Values of each kind -/

/-- An immediate symbol is the symbol of its number. -/
theorem Immediate.eq_encSym (hv : Immediate v) (ht : typeOf v = valTypeSymbol) :
    v = encSym (decSym v) := by
  have hbits : v &&& 15#32 = 0#32 := by
    have hp : v &&& ptrMask = 0#32 := by simpa [isPtr] using hv.notPtr
    have hm : v &&& gcMask = 0#32 := by simpa [valGetGcMark] using hv.unmarked
    have hty : v &&& valTypeMask = 0#32 := by
      rw [typeOf, hv.notPtr] at ht
      exact ht
    have hsplit : (15#32 : VALUE) = ptrMask ||| gcMask ||| valTypeMask := by decide
    rw [hsplit, BitVec.and_or_distrib_left, BitVec.and_or_distrib_left, hp, hm, hty]
    decide
  have hlow : ∀ i (hi : i < 32), i < 4 → v[i] = false := by
    intro i hi hlt
    have := congrArg (fun x : VALUE => x.getLsbD i) hbits
    simp only [BitVec.getLsbD_eq_getElem hi, BitVec.getElem_and] at this
    interval_cases i <;> simpa using this
  ext i hi
  simp only [encSym, decSym, valTypeSymbol]
  interval_cases i <;> simp [hlow]

theorem immediate_encSym {s : UINT} (hs : s < maxSpecialSymbols) : Immediate (encSym s) := by
  have hlt : s.toNat < 4096 := hs
  refine ⟨isPtr_encSym s, (wfValue_encSym (fun _ => none) s).unmarked, fun _ => ?_⟩
  rw [decSym_encSym (by omega)]
  exact hs

theorem encodes_sym {s : UINT} (hs : s < maxSpecialSymbols) : Encodes w (encSym s) (.sym s) :=
  .atom (immediate_encSym hs)

theorem encodes_nil : Encodes w NIL .nil := encodes_sym (by decide)

theorem encodes_rerror : Encodes w (encSym symreprRerror) .rerror := encodes_sym (by decide)

theorem ptrType_ne_symbol (k : Boxed) : k.ptrType ≠ valTypeSymbol := by
  cases k <;> decide

theorem ptrType_ne_cons (k : Boxed) : k.ptrType ≠ ptrTypeCons := by
  cases k <;> decide

theorem World.toNat_symbolId {newer older : List (List Byte)} {text : List Byte}
    (h : w.names = newer ++ text :: older) :
    (symbolId older.length).toNat = 4096 + older.length ∧ 4096 + older.length < 2 ^ 28 := by
  have hlen := w.table.five_mul_length_le
  have hn := w.holds.represents.addressable
  rw [h, List.length_append, List.length_cons] at hlen
  exact ⟨symbolId_toNat (by omega), by omega⟩

/-- The tests for one of the special symbols are right. -/
theorem Encodes.isSymbolOf_eq (h : Encodes w v e) {s : UINT} (hs : s < maxSpecialSymbols) :
    isSymbolOf s v = decide (e = .sym s) := by
  have hlt : s.toNat < 4096 := hs
  cases h with
  | atom hv =>
    by_cases ht : typeOf v = valTypeSymbol
    · have heq := hv.eq_encSym ht
      have hiff : v = encSym s ↔ decSym v = s := by
        refine ⟨fun h => ?_, fun h => ?_⟩
        · rw [h, decSym_encSym (by omega)]
        · rw [heq, h]
      simp only [isSymbolOf, ht, beq_self_eq_true, Bool.true_and, Sexp.sym, Sexp.atom.injEq, hiff]
      rw [Bool.eq_iff_iff]
      simp
    · have hne : v ≠ encSym s := by
        rintro rfl
        exact ht (typeOf_encSym s)
      simp [isSymbolOf, ht, Sexp.sym, hne]
  | @name newer older text hnames =>
    obtain ⟨hid, hsmall⟩ := World.toNat_symbolId hnames
    have hne : decSym (encSym (symbolId older.length)) ≠ s := by
      rw [decSym_encSym (by omega)]
      intro heq
      rw [heq] at hid
      omega
    simp [isSymbolOf, hne, Sexp.sym]
  | boxed hp _ =>
    simp [isSymbolOf, hp.typeOf, ptrType_ne_symbol, Sexp.sym]
  | string hp _ _ _ =>
    have hne : ¬ptrTypeArray = valTypeSymbol := by decide
    simp [isSymbolOf, hp.typeOf, hne, Sexp.sym]
  | pair hp _ _ _ =>
    have hne : ¬ptrTypeCons = valTypeSymbol := by decide
    simp [isSymbolOf, hp.typeOf, hne, Sexp.sym]

def Sexp.isPair : Sexp → Bool
  | .pair _ _ => true
  | _ => false

theorem Encodes.typeOf_eq_cons (h : Encodes w v e) : (typeOf v == ptrTypeCons) = e.isPair := by
  cases h with
  | atom hv =>
    have hne : typeOf v ≠ ptrTypeCons := fun h => by
      have := isPtr_of_typeOf_cons h
      rw [hv.notPtr] at this
      exact absurd this (by decide)
    simp [hne, Sexp.isPair]
  | name _ =>
    have hne : ¬valTypeSymbol = ptrTypeCons := by decide
    simp [hne, Sexp.isPair]
  | boxed hp _ => simp [hp.typeOf, ptrType_ne_cons, Sexp.isPair]
  | string hp _ _ _ =>
    have hne : ¬ptrTypeArray = ptrTypeCons := by decide
    simp [hp.typeOf, hne, Sexp.isPair]
  | pair hp _ _ _ => simp [hp.typeOf, Sexp.isPair]

theorem Encodes.pair_inv {a d : Sexp} (h : Encodes w v (.pair a d)) :
    PtrWord v ptrTypeCons (ptrIx v) ∧ w.Has (ptrIx v) ⟨car w.heap v, cdr w.heap v⟩
      ∧ Encodes w (car w.heap v) a ∧ Encodes w (cdr w.heap v) d := by
  cases h with
  | @pair _ i c _ _ hp hi ha hd =>
    have hix := hp.ptrIx
    have hcar : car w.heap v = c.car := by
      have hne : ¬ptrTypeCons = valTypeSymbol := by decide
      rw [car, hp.typeOf, hp.isPtr]
      rw [if_neg (by simp [hne]), if_pos rfl, refCell, hix, hi.cell]
    have hcdr : cdr w.heap v = c.cdr := by
      rw [cdr_of_typeOf_cons hp.typeOf, refCell, hix, hi.cell]
    rw [hcar, hcdr, hix]
    exact ⟨hp, hi, ha, hd⟩

/-! ### The depth of an expression -/

theorem Sexp.depth_of_not_pair (h : e.isPair = false) : e.depth = 0 := by
  cases e with
  | pair a d => exact absurd h (by simp [Sexp.isPair])
  | _ => rfl

/-- A value is one expression, at least as far as its cells go. -/
theorem Encodes.depth_unique (h : Encodes w v e) : ∀ {e' : Sexp}, Encodes w v e' →
    e'.depth = e.depth := by
  have hleaf : ∀ {v e e'}, e.isPair = false → Encodes w v e → Encodes w v e' →
      e'.depth = e.depth := by
    intro v e e' hp h h'
    have hp' : e'.isPair = false := by
      rw [← h'.typeOf_eq_cons, h.typeOf_eq_cons, hp]
    rw [Sexp.depth_of_not_pair hp, Sexp.depth_of_not_pair hp']
  induction h with
  | atom hv => intro e' h'; exact hleaf rfl (.atom hv) h'
  | name hnames => intro e' h'; exact hleaf rfl (.name hnames) h'
  | boxed hp hi => intro e' h'; exact hleaf rfl (.boxed hp hi) h'
  | string hp hi hb ht => intro e' h'; exact hleaf rfl (.string hp hi hb ht) h'
  | @pair p i c a d hp hi ha hd iha ihd =>
    intro e' h'
    have hpair : e'.isPair = true := by
      rw [← h'.typeOf_eq_cons, hp.typeOf]
      decide
    cases h' with
    | @pair _ j c' a' d' hp' hi' ha' hd' =>
      obtain rfl : i = j := by rw [← hp.ptrIx, hp'.ptrIx]
      obtain rfl : c = c' := by rw [← hi.cell, hi'.cell]
      rw [Sexp.depth, Sexp.depth, iha ha', ihd hd']
    | _ => exact absurd hpair (by simp [Sexp.isPair])

/-- The cells of the pairs of an expression. -/
def cellsOf (h : HeapState) : VALUE → Sexp → Finset Nat
  | v, .pair a d => insert (ptrIx v) (cellsOf h (car h v) a ∪ cellsOf h (cdr h v) d)
  | _, _ => ∅

theorem Encodes.of_mem_cellsOf : ∀ {e : Sexp} {v : VALUE} {i : Nat}, Encodes w v e →
    i ∈ cellsOf w.heap v e →
    ∃ v' a d, Encodes w v' (.pair a d) ∧ ptrIx v' = i ∧ (Sexp.pair a d).depth ≤ e.depth := by
  intro e
  induction e with
  | pair a d iha ihd =>
    intro v i h hi
    obtain ⟨-, -, ha, hd⟩ := h.pair_inv
    rw [cellsOf, Finset.mem_insert, Finset.mem_union] at hi
    rcases hi with rfl | hi | hi
    · exact ⟨v, a, d, h, rfl, le_refl _⟩
    · obtain ⟨v', a', d', h', hix, hle⟩ := iha ha hi
      refine ⟨v', a', d', h', hix, hle.trans ?_⟩
      show a.depth ≤ max a.depth d.depth + 1
      omega
    · obtain ⟨v', a', d', h', hix, hle⟩ := ihd hd hi
      refine ⟨v', a', d', h', hix, hle.trans ?_⟩
      show d.depth ≤ max a.depth d.depth + 1
      omega
  | _ => intro v i _ hi; exact absurd hi (by simp [cellsOf])

/-- No cell is above itself: an expression is not deeper than it has cells. -/
theorem Encodes.depth_le_card : ∀ {e : Sexp} {v : VALUE}, Encodes w v e →
    e.depth ≤ (cellsOf w.heap v e).card := by
  intro e
  induction e with
  | pair a d iha ihd =>
    intro v h
    obtain ⟨hp, hi, ha, hd⟩ := h.pair_inv
    have hfresh : ∀ {v' e'}, e'.depth ≤ max a.depth d.depth → Encodes w v' e' →
        ptrIx v ∉ cellsOf w.heap v' e' := by
      intro v' e' hle he' hmem
      obtain ⟨u, a', d', hu, hix, hdepth⟩ := he'.of_mem_cellsOf hmem
      -- the two pairs are the same cell
      obtain ⟨hpu, hiu, hau, hdu⟩ := hu.pair_inv
      have hcell : (⟨car w.heap u, cdr w.heap u⟩ : ConsCell) = ⟨car w.heap v, cdr w.heap v⟩ := by
        rw [← hiu.cell, ← hi.cell, hix]
      obtain ⟨hcar, hcdr⟩ := ConsCell.mk.injEq .. ▸ hcell
      rw [hcar] at hau
      rw [hcdr] at hdu
      have h₁ := ha.depth_unique hau
      have h₂ := hd.depth_unique hdu
      rw [Sexp.depth, h₁, h₂] at hdepth
      omega
    rw [cellsOf, Finset.card_insert_of_notMem, Sexp.depth]
    · have h₁ := (iha ha).trans
        (Finset.card_le_card (@Finset.subset_union_left _ _ _ (cellsOf w.heap (cdr w.heap v) d)))
      have h₂ := (ihd hd).trans
        (Finset.card_le_card (@Finset.subset_union_right _ _ (cellsOf w.heap (car w.heap v) a) _))
      omega
    · rw [Finset.mem_union]
      rintro (hmem | hmem)
      · exact hfresh (le_max_left _ _) ha hmem
      · exact hfresh (le_max_right _ _) hd hmem
  | _ => intro v _; exact Nat.zero_le _

/-- The walks over an expression end within `walkFuel`. -/
theorem Encodes.depth_lt_walkFuel (h : Encodes w v e) : e.depth < walkFuel w.heap := by
  have hsub : cellsOf w.heap v e ⊆ Finset.range w.heap.heapSize := by
    intro i hi
    obtain ⟨v', a, d, h', rfl, -⟩ := h.of_mem_cellsOf hi
    exact Finset.mem_range.mpr h'.pair_inv.2.1.lt
  have hcard := Finset.card_le_card hsub
  rw [Finset.card_range] at hcard
  have hfits : w.heap.heapSize ≤ w.heap.heap.length := w.freeList.fits
  have hdepth := h.depth_le_card
  rw [walkFuel]
  omega

end Tokpar

end LispBM
