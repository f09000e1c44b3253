import LispBM.Arrays.Allocation
import LispBM.Symrepr.Intern

/-!
# LispBM — what the parser makes of a token

A token becomes a value in a world: at once, in a cell, in an array or as a name in the symbol
table. `Spends` counts the cells that were taken and bounds the words of memory; as long as there
is a run of free words, allocations take no more from it than they need.

* `World.exists_cons` — a cell;
* `parseSymbol_encodes`, `parseString_encodes`, `parseBoxed_encodes` — names, strings and numbers.
-/

namespace LispBM

namespace Tokpar

open BlockLayout
open BitBuffer (Byte)

variable {n : Nat} {w w' w'' : World n}

/-! ## What a construction takes -/

/-- There is a run of `m` free words. -/
def World.Room (w : World n) (m : Nat) : Prop := ∃ r len, FreeRun w.layout r len ∧ m ≤ len

/-- `w'` is `w` after `cells` cells were taken, and there is a run of `m` free words left. -/
structure Spends (w w' : World n) (cells m : Nat) : Prop where
  grown : Grown w w'
  enough : cells ≤ w.free.length
  free : w'.free = w.free.drop cells
  room : w'.Room m

theorem World.Room.mono {a b : Nat} (h : w.Room b) (hab : a ≤ b) : w.Room a := by
  obtain ⟨r, len, hrun, hle⟩ := h
  exact ⟨r, len, hrun, hab.trans hle⟩

theorem Spends.refl {m : Nat} (hroom : w.Room m) : Spends w w 0 m :=
  ⟨Grown.refl w, Nat.zero_le _, rfl, hroom⟩

theorem Spends.trans {a b c d : Nat} (h₁ : Spends w w' a b) (h₂ : Spends w' w'' c d) :
    Spends w w'' (a + c) d := by
  have ha := h₁.enough
  have hc := h₂.enough
  rw [h₁.free, List.length_drop] at hc
  refine ⟨h₁.grown.trans h₂.grown, by omega, ?_, h₂.room⟩
  rw [h₂.free, h₁.free, List.drop_drop]

theorem Spends.length_free {a b : Nat} (h : Spends w w' a b) :
    w'.free.length = w.free.length - a := by
  rw [h.free, List.length_drop]

/-- The value of the expression `e` was made. -/
def Makes (w : World n) (r : Option (VALUE × ReaderState)) (e : Sexp) (cells m : Nat) : Prop :=
  ∃ v w', r = some (v, w'.st) ∧ Encodes w' v e ∧ Spends w w' cells m

/-! ## Cells -/

/-- A cell is taken from the free list and filled. -/
theorem World.exists_cons (w : World n) (hfree : 1 ≤ w.free.length) {m : Nat} (hroom : w.Room m)
    (a d : VALUE) :
    ∃ i w', LispBM.cons a d w.st.heap = (cellPtr i, w'.st.heap) ∧ w'.st.symtab = w.st.symtab
      ∧ i < 2 ^ 23 ∧ w'.Has i ⟨a, d⟩ ∧ Spends w w' 1 m := by
  obtain ⟨i, l, hl⟩ := List.exists_cons_of_length_pos hfree
  have hw := w.freeList
  rw [hl] at hw
  obtain ⟨h', hc⟩ := hw.conses a d
  have haddr := hw.addressable
  have hlt := hc.lt
  have hmem : h'.memory = w.st.heap.memory := by
    have hty : typeOf w.st.heap.freelist = ptrTypeCons := by
      rcases hw.cases with ⟨-, hnil⟩ | ⟨j, l', -, hfl, hj, -⟩
      · exact absurd hnil (by simp)
      · rw [hfl]
        exact typeOf_cellPtr (by omega)
    have heq := cons_of_cons hty a d
    rw [hc.eq] at heq
    rw [(Prod.mk.inj heq).2]
    rfl
  have hcell : h'.cell i = ⟨a, d⟩ := by
    have hcar := hc.car
    have hcdr := hc.cdr
    rw [car_of_isPtr (isPtr_of_typeOf_cons hc.type), hc.ix] at hcar
    rw [cdr_of_isPtr (isPtr_of_typeOf_cons hc.type), if_pos hc.type, hc.ix] at hcdr
    rw [← hcar, ← hcdr]
  let w' : World n :=
    { st := ⟨h', w.st.symtab⟩, free := l, layout := w.layout, names := w.names
      freeList := hc.free
      holds := by
        show Holds h'.memory w.layout
        rw [hmem]
        exact w.holds
      table := by
        show Names h'.memory w.layout w.st.symtab w.names
        rw [hmem]
        exact w.table }
  have hdrop : l = w.free.drop 1 := by rw [hl]; rfl
  have hlater : Later w.memory w.layout h'.memory w.layout := by
    rw [hmem]
    exact Later.refl _ _
  have hsuffix : l <:+ w.free := by
    rw [hl]
    exact List.suffix_cons _ _
  have hlt' : i < h'.heapSize := by
    rw [hc.size]
    exact hlt
  have hgrown : Grown w w' := ⟨hsuffix, fun j hj => hc.kept j (by rw [← hl]; exact hj), hc.size,
    hc.length, hlater, List.suffix_refl _⟩
  exact ⟨i, w', hc.eq, rfl, by omega, ⟨hc.fresh, hlt', hcell⟩, hgrown, hfree, hdrop, hroom⟩

/-- A pair of expressions. -/
theorem World.cons_encodes (w : World n) (hfree : 1 ≤ w.free.length) {m : Nat} (hroom : w.Room m)
    {a d : VALUE} {ea ed : Sexp} (ha : Encodes w a ea) (hd : Encodes w d ed) :
    ∃ v w', LispBM.cons a d w.st.heap = (v, w'.st.heap) ∧ w'.st.symtab = w.st.symtab
      ∧ Encodes w' v (.pair ea ed) ∧ Spends w w' 1 m := by
  obtain ⟨i, w', hcons, hsym, hi, hhas, hsp⟩ := w.exists_cons hfree hroom a d
  refine ⟨_, w', hcons, hsym, ?_, hsp⟩
  exact .pair (ptrWord_cellPtr hi) hhas (ha.grown hsp.grown) (hd.grown hsp.grown)

/-- `cons(a, cons(b, nil))`. -/
theorem World.consTwo_encodes (w : World n) (hfree : 2 ≤ w.free.length) {m : Nat} (hroom : w.Room m)
    {a b : VALUE} {ea eb : Sexp} (ha : Encodes w a ea) (hb : Encodes w b eb) :
    ∃ v w', consTwo a b w.st.heap = (v, w'.st.heap) ∧ w'.st.symtab = w.st.symtab
      ∧ Encodes w' v (.list [ea, eb]) ∧ Spends w w' 2 m := by
  obtain ⟨v₁, w₁, hcons₁, hsym₁, henc₁, hsp₁⟩ := w.cons_encodes (by omega) hroom hb encodes_nil
  have hfree₁ := hsp₁.length_free
  obtain ⟨v₂, w₂, hcons₂, hsym₂, henc₂, hsp₂⟩ :=
    w₁.cons_encodes (by omega) hsp₁.room (ha.grown hsp₁.grown) henc₁
  refine ⟨v₂, w₂, ?_, hsym₂.trans hsym₁, henc₂, hsp₁.trans hsp₂⟩
  show LispBM.cons a (LispBM.cons b NIL w.st.heap).1 (LispBM.cons b NIL w.st.heap).2 = _
  rw [hcons₁]
  exact hcons₂

/-- An allocation as the parser makes it. -/
theorem alloc_eq {f : HeapState → VALUE × HeapState} {v : VALUE}
    (hf : f w.st.heap = (v, w'.st.heap)) (hsym : w'.st.symtab = w.st.symtab) :
    w.st.alloc f = (v, w'.st) := by
  unfold ReaderState.alloc
  rw [hf, ← hsym]

/-! ## Numbers -/

theorem parseBoxed_encodes (w : World n) (hfree : 1 ≤ w.free.length) {m : Nat} (hroom : w.Room m)
    (k : Boxed) (x : UINT) :
    Makes w (some (parseBoxed k.typeSymbol k.ptrType x w.st)) (.boxed k x) 1 m := by
  obtain ⟨i, w', hcons, hsym, hi, hhas, hsp⟩ := w.exists_cons hfree hroom x (encSym k.typeSymbol)
  have hmask : k.ptrType &&& ptrTypeMask = k.ptrType := by cases k <;> decide
  have hp := ptrWord_setPtrType (cellPtr i) hmask
  rw [ptrIx_cellPtr hi] at hp
  refine ⟨setPtrType (cellPtr i) k.ptrType, w', congrArg some (alloc_eq ?_ hsym),
    .boxed hp hhas, hsp⟩
  show (setPtrType (LispBM.cons _ _ _).1 _, (LispBM.cons _ _ _).2) = _
  rw [hcons]

/-! ## Names -/

/-- The expression of a name: one of the special symbols, or a name that is in the table. -/
def nameSexp (text : List Byte) : Sexp :=
  match specialId text with
  | some id => .sym id
  | none => .name text

/-- The words that a name needs if it is new. -/
def nameWords (text : List Byte) : Nat := if (specialId text).isSome then 0 else text.length + 4

theorem findName_newer {text : List Byte} : ∀ {names : List (List Byte)} {id : UINT},
    findName text names = some id →
    ∃ newer older, names = newer ++ text :: older ∧ id = symbolId older.length := by
  intro names
  induction names with
  | nil =>
    intro id h
    exact absurd h (by simp [findName])
  | cons t ts ih =>
    intro id h
    rw [findName] at h
    by_cases ht : text = t
    · rw [if_pos ht] at h
      exact ⟨[], ts, by rw [ht]; rfl, (Option.some.inj h).symm⟩
    · rw [if_neg ht] at h
      obtain ⟨newer, older, rfl, hid⟩ := ih h
      exact ⟨t :: newer, older, rfl, hid⟩

/-- **A name** is looked up, or entered. -/
theorem parseSymbol_encodes (w : World n) {text : List Byte} (hne : text ≠ [])
    (hnul : ∀ c ∈ text, c ≠ 0#8) {m : Nat} (hroom : w.Room (nameWords text + m)) :
    Makes w (parseSymbol text w.st) (nameSexp text) 0 m := by
  have hlookup := symreprLookup_eq w.holds w.table text
  have hkeep : Spends w w 0 m := .refl (hroom.mono (Nat.le_add_left _ _))
  unfold parseSymbol nameSexp
  cases hs : specialId text with
  | some id =>
    rw [hs] at hlookup
    refine ⟨encSym id, w, ?_, encodes_sym (specialId_lt hs), hkeep⟩
    simp only [hlookup, Option.bind_eq_bind, Option.bind_some]
  | none =>
    rw [hs] at hlookup
    cases hf : findName text w.names with
    | some id =>
      obtain ⟨newer, older, hnames, rfl⟩ := findName_newer hf
      refine ⟨_, w, ?_, .name hnames, hkeep⟩
      simp only [hlookup, hf, Option.bind_eq_bind, Option.bind_some]
    | none =>
      obtain ⟨r, len, hrun, hle⟩ := hroom
      rw [nameWords, hs, if_neg (by decide)] at hle
      obtain ⟨m', st', L', hadd, hm', hlater, hnames, hleft⟩ := symreprAddsym_eq w.holds w.table hne
        hnul hs (findName_eq_none.mp hf) hrun (by omega)
      let w' : World n :=
        { st := ⟨{ w.st.heap with memory := m' }, st'⟩, free := w.free, layout := L'
          names := text :: w.names
          freeList := ⟨w.freeList.chain.congr rfl fun _ _ => rfl, w.freeList.nodup,
            w.freeList.fits, w.freeList.addressable⟩
          holds := hm'
          table := hnames }
      have hgrown : Grown w w' :=
        ⟨List.suffix_refl _, fun _ _ => rfl, rfl, rfl, hlater, List.suffix_cons _ _⟩
      refine ⟨_, w', ?_, @Encodes.name _ w' [] w.names text rfl, hgrown, Nat.zero_le _, rfl,
        ⟨_, _, hleft, by omega⟩⟩
      simp only [hlookup, hf, hadd, Option.bind_eq_bind, Option.bind_some]
      rfl

/-! ## Strings -/

/-- The words of the array of a text. -/
def stringWords (text : List Byte) : Nat := 2 + (text.length + 4) / 4

/-- **A string** has its array. -/
theorem parseString_encodes (w : World n) (hfree : 1 ≤ w.free.length) {text : List Byte}
    (hnul : ∀ c ∈ text, c ≠ 0#8) {m : Nat} (hroom : w.Room (stringWords text + m)) :
    Makes w (parseString text w.st) (.string text) 1 m := by
  obtain ⟨r, len, hrun, hle⟩ := hroom
  rw [stringWords] at hle
  have haddr := w.holds.represents.addressable
  have hinside := hrun.inside
  have hshort : text.length + 1 < 2 ^ 32 := by omega
  have hwords := @blockWords_text text hshort
  obtain ⟨i, l, hl⟩ := List.exists_cons_of_length_pos hfree
  have hw := w.freeList
  rw [hl] at hw
  rw [blockWords] at hwords
  obtain ⟨b, m₁, L', hall, hleft⟩ := w.holds.allocate
    (k := 2#32 + allocateSize valTypeChar (BitVec.ofNat 32 text.length + 1#32)) (by omega) hrun
    (by omega)
  rw [hwords] at hleft
  obtain ⟨memory, hmemory, hres, hword, hlater⟩ := heapAllocateArray_filled hw hall not_wraps_char
  obtain ⟨hfree', hi, hkept⟩ := filledArray_takes hw (byteAddr w.st.heap.memory (4 * b.start))
    { m₁ with memory := memory }
  have hholds := hall.holds.of_memory memory hmemory
  have hcells := hw.addressable
  have hv := ptrWord_or_array (i := i) (by omega)
  have hlen : b.len = 2 + (text.length + 4) / 4 := by
    rw [← hwords]
    exact hall.len
  have hin := hholds.lt_length hall.mem (i := b.start + b.len - 1) (by omega)
  have hbytes : (text ++ [0#8]).length = text.length + 1 := by simp
  -- the text goes behind the two words of the header
  obtain ⟨m₃, hwrite, hw₃⟩ := @Region.writeBytes_byteAddr (text ++ [0#8]) _ (4 * b.start + 8)
    hholds.region (by omega)
  have haddr' : byteAddr w.st.heap.memory (4 * b.start) + 8#32
      = byteAddr { m₁ with memory := memory } (4 * b.start + 8) := by
    rw [hlater.same.byteAddr]
    exact byteAddr_add w.st.heap.memory (4 * b.start) 8
  have hlater₃ : Later w.st.heap.memory w.layout m₃ L' := by
    apply Later.write hlater hall.fresh hw₃.sameRegion
    intro j hj
    apply hw₃.word
    rw [Block.Covers, Block.last] at hj
    omega
  have hholds₃ : Holds m₃ L' := by
    rw [hw₃.only]
    exact hholds.of_memory _ hw₃.length
  let h' : HeapState := { filledArray w.st.heap i (byteAddr w.st.heap.memory (4 * b.start))
    { m₁ with memory := memory } with memory := m₃ }
  let w' : World n :=
    { st := ⟨h', w.st.symtab⟩, free := l, layout := L', names := w.names
      freeList := ⟨hfree'.chain.congr rfl fun _ _ => rfl, hfree'.nodup, hfree'.fits,
        hfree'.addressable⟩
      holds := hholds₃
      table := w.table.later hlater₃ }
  have hdrop : l = w.free.drop 1 := by rw [hl]; rfl
  have hsuffix : l <:+ w.free := by
    rw [hl]
    exact List.suffix_cons _ _
  have hgrown : Grown w w' := ⟨hsuffix, fun j hj => hkept j (by rw [← hl]; exact hj), rfl,
    setCell_heap_length _ _ _, hlater₃, List.suffix_refl _⟩
  have hcell := filledArray_cell hw (byteAddr w.st.heap.memory (4 * b.start))
    { m₁ with memory := memory }
  have hhas : w'.Has i ⟨byteAddr w'.memory (4 * b.start), encSym defReprArrayType⟩ := by
    refine ⟨(List.nodup_cons.mp hw.nodup).1, hi, ?_⟩
    show h'.cell i = ⟨byteAddr m₃ (4 * b.start), _⟩
    rw [hlater₃.same.byteAddr]
    exact hcell
  have harray : HoldsArray m₃ b text := by
    refine ⟨?_, ?_, hshort, by omega, hw₃.holdsText hnul⟩
    · rw [hw₃.word _ (.inl (by omega)), hword, if_neg (by omega), if_pos rfl]
    · rw [hw₃.word _ (.inl (by omega)), hword, if_pos rfl]
      apply BitVec.eq_of_toNat_eq
      rw [toNat_ofNat_add_one hshort, BitVec.toNat_ofNat, Nat.mod_eq_of_lt hshort]
  refine ⟨_, w', ?_, .string hv hhas hall.mem harray, hgrown, hfree, hdrop,
    ⟨_, _, hleft, by omega⟩⟩
  unfold parseString
  simp only [hres, Option.bind_eq_bind, Option.bind_some]
  rw [car_of_ptrWord hv, hcell, haddr']
  show (writeBytes { m₁ with memory := memory } _ _).bind _ = _
  rw [hwrite]
  rfl

end Tokpar

end LispBM
