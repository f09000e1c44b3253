import LispBM.Heap.Run
import LispBM.Tokpar.Building

/-!
# LispBM — texts and the programs in them

Every text has one tree of tokens, `textTrees`, and stands for one list of expressions. A system
that was started reads text after text: what it returns for one of them is still the same list of
expressions after it has read the others.

* `treeProgram_total` — a text is read to its end;
* `tokparParse_builds` — reading a text builds its expressions;
* `readTexts_builds` — reading texts one after the other.
-/

namespace LispBM

namespace Tokpar

open BlockLayout
open BitBuffer (Byte)
open Compression (CString)

/-! ## The tree of a text -/

section Fuel

variable {σ : Type} {next : σ → Option (Token × σ)}

/-- More fuel reads the same tree. -/
theorem treeSexp_mono : ∀ k,
    (∀ {m t s r}, k ≤ m → treeSexp next k t s = some r → treeSexp next m t s = some r)
    ∧ (∀ {m t s r}, k ≤ m → treeSexpList next k t s = some r →
      treeSexpList next m t s = some r) := by
  intro k
  induction k with
  | zero =>
    exact ⟨fun _ h => absurd h (by simp [treeSexp]), fun _ h => absurd h (by simp [treeSexpList])⟩
  | succ k ih =>
    obtain ⟨hsexp, hlist⟩ := ih
    refine ⟨fun {m t s r} hm h => ?_, fun {m t s r} hm h => ?_⟩
    · obtain ⟨m, rfl⟩ : ∃ j, m = j + 1 := Nat.exists_eq_succ_of_ne_zero (by omega)
      have hkm : k ≤ m := Nat.le_of_succ_le_succ hm
      rw [treeSexp] at h ⊢
      cases hshape : t.shape with
      | value f =>
        rw [hshape] at h
        exact h
      | list =>
        simp only [hshape] at h ⊢
        obtain ⟨⟨u, s₁⟩, hnext, h⟩ := Option.bind_eq_some_iff.mp h
        obtain ⟨⟨es, s₂⟩, hes, h⟩ := Option.map_eq_some_iff.mp h
        simp only [hnext, Option.bind_some, hlist hkm hes]
        exact congrArg some h
      | form f =>
        simp only [hshape] at h ⊢
        obtain ⟨⟨u, s₁⟩, hnext, h⟩ := Option.bind_eq_some_iff.mp h
        obtain ⟨⟨e, s₂⟩, he, h⟩ := Option.map_eq_some_iff.mp h
        simp only [hnext, Option.bind_some, hsexp hkm he]
        exact congrArg some h
    · obtain ⟨m, rfl⟩ : ∃ j, m = j + 1 := Nat.exists_eq_succ_of_ne_zero (by omega)
      have hkm : k ≤ m := Nat.le_of_succ_le_succ hm
      rw [treeSexpList] at h ⊢
      cases hends : t.endsList with
      | some v =>
        rw [hends] at h
        exact h
      | none =>
        simp only [hends] at h ⊢
        obtain ⟨⟨head, s₁⟩, hhead, h⟩ := Option.bind_eq_some_iff.mp h
        obtain ⟨⟨u, s₂⟩, hnext, h⟩ := Option.bind_eq_some_iff.mp h
        obtain ⟨⟨tail, s₃⟩, htail, h⟩ := Option.map_eq_some_iff.mp h
        simp only [hsexp hkm hhead, Option.bind_some, hnext, hlist hkm htail]
        exact congrArg some h

end Fuel

section Texts

variable (lib : Libc)

/-- **Expressions end.** Every token but an end takes a character. -/
theorem treeSexp_total : ∀ k,
    (∀ {t s}, sexpFuel t s ≤ k → ∃ e s', treeSexp (lexNext lib) k t s = some (e, s') ∧ s' <:+ s)
    ∧ (∀ {t s}, listFuel t s ≤ k →
      ∃ e s', treeSexpList (lexNext lib) k t s = some (e, s') ∧ s' <:+ s) := by
  intro k
  induction k with
  | zero =>
    refine ⟨fun {t s} hk => ?_, fun {t s} hk => ?_⟩
    · exact absurd (lt_of_lt_of_le (sexpFuel_pos t s) hk) (Nat.lt_irrefl _)
    · exact absurd (lt_of_lt_of_le (listFuel_pos t s) hk) (Nat.lt_irrefl _)
  | succ k ih =>
    obtain ⟨hsexp, hlist⟩ := ih
    refine ⟨fun {t s} hk => ?_, fun {t s} hk => ?_⟩
    · rw [treeSexp]
      cases hshape : t.shape with
      | value f => exact ⟨_, s, rfl, List.suffix_refl s⟩
      | list =>
        have hend := isEnd_of_shape (Or.inl hshape)
        simp only [sexpFuel, hend, Bool.false_eq_true, if_false] at hk
        have hfuel := (fuel_lex lib s).2
        obtain ⟨es, s', hes, hs'⟩ := hlist (t := (lex lib s).1) (s := (lex lib s).2) (by omega)
        refine ⟨.list es, s', ?_, hs'.trans (lex_suffix lib s)⟩
        simp only [lexNext, Option.bind_some, hes, Option.map_some]
      | form f =>
        have hend := isEnd_of_shape (Or.inr ⟨f, hshape⟩)
        simp only [sexpFuel, hend, Bool.false_eq_true, if_false] at hk
        have hfuel := (fuel_lex lib s).1
        obtain ⟨e, s', he, hs'⟩ := hsexp (t := (lex lib s).1) (s := (lex lib s).2) (by omega)
        refine ⟨.marked t e, s', ?_, hs'.trans (lex_suffix lib s)⟩
        simp only [lexNext, Option.bind_some, he, Option.map_some]
    · rw [treeSexpList]
      cases hends : t.endsList with
      | some v => exact ⟨_, s, rfl, List.suffix_refl s⟩
      | none =>
        have hend := isEnd_of_endsList hends
        simp only [listFuel, hend, Bool.false_eq_true, if_false] at hk
        have ht : sexpFuel t s ≤ k := by
          simp only [sexpFuel, hend, Bool.false_eq_true, if_false]
          omega
        obtain ⟨head, s₁, hhead, hs₁⟩ := hsexp ht
        have hlen := hs₁.length_le
        have hfuel := (fuel_lex lib s₁).2
        obtain ⟨tail, s₂, htail, hs₂⟩ :=
          hlist (t := (lex lib s₁).1) (s := (lex lib s₁).2) (by omega)
        refine ⟨.item head tail, s₂, ?_, hs₂.trans ((lex_suffix lib s₁).trans hs₁)⟩
        simp only [hhead, lexNext, Option.bind_some, htail, Option.map_some]

/-- **A text is read to its end.** -/
theorem treeProgram_total {a : Nat} : ∀ {k : Nat} {s : List Byte}, 2 * s.length + 2 ≤ a →
    s.length < k → ∃ es s', treeProgram (lexNext lib) a k s = some (es, s') := by
  intro k
  induction k with
  | zero => exact fun _ hk => absurd hk (Nat.not_lt_zero _)
  | succ k ih =>
    intro s ha hk
    rw [treeProgram, lexNext, Option.bind_some]
    cases hends : (lex lib s).1.endsProgram with
    | some v =>
      simp only [hends]
      exact ⟨_, _, rfl⟩
    | none =>
      have hlt := lex_length (show lex lib s = ((lex lib s).1, (lex lib s).2) from rfl)
        (isEnd_of_endsProgram hends)
      have hfuel := (fuel_lex lib s).1
      obtain ⟨head, s₁, hhead, hs₁⟩ := (treeSexp_total lib a).1 (t := (lex lib s).1)
        (s := (lex lib s).2) (by omega)
      have hlen := hs₁.length_le
      obtain ⟨tail, s₂, htail⟩ := ih (s := s₁) (by omega) (by omega)
      refine ⟨.item head tail, s₂, ?_⟩
      simp only [hends, hhead, Option.bind_some, htail, Option.map_some]

/-- The expressions of a text, as trees of its tokens. -/
def textTrees (s : List Byte) : Trees :=
  ((treeProgram (lexNext lib) (2 * s.length + 2) (s.length + 1) s).map Prod.fst).getD (.ends .error)

theorem textTrees_spec (s : List Byte) : ∃ s',
    treeProgram (lexNext lib) (2 * s.length + 2) (s.length + 1) s = some (textTrees lib s, s') := by
  obtain ⟨es, s', h⟩ := treeProgram_total lib (a := 2 * s.length + 2) (k := s.length + 1) (s := s)
    (le_refl _) (Nat.lt_succ_self _)
  refine ⟨s', ?_⟩
  rw [h, textTrees, h]
  rfl

/-- The list of expressions that a text stands for. -/
def textSexp (s : List Byte) : Sexp := (textTrees lib s).program

def textCells (s : List Byte) : Nat := (textTrees lib s).programCells

def textWords (s : List Byte) : Nat := (textTrees lib s).words

/-- Reading is building the tree. -/
theorem tokparParse_eq_build (string : CString) (st : ReaderState) :
    tokparParse lib string st = (textTrees lib string.chars).buildProgram st := by
  obtain ⟨s', htrees⟩ := textTrees_spec lib string.chars
  rw [tokparParse_eq, parseText, parseProgram_eq, htrees]
  show (((textTrees lib string.chars).buildProgram st).bind _).bind _ = _
  cases (textTrees lib string.chars).buildProgram st with
  | none => rfl
  | some r => rfl

/-- **Reading builds what the text says**: the list of its expressions, in as many cells as it
counts, and in words that were free. -/
theorem tokparParse_builds {n : Nat} {w : World n} {m : Nat} (string : CString)
    (hfree : textCells lib string.chars ≤ w.free.length)
    (hroom : w.Room (textWords lib string.chars + m)) :
    Makes w (tokparParse lib string w.st) (textSexp lib string.chars)
      (textCells lib string.chars) m := by
  obtain ⟨s', htrees⟩ := textTrees_spec lib string.chars
  rw [tokparParse_eq_build]
  exact buildProgram_makes (treeProgram_ok lib htrees) hfree hroom

/-! ## Text after text -/

/-- Calls of `tokpar_parse` for one text after the other. -/
def readTexts : List CString → ReaderState → Option (List VALUE × ReaderState)
  | [], st => some ([], st)
  | s :: ss, st => (tokparParse lib s st).bind fun (v, st) =>
      (readTexts ss st).map fun (vs, st) => (v :: vs, st)

theorem readTexts_makes {n : Nat} : ∀ {texts : List CString} {w : World n},
    (texts.map fun s => textCells lib s.chars).sum ≤ w.free.length →
    w.Room (texts.map fun s => textWords lib s.chars).sum →
    ∃ vs w', readTexts lib texts w.st = some (vs, w'.st)
      ∧ List.Forall₂ (fun v (s : CString) => Encodes w' v (textSexp lib s.chars)) vs texts
      ∧ Spends w w' (texts.map fun s => textCells lib s.chars).sum 0 := by
  intro texts
  induction texts with
  | nil => exact fun _ hroom => ⟨[], _, rfl, .nil, .refl (hroom.mono (Nat.zero_le _))⟩
  | cons s ss ih =>
    intro w hfree hroom
    rw [List.map_cons, List.sum_cons] at hfree hroom
    obtain ⟨v, w₁, hparse, henc, hsp₁⟩ := tokparParse_builds lib s (by omega) hroom
    have hfree₁ := hsp₁.length_free
    obtain ⟨vs, w₂, hread, hall, hsp₂⟩ := ih (by omega) hsp₁.room
    -- the texts that are read later leave the expression where it is
    refine ⟨v :: vs, w₂, ?_, .cons (henc.grown hsp₂.grown) hall, ?_⟩
    · rw [readTexts, hparse]
      show (readTexts lib ss w₁.st).map _ = _
      rw [hread]
      rfl
    · rw [List.map_cons, List.sum_cons]
      exact hsp₁.trans hsp₂

end Texts

/-! ## After the start -/

theorem generateFreelistLoop_memory (h : HeapState) : ∀ k,
    (generateFreelistLoop k h).memory = h.memory := by
  intro k
  induction k with
  | zero => rfl
  | succ k ih =>
    rw [generateFreelistLoop, setCdrRaw_setCarRaw]
    exact ih

theorem heapInit_memory (cells : Nat) (malloced : List ConsCell) (memory : MemoryState) :
    (heapInit cells malloced memory).memory = memory := by
  unfold heapInit generateFreelist
  exact generateFreelistLoop_memory _ _

/-- What `memory_init`, `symrepr_init` and `heap_init` are given: managed memory in the address
space, and the uninitialised block for the cells. -/
structure Start (data dataSize bits bitsSize : UINT) (contents : List UINT)
    (malloced : List ConsCell) (m : MemoryState) : Prop where
  memory : memoryInit data dataSize bits bitsSize contents = some m
  described : bitsSize.toNat % 2 ^ 30 < 2 ^ 28
  words : m.memorySize.toNat = contents.length
  inside : data.toNat + 4 * contents.length ≤ 2 ^ 32
  aligned : data.toNat % 4 = 0
  cells : 1 ≤ malloced.length
  addressable : malloced.length ≤ 2 ^ 23

/-- The state after the start. -/
def startState (malloced : List ConsCell) (m : MemoryState) : ReaderState :=
  ⟨heapInit malloced.length malloced m, ⟨0#32, 0#32⟩⟩

variable {data dataSize bits bitsSize : UINT} {contents : List UINT} {malloced : List ConsCell}
  {m : MemoryState}

/-- After the start all cells and all words are free. -/
theorem Start.world (h : Start data dataSize bits bitsSize contents malloced m) :
    ∃ w : World m.memorySize.toNat, w.st = startState malloced m
      ∧ w.free.length = malloced.length ∧ w.names = [] ∧ w.Room m.memorySize.toNat := by
  have hinv := heapInv_heapInit h.cells h.addressable rfl m
  have hmem := heapInit_memory malloced.length malloced m
  have hholds := holds_of_memoryInit h.memory h.described h.words h.inside h.aligned
  let w : World m.memorySize.toNat :=
    { st := startState malloced m
      free := List.range' 0 malloced.length
      layout := Layout.empty _
      names := []
      freeList := ⟨hinv.freeChain, hinv.nodup, hinv.fits, hinv.addressable⟩
      holds := by
        show Holds (heapInit malloced.length malloced m).memory _
        rw [hmem]
        exact hholds
      table := ⟨⟨[], .nil, List.nodup_nil⟩, rfl, List.nodup_nil, by simp, by simp⟩ }
  refine ⟨w, rfl, List.length_range', rfl, 0, m.memorySize.toNat, ⟨?_, ?_⟩, le_refl _⟩
  · rw [Nat.zero_add]
  · rintro j - - ⟨b, hb, -⟩
    exact absurd hb (by simp [w, Layout.empty])

/-- **Reading texts.** After the start texts are read one after the other, as long as there are
enough cells and words for all of them. In the end every text's list of expressions is still what
was returned for it, and the symbol of a name is the same in all of them. -/
theorem readTexts_builds (lib : Libc) (h : Start data dataSize bits bitsSize contents malloced m)
    {texts : List CString}
    (hcells : (texts.map fun s => textCells lib s.chars).sum ≤ malloced.length)
    (hwords : (texts.map fun s => textWords lib s.chars).sum ≤ m.memorySize.toNat) :
    ∃ (vs : List VALUE) (w' : World m.memorySize.toNat),
      readTexts lib texts (startState malloced m) = some (vs, w'.st)
      ∧ List.Forall₂ (fun v (s : CString) => Encodes w' v (textSexp lib s.chars)) vs texts
      ∧ w'.names.Nodup
      ∧ w'.free.length + (texts.map fun s => textCells lib s.chars).sum = malloced.length := by
  obtain ⟨w, hst, hlen, -, hroom⟩ := h.world
  rw [← hlen] at hcells
  obtain ⟨vs, w', hread, hall, hsp⟩ := readTexts_makes lib hcells (hroom.mono hwords)
  refine ⟨vs, w', hst ▸ hread, hall, w'.table.nodup, ?_⟩
  rw [hsp.length_free, hlen]
  omega

/-- A C library that always has memory, and reads every number as zero. -/
def plainLibc : Libc := ⟨fun _ => true, fun _ => 0#32⟩

def quasiquotedText : CString := ⟨cstring "`(a ,b)", by decide, by decide⟩

def stringText : CString := ⟨cstring "(a \"b\"", by decide, by decide⟩

/-- A quasiquotation, then a list that is not closed, with 32 words and 24 cells. -/
theorem readTexts_builds_unclosed :
    ∃ (vs : List VALUE) (w' : World 32),
      readTexts plainLibc [quasiquotedText, stringText] (startState (List.replicate 24 ⟨0#32, 0#32⟩)
          ⟨[0#32, 0#32], List.replicate 32 0#32, 32#32, 2#32, 0x20000000#32⟩) = some (vs, w'.st)
      ∧ List.Forall₂ (fun v (s : CString) => Encodes w' v (textSexp plainLibc s.chars)) vs
          [quasiquotedText, stringText]
      ∧ w'.names.Nodup
      ∧ w'.free.length
          + ([quasiquotedText, stringText].map fun s => textCells plainLibc s.chars).sum
        = 24 := by
  have hstart : Start 0x20000000#32 128#32 0x20000080#32 8#32 (List.replicate 32 0#32)
      (List.replicate 24 ⟨0#32, 0#32⟩)
      ⟨[0#32, 0#32], List.replicate 32 0#32, 32#32, 2#32, 0x20000000#32⟩ :=
    ⟨rfl, by decide, by decide, by decide, by decide, by decide, by decide⟩
  have hneeds : textCells plainLibc quasiquotedText.chars = 18
      ∧ textCells plainLibc stringText.chars = 2 ∧ textWords plainLibc quasiquotedText.chars = 10
      ∧ textWords plainLibc stringText.chars = 8 := by
    set_option maxRecDepth 20000 in decide
  obtain ⟨hcells, hcells', hwords, hwords'⟩ := hneeds
  apply readTexts_builds plainLibc hstart
  · simp [hcells, hcells']
  · simp [hwords, hwords']

end Tokpar

end LispBM
