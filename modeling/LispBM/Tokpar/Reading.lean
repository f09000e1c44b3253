import LispBM.Tokpar.Lookahead

/-!
# LispBM — what the parser reads, and what it builds

Which tokens the parser asks for depends on the tokens it has got, and not on the heap. So a call of
`tokpar_parse` is a reader that returns the tree of the tokens, after which the tree is built.

* `parseSexp_eq`, `parseProgram_eq` — the parser reads a tree and builds it, on any stream;
* `within_readProgram` — on a NUL-terminated string the whole of it is read within the string;
* `tokparParse_within` — every string is read to an end.
-/

namespace LispBM

namespace Tokpar

open BitBuffer (Byte)
open Compression (CString)
open Cursor (Reader)
open Cursor.Reader (done stuck)

/-! ## Trees of tokens -/

mutual

/-- The tokens of an expression. -/
inductive Tree where
  | atom (t : Token)
  | list (es : Trees)
  | marked (t : Token) (e : Tree)

/-- The tokens of a list or of a program: expressions, and the token it ends with. -/
inductive Trees where
  | ends (t : Token)
  | item (head : Tree) (tail : Trees)

end

/-- The value of a token that is an expression. -/
def Token.atomValue (t : Token) (st : ReaderState) : Option (VALUE × ReaderState) :=
  match t.shape with
  | .value f => f st
  | _ => none

/-- The value of an expression after a quote or another mark. -/
def Token.markValue (t : Token) (v : VALUE) (st : ReaderState) : Option (VALUE × ReaderState) :=
  match t.shape with
  | .form f => f v st
  | _ => none

mutual

/-- What `parse_sexp` does apart from reading. -/
def Tree.build : Tree → ReaderState → Option (VALUE × ReaderState)
  | .atom t, st => t.atomValue st
  | .list es, st => es.build st
  | .marked t e, st => (e.build st).bind fun (v, st) => t.markValue v st

/-- What `parse_sexp_list` does apart from reading. -/
def Trees.build : Trees → ReaderState → Option (VALUE × ReaderState)
  | .ends t, st => t.endsList.map fun v => (v, st)
  | .item head tail, st => (head.build st).bind fun (head, st) =>
      (tail.build st).bind fun (tail, st) => some (consUnlessError head tail st)

end

/-- What `parse_program` does apart from reading. -/
def Trees.buildProgram : Trees → ReaderState → Option (VALUE × ReaderState)
  | .ends t, st => t.endsProgram.map fun v => (v, st)
  | .item head tail, st => (head.build st).bind fun (head, st) =>
      (tail.buildProgram st).bind fun (tail, st) => some (st.alloc (cons head tail))

/-! ## What the parser reads

The stream has the function `next` for `next_token`. -/

section Read

variable {σ : Type} (next : σ → Option (Token × σ))

mutual

def treeSexp : Nat → Token → σ → Option (Tree × σ)
  | 0, _, _ => none
  | n + 1, t, s =>
      match t.shape with
      | .value _ => some (.atom t, s)
      | .list => (next s).bind fun (u, s) => (treeSexpList n u s).map fun (es, s) => (.list es, s)
      | .form _ => (next s).bind fun (u, s) => (treeSexp n u s).map fun (e, s) => (.marked t e, s)

def treeSexpList : Nat → Token → σ → Option (Trees × σ)
  | 0, _, _ => none
  | n + 1, t, s =>
      match t.endsList with
      | some _ => some (.ends t, s)
      | none => (treeSexp n t s).bind fun (head, s) => (next s).bind fun (u, s) =>
          (treeSexpList n u s).map fun (tail, s) => (.item head tail, s)

end

def treeProgram (sexpFuel : Nat) : Nat → σ → Option (Trees × σ)
  | 0, _ => none
  | n + 1, s => (next s).bind fun (t, s) =>
      match t.endsProgram with
      | some _ => some (.ends t, s)
      | none => (treeSexp next sexpFuel t s).bind fun (head, s) =>
          (treeProgram sexpFuel n s).map fun (tail, s) => (.item head tail, s)

end Read

/-! ## The parser reads and builds -/

section Parse

variable {σ : Type} (next : σ → Option (Token × σ))

/-- A tree that was read, built in a state. -/
def built {α : Type} (build : α → ReaderState → Option (VALUE × ReaderState)) (st : ReaderState)
    (r : Option (α × σ)) : Option (VALUE × σ × ReaderState) :=
  r.bind fun x => (build x.1 st).bind fun y => some (y.1, x.2, y.2)

/-- **Expressions are read and built.** The two do not depend on each other. -/
theorem parse_eq : ∀ n,
    (∀ t s st, parseSexp next n t s st = built Tree.build st (treeSexp next n t s))
    ∧ (∀ t s st, parseSexpList next n t s st = built Trees.build st (treeSexpList next n t s)) := by
  intro n
  induction n with
  | zero => exact ⟨fun _ _ _ => rfl, fun _ _ _ => rfl⟩
  | succ n ih =>
    obtain ⟨hsexp, hlist⟩ := ih
    refine ⟨fun t s st => ?_, fun t s st => ?_⟩
    · rw [parseSexp_succ, treeSexp]
      cases hshape : t.shape with
      | value f =>
        show _ = (t.atomValue st).bind _
        rw [Token.atomValue, hshape]
      | list =>
        cases next s with
        | none => rfl
        | some x =>
          simp only [Option.bind_some, hlist]
          cases treeSexpList next n x.1 x.2 with
          | none => rfl
          | some y => rfl
      | form f =>
        cases next s with
        | none => rfl
        | some x =>
          simp only [Option.bind_some, hsexp]
          cases treeSexp next n x.1 x.2 with
          | none => rfl
          | some y =>
            show (((Tree.build y.1 st).bind _).bind _) = (((Tree.build y.1 st).bind _).bind _)
            cases Tree.build y.1 st with
            | none => rfl
            | some z =>
              show _ = (t.markValue z.1 z.2).bind _
              rw [Token.markValue, hshape]
              rfl
    · rw [parseSexpList_succ, treeSexpList]
      cases hends : t.endsList with
      | some v =>
        show _ = (t.endsList.map _).bind _
        rw [hends]
        rfl
      | none =>
        simp only [hsexp]
        cases treeSexp next n t s with
        | none => rfl
        | some x =>
          simp only [Option.bind_some]
          -- whether the head is built does not matter for what is read after it
          cases hnext : next x.2 with
          | none =>
            show ((Tree.build x.1 st).bind _).bind _ = none
            cases Tree.build x.1 st with
            | none => rfl
            | some z => simp only [Option.bind_some, hnext, Option.bind_none]
          | some y =>
            simp only [Option.bind_some]
            cases hread : treeSexpList next n y.1 y.2 with
            | none =>
              show ((Tree.build x.1 st).bind _).bind _ = none
              cases Tree.build x.1 st with
              | none => rfl
              | some z =>
                simp only [Option.bind_some, hnext, hlist, hread]
                rfl
            | some w =>
              show ((Tree.build x.1 st).bind _).bind _ = ((Tree.build x.1 st).bind _).bind _
              cases Tree.build x.1 st with
              | none => rfl
              | some z =>
                simp only [Option.bind_some, hnext, hlist, hread]
                show ((Trees.build w.1 z.2).bind _).bind _ = ((Trees.build w.1 z.2).bind _).bind _
                cases Trees.build w.1 z.2 with
                | none => rfl
                | some u => rfl

theorem parseProgram_eq {a : Nat} : ∀ n s st, parseProgram next a n s st
    = built Trees.buildProgram st (treeProgram next a n s) := by
  intro n
  induction n with
  | zero => exact fun _ _ => rfl
  | succ n ih =>
    intro s st
    rw [parseProgram_succ, treeProgram]
    cases next s with
    | none => rfl
    | some x =>
      simp only [Option.bind_some]
      cases hends : x.1.endsProgram with
      | some v =>
        show _ = (x.1.endsProgram.map _).bind _
        rw [hends]
        rfl
      | none =>
        simp only [(parse_eq next a).1]
        cases treeSexp next a x.1 x.2 with
        | none => rfl
        | some y =>
          simp only [Option.bind_some]
          cases hread : treeProgram next a n y.2 with
          | none =>
            show ((Tree.build y.1 st).bind _).bind _ = none
            cases Tree.build y.1 st with
            | none => rfl
            | some z =>
              simp only [Option.bind_some, ih, hread]
              rfl
          | some w =>
            show ((Tree.build y.1 st).bind _).bind _ = ((Tree.build y.1 st).bind _).bind _
            cases Tree.build y.1 st with
            | none => rfl
            | some z =>
              simp only [Option.bind_some, ih, hread]
              show ((Trees.buildProgram w.1 z.2).bind _).bind _
                = ((Trees.buildProgram w.1 z.2).bind _).bind _
              cases Trees.buildProgram w.1 z.2 with
              | none => rfl
              | some u => rfl

end Parse

/-! ## Readers of trees -/

section Readers

variable (next : Reader Byte Token)

mutual

def readSexp : Nat → Token → Reader Byte Tree
  | 0, _ => stuck
  | n + 1, t =>
      match t.shape with
      | .value _ => done (.atom t)
      | .list => next.bind fun u => (readSexpList n u).bind fun es => done (.list es)
      | .form _ => next.bind fun u => (readSexp n u).bind fun e => done (.marked t e)

def readSexpList : Nat → Token → Reader Byte Trees
  | 0, _ => stuck
  | n + 1, t =>
      match t.endsList with
      | some _ => done (.ends t)
      | none => (readSexp n t).bind fun head => next.bind fun u =>
          (readSexpList n u).bind fun tail => done (.item head tail)

end

def readProgram (sexpFuel : Nat) : Nat → Reader Byte Trees
  | 0 => stuck
  | n + 1 => next.bind fun t =>
      match t.endsProgram with
      | some _ => done (.ends t)
      | none => (readSexp next sexpFuel t).bind fun head =>
          (readProgram sexpFuel n).bind fun tail => done (.item head tail)

end Readers

section Run

variable {σ : Type} {str : CharStream σ} {read : Reader Byte Token} {next : σ → Option (Token × σ)}
  (hnext : ∀ s, read.run str.cursor s = next s)

include hnext

theorem run_readSexp : ∀ n,
    (∀ t s, (readSexp read n t).run str.cursor s = treeSexp next n t s)
    ∧ (∀ t s, (readSexpList read n t).run str.cursor s = treeSexpList next n t s) := by
  intro n
  induction n with
  | zero => exact ⟨fun _ _ => rfl, fun _ _ => rfl⟩
  | succ n ih =>
    obtain ⟨hsexp, hlist⟩ := ih
    refine ⟨fun t s => ?_, fun t s => ?_⟩
    · rw [readSexp, treeSexp]
      cases t.shape with
      | value f => rfl
      | list =>
        simp only [Reader.run_bind, hnext, hlist]
        congr 1
        funext x
        cases treeSexpList next n x.1 x.2 with
        | none => rfl
        | some y => rfl
      | form f =>
        simp only [Reader.run_bind, hnext, hsexp]
        congr 1
        funext x
        cases treeSexp next n x.1 x.2 with
        | none => rfl
        | some y => rfl
    · rw [readSexpList, treeSexpList]
      cases t.endsList with
      | some v => rfl
      | none =>
        simp only [Reader.run_bind, hnext, hsexp, hlist]
        congr 1
        funext x
        congr 1
        funext y
        cases treeSexpList next n y.1 y.2 with
        | none => rfl
        | some z => rfl

/-- The reader of a program is what the parser reads. -/
theorem run_readProgram {a : Nat} : ∀ n s,
    (readProgram read a n).run str.cursor s = treeProgram next a n s := by
  intro n
  induction n with
  | zero => exact fun _ => rfl
  | succ n ih =>
    intro s
    rw [readProgram, treeProgram, Reader.run_bind, hnext]
    congr 1
    funext ⟨t, u⟩
    dsimp only
    cases t.endsProgram with
    | some v => rfl
    | none =>
      simp only [Reader.run_bind, (run_readSexp hnext a).1, ih]
      congr 1
      funext y
      cases treeProgram next a n y.2 with
      | none => rfl
      | some z => rfl

end Run

/-! ## Strings -/

section Within

variable {text : List Byte} {read : Reader Byte Token}
  (hread : ∀ {p}, p ≤ text.length → read.Within text 0#8 (fun t => Steps text p (some t)) p)

include hread

/-- **Expressions are read within the string.** Every token but an end takes a character, so that
what is left bounds the depth of the recursion. -/
theorem within_readSexp : ∀ n,
    (∀ {t p}, p ≤ text.length → sexpFuel t (text.drop p) ≤ n →
      (readSexp read n t).Within text 0#8 (fun _ q => p ≤ q ∧ q ≤ text.length) p)
    ∧ (∀ {t p}, p ≤ text.length → listFuel t (text.drop p) ≤ n →
      (readSexpList read n t).Within text 0#8 (fun _ q => p ≤ q ∧ q ≤ text.length) p) := by
  -- what the token behind another one needs
  have hfuel : ∀ {p q t}, Steps text p (some t) q →
      sexpFuel t (text.drop q) ≤ 2 * (text.length - p) + 1
        ∧ listFuel t (text.drop q) ≤ 2 * (text.length - p) + 1 := by
    intro p q t hstep
    have hinside := hstep.inside
    cases hend : t.isEnd with
    | true =>
      simp only [sexpFuel, listFuel, hend, if_true]
      omega
    | false =>
      have hlt := hstep.advances t rfl hend
      simp only [sexpFuel, listFuel, hend, Bool.false_eq_true, if_false, List.length_drop]
      omega
  intro n
  induction n with
  | zero =>
    refine ⟨fun {t p} _ hn => ?_, fun {t p} _ hn => ?_⟩
    · exact absurd (lt_of_lt_of_le (sexpFuel_pos t _) hn) (Nat.lt_irrefl _)
    · exact absurd (lt_of_lt_of_le (listFuel_pos t _) hn) (Nat.lt_irrefl _)
  | succ n ih =>
    obtain ⟨hsexp, hlist⟩ := ih
    refine ⟨fun {t p} hp hn => ?_, fun {t p} hp hn => ?_⟩
    · rw [readSexp]
      cases hshape : t.shape with
      | value f => exact ⟨le_refl p, hp⟩
      | list =>
        have hend := isEnd_of_shape (Or.inl hshape)
        simp only [sexpFuel, hend, Bool.false_eq_true, if_false, List.length_drop] at hn
        refine Reader.within_bind.mpr ((hread hp).mono fun u q hstep => ?_)
        have hu := (hfuel hstep).2
        refine Reader.within_bind.mpr ((hlist hstep.inside (by omega)).mono ?_)
        exact fun _ _ hq => ⟨hstep.le.trans hq.1, hq.2⟩
      | form f =>
        have hend := isEnd_of_shape (Or.inr ⟨f, hshape⟩)
        simp only [sexpFuel, hend, Bool.false_eq_true, if_false, List.length_drop] at hn
        refine Reader.within_bind.mpr ((hread hp).mono fun u q hstep => ?_)
        have hu := (hfuel hstep).1
        refine Reader.within_bind.mpr ((hsexp hstep.inside (by omega)).mono ?_)
        exact fun _ _ hq => ⟨hstep.le.trans hq.1, hq.2⟩
    · rw [readSexpList]
      cases hends : t.endsList with
      | some v => exact ⟨le_refl p, hp⟩
      | none =>
        have hend := isEnd_of_endsList hends
        simp only [listFuel, hend, Bool.false_eq_true, if_false, List.length_drop] at hn
        have ht : sexpFuel t (text.drop p) ≤ n := by
          simp only [sexpFuel, hend, Bool.false_eq_true, if_false, List.length_drop]
          omega
        refine Reader.within_bind.mpr ((hsexp hp ht).mono fun _ q hpq => ?_)
        refine Reader.within_bind.mpr ((hread hpq.2).mono fun u q' hstep => ?_)
        have hu := (hfuel hstep).2
        refine Reader.within_bind.mpr ((hlist hstep.inside (by omega)).mono ?_)
        exact fun _ _ hq' => ⟨hpq.1.trans (hstep.le.trans hq'.1), hq'.2⟩

theorem within_readProgram {a : Nat} (ha : 2 * text.length ≤ a) : ∀ {n p}, p ≤ text.length →
    text.length - p < n →
    (readProgram read a n).Within text 0#8 (fun _ q => p ≤ q ∧ q ≤ text.length) p := by
  intro n
  induction n with
  | zero => intro p _ hn; exact absurd hn (Nat.not_lt_zero _)
  | succ n ih =>
    intro p hp hn
    refine Reader.within_bind.mpr ((hread hp).mono fun t q hstep => ?_)
    cases hends : t.endsProgram with
    | some v => exact ⟨hstep.le, hstep.inside⟩
    | none =>
      have hend := isEnd_of_endsProgram hends
      have hlt := hstep.advances t rfl hend
      have hq := hstep.inside
      have ht : sexpFuel t (text.drop q) ≤ a := by
        simp only [sexpFuel, hend, Bool.false_eq_true, if_false, List.length_drop]
        omega
      refine Reader.within_bind.mpr (((within_readSexp hread a).1 hq ht).mono ?_)
      intro _ q' hqq'
      have hle' := hqq'.1
      refine Reader.within_bind.mpr ((ih hqq'.2 (by omega)).mono ?_)
      exact fun _ _ hq => ⟨hstep.le.trans (hle'.trans hq.1), hq.2⟩

end Within

/-- The stream of a string is its rest. -/
theorem cursor_stringStream : stringStream.cursor = Cursor.Reader.listStream 0#8 := rfl

/-- The reader of the program in a string of at most `n` characters. -/
def readText (lib : Libc) (n : Nat) : Reader Byte Trees :=
  readProgram (readToken lib (n + 2)) (2 * n + 3) (n + 2)

/-- What reading a string comes to: `next_token`, called anywhere, returns without looking or moving
behind the NUL, and a token that is not an end takes a character at least; so does the whole of the
parser, which finds a tree of tokens and builds it. -/
structure ReadsWithin (lib : Libc) (string : CString) : Prop where
  reader : ∀ fuel s, (readToken lib fuel).run stringStream.cursor s
    = nextToken lib stringStream fuel s
  token : ∀ fuel p, string.chars.length < fuel → p ≤ string.chars.length →
    (readToken lib fuel).Within string.chars 0#8 (fun t => Steps string.chars p (some t)) p
  text : (readText lib string.chars.length).Within string.chars 0#8
    (fun _ q => q ≤ string.chars.length) 0
  builds : ∃ es rest, (readText lib string.chars.length).run stringStream.cursor string.chars
      = some (es, rest) ∧ ∀ st, tokparParse lib string st = es.buildProgram st

/-- **Reading ends, and stays within the string.** -/
theorem tokparParse_within (lib : Libc) (string : CString) : ReadsWithin lib string := by
  have htoken : ∀ fuel p, string.chars.length < fuel → p ≤ string.chars.length →
      (readToken lib fuel).Within string.chars 0#8 (fun t => Steps string.chars p (some t)) p :=
    fun fuel p hfuel hp => within_readToken lib hfuel hp
  have htext : (readText lib string.chars.length).Within string.chars 0#8
      (fun _ q => q ≤ string.chars.length) 0 :=
    (within_readProgram (fun hp => htoken _ _ (by omega) hp) (by omega) (Nat.zero_le _)
      (by omega)).mono fun _ _ h => h.2
  refine ⟨run_readToken stringStream lib, htoken, htext, ?_⟩
  obtain ⟨es, q, hrun, -⟩ := Reader.exists_run_of_within htext
  rw [List.drop_zero, ← cursor_stringStream] at hrun
  refine ⟨es, string.chars.drop q, hrun, fun st => ?_⟩
  rw [readText, run_readProgram (run_readToken stringStream lib _)] at hrun
  rw [tokparParse, parseStream, parseProgram_eq, hrun]
  show ((es.buildProgram st).bind _).bind _ = _
  cases es.buildProgram st with
  | none => rfl
  | some r => rfl

end Tokpar

end LispBM
