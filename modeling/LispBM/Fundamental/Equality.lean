import Mathlib.Combinatorics.Enumerative.DoubleCounting
import Mathlib.Order.Interval.Finset.Nat
import LispBM.Fundamental.TagSafety
import LispBM.Fundamental.Arithmetic
import LispBM.Lib.Rounding

/-!
# LispBM — structural equality

A value of the heap without cycles stands for a tree (`Denotes`): pairs, and leaves with what their
words and arrays hold. `struct_eq` goes through two of these trees in step. It tells leaves apart
as it should but for two kinds: the words of boxed floats are converted from integers to floats
before they are compared, so that words count as equal when they agree in their first 24
significant bits, rounded; and arrays of an element type it does not know are never equal.
-/

namespace LispBM

/-! ## Trees -/

/-- What a value stands for. A boxed number is its word, an array its header and its data bytes. -/
inductive ValueTree where
  | symbol (id : UINT)
  | char (c : BitVec 8)
  | i28 (w : UINT)
  | u28 (w : UINT)
  | i32 (w : UINT)
  | u32 (w : UINT)
  | float (w : UINT)
  | indirection (n : UINT)
  | array (eltType : TYPE) (size : UINT) (data : List (BitVec 8))
  | cons (a d : ValueTree)
deriving DecidableEq

/-- The bytes of the data of an array: one for a character, a word for everything else
(`heap_allocate_array`). -/
def dataBytes (eltType : TYPE) (size : UINT) : Nat :=
  if eltType = valTypeChar then size.toNat else 4 * size.toNat

/-- The value `v` stands for a tree. -/
inductive Denotes (h : HeapState) : VALUE → ValueTree → Prop where
  | symbol {v : VALUE} (hp : isPtr v = false) (ht : valType v = valTypeSymbol) :
      Denotes h v (.symbol (decSym v))
  | char {v : VALUE} (hp : isPtr v = false) (ht : valType v = valTypeChar) :
      Denotes h v (.char (decChar v))
  | i28 {v : VALUE} (hp : isPtr v = false) (ht : valType v = valTypeI) : Denotes h v (.i28 (decI v))
  | u28 {v : VALUE} (hp : isPtr v = false) (ht : valType v = valTypeU) : Denotes h v (.u28 (decU v))
  | i32 {v : VALUE} (hp : isPtr v = true) (ht : ptrType v = ptrTypeBoxedI) :
      Denotes h v (.i32 (car h v))
  | u32 {v : VALUE} (hp : isPtr v = true) (ht : ptrType v = ptrTypeBoxedU) :
      Denotes h v (.u32 (car h v))
  | float {v : VALUE} (hp : isPtr v = true) (ht : ptrType v = ptrTypeBoxedF) :
      Denotes h v (.float (car h v))
  | indirection {v : VALUE} (hp : isPtr v = true) (ht : ptrType v = ptrTypeSymbolIndirection) :
      Denotes h v (.indirection (decSymbolIndirection v))
  | array {v : VALUE} {eltType : TYPE} {size : UINT} {data : List (BitVec 8)}
      (hp : isPtr v = true) (ht : ptrType v = ptrTypeArray)
      (helt : readWord h.memory (car h v) = some eltType)
      (hsize : readWord h.memory (car h v + 4#32) = some size)
      (hfits : dataBytes eltType size < 2 ^ 32)
      (hdata : readBytes h.memory (dataBytes eltType size) (car h v + 8#32) = some data) :
      Denotes h v (.array eltType size data)
  | cons {v : VALUE} {a d : ValueTree} (hp : isPtr v = true) (ht : ptrType v = ptrTypeCons)
      (hix : ptrIx v < h.heap.length) (ha : Denotes h (car h v) a) (hd : Denotes h (cdr h v) d) :
      Denotes h v (.cons a d)

namespace ValueTree

/-- Whether a value is a pointer, and its type. -/
def kind : ValueTree → Bool × TYPE
  | symbol _ => (false, valTypeSymbol)
  | char _ => (false, valTypeChar)
  | i28 _ => (false, valTypeI)
  | u28 _ => (false, valTypeU)
  | i32 _ => (true, ptrTypeBoxedI)
  | u32 _ => (true, ptrTypeBoxedU)
  | float _ => (true, ptrTypeBoxedF)
  | indirection _ => (true, ptrTypeSymbolIndirection)
  | array _ _ _ => (true, ptrTypeArray)
  | cons _ _ => (true, ptrTypeCons)

def depth : ValueTree → Nat
  | cons a d => max a.depth d.depth + 1
  | _ => 0

/-- What `struct_eq` answers on two trees. -/
def codeEq (fo : FloatOps) : ValueTree → ValueTree → Bool
  | symbol x, symbol y => x == y
  | char x, char y => x == y
  | i28 x, i28 y => x == y
  | u28 x, u28 y => x == y
  | i32 x, i32 y => x == y
  | u32 x, u32 y => x == y
  | float x, float y => fo.eq (fo.ofU x) (fo.ofU y)
  | indirection x, indirection y => x == y
  | array t n xs, array s m ys => t == s && n == m && (arrayBytes t n).isSome && xs == ys
  | cons a d, cons a' d' => codeEq fo a a' && codeEq fo d d'
  | _, _ => false

/-- The same shape with the same leaves, except that words of floats only agree in their first 24
significant bits, rounded. -/
def RoundsAlike : ValueTree → ValueTree → Prop
  | float x, float y => Rounding.round 24 x.toNat = Rounding.round 24 y.toNat
  | cons a d, cons a' d' => RoundsAlike a a' ∧ RoundsAlike d d'
  | s, t => s = t

/-- The element types of all arrays are among those `array_equality` compares. -/
def Comparable : ValueTree → Prop
  | array t n _ => (arrayBytes t n).isSome
  | cons a d => a.Comparable ∧ d.Comparable
  | _ => True

end ValueTree

variable {fo : FloatOps} {h : HeapState} {a b v : VALUE} {s t : ValueTree}

/-! ## A value stands for one tree -/

theorem Denotes.kind_eq (hv : Denotes h v t) :
    (isPtr v, if isPtr v then ptrType v else valType v) = t.kind := by
  cases hv with
  | symbol hp ht => simp [hp, ht, ValueTree.kind]
  | char hp ht => simp [hp, ht, ValueTree.kind]
  | i28 hp ht => simp [hp, ht, ValueTree.kind]
  | u28 hp ht => simp [hp, ht, ValueTree.kind]
  | i32 hp ht => simp [hp, ht, ValueTree.kind]
  | u32 hp ht => simp [hp, ht, ValueTree.kind]
  | float hp ht => simp [hp, ht, ValueTree.kind]
  | indirection hp ht => simp [hp, ht, ValueTree.kind]
  | array hp ht => simp [hp, ht, ValueTree.kind]
  | cons hp ht => simp [hp, ht, ValueTree.kind]

theorem Denotes.unique (hs : Denotes h v s) (ht : Denotes h v t) : s = t := by
  induction hs generalizing t with
  | cons hp hty hix ha hd iha ihd =>
    have hk := ht.kind_eq
    rw [hp, if_pos rfl, hty] at hk
    cases ht with
    | cons _ _ _ ha' hd' => rw [iha ha', ihd hd']
    | _ =>
      rw [ValueTree.kind] at hk
      exact absurd hk (by decide)
  | array hp hty helt hsize hfits hdata =>
    have hk := ht.kind_eq
    rw [hp, if_pos rfl, hty] at hk
    cases ht with
    | array _ _ helt' hsize' _ hdata' =>
      obtain rfl := Option.some.inj (helt.symm.trans helt')
      obtain rfl := Option.some.inj (hsize.symm.trans hsize')
      rw [Option.some.inj (hdata.symm.trans hdata')]
    | _ =>
      rw [ValueTree.kind] at hk
      exact absurd hk (by decide)
  | symbol hp hty | char hp hty | i28 hp hty | u28 hp hty =>
    have hk := ht.kind_eq
    rw [hp, if_neg (by decide), hty] at hk
    cases ht <;> first
      | rfl
      | (rw [ValueTree.kind] at hk; exact absurd hk (by decide))
  | i32 hp hty | u32 hp hty | float hp hty | indirection hp hty =>
    have hk := ht.kind_eq
    rw [hp, if_pos rfl, hty] at hk
    cases ht <;> first
      | rfl
      | (rw [ValueTree.kind] at hk; exact absurd hk (by decide))

/-! ## The depth of a tree in the heap -/

/-- Cell `i` holds a pair whose tree has depth `k`. -/
def CellDepth (h : HeapState) (i k : Nat) : Prop :=
  ∃ v a d, isPtr v = true ∧ ptrType v = ptrTypeCons ∧ ptrIx v = i ∧ Denotes h v (.cons a d)
    ∧ (ValueTree.cons a d).depth = k

theorem cdr_of_cons (hp : isPtr v = true) (ht : ptrType v = ptrTypeCons) :
    cdr h v = (refCell h v).cdr := by
  apply cdr_of_typeOf_cons
  rw [typeOf, if_pos hp]
  exact ht

/-- A cell has one depth. -/
theorem CellDepth.unique {i k l : Nat} (hk : CellDepth h i k) (hl : CellDepth h i l) : k = l := by
  obtain ⟨v, a, d, hp, ht, hix, hv, rfl⟩ := hk
  obtain ⟨v', a', d', hp', ht', hix', hv', rfl⟩ := hl
  have hcar : car h v = car h v' := by rw [car_of_isPtr hp, car_of_isPtr hp', hix, hix']
  have hcdr : cdr h v = cdr h v' := by
    rw [cdr_of_cons hp ht, cdr_of_cons hp' ht', refCell, refCell, hix, hix']
  cases hv with
  | cons _ _ _ ha hd =>
    cases hv' with
    | cons _ _ _ ha' hd' =>
      rw [hcar] at ha
      rw [hcdr] at hd
      rw [ha.unique ha', hd.unique hd']

/-- Below a tree of depth `n` there is a cell of every depth up to `n`. -/
theorem Denotes.exists_cellDepth (hv : Denotes h v t) :
    ∀ k, 0 < k → k ≤ t.depth → ∃ i, i < h.heap.length ∧ CellDepth h i k := by
  induction hv with
  | @cons v a d hp ht hix ha hd iha ihd =>
    intro k hpos hle
    by_cases htop : k = (ValueTree.cons a d).depth
    · exact ⟨ptrIx v, hix, v, a, d, hp, ht, rfl, .cons hp ht hix ha hd, htop.symm⟩
    · have hdepth : (ValueTree.cons a d).depth = max a.depth d.depth + 1 := rfl
      by_cases hk : k ≤ a.depth
      · exact iha k hpos hk
      · exact ihd k hpos (by omega)
  | _ =>
    intro k hpos hle
    have hzero : k ≤ 0 := hle
    omega

/-- **A tree is no deeper than the heap has cells**: on a path no cell comes twice. -/
theorem Denotes.depth_le (hv : Denotes h v t) : t.depth ≤ h.heap.length := by
  have hcard := Finset.card_le_card_of_forall_subsingleton
    (s := Finset.Icc 1 t.depth) (t := Finset.range h.heap.length) (fun k i => CellDepth h i k)
    (fun k hk => by
      rw [Finset.mem_Icc] at hk
      obtain ⟨i, hi, hcell⟩ := hv.exists_cellDepth k hk.1 hk.2
      exact ⟨i, Finset.mem_range.mpr hi, hcell⟩)
    (fun i _ k hk l hl => hk.2.unique hl.2)
  rwa [Nat.card_Icc, Finset.card_range] at hcard

/-! ## What `struct_eq` answers -/

theorem structEqDepth_of_not_ptr (ha : isPtr a = false) (hb : isPtr b = true) (n : Nat) :
    structEqDepth fo h (n + 1) a b = some false ∧ structEqDepth fo h (n + 1) b a = some false := by
  simp [structEqDepth, ha, hb]

theorem structEqDepth_of_type_ne (hp : isPtr a = isPtr b)
    (ht : (if isPtr a then ptrType a else valType a) ≠ if isPtr b then ptrType b else valType b)
    (n : Nat) : structEqDepth fo h (n + 1) a b = some false := by
  rw [← hp] at ht
  cases ha : isPtr a with
  | true =>
    rw [ha, if_pos rfl, if_pos rfl] at ht
    simp [structEqDepth, ha, ← hp, ht]
  | false =>
    rw [ha, if_neg (by decide), if_neg (by decide)] at ht
    simp [structEqDepth, ha, ← hp, ht]

/-- Values of different kinds are different. -/
theorem structEqDepth_of_kind_ne (ha : Denotes h a s) (hb : Denotes h b t) (hk : s.kind ≠ t.kind)
    (n : Nat) : structEqDepth fo h (n + 1) a b = some false := by
  rw [← ha.kind_eq, ← hb.kind_eq] at hk
  cases hpa : isPtr a with
  | true =>
    cases hpb : isPtr b with
    | true =>
      apply structEqDepth_of_type_ne (hpa.trans hpb.symm)
      intro heq
      exact hk (Prod.ext (hpa.trans hpb.symm) heq)
    | false => exact (structEqDepth_of_not_ptr hpb hpa n).2
  | false =>
    cases hpb : isPtr b with
    | true => exact (structEqDepth_of_not_ptr hpa hpb n).1
    | false =>
      apply structEqDepth_of_type_ne (hpa.trans hpb.symm)
      intro heq
      exact hk (Prod.ext (hpa.trans hpb.symm) heq)

theorem codeEq_of_kind_ne (hk : s.kind ≠ t.kind) : s.codeEq fo t = false := by
  cases s <;> cases t <;> first | rfl | exact absurd rfl hk

/-- The bytes of arrays that are compared. -/
theorem arrayBytes_eq {eltType : TYPE} {size : UINT} {n : Nat}
    (hn : arrayBytes eltType size = some n)
    (hfits : dataBytes eltType size < 2 ^ 32) : n = dataBytes eltType size := by
  rw [arrayBytes] at hn
  split at hn
  · next hword =>
    have hchar : eltType ≠ valTypeChar := by
      intro hchar
      rw [hchar] at hword
      exact absurd hword (by decide)
    rw [dataBytes, if_neg hchar] at hfits ⊢
    rw [← Option.some.inj hn, BitVec.toNat_mul]
    simp only [BitVec.toNat_ofNat]
    omega
  · split at hn
    · next hchar =>
      rw [dataBytes, if_pos (beq_iff_eq.mp hchar), ← Option.some.inj hn]
    · exact absurd hn (by simp)

theorem arrayEquality_denotes {et et' : TYPE} {n n' : UINT} {xs ys : List (BitVec 8)}
    (ha : Denotes h a (.array et n xs)) (hb : Denotes h b (.array et' n' ys)) :
    arrayEquality h a b = some ((ValueTree.array et n xs).codeEq fo (.array et' n' ys)) := by
  cases ha with
  | array hp ht helt hsize hfits hdata =>
    cases hb with
    | array hp' ht' helt' hsize' hfits' hdata' =>
      have hta : typeOf a = ptrTypeArray := by
        rw [typeOf, if_pos hp]
        exact ht
      have htb : typeOf b = ptrTypeArray := by
        rw [typeOf, if_pos hp']
        exact ht'
      rw [arrayEquality, hta, htb]
      simp only [beq_self_eq_true, Bool.and_self, if_true, helt, helt', hsize, hsize',
        ValueTree.codeEq, Option.bind_eq_bind, Option.bind_some]
      by_cases heq : et = et' ∧ n = n'
      · obtain ⟨rfl, rfl⟩ := heq
        simp only [beq_self_eq_true, Bool.and_self, if_true, Bool.true_and]
        cases hbytes : arrayBytes et n with
        | none => rfl
        | some k =>
          rw [arrayBytes_eq hbytes hfits]
          simp only [hdata, hdata', Option.bind_some, Option.isSome_some, Bool.true_and]
      · have hne : (et == et' && n == n') = false := by
          simpa [not_and_or] using heq
        rw [hne]
        rfl

/-- **`struct_eq` goes through the trees in step.** -/
theorem structEqDepth_eq (n : Nat) (ha : Denotes h a s) (hb : Denotes h b t) (hn : s.depth < n) :
    structEqDepth fo h n a b = some (s.codeEq fo t) := by
  induction n generalizing a b s t with
  | zero => omega
  | succ n ih =>
    by_cases hk : s.kind = t.kind
    · cases ha with
      | @cons _ s s' hp ht hix ha hd =>
        cases hb with
        | cons hp' ht' hix' hb hd' =>
          have hdepth : (ValueTree.cons s s').depth = max s.depth s'.depth + 1 := rfl
          have hcar := ih ha hb (by omega)
          have hcdr := ih hd hd' (by omega)
          simp only [structEqDepth, hp, hp', ht, ht', hcar, hcdr, ValueTree.codeEq]
          cases s.codeEq fo _ <;> rfl
        | _ =>
          simp only [ValueTree.kind] at hk
          exact absurd hk (by decide)
      | array hp ht helt hsize hfits hdata =>
        cases hb with
        | array hp' ht' helt' hsize' hfits' hdata' =>
          rw [← @arrayEquality_denotes fo _ _ _ _ _ _ _ _ _ (.array hp ht helt hsize hfits hdata)
            (.array hp' ht' helt' hsize' hfits' hdata'), structEqDepth]
          simp only [hp, hp', ht, ht']
          rfl
        | _ =>
          simp only [ValueTree.kind] at hk
          exact absurd hk (by decide)
      | symbol hp ht | char hp ht | i28 hp ht | u28 hp ht | i32 hp ht | u32 hp ht | float hp ht
      | indirection hp ht =>
        cases hb <;> first
          | (rename_i hp' ht'
             simp only [structEqDepth, hp, hp', ht, ht']
             rfl)
          | (simp only [ValueTree.kind] at hk
             exact absurd hk (by decide))
    · rw [structEqDepth_of_kind_ne ha hb hk, codeEq_of_kind_ne hk]

/-- The recursion of `struct_eq` ends on values without cycles. -/
theorem structEq_eq (ha : Denotes h a s) (hb : Denotes h b t) :
    structEq fo h a b = some (s.codeEq fo t) := by
  apply structEqDepth_eq _ ha hb
  have hdepth := ha.depth_le
  have hle : walkFuel h ≤ walkFuel h * walkFuel h := Nat.le_mul_self _
  rw [walkFuel] at hle ⊢
  omega

/-- `fundamental_exec` on `(= a b)`. -/
theorem fundamentalExec_eq (ha : Denotes h a s) (hb : Denotes h b t) (above : List VALUE)
    (st : SymbolTable) : fundamentalExec fo (a :: b :: above) 2#32 (encSym symEq) st h
      = some (if s.codeEq fo t then encSym symreprTrue else encSym symreprNil, h, st) := by
  have hrest : restArgs (a :: b :: above) 2#32 = [b] := restArgs_operands a [b] above rfl
  have hloop : eqLoop fo h a [b] true = some (s.codeEq fo t) := by
    rw [eqLoop, if_pos rfl, structEq_eq ha hb]
    rfl
  have hheap : fundamentalHeapExec fo (a :: b :: above) 2#32 symEq st h
      = some (if s.codeEq fo t then encSym symreprTrue else encSym symreprNil, h) := by
    show (do
      let r ← eqLoop fo h a (restArgs (a :: b :: above) 2#32) true
      some (if r then encSym symreprTrue else encSym symreprNil, h)) = _
    rw [hrest, hloop]
    rfl
  have hsym : decSym (encSym symEq) = symEq := by decide
  have hstr : (symEq == symStringToSymbol) = false := by decide
  rw [fundamentalExec, hsym, hstr, hheap]
  rfl

/-! ## When equality is structural identity -/

/-- Conversion of a word to a float is rounding to 24 significant bits: two words are equal as
floats when they are rounded to one number. -/
def RoundsWords (fo : FloatOps) : Prop :=
  ∀ x y : UINT, fo.eq (fo.ofU x) (fo.ofU y) = true
    ↔ Rounding.round 24 x.toNat = Rounding.round 24 y.toNat

theorem codeEq_iff (hfo : RoundsWords fo) : ∀ s t : ValueTree,
    s.codeEq fo t = true ↔ s.RoundsAlike t ∧ s.Comparable := by
  intro s
  induction s with
  | cons a d iha ihd =>
    intro t
    cases t with
    | cons a' d' =>
      rw [ValueTree.codeEq, Bool.and_eq_true, iha, ihd, ValueTree.RoundsAlike, ValueTree.Comparable]
      constructor
      · exact fun h => ⟨⟨h.1.1, h.2.1⟩, h.1.2, h.2.2⟩
      · exact fun h => ⟨⟨h.1.1, h.2.1⟩, h.1.2, h.2.2⟩
    | _ => simp [ValueTree.codeEq, ValueTree.RoundsAlike]
  | float x =>
    intro t
    cases t with
    | float y =>
      show fo.eq (fo.ofU x) (fo.ofU y) = true
        ↔ Rounding.round 24 x.toNat = Rounding.round 24 y.toNat ∧ True
      rw [hfo, and_true]
    | _ => simp [ValueTree.codeEq, ValueTree.RoundsAlike]
  | array et n xs =>
    intro t
    cases t with
    | array et' n' ys =>
      simp only [ValueTree.codeEq, Bool.and_eq_true, beq_iff_eq, ValueTree.RoundsAlike,
        ValueTree.Comparable, ValueTree.array.injEq]
      constructor
      · exact fun h => ⟨⟨h.1.1.1, h.1.1.2, h.2⟩, h.1.2⟩
      · exact fun h => ⟨⟨⟨h.1.1, h.1.2.1⟩, h.2⟩, h.1.2.2⟩
    | _ => simp [ValueTree.codeEq, ValueTree.RoundsAlike]
  | symbol x | char x | i28 x | u28 x | i32 x | u32 x | indirection x =>
    intro t
    cases t <;> simp [ValueTree.codeEq, ValueTree.RoundsAlike, ValueTree.Comparable]

theorem roundsAlike_self : ∀ s : ValueTree, s.RoundsAlike s := by
  intro s
  induction s with
  | cons a d iha ihd => exact ⟨iha, ihd⟩
  | _ => rfl

/-- A value of the heap with its tree. -/
structure TreeValue (h : HeapState) where
  val : VALUE
  tree : ValueTree
  denotes : Denotes h val tree

/-- `(= a b)` is `t`, whatever lies above the operands on the stack. -/
def TreeValue.Equal (fo : FloatOps) (a b : TreeValue h) : Prop :=
  ∀ above st, fundamentalExec fo (a.val :: b.val :: above) 2#32 (encSym symEq) st h
    = some (encSym symreprTrue, h, st)

theorem TreeValue.equal_iff (hfo : RoundsWords fo) (a b : TreeValue h) :
    a.Equal fo b ↔ a.tree.RoundsAlike b.tree ∧ a.tree.Comparable := by
  rw [← codeEq_iff hfo]
  have hexec := @fundamentalExec_eq fo _ _ _ _ _ a.denotes b.denotes
  constructor
  · intro hequal
    by_contra hne
    have hres := (hexec [] ⟨0#32, 0#32⟩).symm.trans (hequal [] ⟨0#32, 0#32⟩)
    rw [if_neg hne] at hres
    have hnil : encSym symreprNil ≠ encSym symreprTrue := by decide
    exact hnil (congrArg Prod.fst (Option.some.inj hres))
  · intro heq above st
    rw [hexec, if_pos heq]

/-- On the values of `S`, `=` is identity of the trees, and so an equivalence relation. -/
structure IdentifiesTrees (fo : FloatOps) (S : Set (TreeValue h)) : Prop where
  identity : ∀ a ∈ S, ∀ b ∈ S, a.Equal fo b ↔ a.tree = b.tree
  equivalence : Equivalence fun a b : S => a.1.Equal fo b.1

/-- **Equality is structural identity exactly where rounding does not blur it.** -/
theorem identifiesTrees_iff (hfo : RoundsWords fo) (S : Set (TreeValue h)) :
    IdentifiesTrees fo S ↔ (∀ a ∈ S, a.tree.Comparable)
      ∧ ∀ a ∈ S, ∀ b ∈ S, a.tree.RoundsAlike b.tree → a.tree = b.tree := by
  constructor
  · intro hid
    have hcomp : ∀ a ∈ S, a.tree.Comparable := by
      intro a ha
      exact ((a.equal_iff hfo a).mp ((hid.identity a ha a ha).mpr rfl)).2
    refine ⟨hcomp, fun a ha b hb halike => ?_⟩
    exact (hid.identity a ha b hb).mp ((a.equal_iff hfo b).mpr ⟨halike, hcomp a ha⟩)
  · intro hsharp
    have hid : ∀ a ∈ S, ∀ b ∈ S, a.Equal fo b ↔ a.tree = b.tree := by
      intro a ha b hb
      rw [a.equal_iff hfo]
      constructor
      · exact fun h => hsharp.2 a ha b hb h.1
      · intro htree
        rw [← htree]
        exact ⟨roundsAlike_self _, hsharp.1 a ha⟩
    refine ⟨hid, fun a => ?_, fun {a b} hab => ?_, fun {a b c} hab hbc => ?_⟩
    · exact (hid a a.2 a a.2).mpr rfl
    · exact (hid b b.2 a a.2).mpr ((hid a a.2 b b.2).mp hab).symm
    · exact (hid a a.2 c c.2).mpr
        (((hid a a.2 b b.2).mp hab).trans ((hid b b.2 c c.2).mp hbc))

/-! ## Which values stand for a tree -/

/-- A field of a pair. -/
inductive Field (h : HeapState) : VALUE → VALUE → Prop where
  | car {v : VALUE} (ht : typeOf v = ptrTypeCons) : Field h (car h v) v
  | cdr {v : VALUE} (ht : typeOf v = ptrTypeCons) : Field h (cdr h v) v

/-- The header and the data of the array at an address are in managed memory. -/
def ReadableArray (m : MemoryState) (array : UINT) : Prop :=
  ∃ eltType size data, readWord m array = some eltType ∧ readWord m (array + 4#32) = some size
    ∧ dataBytes eltType size < 2 ^ 32
    ∧ readBytes m (dataBytes eltType size) (array + 8#32) = some data

/-- The two type bits of an immediate. -/
theorem valType_cases (v : VALUE) : valType v = valTypeSymbol ∨ valType v = valTypeChar
    ∨ valType v = valTypeI ∨ valType v = valTypeU := by
  have hbits : ∀ t : VALUE, t &&& valTypeMask = t → v[2] = t[2] → v[3] = t[3] → valType v = t := by
    intro t ht h2 h3
    rw [← ht]
    ext i hi
    simp only [valType, valTypeMask]
    interval_cases i <;> simp [h2, h3]
  cases h2 : v[2] with
  | false =>
    cases h3 : v[3] with
    | false => exact Or.inl (hbits _ (by decide) h2 h3)
    | true => exact Or.inr (Or.inr (Or.inl (hbits _ (by decide) h2 h3)))
  | true =>
    cases h3 : v[3] with
    | false => exact Or.inr (Or.inl (hbits _ (by decide) h2 h3))
    | true => exact Or.inr (Or.inr (Or.inr (hbits _ (by decide) h2 h3)))

theorem denotes_of_immediate (hp : isPtr v = false) : ∃ t, Denotes h v t := by
  rcases valType_cases v with ht | ht | ht | ht
  · exact ⟨_, .symbol hp ht⟩
  · exact ⟨_, .char hp ht⟩
  · exact ⟨_, .i28 hp ht⟩
  · exact ⟨_, .u28 hp ht⟩

/-- **Every well-formed value without cycles stands for a tree.** -/
theorem WfHeap.exists_denotes {κ : HeapTyping} (hh : WfHeap κ h)
    (harrays : ∀ i, κ i = some .array → ReadableArray h.memory (h.cell i).car)
    (hv : WfValue κ v) (hacyclic : Acc (Field h) v) : ∃ t, Denotes h v t := by
  induction hacyclic with
  | intro v _ ih =>
    cases hp : isPtr v with
    | false => exact denotes_of_immediate hp
    | true =>
      have htype : typeOf v = ptrType v := by
        rw [typeOf, if_pos hp]
        rfl
      rcases hv.tagged hp with hind | ⟨k, hk, hty⟩
      · exact ⟨_, .indirection hp (htype.symm.trans hind)⟩
      · have ht : ptrType v = k.ptrType := htype.symm.trans hty
        cases k with
        | cons =>
          obtain ⟨l, hl, hfree⟩ := hh.free
          have hix : ptrIx v < h.heapSize := by
            by_contra hge
            have hnone := (hfree (ptrIx v)).mpr (Or.inr (by omega))
            rw [hnone] at hk
            exact absurd hk (by simp)
          have hcar : WfValue κ (car h v) := by
            rw [car_of_isPtr hp]
            exact (hv.car_of_cons hh hty).1
          obtain ⟨a, ha⟩ := ih _ (.car hty) hcar
          obtain ⟨d, hd⟩ := ih _ (.cdr hty) (wfValue_cdr hh hv)
          exact ⟨_, .cons hp ht (lt_of_lt_of_le hix hl.fits) ha hd⟩
        | boxedI => exact ⟨_, .i32 hp ht⟩
        | boxedU => exact ⟨_, .u32 hp ht⟩
        | boxedF => exact ⟨_, .float hp ht⟩
        | array =>
          obtain ⟨eltType, size, data, helt, hsize, hfits, hdata⟩ := harrays _ hk
          rw [← car_of_isPtr hp] at helt hsize hdata
          exact ⟨_, .array hp ht helt hsize hfits hdata⟩

/-! ## Two floats -/

/-- The conversion of words to floats and their comparison, on bit patterns. -/
def singleFloats : FloatOps :=
  { noFloats with
    ofU := fun x => BitVec.ofNat 32 (Rounding.single (Rounding.round 24 x.toNat))
    eq := fun x y => x == y }

theorem roundsWords_singleFloats : RoundsWords singleFloats := by
  intro x y
  have hlt : ∀ z : UINT, Rounding.single (Rounding.round 24 z.toNat) < 2 ^ 32 := fun z =>
    Rounding.single_lt (Rounding.round_le_two_pow (p := 24) (k := 8) (by decide) z.isLt)
  show (BitVec.ofNat 32 _ == BitVec.ofNat 32 _) = true ↔ _
  rw [beq_iff_eq, ← BitVec.toNat_inj, BitVec.toNat_ofNat, BitVec.toNat_ofNat,
    Nat.mod_eq_of_lt (hlt x), Nat.mod_eq_of_lt (hlt y)]
  constructor
  · exact Rounding.single_inj (Rounding.single_round _) (Rounding.single_round _)
  · intro heq
    rw [heq]

/-- Three cells: `1.0` and the next float are in the first two. -/
def twoFloatsHeap : HeapState :=
  (encBoxedF 0x3F800001#32 (encBoxedF 0x3F800000#32
    (heapInit 3 [⟨0#32, 0#32⟩, ⟨0#32, 0#32⟩, ⟨0#32, 0#32⟩] noMemory)).2).2

/-- The pair `(1.0 . 3)` in the cells 0 and 1, and once more in the cells 2 and 3. -/
def twoPairsHeap : HeapState :=
  { heapInit 0 [] noMemory with
    heap :=
      [⟨0x3F800000#32, encSym defReprBoxedFType⟩,
        ⟨setPtrType (cellPtr 0) ptrTypeBoxedF, encI 3#32⟩,
        ⟨0x3F800000#32, encSym defReprBoxedFType⟩,
        ⟨setPtrType (cellPtr 2) ptrTypeBoxedF, encI 3#32⟩]
    heapSize := 4
    numAlloc := 4#32 }

/-- The pair in the cell `i + 1` of `twoPairsHeap`, its car in the cell `i`. -/
theorem denotes_pair {i : Nat} (hi : i = 0 ∨ i = 2) : Denotes twoPairsHeap (cellPtr (i + 1))
    (.cons (.float 0x3F800000#32) (.i28 3#32)) := by
  rcases hi with rfl | rfl
  · have hcar : Denotes twoPairsHeap (setPtrType (cellPtr 0) ptrTypeBoxedF)
        (.float 0x3F800000#32) :=
      .float (v := setPtrType (cellPtr 0) ptrTypeBoxedF) (by decide) (by decide)
    exact .cons (by decide) (by decide) (by decide) hcar (.i28 (v := encI 3#32) rfl rfl)
  · have hcar : Denotes twoPairsHeap (setPtrType (cellPtr 2) ptrTypeBoxedF)
        (.float 0x3F800000#32) :=
      .float (v := setPtrType (cellPtr 2) ptrTypeBoxedF) (by decide) (by decide)
    exact .cons (by decide) (by decide) (by decide) hcar (.i28 (v := encI 3#32) rfl rfl)

/-- The two pairs are equal, and told apart from their car, from `3` and from `3u28`. -/
theorem identifiesTrees_twoPairs :
    RoundsWords singleFloats ∧ ∃ a b c d e : TreeValue twoPairsHeap,
      a.val = cellPtr 1 ∧ b.val = cellPtr 3 ∧ c.val = setPtrType (cellPtr 0) ptrTypeBoxedF
        ∧ d.val = encI 3#32 ∧ e.val = encU 3#32 ∧ a.Equal singleFloats b
        ∧ IdentifiesTrees singleFloats {a, b, c, d, e} := by
  let a : TreeValue twoPairsHeap := ⟨cellPtr 1, _, denotes_pair (Or.inl rfl)⟩
  let b : TreeValue twoPairsHeap := ⟨cellPtr 3, _, denotes_pair (Or.inr rfl)⟩
  let c : TreeValue twoPairsHeap := ⟨setPtrType (cellPtr 0) ptrTypeBoxedF, .float 0x3F800000#32,
    .float (v := setPtrType (cellPtr 0) ptrTypeBoxedF) (by decide) (by decide)⟩
  let d : TreeValue twoPairsHeap := ⟨encI 3#32, .i28 3#32, .i28 (v := encI 3#32) rfl rfl⟩
  let e : TreeValue twoPairsHeap := ⟨encU 3#32, .u28 3#32, .u28 (v := encU 3#32) rfl rfl⟩
  have hid : IdentifiesTrees singleFloats {a, b, c, d, e} := by
    refine (identifiesTrees_iff roundsWords_singleFloats {a, b, c, d, e}).mpr ⟨?_, ?_⟩
    · rintro x (rfl | rfl | rfl | rfl | rfl) <;> simp [a, b, c, d, e, ValueTree.Comparable]
    · rintro x (rfl | rfl | rfl | rfl | rfl) y (rfl | rfl | rfl | rfl | rfl) halike <;>
        first | rfl | cases halike
  have hequal : a.Equal singleFloats b := (hid.identity a (by simp) b (by simp)).mpr rfl
  exact ⟨roundsWords_singleFloats, a, b, c, d, e, rfl, rfl, rfl, rfl, rfl, hequal, hid⟩

/-- `1.0` and the next float are equal. -/
theorem not_identifiesTrees_floats :
    ∃ a b : TreeValue twoFloatsHeap,
      a.tree = .float 0x3F800000#32 ∧ b.tree = .float 0x3F800001#32 ∧ a.Equal singleFloats b
        ∧ ¬IdentifiesTrees singleFloats (Set.univ : Set (TreeValue twoFloatsHeap)) := by
  let a : TreeValue twoFloatsHeap :=
    ⟨setPtrType (cellPtr 0) ptrTypeBoxedF, .float 0x3F800000#32,
      .float (v := setPtrType (cellPtr 0) ptrTypeBoxedF) (by decide) (by decide)⟩
  let b : TreeValue twoFloatsHeap :=
    ⟨setPtrType (cellPtr 1) ptrTypeBoxedF, .float 0x3F800001#32,
      .float (v := setPtrType (cellPtr 1) ptrTypeBoxedF) (by decide) (by decide)⟩
  have hround : Rounding.round 24 0x3F800000 = Rounding.round 24 0x3F800001 := by decide +kernel
  have hequal : a.Equal singleFloats b :=
    (a.equal_iff roundsWords_singleFloats b).mpr ⟨hround, trivial⟩
  refine ⟨a, b, rfl, rfl, hequal, fun hid => ?_⟩
  have htree := (hid.identity a (Set.mem_univ _) b (Set.mem_univ _)).mp hequal
  have hword := ValueTree.float.inj htree
  exact absurd hword (by decide)

end LispBM
