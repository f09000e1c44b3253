import LispBM.Fundamental
import LispBM.Heap.Lists

/-!
# LispBM — building lists (`append`, `list`, `reverse` and `copy`)

The builders put the words of a list in front of a value, one fresh cell for each. They walk over a
list while they allocate; the cells they read are in use and those they write are free, so that the
walk sees the list as it was. `consAll` is the sequence of allocations that they have in common.

* `consAll_builds` — what the allocations make, and that they fail when the cells do not last;
* `reverseLoop_eq`, `copyLoop_eq`, `appendLoop_eq` — the loops as sequences of allocations;
* `listBuilders` — what the four builders return.
-/

namespace LispBM

/-- The loop of `copy`, and `reverse` of what it has made. -/
def copyLoop : Nat → VALUE → VALUE → HeapState → Option (VALUE × HeapState)
  | 0, _, _, _ => none
  | n + 1, curr, res, h =>
      if typeOf curr == ptrTypeCons then
        let (c, h) := cons (car h curr) res h
        if typeOf c == valTypeSymbol then some (encSym symreprMerror, h)
        else copyLoop n (cdr h curr) c h
      else reverse res h

/-- `copy`. -/
def copy (list : VALUE) (h : HeapState) : Option (VALUE × HeapState) :=
  copyLoop (walkFuel h) list NIL h

/-! ## What is built -/

/-- `v` is the words `ws` in front of `b`, in the cells `is`. -/
inductive ListTo (h : HeapState) (b : VALUE) : VALUE → List VALUE → List Nat → Prop where
  | nil : ListTo h b b [] []
  | cons {v : VALUE} {ws : List VALUE} {is : List Nat} (hty : typeOf v = ptrTypeCons)
      (hrest : ListTo h b (cdr h v) ws is) : ListTo h b v (car h v :: ws) (ptrIx v :: is)

section

variable {h h' : HeapState} {v b a : VALUE} {ws us : List VALUE} {is l : List Nat}

theorem ListTo.congr (hl : ListTo h b v ws is) (hcell : ∀ i ∈ is, h'.cell i = h.cell i) :
    ListTo h' b v ws is := by
  induction hl with
  | nil => exact .nil
  | @cons v ws is hty _ ih =>
    have hp := isPtr_of_typeOf_cons hty
    have hv := hcell (ptrIx v) (by simp)
    have hcar : car h' v = car h v := by rw [car_of_isPtr hp, car_of_isPtr hp, hv]
    have hcdr : cdr h' v = cdr h v := by rw [cdr_of_isPtr hp, cdr_of_isPtr hp, hv]
    rw [← hcar]
    apply ListTo.cons hty
    rw [hcdr]
    exact ih fun i hi => hcell i (List.mem_cons_of_mem _ hi)

theorem ListOf.listTo (hl : ListOf h v ws is) : ListTo h NIL v ws is := by
  induction hl with
  | nil => exact .nil
  | cons hty _ ih => exact .cons hty ih

theorem ListTo.listOf (hl : ListTo h NIL v ws is) : ListOf h v ws is := by
  induction hl with
  | nil => exact .nil
  | cons hty _ ih => exact .cons hty ih

/-- A cell in front. -/
theorem Conses.listTo {i : Nat} (hc : Conses h i l a v h') (hd : ListTo h b v ws is)
    (hused : ∀ j ∈ is, j ∉ i :: l) : ListTo h' b (cellPtr i) (a :: ws) (i :: is) := by
  have hrest : ListTo h' b (LispBM.cdr h' (cellPtr i)) ws is := by
    rw [hc.cdr]
    exact hd.congr fun j hj => hc.kept j (hused j hj)
  have hlist := ListTo.cons hc.type hrest
  rw [hc.car, hc.ix] at hlist
  exact hlist

/-- The outcome of a builder: with `n` free cells or more the words `ws` in front of `b` in cells
that were free, else `out_of_memory`; the other cells are as they were. -/
structure Builds (h : HeapState) (l : List Nat) (ws : List VALUE) (b : VALUE) (n : Nat) (v : VALUE)
    (h' : HeapState) : Prop where
  enough : n ≤ l.length → ∃ is, ListTo h' b v ws is ∧ (∀ i ∈ is, i ∈ l)
    ∧ ∃ l', FreeList h' l' ∧ l' <:+ l ∧ ∀ i ∈ is, i ∉ l'
  short : l.length < n → v = encSym symreprMerror
  kept : ∀ j, j ∉ l → h'.cell j = h.cell j

/-! ## A sequence of allocations -/

/-- The cells that the allocations take, and what is left. -/
structure ConsesAll (h : HeapState) (l : List Nat) (ws : List VALUE) (b v : VALUE)
    (us : List VALUE) (is : List Nat) (h' : HeapState) (v' : VALUE) : Prop where
  list : ListTo h' b v' (ws.reverse ++ us) ((l.take ws.length).reverse ++ is)
  free : FreeList h' (l.drop ws.length)
  pointer : ws ≠ [] → typeOf v' = ptrTypeCons
  size : h'.heapSize = h.heapSize
  length : h'.heap.length = h.heap.length

theorem consAll_cons {i : Nat} {w : VALUE} (hc : Conses h i l w v h') (ws : List VALUE) :
    consAll (w :: ws) v h = consAll ws (cellPtr i) h' := by
  rw [consAll, hc.eq]
  simp only [hc.type]
  rfl

/-- Each word takes a cell, or there are not enough of them. -/
theorem consAll_builds : ∀ {ws us : List VALUE} {v : VALUE} {is l : List Nat} {h : HeapState},
    FreeList h l → ListTo h b v us is → (∀ i ∈ is, i ∉ l) →
    (l.length < ws.length ∧ (consAll ws v h).1 = encSym symreprMerror)
      ∨ (ws.length ≤ l.length
        ∧ ConsesAll h l ws b v us is (consAll ws v h).2 (consAll ws v h).1) := by
  intro ws
  induction ws with
  | nil =>
    intro us v is l h hl hv _
    exact .inr ⟨Nat.zero_le _, hv, hl, fun hne => absurd rfl hne, rfl, rfl⟩
  | cons w ws ih =>
    intro us v is l h hl hv hused
    -- By the free list: it is used up, or its head becomes the cell for `w`.
    cases l with
    | nil =>
      left
      rw [consAll, hl.cons_eq_merror]
      exact ⟨Nat.succ_pos _, rfl⟩
    | cons i l =>
      obtain ⟨h', hc⟩ := hl.conses w v
      have hused' : ∀ j ∈ i :: is, j ∉ l := by
        intro j hj
        rcases List.mem_cons.mp hj with rfl | hj
        · exact hc.fresh
        · exact fun hjl => hused j hj (List.mem_cons_of_mem _ hjl)
      rw [consAll_cons hc]
      rcases ih hc.free (hc.listTo hv hused) hused' with ⟨hlen, hmerror⟩ | ⟨hlen, hall⟩
      · left
        rw [List.length_cons, List.length_cons]
        exact ⟨by omega, hmerror⟩
      · right
        rw [List.length_cons, List.length_cons]
        refine ⟨by omega, ?_, hall.free, fun _ => ?_, hall.size.trans hc.size,
          hall.length.trans hc.length⟩
        · rw [List.reverse_cons, List.append_assoc, List.length_cons, List.take_succ_cons,
            List.reverse_cons, List.append_assoc]
          exact hall.list
        · cases ws with
          | nil => exact hc.type
          | cons w' ws => exact hall.pointer (List.cons_ne_nil _ _)

/-! ## The loops -/

/-- One step of a walk over a list, with an allocation for its first word. -/
structure WalkStep (h : HeapState) (i : Nat) (l : List Nat) (curr acc w : VALUE) (ws : List VALUE)
    (h' : HeapState) : Prop where
  type : typeOf curr = ptrTypeCons
  car : car h curr = w
  conses : Conses h i l w acc h'
  rest : ∃ is, ListOf h' (cdr h' curr) ws is ∧ ∀ j ∈ is, j ∉ l

theorem ListOf.walkStep {i : Nat} {w curr : VALUE} (hl : FreeList h (i :: l))
    (hlist : ListOf h curr (w :: ws) is) (hused : ∀ j ∈ is, j ∉ i :: l) (acc : VALUE) :
    ∃ h', WalkStep h i l curr acc w ws h' := by
  obtain ⟨hty, hcar, js, rfl, hrest⟩ := hlist.uncons
  obtain ⟨h', hc⟩ := hl.conses w acc
  have hp := isPtr_of_typeOf_cons hty
  have hcell := hc.kept (ptrIx curr) (hused _ (by simp))
  have hcdr : LispBM.cdr h' curr = LispBM.cdr h curr := by
    rw [cdr_of_isPtr hp, cdr_of_isPtr hp, hcell]
  refine ⟨h', hty, hcar, hc, js, ?_, fun j hj hjl => ?_⟩
  · rw [hcdr]
    exact hrest.congr fun j hj => hc.kept j (hused j (List.mem_cons_of_mem _ hj))
  · exact hused j (List.mem_cons_of_mem _ hj) (List.mem_cons_of_mem _ hjl)

/-- The loop of `reverse` is a sequence of allocations. It ends with the list or with the free
list. -/
theorem reverseLoop_eq : ∀ {ws : List VALUE} {n : Nat} {curr acc : VALUE} {is l : List Nat}
    {h : HeapState}, FreeList h l → ListOf h curr ws is → (∀ j ∈ is, j ∉ l) → l.length < n →
    reverseLoop n curr acc h = some (consAll ws acc h) := by
  intro ws
  induction ws with
  | nil =>
    intro n curr acc is l h _ hlist _ hn
    obtain ⟨n, rfl⟩ := Nat.exists_eq_succ_of_ne_zero (Nat.ne_of_gt (Nat.zero_lt_of_lt hn))
    cases hlist with
    | nil => rfl
  | cons w ws ih =>
    intro n curr acc is l h hl hlist hused hn
    obtain ⟨n, rfl⟩ := Nat.exists_eq_succ_of_ne_zero (Nat.ne_of_gt (Nat.zero_lt_of_lt hn))
    have hcons : (ptrTypeCons == ptrTypeCons) = true := rfl
    have hsym : (ptrTypeCons == valTypeSymbol) = false := by decide
    cases l with
    | nil =>
      obtain ⟨hty, hcar, -⟩ := hlist.uncons
      have hmerror : (typeOf (encSym symreprMerror) == valTypeSymbol) = true := by decide
      rw [reverseLoop, consAll, hty, if_pos hcons, hcar, hl.cons_eq_merror]
      simp only [hmerror, if_true]
    | cons i l =>
      obtain ⟨h', hstep⟩ := hlist.walkStep hl hused acc
      obtain ⟨js, hrest, hused'⟩ := hstep.rest
      rw [List.length_cons] at hn
      have hrec := @ih n _ (cellPtr i) _ _ _ hstep.conses.free hrest hused' (by omega)
      rw [consAll_cons hstep.conses, reverseLoop, hstep.type, if_pos hcons, hstep.car,
        hstep.conses.eq]
      simp only [hstep.conses.type, hsym, Bool.false_eq_true, if_false]
      exact hrec

/-- The loop of `copy` breaks off like the loop of `reverse`, or goes on to `reverse`. -/
theorem copyLoop_eq : ∀ {ws : List VALUE} {n : Nat} {curr acc : VALUE} {is l : List Nat}
    {h : HeapState}, FreeList h l → ListOf h curr ws is → (∀ j ∈ is, j ∉ l) → ws.length < n →
    copyLoop n curr acc h = if l.length < ws.length then some (consAll ws acc h)
      else reverse (consAll ws acc h).1 (consAll ws acc h).2 := by
  intro ws
  induction ws with
  | nil =>
    intro n curr acc is l h _ hlist _ hn
    obtain ⟨n, rfl⟩ := Nat.exists_eq_succ_of_ne_zero (Nat.ne_of_gt hn)
    rw [List.length_nil, if_neg (Nat.not_lt_zero _)]
    cases hlist with
    | nil => rfl
  | cons w ws ih =>
    intro n curr acc is l h hl hlist hused hn
    obtain ⟨n, rfl⟩ := Nat.exists_eq_succ_of_ne_zero (Nat.ne_of_gt (Nat.zero_lt_of_lt hn))
    rw [List.length_cons] at hn
    have hcons : (ptrTypeCons == ptrTypeCons) = true := rfl
    have hsym : (ptrTypeCons == valTypeSymbol) = false := by decide
    -- Out of cells, `copy` returns what `consAll` returns; else the copy is reversed.
    cases l with
    | nil =>
      obtain ⟨hty, hcar, -⟩ := hlist.uncons
      have hmerror : (typeOf (encSym symreprMerror) == valTypeSymbol) = true := by decide
      have hshort : ([] : List Nat).length < (w :: ws).length := Nat.succ_pos _
      rw [if_pos hshort, copyLoop, consAll, hty, if_pos hcons, hcar, hl.cons_eq_merror]
      simp only [hmerror, if_true]
    | cons i l =>
      obtain ⟨h', hstep⟩ := hlist.walkStep hl hused acc
      obtain ⟨js, hrest, hused'⟩ := hstep.rest
      have hrec := @ih n _ (cellPtr i) _ _ _ hstep.conses.free hrest hused' (by omega)
      rw [consAll_cons hstep.conses, copyLoop, hstep.type, if_pos hcons, hstep.car,
        hstep.conses.eq]
      simp only [hstep.conses.type, hsym, Bool.false_eq_true, if_false, List.length_cons,
        Nat.add_lt_add_iff_right]
      exact hrec

/-- `index_list` of a list. -/
theorem ListOf.indexList_eq (hlist : ListOf h v ws is) : ∀ {k : Nat} {w : VALUE},
    ws[k]? = some w → indexList h v k = w := by
  induction hlist with
  | nil =>
    intro k w hk
    exact absurd hk (by simp)
  | @cons v ws is hty _ ih =>
    intro k w hk
    have hcons : (typeOf v == ptrTypeCons) = true := by rw [hty]; rfl
    cases k with
    | zero =>
      rw [List.getElem?_cons_zero] at hk
      exact Option.some.inj hk
    | succ k =>
      rw [List.getElem?_cons_succ] at hk
      rw [indexList, if_pos hcons]
      exact ih hk

/-- The loop of `append` goes through the words from the back. -/
theorem appendLoop_eq : ∀ {k : Nat} {res : VALUE} {l : List Nat} {h : HeapState},
    FreeList h l → ListOf h v ws is → (∀ j ∈ is, j ∉ l) → k ≤ ws.length →
    appendLoop v k res h = consAll (ws.take k).reverse res h := by
  intro k
  induction k with
  | zero => intro res l h _ _ _ _; rfl
  | succ k ih =>
    intro res l h hl hlist hused hk
    obtain ⟨w, hw⟩ : ∃ w, ws[k]? = some w := ⟨ws[k], List.getElem?_eq_getElem (by omega)⟩
    have htake : (ws.take (k + 1)).reverse = w :: (ws.take k).reverse := by
      rw [List.take_add_one, hw, List.reverse_append]
      rfl
    rw [appendLoop, hlist.indexList_eq hw, htake]
    cases l with
    | nil =>
      have hmerror : (typeOf (encSym symreprMerror) == valTypeSymbol) = true := by decide
      rw [consAll, hl.cons_eq_merror]
      simp only [hmerror, if_true]
    | cons i l =>
      obtain ⟨h', hc⟩ := hl.conses w res
      have hsym : (ptrTypeCons == valTypeSymbol) = false := by decide
      rw [consAll_cons hc, hc.eq]
      simp only [hc.type, hsym, Bool.false_eq_true, if_false]
      apply ih hc.free (hlist.congr fun j hj => hc.kept j (hused j hj)) _ (by omega)
      exact fun j hj hjl => hused j hj (List.mem_cons_of_mem _ hjl)

/-- A sequence of allocations in front of a value. -/
theorem builds_consAll (hl : FreeList h l) (ws : List VALUE) (b : VALUE) :
    Builds h l ws.reverse b ws.length (consAll ws b h).1 (consAll ws b h).2 := by
  obtain ⟨l', hsuf, hl', hkept⟩ := consAll_takes ws b h l hl
  rcases @consAll_builds b ws [] _ _ _ _ hl .nil (by simp) with
    ⟨hlen, hmerror⟩ | ⟨hlen, hall⟩
  · refine ⟨fun hle => ?_, fun _ => hmerror, hkept⟩
    omega
  · have hlist := hall.list
    rw [List.append_nil, List.append_nil] at hlist
    refine ⟨fun _ => ⟨_, hlist, fun i hi => ?_, _, hall.free, List.drop_suffix _ _,
      fun i hi hmem => ?_⟩,
      fun hlt => ?_, hkept⟩
    · exact List.mem_of_mem_take (List.mem_reverse.mp hi)
    · -- the cells that were taken are not free any more
      have hnd := hl.nodup
      rw [← List.take_append_drop ws.length l, List.nodup_append] at hnd
      exact hnd.2.2 i (List.mem_reverse.mp hi) i hmem rfl
    · omega

/-! ## The builders -/

/-- `reverse` of a list, which may be longer than the free list. -/
theorem reverse_eq (hl : FreeList h l) (hlist : ListOf h v ws is) (hused : ∀ i ∈ is, i ∉ l) :
    reverse v h = some (consAll ws NIL h) := by
  unfold reverse
  split
  · next hnil =>
    rw [Bool.and_eq_true, beq_iff_eq, beq_iff_eq] at hnil
    obtain ⟨-, rfl⟩ := hnil
    cases hlist with
    | nil => rfl
    | cons hty _ => exact absurd hty (by decide)
  · exact reverseLoop_eq hl hlist hused hl.length_lt_walkFuel

theorem reverse_builds (hl : FreeList h l) (hlist : ListOf h v ws is) (hused : ∀ i ∈ is, i ∉ l) :
    ∃ v' h', reverse v h = some (v', h') ∧ Builds h l ws.reverse NIL ws.length v' h' :=
  ⟨_, _, reverse_eq hl hlist hused, builds_consAll hl ws NIL⟩

/-- `copy` needs two cells for each word: it reverses the list twice. -/
theorem copy_builds (hl : FreeList h l) (hlist : ListOf h v ws is)
    (hused : ∀ i ∈ is, i < h.heapSize ∧ i ∉ l) :
    ∃ v' h', copy v h = some (v', h') ∧ Builds h l ws NIL (2 * ws.length) v' h' := by
  have hfuel := hlist.length_lt_walkFuel (fun i hi => (hused i hi).1) hl.fits
  have hcopy := @copyLoop_eq _ _ _ NIL _ _ _ hl hlist (fun i hi => (hused i hi).2) hfuel
  have hfirst := builds_consAll hl ws NIL
  rw [copy, hcopy]
  rcases @consAll_builds NIL ws [] _ _ _ _ hl .nil (by simp) with
    ⟨hlen, hmerror⟩ | ⟨hlen, hall⟩
  · rw [if_pos hlen]
    refine ⟨_, _, rfl, fun hle => ?_, fun _ => hmerror, hfirst.kept⟩
    omega
  · rw [if_neg (Nat.not_lt.mpr hlen)]
    have hlist' := hall.list
    rw [List.append_nil, List.append_nil] at hlist'
    -- The first pass took the cells in front, the second one takes the next ones.
    have hnd := hl.nodup
    rw [← List.take_append_drop ws.length l, List.nodup_append] at hnd
    obtain ⟨v', h', hres, hbuilds⟩ := reverse_builds hall.free hlist'.listOf fun i hi hmem =>
      hnd.2.2 i (List.mem_reverse.mp hi) i hmem rfl
    rw [List.reverse_reverse, List.length_reverse] at hbuilds
    refine ⟨v', h', hres, fun hle => ?_, fun hlt => hbuilds.short ?_, fun j hj => ?_⟩
    · obtain ⟨js, hjs, hfresh, l', hl', hsuf, hout⟩ :=
        hbuilds.enough (by rw [List.length_drop]; omega)
      exact ⟨js, hjs, fun i hi => List.mem_of_mem_drop (hfresh i hi), l', hl',
        hsuf.trans (List.drop_suffix _ _), hout⟩
    · rw [List.length_drop]
      omega
    · rw [hbuilds.kept j fun hmem => hj (List.mem_of_mem_drop hmem), hfirst.kept j hj]

theorem fundamentalExec_of_heapExec {fo : FloatOps} {args : List VALUE} {nargs : UINT}
    {op res : VALUE}
    {st : SymbolTable} {h h' : HeapState} (hop : (decSym op == symStringToSymbol) = false)
    (hexec : fundamentalHeapExec fo args nargs (decSym op) st h = some (res, h')) :
    fundamentalExec fo args nargs op st h = some (res, h', st) := by
  unfold fundamentalExec
  rw [hop, hexec]
  rfl

/-- `append` is a sequence of allocations. -/
theorem append_eq (fo : FloatOps) (st : SymbolTable) (hl : FreeList h l)
    (hlist : ListOf h v ws is) (hused : ∀ i ∈ is, i < h.heapSize ∧ i ∉ l) (b : VALUE) :
    fundamentalExec fo [v, b] 2#32 (encSym symAppend) st h
      = some ((consAll ws.reverse b h).1, (consAll ws.reverse b h).2, st) := by
  have hfuel := hlist.length_lt_walkFuel (fun i hi => (hused i hi).1) hl.fits
  have hlen := hlist.lengthLoop_eq (k := 0) hfuel
  have hloop := @appendLoop_eq _ _ _ _ b _ _ hl hlist (fun i hi => (hused i hi).2)
    (le_refl ws.length)
  rw [List.take_length] at hloop
  rw [Nat.zero_add] at hlen
  have hexec : fundamentalHeapExec fo [v, b] 2#32 symAppend st h
      = (length h v).bind fun n => some (appendLoop v n b h) := rfl
  have hsome : fundamentalHeapExec fo [v, b] 2#32 symAppend st h
      = some (consAll ws.reverse b h) := by
    rw [hexec, length, hlen, Option.bind_some, hloop]
  exact fundamentalExec_of_heapExec rfl hsome

/-- `list` is one. -/
theorem list_eq (fo : FloatOps) (st : SymbolTable) {vs : List VALUE} (hvs : vs.length < 2 ^ 32) :
    fundamentalExec fo vs (BitVec.ofNat 32 vs.length) (encSym symList) st h
      = some ((consAll vs.reverse NIL h).1, (consAll vs.reverse NIL h).2, st) := by
  have hargs : (List.range vs.length).map (vs.getD · 0#32) = vs := by
    apply List.ext_getElem
    · simp
    · intro k hk hk'
      simp [hk']
  have hn : (BitVec.ofNat 32 vs.length).toNat = vs.length := by
    rw [BitVec.toNat_ofNat, Nat.mod_eq_of_lt hvs]
  have hexec : fundamentalHeapExec fo vs (BitVec.ofNat 32 vs.length) symList st h
      = some (consAll ((List.range (BitVec.ofNat 32 vs.length).toNat).reverse.map (vs.getD · 0#32))
        NIL h) := rfl
  rw [hn, List.map_reverse, hargs] at hexec
  exact fundamentalExec_of_heapExec rfl hexec

theorem append_builds (fo : FloatOps) (st : SymbolTable) (hl : FreeList h l)
    (hlist : ListOf h v ws is) (hused : ∀ i ∈ is, i < h.heapSize ∧ i ∉ l) (b : VALUE) :
    ∃ v' h', fundamentalExec fo [v, b] 2#32 (encSym symAppend) st h = some (v', h', st)
      ∧ Builds h l ws b ws.length v' h' := by
  have hbuilds := builds_consAll hl ws.reverse b
  rw [List.reverse_reverse, List.length_reverse] at hbuilds
  exact ⟨_, _, append_eq fo st hl hlist hused b, hbuilds⟩

theorem list_builds (fo : FloatOps) (st : SymbolTable) (hl : FreeList h l) {vs : List VALUE}
    (hvs : vs.length < 2 ^ 32) :
    ∃ v' h', fundamentalExec fo vs (BitVec.ofNat 32 vs.length) (encSym symList) st h
        = some (v', h', st)
      ∧ Builds h l vs NIL vs.length v' h' := by
  have hbuilds := builds_consAll hl vs.reverse NIL
  rw [List.reverse_reverse, List.length_reverse] at hbuilds
  exact ⟨_, _, list_eq fo st hvs, hbuilds⟩

/-- **List builders.** They return the words they should in fresh cells, or `out_of_memory` when
there are too few of these, and change no cell that was in use. -/
theorem listBuilders (fo : FloatOps) (st : SymbolTable) (hl : FreeList h l)
    (hlist : ListOf h v ws is) (hused : ∀ i ∈ is, i < h.heapSize ∧ i ∉ l) (b : VALUE)
    {vs : List VALUE} (hvs : vs.length < 2 ^ 32) :
    (∃ v' h', fundamentalExec fo [v, b] 2#32 (encSym symAppend) st h = some (v', h', st)
      ∧ Builds h l ws b ws.length v' h')
    ∧ (∃ v' h', reverse v h = some (v', h') ∧ Builds h l ws.reverse NIL ws.length v' h')
    ∧ (∃ v' h', copy v h = some (v', h') ∧ Builds h l ws NIL (2 * ws.length) v' h')
    ∧ ∃ v' h', fundamentalExec fo vs (BitVec.ofNat 32 vs.length) (encSym symList) st h
        = some (v', h', st)
      ∧ Builds h l vs NIL vs.length v' h' :=
  ⟨append_builds fo st hl hlist hused b, reverse_builds hl hlist fun i hi => (hused i hi).2,
    copy_builds hl hlist hused, list_builds fo st hl hvs⟩

end

/-- The list `(1 2)` in a heap of seven cells. -/
def listHeap : HeapState :=
  let h := heapInit 7 (List.replicate 7 ⟨0#32, 0#32⟩) ⟨[], [], 0#32, 0#32, 0#32⟩
  (cons (encI 1#32) (cellPtr 0) (cons (encI 2#32) NIL h).2).2

theorem listBuilders_listHeap :
    ∃ (fo : FloatOps) (st : SymbolTable),
      (∃ v h, fundamentalExec fo [cellPtr 1, encU 7#32] 2#32 (encSym symAppend) st listHeap
          = some (v, h, st)
        ∧ Builds listHeap [2, 3, 4, 5, 6] [encI 1#32, encI 2#32] (encU 7#32) 2 v h)
      ∧ (∃ v h, reverse (cellPtr 1) listHeap = some (v, h)
          ∧ Builds listHeap [2, 3, 4, 5, 6] [encI 2#32, encI 1#32] NIL 2 v h)
      ∧ (∃ v h, copy (cellPtr 1) listHeap = some (v, h)
          ∧ Builds listHeap [2, 3, 4, 5, 6] [encI 1#32, encI 2#32] NIL 4 v h)
      ∧ ∃ v h, fundamentalExec fo [NIL, cellPtr 1] (BitVec.ofNat 32 2) (encSym symList) st listHeap
          = some (v, h, st) ∧ Builds listHeap [2, 3, 4, 5, 6] [NIL, cellPtr 1] NIL 2 v h := by
  have hl : FreeList listHeap [2, 3, 4, 5, 6] := freeList_of_isFreeList (by decide +kernel)
  have hlist : ListOf listHeap (cellPtr 1) [encI 1#32, encI 2#32] [1, 0] :=
    listOf_of_isListOf (by decide +kernel)
  have hused : ∀ i ∈ [1, 0], i < listHeap.heapSize ∧ i ∉ [2, 3, 4, 5, 6] := by decide +kernel
  exact ⟨⟨fun x _ => x, fun x _ => x, fun x _ => x, fun x _ => x, id, id, id, id, id,
    fun x y => x == y, fun x y => x.ult y⟩, ⟨0#32, 0#32⟩,
    listBuilders _ _ hl hlist hused (encU 7#32) (show [NIL, cellPtr 1].length < 2 ^ 32 by decide)⟩

end LispBM
