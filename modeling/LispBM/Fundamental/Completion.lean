import LispBM.Arrays.Allocation

/-!
# LispBM — where the fundamental operations return (`src/fundamental.c`)

`none` of the model is what C leaves undefined: a division that traps, an access outside managed
memory, a walk that does not come to an end. `Completes` says of the arguments, operation by
operation, that nothing of this happens:

* `fundamentalExec_isSome_iff` — `fundamental_exec` returns exactly then;
* `tagSafe_iff` — it returns a well-formed value exactly if it also forwards no word that is none.

Two of the conditions are slips of the source. `str-to-sym` does not look at the type of its
argument (`type_of` is applied to the comparison), and reads the memory at whatever its car is; and
`sym-to-str` takes the error symbol that `heap_allocate_array` returns without a free cell for
success.
-/

namespace LispBM

variable {κ : HeapTyping} {h h' : HeapState} {v : VALUE} {fo : FloatOps} {args : List VALUE}
  {nargs : UINT} {st : SymbolTable}

/-! ## What an operation needs -/

/-- The element types that `array_read` and `array_write` find in a word. -/
def isWordType (t : TYPE) : Bool :=
  t == valTypeU || t == valTypeI || t == ptrTypeBoxedU || t == ptrTypeBoxedI || t == ptrTypeBoxedF

/-- The header of the array data at `array` is in managed memory, and so is the element `ix`, if
there is one and its type is one of those that are `touched`. -/
def ElementInMemory (m : MemoryState) (array ix : UINT) (touched : TYPE → Prop) : Prop :=
  ∃ eltType size, readWord m array = some eltType ∧ readWord m (array + 4#32) = some size
    ∧ (touched eltType → ix < size →
      (eltType = valTypeChar → (readByte m (array + 8#32 + ix)).isSome)
        ∧ (isWordType eltType = true → (readWord m (array + 8#32 + 4#32 * ix)).isSome))

/-- The division of boxed signed numbers that traps: -2^31 by -1. -/
def DivisionOverflows (fo : FloatOps) (h : HeapState) (a b : VALUE) : Prop :=
  typeOf (byType a b).2 = ptrTypeBoxedI ∧ car h (byType a b).2 = 0x80000000#32
    ∧ asI fo h (byType a b).1 = 0xFFFFFFFF#32

/-- No step of the loop of `/` or `mod` overflows; it ends at an error. -/
def NoDivisionOverflows (fo : FloatOps)
    (f : VALUE → VALUE → HeapState → Option (VALUE × HeapState)) :
    List VALUE → VALUE → HeapState → Prop
  | [], _, _ => True
  | b :: bs, acc, h =>
      ¬DivisionOverflows fo h acc b ∧ ∀ acc' h', f acc b h = some (acc', h') →
        typeOf acc' ≠ valTypeSymbol → NoDivisionOverflows fo f bs acc' h'

/-- If there is a block for the string, its header and all its bytes are in managed memory. -/
def StringFits (h : HeapState) (str : List (BitVec 8)) : Prop :=
  ∀ array m, memoryAllocate h.memory
      (2#32 + allocateSize valTypeChar (BitVec.ofNat 32 str.length + 1#32)) = (some array, m) →
    ∃ m₁ m₂, writeWord m array valTypeChar = some m₁
      ∧ writeWord m₁ (array + 4#32) (BitVec.ofNat 32 str.length + 1#32) = some m₂
      ∧ (array ≠ 0#32 → (writeBytes m₂ (array + 8#32) (str ++ [0#8])).isSome)

/-- The arguments on which an operation returns. -/
structure Completes (fo : FloatOps) (args : List VALUE) (nargs : UINT) (op : UINT)
    (st : SymbolTable) (h : HeapState) : Prop where
  /-- the array has its header in memory, and the element that is read or written; … -/
  arrays : op = symArrayRead ∨ op = symArrayWrite → typeOf (args.getD 0 0#32) = ptrTypeArray →
    ∀ ix, arrayIndex h (args.getD 1 0#32) = .inl ix →
      ElementInMemory h.memory (car h (args.getD 0 0#32)) ix
        fun t => op = symArrayRead ∨ typeOf (args.getD 2 0#32) = t
  /-- … the list that `append` copies ends; … -/
  append : op = symAppend → nargs = 2#32 → (length h (args.getD 0 0#32)).isSome
  /-- … so does each comparison, up to the first one that fails; … -/
  eq : op = symEq → ∀ pre b post, restArgs args nargs = pre ++ b :: post →
    (∀ p ∈ pre, structEq fo h (args.getD 0 0#32) p = some true) →
      (structEq fo h (args.getD 0 0#32) b).isSome
  /-- … no division traps; … -/
  div : op = symDiv → NoDivisionOverflows fo (div2 fo) (restArgs args nargs) (args.getD 0 0#32) h
  mod : op = symMod → NoDivisionOverflows fo (mod2 fo) (restArgs args nargs) (args.getD 0 0#32) h
  /-- … a symbol can be looked up and, if it has a name, there is a cell for the string, and room
  in the block; … -/
  symbolToString : op = symSymbolToString → ¬nargs < 1#32 →
    typeOf (args.getD 0 0#32) = valTypeSymbol →
      ∃ name, symreprLookupName h.memory st (decSym (args.getD 0 0#32)) = some name
        ∧ ∀ str, name = some str → h.freelist ≠ NIL ∧ StringFits h str
  /-- … and the argument of `str-to-sym` has an address in its car, where a string, if there is
  one, ends, and can be looked up and entered. -/
  stringToSymbol : op = symStringToSymbol → ¬nargs < 1#32 →
    ∃ eltType, readWord h.memory (car h (args.getD 0 0#32)) = some eltType
      ∧ (eltType = valTypeChar → ∃ str found,
        readCString h.memory (car h (args.getD 0 0#32) + 8#32) = some str
          ∧ symreprLookup h.memory st str = some found
          ∧ (found = none → (symreprAddsym h.memory st str).isSome))

/-! ## Arrays -/

theorem isSome_bind_some {α β : Type} {o : Option α} {f : α → β} :
    (o.bind fun a => some (f a)).isSome = o.isSome := by
  cases o <;> rfl

theorem isSome_writeWord {m : MemoryState} {addr w : UINT} :
    (writeWord m addr w).isSome = (readWord m addr).isSome := by
  unfold readWord writeWord
  rw [Option.isSome_map, Option.isSome_map]

theorem isSome_writeByte {m : MemoryState} {addr : UINT} {b : BitVec 8} :
    (writeByte m addr b).isSome = (readByte m addr).isSome := by
  unfold readByte writeByte
  simp only [Option.bind_eq_bind, Option.isSome_map]
  cases hw : readWord m (byteSlot addr).1 with
  | none => rfl
  | some w =>
    rw [Option.bind_some, isSome_writeWord, hw]

section

variable {array ix : UINT} {touched : TYPE → Prop} {m : MemoryState}

/-- The header is read, whatever is done with the element. -/
theorem header_isSome_iff {f : TYPE → UINT → Option (VALUE × HeapState)}
    (hf : ∀ {eltType size}, (f eltType size).isSome ↔ (touched eltType → ix < size →
      (eltType = valTypeChar → (readByte m (array + 8#32 + ix)).isSome)
        ∧ (isWordType eltType = true → (readWord m (array + 8#32 + 4#32 * ix)).isSome))) :
    ((readWord m array).bind fun eltType =>
        (readWord m (array + 4#32)).bind fun size => f eltType size).isSome
      ↔ ElementInMemory m array ix touched := by
  unfold ElementInMemory
  cases readWord m array with
  | none => simp
  | some eltType =>
    cases readWord m (array + 4#32) with
    | none => simp
    | some size => simp [hf]

end

theorem arrayRead_isSome_iff : (arrayRead args h).isSome ↔
    (typeOf (args.getD 0 0#32) = ptrTypeArray → ∀ ix, arrayIndex h (args.getD 1 0#32) = .inl ix →
      ElementInMemory h.memory (car h (args.getD 0 0#32)) ix fun _ => True) := by
  unfold arrayRead
  generalize args.getD 0 0#32 = arr, args.getD 1 0#32 = index
  simp only
  cases hix : arrayIndex h index with
  | inr err => simp
  | inl ix =>
    simp only [beq_iff_eq, Sum.inl.injEq, forall_eq']
    split
    · next hty =>
      simp only [hty, true_implies]
      refine header_isSome_iff fun {eltType size} => ?_
      by_cases hlt : ix < size
      · rw [if_neg (by simpa using hlt)]
        simp only [hlt, true_implies, Option.bind_eq_bind]
        -- One byte for a string, one word for the five other types, else nothing.
        by_cases hchar : eltType = valTypeChar
        · subst hchar
          simp [isSome_bind_some, show isWordType valTypeChar = false by decide]
        · rw [if_neg hchar]
          by_cases hword : isWordType eltType = true
          · have hcases := hword
            simp only [isWordType, Bool.or_eq_true, beq_iff_eq] at hcases
            simp only [hchar, hword, false_implies, true_implies, true_and]
            rcases hcases with (((rfl | rfl) | rfl) | rfl) | rfl
            all_goals
              repeat rw [if_neg (by decide)]
              rw [if_pos rfl, isSome_bind_some]
          · simp only [isWordType, Bool.or_eq_true, beq_iff_eq, not_or] at hword
            obtain ⟨⟨⟨⟨hU, hI⟩, hbU⟩, hbI⟩, hbF⟩ := hword
            simp [hchar, hU, hI, hbU, hbI, hbF, isWordType]
      · rw [if_pos (by simpa using hlt)]
        simp [hlt]
    · next hty => simp [hty]

theorem arrayWrite_isSome_iff : (arrayWrite args h).isSome ↔
    (typeOf (args.getD 0 0#32) = ptrTypeArray → ∀ ix, arrayIndex h (args.getD 1 0#32) = .inl ix →
      ElementInMemory h.memory (car h (args.getD 0 0#32)) ix
        fun t => typeOf (args.getD 2 0#32) = t) := by
  unfold arrayWrite
  generalize args.getD 0 0#32 = arr, args.getD 1 0#32 = index, args.getD 2 0#32 = val
  simp only
  cases hix : arrayIndex h index with
  | inr err => simp
  | inl ix =>
    simp only [beq_iff_eq, Sum.inl.injEq, forall_eq']
    split
    · next hty =>
      simp only [hty, true_implies]
      refine header_isSome_iff fun {eltType size} => ?_
      -- An element of another type is refused before the memory is touched.
      by_cases hlt : typeOf val = eltType ∧ ix < size
      · rw [if_neg (by simpa using hlt)]
        simp only [hlt, true_implies, Option.bind_eq_bind]
        by_cases hchar : eltType = valTypeChar
        · subst hchar
          simp [isSome_bind_some, isSome_writeByte, show isWordType valTypeChar = false by decide]
        · rw [if_neg hchar]
          by_cases hword : isWordType eltType = true
          · have hcases := hword
            simp only [isWordType, Bool.or_eq_true, beq_iff_eq] at hcases
            simp only [hchar, hword, false_implies, true_implies, true_and]
            rcases hcases with (((rfl | rfl) | rfl) | rfl) | rfl
            all_goals
              repeat rw [if_neg (by decide)]
              rw [if_pos (by decide), isSome_bind_some, isSome_writeWord]
          · simp only [isWordType, Bool.or_eq_true, beq_iff_eq, not_or] at hword
            obtain ⟨⟨⟨⟨hU, hI⟩, hbU⟩, hbI⟩, hbF⟩ := hword
            simp [hchar, hU, hI, hbU, hbI, hbF, isWordType]
      · rw [if_pos (by simpa [or_iff_not_imp_left] using hlt)]
        simp only [Option.isSome_some, true_iff]
        exact fun heq hix => absurd ⟨heq, hix⟩ hlt
    · next hty => simp [hty]

/-! ## Equality -/

theorem eqLoop_false {a : VALUE} : ∀ {bs : List VALUE}, (eqLoop fo h a bs false).isSome := by
  intro bs
  induction bs with
  | nil => rfl
  | cons b bs ih => exact ih

/-- The operands are compared with the first one until one differs. -/
theorem eqLoop_isSome_iff {a : VALUE} : ∀ {bs : List VALUE}, (eqLoop fo h a bs true).isSome ↔
    ∀ pre b post, bs = pre ++ b :: post → (∀ p ∈ pre, structEq fo h a p = some true) →
      (structEq fo h a b).isSome := by
  intro bs
  induction bs with
  | nil => simp [eqLoop]
  | cons b bs ih =>
    unfold eqLoop
    rw [if_pos rfl]
    constructor
    · intro hsome pre b' post hsplit hpre
      cases heq : structEq fo h a b with
      | none =>
        rw [heq] at hsome
        cases hsome
      | some r =>
        -- The first operand was compared; the one in question is it or comes later.
        cases pre with
        | nil =>
          obtain ⟨rfl, -⟩ := List.cons.inj hsplit
          rw [heq]
          rfl
        | cons p pre =>
          obtain ⟨rfl, hrest⟩ := List.cons.inj hsplit
          obtain rfl := Option.some.inj (heq.symm.trans (hpre b List.mem_cons_self))
          rw [heq] at hsome
          exact ih.mp hsome pre b' post hrest fun p hp => hpre p (List.mem_cons_of_mem _ hp)
    · intro hall
      obtain ⟨r, hr⟩ := Option.isSome_iff_exists.mp (hall [] b bs rfl (by simp))
      rw [hr]
      cases r with
      -- After a difference no operand is looked at.
      | false => exact eqLoop_false
      | true =>
        refine ih.mpr fun pre b' post hrest hpre => hall (b :: pre) b' post ?_ ?_
        · rw [hrest, List.cons_append]
        · intro p hp
          rcases List.mem_cons.mp hp with rfl | hp
          · exact hr
          · exact hpre p hp

/-! ## Arithmetic -/

/-- The switch over the type of the larger operand traps at most in the signed branches. -/
theorem arithSwitch_isSome_iff {onI onU onF : UINT → UINT → ArithRes} {tMin tMax : VALUE}
    {asBI : HeapState → VALUE → UINT} (hI : ∀ x y, onI (decI x) y ≠ .trap) (hU : NeverTraps onU)
    (hF : NeverTraps onF) :
    (arithSwitch fo onI onU onF asBI tMin tMax h).isSome
      ↔ ¬(typeOf tMax = ptrTypeBoxedI ∧ onI (car h tMax) (asBI h tMin) = .trap) := by
  unfold arithSwitch
  simp only [beq_iff_eq]
  by_cases hbI : typeOf tMax = ptrTypeBoxedI
  · have hne : ∀ {t : TYPE}, ptrTypeBoxedI ≠ t → ¬typeOf tMax = t :=
      fun ht h => ht (hbI.symm.trans h)
    rw [if_neg (hne (by decide)), if_neg (hne (by decide)), if_neg (hne (by decide)), if_pos hbI,
      ArithRes.enc_isSome_iff]
    simp [hbI]
  · rw [if_neg hbI]
    refine iff_of_true ?_ fun h => hbI h.1
    split
    · exact ArithRes.enc_isSome_iff.mpr (hI _ _)
    split
    · exact ArithRes.enc_isSome_iff.mpr (hU _ _)
    split
    · exact ArithRes.enc_isSome_iff.mpr (hU _ _)
    split
    · exact ArithRes.enc_isSome_iff.mpr (hF _ _)
    · rfl

theorem neverTraps_word (f : UINT → UINT → UINT) : NeverTraps fun x y => .word (f x y) := by
  intro x y hd
  cases hd

theorem div2_isSome_iff {a b : VALUE} : (div2 fo a b h).isSome ↔ ¬DivisionOverflows fo h a b := by
  unfold div2
  simp only
  rw [arithSwitch_isSome_iff (divI_decI_ne_trap _) (divU_neverTraps _) ?_, divI_eq_trap_iff]
  · rfl
  · intro x y hd
    simp only at hd
    split at hd <;> cases hd

theorem mod2_isSome_iff {a b : VALUE} : (mod2 fo a b h).isSome ↔ ¬DivisionOverflows fo h a b := by
  unfold mod2
  simp only
  rw [arithSwitch_isSome_iff (divI_decI_ne_trap _) (divU_neverTraps _) ?_, divI_eq_trap_iff]
  · rfl
  · intro x y hd
    cases hd

/-- Additions, subtractions and multiplications return on all operands. -/
theorem arithSwitch_words_isSome {f g k : UINT → UINT → UINT} {tMin tMax : VALUE}
    {asBI : HeapState → VALUE → UINT} :
    (arithSwitch fo (fun x y => .word (f x y)) (fun x y => .word (g x y))
      (fun x y => .word (k x y)) asBI tMin tMax h).isSome := by
  refine (arithSwitch_isSome_iff (fun x y => ?_) (neverTraps_word g) (neverTraps_word k)).mpr
    fun htrap => ?_
  · exact neverTraps_word f _ _
  · exact neverTraps_word f _ _ htrap.2

theorem add2_isSome {a b : VALUE} : (add2 fo a b h).isSome := by
  unfold add2
  simp only
  split
  · rfl
  · exact arithSwitch_words_isSome

theorem mul2_isSome {a b : VALUE} : (mul2 fo a b h).isSome := by
  unfold mul2
  exact arithSwitch_words_isSome

theorem sub2_isSome {a b : VALUE} : (sub2 fo a b h).isSome := by
  unfold sub2
  simp only
  split
  · exact arithSwitch_words_isSome
  · rfl

theorem foldArgs_isSome {f : VALUE → VALUE → HeapState → Option (VALUE × HeapState)}
    (hf : ∀ {a b h}, (f a b h).isSome) : ∀ {as : List VALUE} {acc : VALUE} {h : HeapState},
      (foldArgs f as acc h).isSome := by
  intro as
  induction as with
  | nil => intro acc h; rfl
  | cons a as ih =>
    intro acc h
    obtain ⟨⟨acc', h'⟩, hres⟩ := Option.isSome_iff_exists.mp (@hf acc a h)
    rw [foldArgs, hres]
    simp only
    split
    · rfl
    · exact ih

theorem foldArgs_isSome_iff {f : VALUE → VALUE → HeapState → Option (VALUE × HeapState)}
    (hf : ∀ {a b h}, (f a b h).isSome ↔ ¬DivisionOverflows fo h a b) :
    ∀ {as : List VALUE} {acc : VALUE} {h : HeapState},
      (foldArgs f as acc h).isSome ↔ NoDivisionOverflows fo f as acc h := by
  intro as
  induction as with
  | nil => intro acc h; exact iff_of_true rfl trivial
  | cons a as ih =>
    intro acc h
    unfold foldArgs NoDivisionOverflows
    rw [← hf]
    cases hres : f acc a h with
    | none => simp
    | some res =>
      obtain ⟨acc', h'⟩ := res
      simp only [Option.isSome_some, true_and, Option.some.injEq, Prod.mk.injEq]
      by_cases hsym : typeOf acc' = valTypeSymbol
      · rw [if_pos (by simpa using hsym)]
        refine iff_of_true rfl ?_
        rintro _ _ ⟨rfl, -⟩ hne
        exact absurd hsym hne
      · rw [if_neg (by simpa using hsym), ih]
        constructor
        · rintro hrest _ _ ⟨rfl, rfl⟩ -
          exact hrest
        · exact fun hall => hall _ _ ⟨rfl, rfl⟩ hsym

/-! ## Strings -/

/-- A string is allocated if there is a cell, and its block is in memory. -/
theorem heapAllocateArray_string {i : Nat} {l : List Nat} {str : List (BitVec 8)}
    (hl : FreeList h (i :: l)) :
    ((heapAllocateArray (BitVec.ofNat 32 str.length + 1#32) valTypeChar h).bind fun res =>
      if res.1 != 0#32 then res.2.1.bind fun v =>
        if car res.2.2 v == 0#32 then some (encSym symreprMerror, res.2.2)
        else (writeBytes res.2.2.memory (car res.2.2 v + 8#32) (str ++ [0#8])).bind fun m =>
          some (v, { res.2.2 with memory := m })
      else some (encSym symreprMerror, res.2.2)).isSome ↔ StringFits h str := by
  rcases hmem : memoryAllocate h.memory
    (2#32 + allocateSize valTypeChar (BitVec.ofNat 32 str.length + 1#32)) with ⟨_ | array, m⟩
  · -- no block: the answer is `out_of_memory`
    obtain ⟨h', hres, -⟩ := heapAllocateArray_none hl hmem
    rw [hres]
    refine iff_of_true rfl fun array m heq => ?_
    cases hmem.symm.trans heq
  · have hfits : StringFits h str ↔ ∃ m₁ m₂, writeWord m array valTypeChar = some m₁
        ∧ writeWord m₁ (array + 4#32) (BitVec.ofNat 32 str.length + 1#32) = some m₂
        ∧ (array ≠ 0#32 → (writeBytes m₂ (array + 8#32) (str ++ [0#8])).isSome) := by
      constructor
      · exact fun hall => hall array m hmem
      · intro hex array' m' heq
        cases hmem.symm.trans heq
        exact hex
    have hcar : ∀ m, car (filledArray h i array m) (cellPtr i ||| ptrTypeArray) = array := by
      intro m
      have hi := (filledArray_takes hl array m).2.1
      have hp := ptrWord_or_array (lt_of_lt_of_le hi hl.addressable)
      rw [car_of_isPtr hp.isPtr, hp.ptrIx, filledArray_cell hl]
    have hone : ((1#32 : UINT) != 0#32) = true := by decide
    rw [hfits, heapAllocateArray_some hl hmem]
    cases hw₁ : writeWord m array valTypeChar with
    | none => simp
    | some m₁ =>
      cases hw₂ : writeWord m₁ (array + 4#32) (BitVec.ofNat 32 str.length + 1#32) with
      | none => simp [hw₂]
      | some m₂ =>
        simp only [hw₂, Option.bind_some, hone, if_true, hcar, beq_iff_eq]
        by_cases hnull : array = 0#32
        · rw [if_pos hnull]
          exact iff_of_true rfl ⟨m₁, m₂, rfl, hw₂, fun hne => absurd hnull hne⟩
        · rw [if_neg hnull, isSome_bind_some]
          constructor
          · exact fun hwrites => ⟨m₁, m₂, rfl, hw₂, fun _ => hwrites⟩
          · rintro ⟨m₁', m₂', heq₁, heq₂, hwrites⟩
            cases heq₁
            cases hw₂.symm.trans heq₂
            exact hwrites hnull

theorem symbolToString_isSome_iff (hh : WfHeap κ h) : (symbolToString args nargs st h).isSome ↔
    (¬nargs < 1#32 → typeOf (args.getD 0 0#32) = valTypeSymbol →
      ∃ name, symreprLookupName h.memory st (decSym (args.getD 0 0#32)) = some name
        ∧ ∀ str, name = some str → h.freelist ≠ NIL ∧ StringFits h str) := by
  unfold symbolToString
  generalize args.getD 0 0#32 = sym
  by_cases hn : nargs < 1#32
  · simp [hn]
  by_cases hsym : typeOf sym = valTypeSymbol
  · rw [if_neg (by simp [hn, hsym])]
    simp only [hn, hsym, not_false_eq_true, true_implies, Option.bind_eq_bind]
    cases symreprLookupName h.memory st (decSym sym) with
    | none => simp
    | some name =>
      simp only [Option.bind_some, Option.some.injEq, exists_eq_left']
      cases name with
      | none => simp
      | some str =>
        simp only [Option.some.injEq, forall_eq']
        obtain ⟨l, hl, -⟩ := hh.free
        -- Without a free cell `heap_allocate_array` reports success and makes no array.
        rcases hl.cases with ⟨hnil, rfl⟩ | ⟨i, l', rfl, hfl, -⟩
        · rw [heapAllocateArray_of_nil hnil]
          have hmerror : encSym symreprMerror ≠ 0#32 := by decide
          simp [hnil, hmerror]
        · have hne : h.freelist ≠ NIL := by
            rw [hfl]
            intro hnil
            have hp := congrArg isPtr hnil
            rw [isPtr_cellPtr] at hp
            exact absurd hp (by decide)
          rw [← heapAllocateArray_string hl]
          simp only [hne, not_false_eq_true, Ne, true_and]
  · simp [hsym]

theorem stringToSymbol_isSome_iff : (stringToSymbol args nargs st h).isSome ↔
    (¬nargs < 1#32 → ∃ eltType, readWord h.memory (car h (args.getD 0 0#32)) = some eltType
      ∧ (eltType = valTypeChar → ∃ str found,
        readCString h.memory (car h (args.getD 0 0#32) + 8#32) = some str
          ∧ symreprLookup h.memory st str = some found
          ∧ (found = none → (symreprAddsym h.memory st str).isSome))) := by
  unfold stringToSymbol
  generalize args.getD 0 0#32 = arr
  by_cases hn : nargs < 1#32
  · simp [hn]
  · rw [if_neg hn]
    simp only [hn, not_false_eq_true, true_implies, Option.bind_eq_bind]
    -- The header is read whatever the operand is: the type is tested in the wrong place.
    cases readWord h.memory (car h arr) with
    | none => simp
    | some eltType =>
      simp only [Option.bind_some, Option.some.injEq, exists_eq_left', bne_iff_ne]
      by_cases hchar : eltType = valTypeChar
      · rw [if_neg (by simpa using hchar)]
        simp only [hchar, true_implies]
        cases readCString h.memory (car h arr + 8#32) with
        | none => simp
        | some str =>
          cases hlookup : symreprLookup h.memory st str with
          | none => simp [hlookup]
          | some found =>
            cases found with
            | some id => simp [hlookup]
            -- Only a new name needs memory.
            | none =>
              cases hadd : symreprAddsym h.memory st str with
              | none => simp [hlookup, hadd]
              | some res =>
                obtain ⟨added, m, st'⟩ := res
                cases added <;> simp [hlookup, hadd]
      · simp [hchar]

/-! ## Every operation -/

/-- One branch of a chain of tests at a time, for the result of the chain. -/
theorem isSome_ite {α : Type} {p : Prop} [Decidable p] {x y : Option α} (hx : p → x.isSome)
    (hy : y.isSome) : (if p then x else y).isSome := by
  split
  · next hp => exact hx hp
  · exact hy

theorem fundamentalHeapExec_isSome {op : UINT} (hh : WfHeap κ h)
    (hc : Completes fo args nargs op st h) :
    (fundamentalHeapExec fo args nargs op st h).isSome := by
  have hsome : ∀ {p : Prop} {q : VALUE × HeapState}, p → (some q).isSome := fun _ => rfl
  unfold fundamentalHeapExec
  -- One line for each operation, in the order of the switch.
  refine isSome_ite (fun _ => isSome_ite hsome (isSome_ite hsome rfl)) ?_
  refine isSome_ite (fun hop =>
    (symbolToString_isSome_iff hh).mpr (hc.symbolToString (eq_of_beq hop))) ?_
  refine isSome_ite (fun _ => isSome_ite hsome rfl) ?_
  refine isSome_ite (fun _ => isSome_ite hsome rfl) ?_
  refine isSome_ite (fun _ => isSome_ite hsome rfl) ?_
  refine isSome_ite hsome ?_
  refine isSome_ite hsome ?_
  refine isSome_ite hsome ?_
  refine isSome_ite hsome ?_
  refine isSome_ite (fun hop => ?append) ?_
  case append =>
    split
    · rfl
    · next hn =>
      obtain ⟨n, hlen⟩ := Option.isSome_iff_exists.mp
        (hc.append (eq_of_beq hop) (by simpa using hn))
      rw [hlen]
      rfl
  refine isSome_ite (fun _ => foldArgs_isSome add2_isSome) ?_
  refine isSome_ite (fun _ => isSome_ite hsome (foldArgs_isSome sub2_isSome)) ?_
  refine isSome_ite (fun _ => foldArgs_isSome mul2_isSome) ?_
  refine isSome_ite (fun hop => (foldArgs_isSome_iff div2_isSome_iff).mpr
    (hc.div (eq_of_beq hop))) ?_
  refine isSome_ite (fun hop => (foldArgs_isSome_iff mod2_isSome_iff).mpr
    (hc.mod (eq_of_beq hop))) ?_
  refine isSome_ite (fun hop => ?eq) ?_
  case eq =>
    obtain ⟨r, hr⟩ := Option.isSome_iff_exists.mp (eqLoop_isSome_iff.mpr (hc.eq (eq_of_beq hop)))
    rw [hr]
    rfl
  refine isSome_ite hsome ?_
  refine isSome_ite hsome ?_
  refine isSome_ite hsome ?_
  refine isSome_ite (fun _ => isSome_ite hsome (isSome_ite hsome rfl)) ?_
  refine isSome_ite (fun hop => arrayRead_isSome_iff.mpr ?read) ?_
  case read =>
    have hread := hc.arrays (.inl (eq_of_beq hop))
    simpa [eq_of_beq hop] using hread
  refine isSome_ite (fun hop => arrayWrite_isSome_iff.mpr ?write) ?_
  case write =>
    have hwrite := hc.arrays (.inr (eq_of_beq hop))
    have hne : symArrayWrite ≠ symArrayRead := by decide
    simpa [eq_of_beq hop, hne] using hwrite
  exact isSome_ite hsome (isSome_ite hsome rfl)

theorem isSome_fundamentalExec {op : VALUE} (hop : decSym op ≠ symStringToSymbol) :
    (fundamentalExec fo args nargs op st h).isSome
      = (fundamentalHeapExec fo args nargs (decSym op) st h).isSome := by
  rw [fundamentalExec, if_neg (by simpa using hop)]
  cases fundamentalHeapExec fo args nargs (decSym op) st h <;> rfl

/-- What the operation needed, when it has returned. -/
theorem Completes.of_fundamentalHeapExec {op : UINT} (hh : WfHeap κ h)
    (hop : op ≠ symStringToSymbol)
    (hsome : (fundamentalHeapExec fo args nargs op st h).isSome) :
    Completes fo args nargs op st h where
  arrays := by
    rintro (rfl | rfl) hty ix hix
    · -- the operation is a constant now, and its branch of the chain is found by evaluation
      have hread : (arrayRead args h).isSome := hsome
      have helem := arrayRead_isSome_iff.mp hread hty ix hix
      simpa using helem
    · have hwrite : (arrayWrite args h).isSome := hsome
      have helem := arrayWrite_isSome_iff.mp hwrite hty ix hix
      have hne : symArrayWrite ≠ symArrayRead := by decide
      simpa [hne] using helem
  append := by
    rintro rfl hn
    have happend : (if (nargs != 2#32) = true then some (encSym symreprEerror, h)
        else (length h (args.getD 0 0#32)).bind fun n =>
          some (appendLoop (args.getD 0 0#32) n (args.getD 1 0#32) h)).isSome := hsome
    rw [if_neg (by simpa using hn), isSome_bind_some] at happend
    exact happend
  eq := by
    rintro rfl
    have heq : ((eqLoop fo h (args.getD 0 0#32) (restArgs args nargs) true).bind fun r =>
        some (if r then encSym symreprTrue else encSym symreprNil, h)).isSome := hsome
    rw [isSome_bind_some] at heq
    exact eqLoop_isSome_iff.mp heq
  div := by
    rintro rfl
    exact (foldArgs_isSome_iff div2_isSome_iff).mp hsome
  mod := by
    rintro rfl
    exact (foldArgs_isSome_iff mod2_isSome_iff).mp hsome
  symbolToString := by
    rintro rfl
    exact (symbolToString_isSome_iff hh).mp hsome
  stringToSymbol := fun heq => absurd heq hop

/-- `fundamental_exec` returns exactly where nothing is left undefined. -/
theorem fundamentalExec_isSome_iff {op : VALUE} (hh : WfHeap κ h) :
    (fundamentalExec fo args nargs op st h).isSome
      ↔ Completes fo args nargs (decSym op) st h := by
  by_cases hop : decSym op = symStringToSymbol
  · have hexec : fundamentalExec fo args nargs op st h = stringToSymbol args nargs st h := by
      rw [fundamentalExec, if_pos (by simpa using hop)]
    rw [hexec, hop, stringToSymbol_isSome_iff]
    constructor
    · intro hread
      -- the other conditions are on other operations
      have hne : ∀ {s : UINT}, s ≠ symStringToSymbol → symStringToSymbol = s → False :=
        fun hs heq => hs heq.symm
      exact
        { arrays := fun h => (h.elim (hne (by decide)) (hne (by decide))).elim
          append := fun h => (hne (by decide) h).elim
          eq := fun h => (hne (by decide) h).elim
          div := fun h => (hne (by decide) h).elim
          mod := fun h => (hne (by decide) h).elim
          symbolToString := fun h => (hne (by decide) h).elim
          stringToSymbol := fun _ => hread }
    · exact fun hc => hc.stringToSymbol rfl
  · rw [isSome_fundamentalExec hop]
    constructor
    · exact Completes.of_fundamentalHeapExec hh hop
    · exact fundamentalHeapExec_isSome hh

/-! ## Tag safety -/

/-- `fundamental_exec` returns, and what it returns is a well-formed value. -/
def TagSafe (fo : FloatOps) (κ : HeapTyping) (args : List VALUE) (nargs : UINT) (op : VALUE)
    (st : SymbolTable) (h : HeapState) : Prop :=
  ∃ v h' st', fundamentalExec fo args nargs op st h = some (v, h', st') ∧ Yields κ h (v, h')

theorem fundamentalExec_car {op : VALUE} (hop : decSym op = symCar) :
    fundamentalExec fo args nargs op st h = some (car h (args.getD 0 0#32), h, st) := by
  rw [fundamentalExec, fundamentalHeapExec, hop]
  rfl

theorem fundamentalExec_mkSymbolIndirect {op : VALUE} (hop : decSym op = symMkSymbolIndirect)
    (hu : typeOf (args.getD 0 0#32) = valTypeU) (hx : decU (args.getD 0 0#32) < 33554432#32) :
    fundamentalExec fo args nargs op st h
      = some (encSymbolIndirection (decU (args.getD 0 0#32)), h, st) := by
  have hexec : fundamentalHeapExec fo args nargs symMkSymbolIndirect st h
      = if (typeOf (args.getD 0 0#32) == valTypeU
            && decide (decU (args.getD 0 0#32) < 33554432#32)) = true
        then some (encSymbolIndirection (decU (args.getD 0 0#32)), h)
        else some (encSym symreprEerror, h) := rfl
  have hcond : (typeOf (args.getD 0 0#32) == valTypeU
      && decide (decU (args.getD 0 0#32) < 33554432#32)) = true := by
    rw [Bool.and_eq_true, beq_iff_eq, decide_eq_true_eq]
    exact ⟨hu, hx⟩
  rw [if_pos hcond] at hexec
  have hne : ¬((symMkSymbolIndirect == symStringToSymbol) = true) := by decide
  rw [fundamentalExec, hop, if_neg hne, hexec]

theorem TagSafe.forwardsValues {op : VALUE} (hh : WfHeap κ h)
    (hsafe : TagSafe fo κ args nargs op st h) : ForwardsValues κ args (decSym op) h := by
  obtain ⟨v, h', st', hexec, κ', hg, hh', hv⟩ := hsafe
  refine ⟨fun hop hp _ => ?_, fun hop hu hx => ?_⟩
  · cases hexec.symm.trans (fundamentalExec_car hop)
    obtain rfl := hg.eq_of_same hh hh'
    rw [car_of_isPtr hp] at hv
    exact hv
  · cases hexec.symm.trans (fundamentalExec_mkSymbolIndirect hop hu hx)
    exact toNat_lt_of_wfValue_encSymbolIndirection hv hx

/-- `fundamental_exec` returns a well-formed value exactly if `car` and `mk-sym-indirect` forward
none that is not, and nothing the operation does is left undefined. -/
theorem tagSafe_iff {op : VALUE} (hh : WfHeap κ h) (hargs : ∀ a ∈ args, WfValue κ a) :
    TagSafe fo κ args nargs op st h ↔
      ForwardsValues κ args (decSym op) h ∧ Completes fo args nargs (decSym op) st h := by
  constructor
  · intro hsafe
    refine ⟨hsafe.forwardsValues hh, (fundamentalExec_isSome_iff hh).mp ?_⟩
    obtain ⟨v, h', st', hexec, -⟩ := hsafe
    rw [hexec]
    rfl
  · rintro ⟨hforwards, hcompletes⟩
    have hsome := (fundamentalExec_isSome_iff hh).mpr hcompletes
    obtain ⟨⟨v, h', st'⟩, hexec⟩ := Option.isSome_iff_exists.mp hsome
    exact ⟨v, h', st', hexec, fundamentalExec_yields hh hargs hforwards hexec⟩

/-- `(/ 3u32 3u32)`: the quotient takes the free cell. -/
theorem tagSafe_div_boxedThree :
    WfHeap boxedThreeTyping boxedThreeHeap
      ∧ (∀ a ∈ [boxedThree, boxedThree], WfValue boxedThreeTyping a)
      ∧ TagSafe noFloats boxedThreeTyping [boxedThree, boxedThree] 2#32 (encSym symDiv)
        ⟨0#32, 0#32⟩ boxedThreeHeap := by
  have hargs : ∀ a ∈ [boxedThree, boxedThree], WfValue boxedThreeTyping a := by
    intro a ha
    refine wfValue_boxedThree a ?_
    simpa using ha
  refine ⟨wfHeap_boxedThreeHeap, hargs, (tagSafe_iff wfHeap_boxedThreeHeap hargs).mpr ⟨?_, ?_⟩⟩
  · exact ⟨fun hop => absurd hop (by decide), fun hop => absurd hop (by decide)⟩
  · have hop : decSym (encSym symDiv) = symDiv := by decide
    rw [hop]
    have hne : ∀ {s : UINT} {p : Prop}, s ≠ symDiv → symDiv = s → p :=
      fun hs heq => absurd heq.symm hs
    refine ⟨fun h => h.elim (hne (by decide)) (hne (by decide)), hne (by decide), hne (by decide),
      fun _ => ⟨?_, fun _ _ _ _ => trivial⟩, hne (by decide), hne (by decide), hne (by decide)⟩
    -- the larger type is that of a boxed unsigned number
    exact fun hoverflow => absurd hoverflow.1 (by decide)

/-- `(car 3u32)` is the word 3, a marked pointer of no type, and `(str-to-sym 1)` reads the memory
at what is taken for the data of the array. -/
theorem not_tagSafe_boxedThree :
    WfHeap boxedThreeTyping boxedThreeHeap
      ∧ (∀ a ∈ [boxedThree, encI 1#32], WfValue boxedThreeTyping a)
      ∧ ¬TagSafe noFloats boxedThreeTyping [boxedThree] 1#32 (encSym symCar) ⟨0#32, 0#32⟩
        boxedThreeHeap
      ∧ ¬TagSafe noFloats boxedThreeTyping [encI 1#32] 1#32 (encSym symStringToSymbol)
        ⟨0#32, 0#32⟩ boxedThreeHeap := by
  refine ⟨wfHeap_boxedThreeHeap, fun a ha => ?_, fun hsafe => ?_, fun hsafe => ?_⟩
  · rcases List.mem_cons.mp ha with rfl | ha
    · exact wfValue_boxedThree _ List.mem_cons_self
    · rw [List.mem_singleton.mp ha]
      exact wfValue_of_immediate _ (by decide)
  · have hv := (hsafe.forwardsValues wfHeap_boxedThreeHeap).car (by decide) (by decide) (by decide)
    exact absurd hv.unmarked (by decide)
  · obtain ⟨v, h', st', hexec, -⟩ := hsafe
    have hnone : fundamentalExec noFloats [encI 1#32] 1#32 (encSym symStringToSymbol) ⟨0#32, 0#32⟩
        boxedThreeHeap = none := by decide
    cases hnone.symm.trans hexec

end LispBM
