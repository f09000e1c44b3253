import LispBM.Symrepr.Table
import LispBM.Tokpar

/-!
# LispBM — interning is a bijection

The reader and `str-to-sym` look a name up and enter it if it is not known. `InternRun` relates the
states of the memory and the symbol table that interning leads through, while the other users of
the memory allocate, free and write what is theirs. In every state that comes from the empty symbol
list names and ids correspond one to one, and what corresponds in one state does so in all later
ones.
-/

namespace LispBM

open BlockLayout

variable {n : Nat} {m m' : MemoryState} {L L' : Layout n}

/-- `symrepr_lookup`, and `symrepr_addsym` if the name is not known. -/
def symreprIntern (m : MemoryState) (st : SymbolTable) (name : List (BitVec 8)) :
    Option (Option UINT × MemoryState × SymbolTable) := do
  let found ← symreprLookup m st name
  match found with
  | some id => some (some id, m, st)
  | none => symreprAddsym m st name

/-- The reader interns the symbols it reads. -/
theorem parseSymbol_eq_intern (text : List (BitVec 8)) (st : Tokpar.ReaderState) :
    Tokpar.parseSymbol text st =
      (symreprIntern st.heap.memory st.symtab text).map fun (id, m, symtab) =>
        (encSym (id.getD symreprRerror), ⟨{ st.heap with memory := m }, symtab⟩) := by
  rw [Tokpar.parseSymbol, symreprIntern]
  cases symreprLookup st.heap.memory st.symtab text with
  | none => rfl
  | some found =>
    cases found with
    | some id => rfl
    | none =>
      simp only [Option.bind_eq_bind, Option.bind_some]
      cases symreprAddsym st.heap.memory st.symtab text with
      | none => rfl
      | some r =>
        obtain ⟨id, m, symtab⟩ := r
        cases id <;> rfl

/-- `str-to-sym` interns the text of an array. -/
theorem stringToSymbol_eq_intern {args : List VALUE} {nargs : UINT} {st : SymbolTable}
    {h : HeapState} {str : List (BitVec 8)} (hargs : ¬nargs < 1#32)
    (htype : readWord h.memory (car h (args.getD 0 0#32)) = some valTypeChar)
    (hstr : readCString h.memory (car h (args.getD 0 0#32) + 8#32) = some str) :
    stringToSymbol args nargs st h =
      (symreprIntern h.memory st str).map fun (id, m, symtab) =>
        (encSym (id.getD symreprEerror), { h with memory := m }, symtab) := by
  rw [stringToSymbol, if_neg hargs, symreprIntern]
  simp only [htype, Option.bind_eq_bind, Option.bind_some, bne_self_eq_false, Bool.false_eq_true,
    if_false, hstr]
  cases symreprLookup h.memory st str with
  | none => rfl
  | some found =>
    cases found with
    | some id => rfl
    | none =>
      simp only [Option.bind_some]
      cases symreprAddsym h.memory st str with
      | none => rfl
      | some r =>
        obtain ⟨id, m, symtab⟩ := r
        cases id <;> rfl

/-! ## Lookup of ids -/

/-- The name of an id in a list of names. -/
def findId (id : UINT) : List (List (BitVec 8)) → Option (List (BitVec 8))
  | [] => none
  | t :: ts => if id = symbolId ts.length then some t else findId id ts

theorem lookupNameLoop_eq (hm : Holds m L) (id : UINT) {addr : UINT}
    {names : List (List (BitVec 8))} {bs : List Block} (hc : NameChain m L addr names bs) :
    ∀ {fuel : Nat}, names.length < fuel →
      lookupNameLoop m id fuel addr = some (findId id names) := by
  induction hc with
  | nil =>
    intro fuel hfuel
    obtain ⟨fuel, rfl⟩ := Nat.exists_eq_succ_of_ne_zero (Nat.ne_of_gt hfuel)
    rw [lookupNameLoop, if_pos rfl]
    rfl
  | @cons e s t names bs he hs helen hslen hname hid htext hnext ih =>
    intro fuel hfuel
    rw [List.length_cons] at hfuel
    obtain ⟨fuel, rfl⟩ : ∃ f, fuel = f + 1 := Nat.exists_eq_succ_of_ne_zero (by omega)
    obtain ⟨hword, hword₁, hword₂⟩ := hm.readWord_entry he helen
    have hstr := hm.readCString hs (by omega) htext
    rw [lookupNameLoop, if_neg (hm.byteAddr_ne_zero he), hword₁, hid, findId]
    simp only [Option.bind_eq_bind, Option.bind_some, hword, hname, hstr, hword₂]
    by_cases h : id = symbolId names.length
    · rw [if_pos h, if_pos h]
    · rw [if_neg h, if_neg h, ih (by omega)]

/-- The name of a special symbol. -/
def specialName (id : UINT) : Option (List (BitVec 8)) :=
  if id < maxSpecialSymbols then (specialSymbols.find? (·.2 == id)).map fun p => cstring p.1
  else none

theorem symreprLookupName_eq (hm : Holds m L) {st : SymbolTable} {names : List (List (BitVec 8))}
    (hn : Names m L st names) (id : UINT) :
    symreprLookupName m st id
      = some (match specialName id with
        | some name => some name
        | none => findId id names) := by
  have hlen := hn.five_mul_length_le
  have hwords := hm.words
  obtain ⟨bs, hc, -⟩ := hn.chain
  have hloop := @lookupNameLoop_eq _ _ _ hm id _ _ _ hc (m.memory.length + 1) (by omega)
  rw [symreprLookupName, specialName]
  split
  · cases specialSymbols.find? (·.2 == id) with
    | some p => rfl
    | none => exact hloop
  · exact hloop

/-! ## Names and ids correspond -/

theorem symbolId_inj {j k : Nat} (hj : 5 * j ≤ 2 ^ 30) (hk : 5 * k ≤ 2 ^ 30)
    (h : symbolId j = symbolId k) : j = k := by
  have h₁ := symbolId_toNat hj
  have h₂ := symbolId_toNat hk
  rw [h] at h₁
  omega

theorem findName_eq_some {text : List (BitVec 8)} {names : List (List (BitVec 8))} {id : UINT}
    (h : findName text names = some id) : text ∈ names ∧ ∃ k < names.length, id = symbolId k := by
  induction names with
  | nil => exact absurd h (by simp [findName])
  | cons t ts ih =>
    rw [findName] at h
    by_cases ht : text = t
    · rw [if_pos ht] at h
      exact ⟨by simp [ht], ts.length, by simp, (Option.some.inj h).symm⟩
    · rw [if_neg ht] at h
      obtain ⟨hmem, k, hk, hid⟩ := ih h
      exact ⟨List.mem_cons_of_mem t hmem, k, by rw [List.length_cons]; omega, hid⟩

theorem findId_eq_some {text : List (BitVec 8)} {names : List (List (BitVec 8))} {id : UINT}
    (h : findId id names = some text) : text ∈ names ∧ ∃ k < names.length, id = symbolId k := by
  induction names with
  | nil => exact absurd h (by simp [findId])
  | cons t ts ih =>
    rw [findId] at h
    by_cases hid : id = symbolId ts.length
    · rw [if_pos hid] at h
      exact ⟨by simp [Option.some.inj h], ts.length, by simp, hid⟩
    · rw [if_neg hid] at h
      obtain ⟨hmem, k, hk, hid⟩ := ih h
      exact ⟨List.mem_cons_of_mem t hmem, k, by rw [List.length_cons]; omega, hid⟩

theorem findName_iff_findId {names : List (List (BitVec 8))} (hnodup : names.Nodup)
    (hlen : 5 * names.length ≤ 2 ^ 30) (text : List (BitVec 8)) (id : UINT) :
    findName text names = some id ↔ findId id names = some text := by
  induction names with
  | nil => simp [findName, findId]
  | cons t ts ih =>
    obtain ⟨hfresh, hnd⟩ := List.nodup_cons.mp hnodup
    rw [List.length_cons] at hlen
    have ih := ih hnd (by omega)
    rw [findName, findId]
    by_cases ht : text = t
    · -- the newest name has the newest id
      subst ht
      rw [if_pos rfl]
      by_cases hid : id = symbolId ts.length
      · simp [hid]
      · rw [if_neg hid]
        refine ⟨fun h => absurd (Option.some.inj h).symm hid, fun h => ?_⟩
        exact absurd (findId_eq_some h).1 hfresh
    · rw [if_neg ht]
      by_cases hid : id = symbolId ts.length
      · rw [if_pos hid]
        refine ⟨fun h => ?_, fun h => absurd (Option.some.inj h).symm ht⟩
        obtain ⟨-, k, hk, hid'⟩ := findName_eq_some h
        have := symbolId_inj (by omega) (by omega) (hid.symm.trans hid')
        omega
      · rw [if_neg hid]
        exact ih

/-- The special symbols, too. -/
theorem specialId_iff_specialName (name : List (BitVec 8)) (id : UINT) :
    specialId name = some id ↔ specialName id = some name := by
  have hids : ∀ p ∈ specialSymbols, p.2 < maxSpecialSymbols := by decide
  have hinj : (specialSymbols.map fun p => p.2).Nodup := by decide
  have hnames : (specialSymbols.map fun p => cstring p.1).Nodup := by decide +kernel
  -- A row that is found by one of its columns is the only one with that entry.
  have hfind : ∀ {α : Type} [BEq α] [LawfulBEq α] (f : String × UINT → α) (p : String × UINT),
      (specialSymbols.map f).Nodup → p ∈ specialSymbols →
      specialSymbols.find? (fun q => f q == f p) = some p := by
    intro α _ _ f p hnd hp
    obtain ⟨q, hq⟩ : ∃ q, specialSymbols.find? (fun q => f q == f p) = some q :=
      Option.isSome_iff_exists.mp (List.find?_isSome.mpr ⟨p, hp, by simp⟩)
    have hmem := List.mem_of_find?_eq_some hq
    have heq : f q = f p := by simpa using List.find?_some hq
    rw [hq, List.inj_on_of_nodup_map hnd hmem hp heq]
  rw [specialId, specialName]
  refine ⟨fun h => ?_, fun h => ?_⟩
  · obtain ⟨p, hp, rfl⟩ := Option.map_eq_some_iff.mp h
    have hmem := List.mem_of_find?_eq_some hp
    obtain rfl : cstring p.1 = name := by simpa using List.find?_some hp
    rw [if_pos (hids p hmem), hfind (fun p => p.2) p hinj hmem]
    rfl
  · split at h
    · obtain ⟨p, hp, rfl⟩ := Option.map_eq_some_iff.mp h
      have hmem := List.mem_of_find?_eq_some hp
      obtain rfl : p.2 = id := by simpa using List.find?_some hp
      rw [hfind (fun p => cstring p.1) p hnames hmem]
      rfl
    · exact absurd h (by simp)

theorem specialId_lt {name : List (BitVec 8)} {id : UINT} (h : specialId name = some id) :
    id < maxSpecialSymbols := by
  have hname := (specialId_iff_specialName name id).mp h
  rw [specialName] at hname
  split at hname
  · assumption
  · exact absurd hname (by simp)

/-- What holds of the symbol table of a memory: the lookups are inverse to each other, and the
names that were entered have ids of their own. -/
theorem Names.lookup_iff (hm : Holds m L) {st : SymbolTable} {names : List (List (BitVec 8))}
    (hn : Names m L st names) (name : List (BitVec 8)) (id : UINT) :
    symreprLookup m st name = some (some id) ↔ symreprLookupName m st id = some (some name) := by
  have hlen := hn.five_mul_length_le
  have haddr := hm.represents.addressable
  have hcorr := findName_iff_findId hn.nodup (by omega) name id
  rw [symreprLookup_eq hm hn, symreprLookupName_eq hm hn]
  cases hs : specialId name with
  | some sid =>
    have hsname := (specialId_iff_specialName name sid).mp hs
    refine ⟨fun h => ?_, fun h => ?_⟩
    · obtain rfl : sid = id := Option.some.inj (Option.some.inj h)
      rw [hsname]
    · cases hi : specialName id with
      | some name' =>
        rw [hi] at h
        obtain rfl : name' = name := Option.some.inj (Option.some.inj h)
        rw [(specialId_iff_specialName _ _).mpr hi] at hs
        rw [hs]
      | none =>
        -- an entered name is not special
        rw [hi] at h
        have hmem := (findId_eq_some (Option.some.inj h)).1
        rw [hn.notSpecial name hmem] at hs
        exact absurd hs (by simp)
  | none =>
    cases hi : specialName id with
    | some name' =>
      refine ⟨fun h => ?_, fun h => ?_⟩
      · obtain ⟨-, k, hk, rfl⟩ := findName_eq_some (Option.some.inj h)
        have hlt : (symbolId k).toNat < 4096 :=
          specialId_lt ((specialId_iff_specialName _ _).mpr hi)
        have := symbolId_toNat (k := k) (by omega)
        omega
      · obtain rfl : name' = name := Option.some.inj (Option.some.inj h)
        rw [(specialId_iff_specialName _ _).mpr hi] at hs
        exact absurd hs (by simp)
    | none =>
      simp only [Option.some.injEq]
      exact hcorr

/-! ## Entering a name -/

/-- A name that cannot be entered leaves nothing behind. -/
theorem symreprAddsym_fails (hm : Holds m L) {st st' : SymbolTable} {text : List (BitVec 8)}
    (h : symreprAddsym m st text = some (none, m', st')) : m' = m ∧ st' = st := by
  rw [symreprAddsym] at h
  simp only at h
  split at h
  · cases h
    exact ⟨rfl, rfl⟩
  · rcases hm.allocate_cases 3#32 with hfail | ⟨e, m₁, L₁, h₁⟩
    · rw [hfail] at h
      cases h
      exact ⟨rfl, rfl⟩
    · rw [h₁.result] at h
      rcases h₁.holds.allocate_cases (BitVec.ofNat 32 (text.length + 1)) with
        hfail | ⟨s, m₂, L₂, h₂⟩
      · -- the entry is given back
        simp only [hfail, memoryFree_memoryAllocate hm.represents h₁.result] at h
        cases h
        exact ⟨rfl, rfl⟩
      · simp only [h₂.result] at h
        obtain ⟨m₃, -, h⟩ := Option.bind_eq_some_iff.mp h
        obtain ⟨m₄, -, h⟩ := Option.bind_eq_some_iff.mp h
        obtain ⟨m₅, -, h⟩ := Option.bind_eq_some_iff.mp h
        obtain ⟨m₆, -, h⟩ := Option.bind_eq_some_iff.mp h
        exact absurd (Prod.mk.inj (Option.some.inj h)).1 (by simp)

/-- The outcomes of `symrepr_addsym` for a name that is not known. -/
theorem symreprAddsym_cases (hm : Holds m L) {st : SymbolTable} {names : List (List (BitVec 8))}
    (hn : Names m L st names) {text : List (BitVec 8)} (hnul : ∀ c ∈ text, c ≠ 0#8)
    (hspecial : specialId text = none) (hnew : text ∉ names) (hshort : text.length + 1 < 2 ^ 32) :
    symreprAddsym m st text = some (none, m, st)
      ∨ ∃ (m' : MemoryState) (st' : SymbolTable) (L' : Layout n),
        symreprAddsym m st text = some (some (symbolId names.length), m', st')
        ∧ Holds m' L' ∧ Names m' L' st' (text :: names) := by
  by_cases hne : text = []
  · exact Or.inl (by rw [symreprAddsym, hne]; rfl)
  have hlen : ¬text.length + 1 = 1 := by
    have := List.length_pos_iff.mpr hne
    omega
  rcases hm.allocate_cases 3#32 with hfail | ⟨e, m₁, L₁, h₁⟩
  · refine Or.inl ?_
    rw [symreprAddsym]
    simp only [hlen, if_false, hfail]
  · rcases h₁.holds.allocate_cases (BitVec.ofNat 32 (text.length + 1)) with hfail | ⟨s, m₂, L₂, h₂⟩
    · -- the entry is given back
      refine Or.inl ?_
      have hfree := memoryFree_memoryAllocate hm.represents h₁.result
      rw [symreprAddsym]
      simp only [hlen, if_false, h₁.result, hfail, hfree]
    · obtain ⟨m', st', hadd, hm', -, hnames⟩ :=
        symreprAddsym_of_allocated hn hne hnul hspecial hnew hshort h₁ h₂
      exact Or.inr ⟨m', st', L₂, hadd, hm', hnames⟩

/-- Interning a name in a memory with a symbol table: it is known, it cannot be entered, or it is
the newest name. -/
theorem symreprIntern_cases (hm : Holds m L) {st : SymbolTable} {names : List (List (BitVec 8))}
    (hn : Names m L st names) {text : List (BitVec 8)} (hnul : ∀ c ∈ text, c ≠ 0#8)
    (hshort : text.length + 1 < 2 ^ 32) :
    (∃ id, symreprLookup m st text = some (some id)
        ∧ symreprIntern m st text = some (some id, m, st))
      ∨ (symreprLookup m st text = some none ∧ symreprIntern m st text = symreprAddsym m st text
        ∧ (symreprAddsym m st text = some (none, m, st)
          ∨ ∃ (m' : MemoryState) (st' : SymbolTable) (L' : Layout n),
            symreprAddsym m st text = some (some (symbolId names.length), m', st')
            ∧ Holds m' L' ∧ Names m' L' st' (text :: names))) := by
  have hlookup := symreprLookup_eq hm hn text
  cases hs : specialId text with
  | some id =>
    rw [hs] at hlookup
    exact Or.inl ⟨id, hlookup, by rw [symreprIntern, hlookup]; rfl⟩
  | none =>
    rw [hs] at hlookup
    cases hf : findName text names with
    | some id =>
      rw [hf] at hlookup
      exact Or.inl ⟨id, hlookup, by rw [symreprIntern, hlookup]; rfl⟩
    | none =>
      rw [hf] at hlookup
      refine Or.inr ⟨hlookup, by rw [symreprIntern, hlookup]; rfl, ?_⟩
      exact symreprAddsym_cases hm hn hnul hs (findName_eq_none.mp hf) hshort

/-! ## Runs -/

/-- The addresses of the entries and the names of a symbol list. -/
def tableAddrs (m : MemoryState) : Nat → UINT → List UINT
  | 0, _ => []
  | k + 1, curr =>
      if curr = 0#32 then []
      else
        curr :: (readWord m curr).getD 0#32 :: tableAddrs m k ((readWord m (curr + 8#32)).getD 0#32)

theorem NameChain.tableAddrs_eq (hm : Holds m L) {addr : UINT} {names : List (List (BitVec 8))}
    {bs : List Block} (hc : NameChain m L addr names bs) : ∀ {fuel : Nat}, names.length < fuel →
    ∀ b ∈ bs, byteAddr m (4 * b.start) ∈ tableAddrs m fuel addr := by
  induction hc with
  | nil => intro fuel _ b hb; exact absurd hb (by simp)
  | @cons e s t names bs he hs helen hslen hname hid htext hnext ih =>
    intro fuel hfuel b hb
    rw [List.length_cons] at hfuel
    obtain ⟨fuel, rfl⟩ : ∃ f, fuel = f + 1 := Nat.exists_eq_succ_of_ne_zero (by omega)
    obtain ⟨hword, -, hword₂⟩ := hm.readWord_entry he helen
    rw [tableAddrs, if_neg (hm.byteAddr_ne_zero he), hword, hword₂, hname]
    simp only [Option.getD_some, List.mem_cons]
    rcases List.mem_cons.mp hb with rfl | hb
    · exact Or.inl rfl
    · rcases List.mem_cons.mp hb with rfl | hb
      · exact Or.inr (Or.inl rfl)
      · exact Or.inr (Or.inr (ih (by omega) b hb))

/-- The states that interning leads to from the table `st₀` in the memory `m₀`. The other users of
the memory may do what they like with the blocks that are not those of the table. -/
inductive InternRun (n : Nat) (m₀ : MemoryState) (st₀ : SymbolTable) :
    MemoryState → SymbolTable → Prop where
  | start : InternRun n m₀ st₀ m₀ st₀
  | intern {m m' : MemoryState} {st st' : SymbolTable} {name : List (BitVec 8)} {r : Option UINT}
      (hrun : InternRun n m₀ st₀ m st) (hnul : ∀ c ∈ name, c ≠ 0#8)
      (hshort : name.length + 1 < 2 ^ 32)
      (h : symreprIntern m st name = some (r, m', st')) : InternRun n m₀ st₀ m' st'
  | other {m m' : MemoryState} {L' : Layout n} {st : SymbolTable} (hrun : InternRun n m₀ st₀ m st)
      (hm' : Holds m' L') (hsame : SameRegion m m')
      (hkeep : ∀ L : Layout n, Holds m L → ∀ b ∈ L.blocks,
        byteAddr m (4 * b.start) ∈ tableAddrs m (m.memory.length + 1) st.symlist →
          b ∈ L'.blocks ∧ ∀ i, b.Covers i → wordAt m' i = wordAt m i) : InternRun n m₀ st₀ m' st

/-- The table only needs its own blocks. -/
theorem NameChain.keep {addr : UINT} {names : List (List (BitVec 8))} {bs : List Block}
    (hc : NameChain m L addr names bs) (hsame : SameRegion m m')
    (hkeep : ∀ b ∈ bs, b ∈ L'.blocks ∧ ∀ i, b.Covers i → wordAt m' i = wordAt m i) :
    NameChain m' L' addr names bs := by
  induction hc with
  | nil => exact .nil
  | @cons e s text names bs he hs helen hslen hname hid htext hnext ih =>
    obtain ⟨he', hwe⟩ := hkeep e (by simp)
    obtain ⟨hs', hws⟩ := hkeep s (by simp)
    have hcov : ∀ i, i < 3 → e.Covers (e.start + i) := fun i hi =>
      ⟨Nat.le_add_right _ _, by rw [Block.last]; omega⟩
    have ih := ih fun b hb => hkeep b (List.mem_cons_of_mem _ (List.mem_cons_of_mem _ hb))
    rw [← hsame.byteAddr]
    refine .cons he' hs' helen hslen ?_ ?_ ?_ ?_
    · rw [hwe e.start (hcov 0 (by decide)), hname, hsame.byteAddr]
    · rw [hwe _ (hcov 1 (by decide)), hid]
    · refine htext.congr fun j hj => ?_
      rw [byteAt, hws _ ⟨by omega, by rw [Block.last]; omega⟩]
      rfl
    · rw [hwe _ (hcov 2 (by decide))]
      exact ih

/-- The table of names in a memory where its blocks were left alone. -/
theorem Names.keep {st : SymbolTable} {names : List (List (BitVec 8))} (hn : Names m L st names)
    (hm : Holds m L) (hsame : SameRegion m m')
    (hkeep : ∀ L : Layout n, Holds m L → ∀ b ∈ L.blocks,
      byteAddr m (4 * b.start) ∈ tableAddrs m (m.memory.length + 1) st.symlist →
        b ∈ L'.blocks ∧ ∀ i, b.Covers i → wordAt m' i = wordAt m i) : Names m' L' st names := by
  have hlen := hn.five_mul_length_le
  have hwords := hm.words
  obtain ⟨bs, hc, hnodup⟩ := hn.chain
  have hbs : ∀ b ∈ bs, b ∈ L'.blocks ∧ ∀ i, b.Covers i → wordAt m' i = wordAt m i :=
    fun b hb => hkeep L hm b (hc.mem_blocks b hb) (hc.tableAddrs_eq hm (by omega) b hb)
  exact ⟨⟨bs, hc.keep hsame hbs, hnodup⟩, hn.next, hn.nodup, hn.nonempty, hn.notSpecial⟩

/-- The empty symbol list is the table without names. -/
theorem Names.empty (m : MemoryState) (L : Layout n) : Names m L ⟨0#32, 0#32⟩ [] :=
  ⟨⟨[], .nil, List.nodup_nil⟩, rfl, List.nodup_nil, by simp, by simp⟩

/-- **A run only adds names to the table**, in front of the ones that are there. -/
theorem InternRun.names {m₀ : MemoryState} {st₀ st : SymbolTable} {L₀ : Layout n}
    {names₀ : List (List (BitVec 8))} (hm₀ : Holds m₀ L₀) (hn₀ : Names m₀ L₀ st₀ names₀)
    (hrun : InternRun n m₀ st₀ m st) :
    ∃ (L : Layout n) (new : List (List (BitVec 8))), Holds m L ∧ Names m L st (new ++ names₀) := by
  induction hrun with
  | start => exact ⟨L₀, [], hm₀, hn₀⟩
  | intern hrun hnul hshort h ih =>
    obtain ⟨L, new, hm, hn⟩ := ih
    rcases symreprIntern_cases hm hn hnul hshort with
      ⟨id, -, hr⟩ | ⟨-, hr, hfail | ⟨m', st', L', hadd, hm', hn'⟩⟩
    · rw [hr] at h
      cases h
      exact ⟨L, new, hm, hn⟩
    · rw [hr, hfail] at h
      cases h
      exact ⟨L, new, hm, hn⟩
    · rw [hr, hadd] at h
      cases h
      exact ⟨L', _ :: new, hm', hn'⟩
  | @other m m' L' st hrun hm' hsame hkeep ih =>
    obtain ⟨L, new, hm, hn⟩ := ih
    exact ⟨L', new, hm', hn.keep hm hsame hkeep⟩

/-- A name keeps its id when others are put in front of it. -/
theorem findName_append {text : List (BitVec 8)} {names : List (List (BitVec 8))} {id : UINT}
    (h : findName text names = some id) : ∀ {new : List (List (BitVec 8))},
    (new ++ names).Nodup → findName text (new ++ names) = some id := by
  intro new hnodup
  induction new with
  | nil => exact h
  | cons t ts ih =>
    obtain ⟨hfresh, hnodup⟩ := List.nodup_cons.mp hnodup
    have hne : text ≠ t := fun heq =>
      hfresh (heq ▸ List.mem_append_right _ (findName_eq_some h).1)
    rw [List.cons_append, findName, if_neg hne]
    exact ih hnodup

/-! ## What interning guarantees -/

/-- The lookups of a symbol table come to an end and are inverse to each other, and the names that
are not special have ids from 4096 on. -/
structure OneToOne (m : MemoryState) (st : SymbolTable) : Prop where
  lookup_isSome : ∀ name, (symreprLookup m st name).isSome
  lookupName_isSome : ∀ id, (symreprLookupName m st id).isSome
  lookup_iff : ∀ name id, symreprLookup m st name = some (some id)
    ↔ symreprLookupName m st id = some (some name)
  name_eq : ∀ {name name' id}, symreprLookup m st name = some (some id) →
    symreprLookup m st name' = some (some id) → name' = name
  id_ge : ∀ {name id}, symreprLookup m st name = some (some id) → specialId name = none →
    maxSpecialSymbols ≤ id

/-- Interning a name that is known returns its id and touches nothing. A name that is not known gets
an id that no name has, and all other names are looked up as before; or it cannot be entered,
and nothing has changed. -/
structure InternsName (m : MemoryState) (st : SymbolTable) (name : List (BitVec 8)) : Prop where
  known : ∀ id, symreprLookup m st name = some (some id) →
    symreprIntern m st name = some (some id, m, st)
  unknown : symreprLookup m st name = some none →
    symreprIntern m st name = some (none, m, st)
      ∨ ∃ id m' st', symreprIntern m st name = some (some id, m', st') ∧ maxSpecialSymbols ≤ id
        ∧ symreprLookupName m st id = some none ∧ symreprLookup m' st' name = some (some id)
        ∧ ∀ name', name' ≠ name → symreprLookup m' st' name' = symreprLookup m st name'
  fails : ∀ m' st', symreprAddsym m st name = some (none, m', st') → m' = m ∧ st' = st

/-- The name that was interned has the id that was returned. -/
theorem InternsName.found {st st' : SymbolTable} {name : List (BitVec 8)} {id : UINT}
    (hi : InternsName m st name) (h : symreprIntern m st name = some (some id, m', st')) :
    symreprLookup m' st' name = some (some id) := by
  cases hl : symreprLookup m st name with
  | none =>
    rw [symreprIntern, hl] at h
    cases h
  | some found =>
    cases found with
    | some id₀ =>
      rw [hi.known id₀ hl] at h
      cases h
      exact hl
    | none =>
      rcases hi.unknown hl with hfail | ⟨id₁, m₁, st₁, hadd, -, -, hfound, -⟩
      · rw [h] at hfail
        cases hfail
      · rw [h] at hadd
        cases hadd
        exact hfound

/-- The ids that are given out lie above those of the special symbols. -/
theorem maxSpecialSymbols_le_symbolId {k : Nat} (hk : 5 * k ≤ 2 ^ 30) :
    maxSpecialSymbols ≤ symbolId k := by
  show (4096#32).toNat ≤ (symbolId k).toNat
  rw [symbolId_toNat hk]
  exact Nat.le_add_right _ _

theorem Names.oneToOne (hm : Holds m L) {st : SymbolTable} {names : List (List (BitVec 8))}
    (hn : Names m L st names) : OneToOne m st := by
  have hlen := hn.five_mul_length_le
  have haddr := hm.represents.addressable
  refine ⟨fun name => by rw [symreprLookup_eq hm hn]; rfl,
    fun id => by rw [symreprLookupName_eq hm hn]; rfl, hn.lookup_iff hm,
    fun {name name' id} h h' => ?_, fun {name id} h hs => ?_⟩
  · have hname := (hn.lookup_iff hm name id).mp h
    have hname' := (hn.lookup_iff hm name' id).mp h'
    rw [hname] at hname'
    exact (Option.some.inj (Option.some.inj hname')).symm
  · rw [symreprLookup_eq hm hn, hs] at h
    obtain ⟨-, k, hk, rfl⟩ := findName_eq_some (Option.some.inj h)
    exact maxSpecialSymbols_le_symbolId (by omega)

theorem Names.internsName (hm : Holds m L) {st : SymbolTable} {names : List (List (BitVec 8))}
    (hn : Names m L st names) {name : List (BitVec 8)} (hnul : ∀ c ∈ name, c ≠ 0#8)
    (hshort : name.length + 1 < 2 ^ 32) : InternsName m st name := by
  have hlen := hn.five_mul_length_le
  have haddr := hm.represents.addressable
  refine ⟨fun id h => by rw [symreprIntern, h]; rfl, fun hnone => ?_,
    fun m' st' hadd => symreprAddsym_fails hm hadd⟩
  rcases symreprIntern_cases hm hn hnul hshort with
    ⟨id, hlookup, -⟩ | ⟨-, hr, hfail | ⟨m', st', L', hadd, hm', hn'⟩⟩
  · rw [hnone] at hlookup
    exact absurd (Option.some.inj hlookup) (by simp)
  · exact Or.inl (by rw [hr, hfail])
  · have hge := maxSpecialSymbols_le_symbolId (k := names.length) (by omega)
    refine Or.inr ⟨_, m', st', by rw [hr, hadd], hge, ?_, ?_, fun name' hne => ?_⟩
    · -- the number of the names is the number of no name
      have hspecial : specialName (symbolId names.length) = none := by
        rw [specialName, if_neg (BitVec.not_lt.mpr hge)]
      rw [symreprLookupName_eq hm hn, hspecial]
      cases hf : findId (symbolId names.length) names with
      | none => rfl
      | some text =>
        obtain ⟨-, k, hk, hid⟩ := findId_eq_some hf
        have := symbolId_inj (by omega) (by omega) hid
        omega
    · rw [symreprLookup_eq hm' hn', hn'.notSpecial name (by simp)]
      simp [findName]
    · rw [symreprLookup_eq hm' hn', symreprLookup_eq hm hn, findName, if_neg hne]

/-- **Interning is a bijection.** In every state of a run from the empty symbol list names and ids
correspond one to one, and interning a name does what it should; and in every state that comes
later, each name that is known now has the id it has now. -/
theorem interning_bijective {m₀ : MemoryState} {L₀ : Layout n} {st : SymbolTable}
    (hm₀ : Holds m₀ L₀) (hrun : InternRun n m₀ ⟨0#32, 0#32⟩ m st) :
    OneToOne m st
    ∧ (∀ name, (∀ c ∈ name, c ≠ 0#8) → name.length + 1 < 2 ^ 32 → InternsName m st name)
    ∧ ∀ m' st', InternRun n m st m' st' → ∀ name id, symreprLookup m st name = some (some id) →
        symreprLookup m' st' name = some (some id)
          ∧ symreprLookupName m' st' id = some (some name) := by
  obtain ⟨L, names, hm, hn⟩ := hrun.names hm₀ (Names.empty m₀ L₀)
  refine ⟨hn.oneToOne hm, fun name hnul hshort => hn.internsName hm hnul hshort, ?_⟩
  intro m' st' hlater name id h
  obtain ⟨L', new, hm', hn'⟩ := hlater.names hm hn
  have hkept : symreprLookup m' st' name = some (some id) := by
    rw [symreprLookup_eq hm hn] at h
    rw [symreprLookup_eq hm' hn']
    cases hs : specialId name with
    | some sid => rwa [hs] at h
    | none =>
      rw [hs] at h
      exact congrArg some (findName_append (Option.some.inj h) hn'.nodup)
  exact ⟨hkept, (hn'.lookup_iff hm' name id).mp hkept⟩

/-- A memory of 64 words with no block in it. -/
def words64 : MemoryState :=
  ⟨List.replicate 4 0#32, List.replicate 64 0#32, 64#32, 4#32, 0x20000000#32⟩

theorem holds_words64 : Holds words64 (Layout.empty 64) := by
  have hinit : memoryInit 0x20000000#32 256#32 0x30000000#32 16#32 (List.replicate 64 0#32)
      = some words64 := rfl
  exact holds_of_memoryInit hinit (by decide) rfl (by decide) (by decide)

/-- The name `foo` is entered, and then the name `bar`: they have different ids, and that of `foo`
is the one it was given. -/
theorem interning_bijective_fooBar :
    ∃ m st m' st', symreprIntern words64 ⟨0#32, 0#32⟩ (cstring "foo") = some (some 4096#32, m, st)
      ∧ symreprIntern m st (cstring "bar") = some (some 4097#32, m', st')
      ∧ symreprLookup m' st' (cstring "foo") = some (some 4096#32)
      ∧ symreprLookupName m' st' 4096#32 = some (some (cstring "foo"))
      ∧ symreprLookup m' st' (cstring "bar") = some (some 4097#32) := by
  have hids : ((symreprIntern words64 ⟨0#32, 0#32⟩ (cstring "foo")).bind fun (r, m, st) =>
      (symreprIntern m st (cstring "bar")).map fun (r', _, _) => (r, r'))
        = some (some 4096#32, some 4097#32) := by decide +kernel
  obtain ⟨⟨r, m, st⟩, hfoo, hbar⟩ := Option.bind_eq_some_iff.mp hids
  obtain ⟨⟨r', m', st'⟩, hbar, hres⟩ := Option.map_eq_some_iff.mp hbar
  obtain ⟨rfl, rfl⟩ := Prod.mk.inj hres
  have hstart : InternRun 64 words64 ⟨0#32, 0#32⟩ words64 ⟨0#32, 0#32⟩ := .start
  have hrun : InternRun 64 words64 ⟨0#32, 0#32⟩ m st := hstart.intern (by decide) (by decide) hfoo
  have hlater : InternRun 64 m st m' st' := .intern .start (by decide) (by decide) hbar
  obtain ⟨-, hempty, -⟩ := interning_bijective holds_words64 hstart
  have hknown := (hempty (cstring "foo") (by decide) (by decide)).found hfoo
  obtain ⟨-, hinterns, hpersists⟩ := interning_bijective holds_words64 hrun
  obtain ⟨hkept, hname⟩ := hpersists m' st' hlater _ _ hknown
  exact ⟨m, st, m', st', hfoo, hbar, hkept, hname,
    (hinterns (cstring "bar") (by decide) (by decide)).found hbar⟩

end LispBM
