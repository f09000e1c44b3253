import Mathlib.Data.List.GetD
import LispBM.Memory.Access
import LispBM.Memory.FirstFit

/-!
# LispBM — the symbol table as a list of names

The entries of the symbol table and the names they point to are blocks of the managed memory.
`NameChain` describes the list: the newest name comes first, and an id is the number of older
names, after the ids of the special symbols. A name and an entry take at least five words, so that
the ids do not get past 28 bits, however many names there are.

`Later` says what the other users of the memory rely on: blocks stay, with their contents.
-/

namespace LispBM

open BlockLayout

/-- A memory that holds the blocks of a layout. -/
structure Holds (m : MemoryState) {n : Nat} (L : Layout n) : Prop where
  represents : Represents m L
  region : Region m
  words : n ≤ m.memory.length

/-- Blocks were added, and the others have the contents they had. -/
structure Later {n : Nat} (m : MemoryState) (L : Layout n) (m' : MemoryState) (L' : Layout n) :
    Prop where
  same : SameRegion m m'
  blocks : ∀ b ∈ L.blocks, b ∈ L'.blocks
  word : ∀ i, L.Covered i → wordAt m' i = wordAt m i

namespace Later

variable {n : Nat} {m m' m'' : MemoryState} {L L' L'' : Layout n}

theorem refl (m : MemoryState) (L : Layout n) : Later m L m L :=
  ⟨⟨rfl, rfl⟩, fun _ h => h, fun _ _ => rfl⟩

theorem trans (h₁ : Later m L m' L') (h₂ : Later m' L' m'' L'') : Later m L m'' L'' := by
  refine ⟨⟨?_, ?_⟩, fun b hb => h₂.blocks b (h₁.blocks b hb), fun i hi => ?_⟩
  · rw [h₂.same.base, h₁.same.base]
  · rw [h₂.same.length, h₁.same.length]
  · obtain ⟨b, hb, hbi⟩ := hi
    rw [h₂.word i ⟨b, h₁.blocks b hb, hbi⟩, h₁.word i ⟨b, hb, hbi⟩]

/-- The bytes of a block. -/
theorem byteAt (h : Later m L m' L') {b : Block} (hb : b ∈ L.blocks) {k : Nat}
    (hlo : 4 * b.start ≤ k) (hhi : k < 4 * (b.start + b.len)) :
    LispBM.byteAt m' k = LispBM.byteAt m k := by
  have hcov : L.Covered (k / 4) := by
    refine ⟨b, hb, ?_, ?_⟩
    · omega
    · rw [Block.last]
      omega
  rw [LispBM.byteAt, LispBM.byteAt, h.word _ hcov]

end Later

variable {n : Nat} {m m' : MemoryState} {L L' : Layout n}

theorem wordAddr_eq_byteAddr (m : MemoryState) (i : Nat) : wordAddr m i = byteAddr m (4 * i) := by
  have hshift : BitVec.ofNat 32 i <<< 2 = BitVec.ofNat 32 (4 * i) := by
    apply BitVec.eq_of_toNat_eq
    rw [BitVec.toNat_shiftLeft, BitVec.toNat_ofNat, BitVec.toNat_ofNat, Nat.shiftLeft_eq]
    omega
  rw [wordAddr, bitmapIxToAddress, hshift]
  rfl

/-- The memory after `memory_init`, when the region is in the address space and the bitmap describes
no more words than there are. -/
theorem holds_of_memoryInit {data dataSize bits bitsSize : UINT} {contents : List UINT}
    (h : memoryInit data dataSize bits bitsSize contents = some m)
    (hfit : bitsSize.toNat % 2 ^ 30 < 2 ^ 28) (hlen : m.memorySize.toNat = contents.length)
    (hend : data.toNat + 4 * contents.length ≤ 2 ^ 32) (haligned : data.toNat % 4 = 0) :
    Holds m (Layout.empty m.memorySize.toNat) := by
  obtain ⟨-, -, -, hm⟩ := memoryInit_eq_some h
  have hmem : m.memory = contents := by rw [hm]
  have hbase : m.memoryBaseAddress = data := by rw [hm]
  refine ⟨represents_of_memoryInit h hfit, ⟨?_, ?_⟩, ?_⟩
  · rw [hbase]
    exact haligned
  · rw [hbase, hmem]
    exact hend
  · rw [hmem, hlen]

/-- A word of a block is a word of the memory. -/
theorem Holds.lt_length (hm : Holds m L) {b : Block} (hb : b ∈ L.blocks) {i : Nat}
    (hi : i < b.start + b.len) : i < m.memory.length := by
  have hin := L.inside b hb
  have hwords := hm.words
  rw [Block.last] at hin
  omega

/-- The address of a block is not NULL. -/
theorem Holds.byteAddr_ne_zero (hm : Holds m L) {b : Block} (hb : b ∈ L.blocks) :
    byteAddr m (4 * b.start) ≠ 0#32 := by
  have hpos := b.pos
  have hlt := hm.lt_length hb (i := b.start) (by omega)
  have haddr := hm.region.toNat_byteAddr (k := 4 * b.start) (by omega)
  have hbase : m.memoryBaseAddress.toNat ≠ 0 := fun h =>
    hm.represents.ready (BitVec.eq_of_toNat_eq h)
  intro hzero
  rw [hzero] at haddr
  have hz : (0#32).toNat = 0 := rfl
  omega

/-! ## Texts in blocks -/

/-- A NUL-terminated text at a distance from the base of the region. -/
structure HoldsText (m : MemoryState) (k : Nat) (text : List (BitVec 8)) : Prop where
  noNul : ∀ c ∈ text, c ≠ 0#8
  bytes : ∀ j, j < text.length → byteAt m (k + j) = text.getD j 0#8
  nul : byteAt m (k + text.length) = 0#8

theorem HoldsText.congr {k : Nat} {text : List (BitVec 8)} (h : HoldsText m k text)
    (hbytes : ∀ j, j ≤ text.length → byteAt m' (k + j) = byteAt m (k + j)) :
    HoldsText m' k text := by
  refine ⟨h.noNul, fun j hj => ?_, ?_⟩
  · rw [hbytes j (by omega), h.bytes j hj]
  · rw [hbytes _ (le_refl _), h.nul]

/-- The text that was written. -/
theorem WritesBytes.holdsText {k : Nat} {text : List (BitVec 8)}
    (h : WritesBytes m m' k (text ++ [0#8])) (hnul : ∀ c ∈ text, c ≠ 0#8) :
    HoldsText m' k text := by
  have hlen : (text ++ [0#8]).length = text.length + 1 := by simp
  refine ⟨hnul, fun j hj => ?_, ?_⟩
  · rw [h.byte, if_pos (by omega), Nat.add_sub_cancel_left, List.getD_append _ _ _ _ hj]
  · rw [h.byte, if_pos (by omega), Nat.add_sub_cancel_left,
      List.getD_append_right _ _ _ _ (le_refl _), Nat.sub_self]
    rfl

theorem Holds.readCString (hm : Holds m L) {b : Block} (hb : b ∈ L.blocks)
    {text : List (BitVec 8)} (hlen : text.length < b.len)
    (htext : HoldsText m (4 * b.start) text) :
    LispBM.readCString m (byteAddr m (4 * b.start)) = some text := by
  have hlt := hm.lt_length hb (i := b.start + b.len - 1) (by have := b.pos; omega)
  exact hm.region.readCString_byteAddr (by omega) htext.noNul htext.bytes htext.nul

/-! ## The list of names -/

/-- The id of a name with `k` older ones. -/
def symbolId (k : Nat) : UINT := maxSpecialSymbols + BitVec.ofNat 32 k

/-- The symbol list at an address; `bs` are the blocks of its entries and names. -/
inductive NameChain (m : MemoryState) (L : Layout n) :
    UINT → List (List (BitVec 8)) → List Block → Prop where
  | nil : NameChain m L 0#32 [] []
  | cons {e s : Block} {text : List (BitVec 8)} {names : List (List (BitVec 8))} {bs : List Block}
      (he : e ∈ L.blocks) (hs : s ∈ L.blocks) (helen : e.len = 3) (hslen : s.len = text.length + 1)
      (hname : wordAt m e.start = byteAddr m (4 * s.start))
      (hid : wordAt m (e.start + 1) = symbolId names.length)
      (htext : HoldsText m (4 * s.start) text)
      (hnext : NameChain m L (wordAt m (e.start + 2)) names bs) :
      NameChain m L (byteAddr m (4 * e.start)) (text :: names) (e :: s :: bs)

theorem NameChain.later (h : Later m L m' L') {addr : UINT} {names : List (List (BitVec 8))}
    {bs : List Block} (hc : NameChain m L addr names bs) : NameChain m' L' addr names bs := by
  induction hc with
  | nil => exact .nil
  | @cons e s text names bs he hs helen hslen hname hid htext hnext ih =>
    have hcov : ∀ i, i < 3 → L.Covered (e.start + i) := by
      intro i hi
      refine ⟨e, he, Nat.le_add_right _ _, ?_⟩
      rw [Block.last]
      omega
    rw [← h.same.byteAddr]
    refine .cons (h.blocks e he) (h.blocks s hs) helen hslen ?_ ?_ ?_ ?_
    · rw [h.word e.start (hcov 0 (by decide)), hname, h.same.byteAddr]
    · rw [h.word _ (hcov 1 (by decide)), hid]
    · exact htext.congr fun j hj => h.byteAt hs (by omega) (by omega)
    · rw [h.word _ (hcov 2 (by decide))]
      exact ih

theorem NameChain.mem_blocks {addr : UINT} {names : List (List (BitVec 8))} {bs : List Block}
    (hc : NameChain m L addr names bs) : ∀ b ∈ bs, b ∈ L.blocks := by
  induction hc with
  | nil => simp
  | cons he hs _ _ _ _ _ _ ih =>
    intro b hb
    rcases List.mem_cons.mp hb with rfl | hb
    · exact he
    · rcases List.mem_cons.mp hb with rfl | hb
      · exact hs
      · exact ih b hb

theorem NameChain.sum_len {addr : UINT} {names : List (List (BitVec 8))} {bs : List Block}
    (hc : NameChain m L addr names bs) (hne : ∀ text ∈ names, text ≠ []) :
    5 * names.length ≤ (bs.map Block.len).sum := by
  induction hc with
  | nil => simp
  | @cons e s text names bs _ _ helen hslen _ _ _ _ ih =>
    have hih := ih fun t ht => hne t (List.mem_cons_of_mem text ht)
    have hpos := List.length_pos_iff.mpr (hne text (by simp))
    simp only [List.map_cons, List.sum_cons, List.length_cons]
    omega

/-- The name is one of `special_symbols`. -/
def specialId (text : List (BitVec 8)) : Option UINT :=
  (specialSymbols.find? fun p => cstring p.1 == text).map (·.2)

/-- The symbol table: the names that have been entered, and where they are. -/
structure Names (m : MemoryState) (L : Layout n) (st : SymbolTable)
    (names : List (List (BitVec 8))) : Prop where
  chain : ∃ bs, NameChain m L st.symlist names bs ∧ bs.Nodup
  next : st.nextSymbolId = BitVec.ofNat 32 names.length
  nodup : names.Nodup
  nonempty : ∀ text ∈ names, text ≠ []
  notSpecial : ∀ text ∈ names, specialId text = none

theorem Names.later {st : SymbolTable} {names : List (List (BitVec 8))}
    (h : Later m L m' L') (hn : Names m L st names) : Names m' L' st names := by
  obtain ⟨bs, hc, hnodup⟩ := hn.chain
  exact ⟨⟨bs, hc.later h, hnodup⟩, hn.next, hn.nodup, hn.nonempty, hn.notSpecial⟩

/-- There are never so many names that an id does not fit a value. -/
theorem Names.five_mul_length_le {st : SymbolTable} {names : List (List (BitVec 8))}
    (hn : Names m L st names) : 5 * names.length ≤ n := by
  obtain ⟨bs, hc, hnodup⟩ := hn.chain
  exact (hc.sum_len hn.nonempty).trans (L.sum_len_le hnodup hc.mem_blocks)

theorem symbolId_toNat {k : Nat} (hk : 5 * k ≤ 2 ^ 30) : (symbolId k).toNat = 4096 + k := by
  rw [symbolId, BitVec.toNat_add, BitVec.toNat_ofNat, show maxSpecialSymbols.toNat = 4096 from rfl]
  omega

/-! ## Lookup -/

/-- The id of a name in a list of names. -/
def findName (text : List (BitVec 8)) : List (List (BitVec 8)) → Option UINT
  | [] => none
  | t :: ts => if text = t then some (symbolId ts.length) else findName text ts

theorem findName_eq_none {text : List (BitVec 8)} {names : List (List (BitVec 8))} :
    findName text names = none ↔ text ∉ names := by
  induction names with
  | nil => simp [findName]
  | cons t ts ih =>
    rw [findName]
    by_cases h : text = t
    · simp [h]
    · simp [h, ih]

/-- The three words of an entry. -/
theorem Holds.readWord_entry (hm : Holds m L) {e : Block} (he : e ∈ L.blocks) (hlen : e.len = 3) :
    readWord m (byteAddr m (4 * e.start)) = some (wordAt m e.start)
      ∧ readWord m (byteAddr m (4 * e.start) + 4#32) = some (wordAt m (e.start + 1))
      ∧ readWord m (byteAddr m (4 * e.start) + 8#32) = some (wordAt m (e.start + 2)) := by
  have hlt := fun i (hi : i < 3) => hm.lt_length he (i := e.start + i) (by omega)
  refine ⟨hm.region.readWord_byteAddr (hlt 0 (by decide)), ?_, ?_⟩
  · rw [byteAddr_add m _ 4, show 4 * e.start + 4 = 4 * (e.start + 1) by omega]
    exact hm.region.readWord_byteAddr (hlt 1 (by decide))
  · rw [byteAddr_add m _ 8, show 4 * e.start + 8 = 4 * (e.start + 2) by omega]
    exact hm.region.readWord_byteAddr (hlt 2 (by decide))

theorem symreprLookupLoop_eq (hm : Holds m L) (text : List (BitVec 8)) {addr : UINT}
    {names : List (List (BitVec 8))} {bs : List Block} (hc : NameChain m L addr names bs) :
    ∀ {fuel : Nat}, names.length < fuel →
      symreprLookupLoop m text fuel addr = some (findName text names) := by
  induction hc with
  | nil =>
    intro fuel hfuel
    obtain ⟨fuel, rfl⟩ := Nat.exists_eq_succ_of_ne_zero (Nat.ne_of_gt hfuel)
    rw [symreprLookupLoop, if_pos rfl]
    rfl
  | @cons e s t names bs he hs helen hslen hname hid htext hnext ih =>
    intro fuel hfuel
    rw [List.length_cons] at hfuel
    obtain ⟨fuel, rfl⟩ : ∃ f, fuel = f + 1 := Nat.exists_eq_succ_of_ne_zero (by omega)
    obtain ⟨hword, hword₁, hword₂⟩ := hm.readWord_entry he helen
    have hstr := hm.readCString hs (by omega) htext
    rw [symreprLookupLoop, if_neg (hm.byteAddr_ne_zero he), hword, hname, findName]
    simp only [Option.bind_eq_bind, Option.bind_some, hstr, hword₁, hword₂, hid]
    by_cases h : text = t
    · rw [if_pos h, if_pos h]
    · rw [if_neg h, if_neg h, ih (by omega)]

/-- `symrepr_lookup` finds the special symbols, and the names that were entered. -/
theorem symreprLookup_eq (hm : Holds m L) {st : SymbolTable} {names : List (List (BitVec 8))}
    (hn : Names m L st names) (text : List (BitVec 8)) :
    symreprLookup m st text
      = some (match specialId text with
        | some id => some id
        | none => findName text names) := by
  have hlen := hn.five_mul_length_le
  have hwords := hm.words
  obtain ⟨bs, hc, -⟩ := hn.chain
  rw [symreprLookup, specialId]
  cases specialSymbols.find? (fun p => cstring p.1 == text) with
  | some p => rfl
  | none => exact symreprLookupLoop_eq hm text hc (by omega)

/-! ## Entering a name -/

/-- `memory_allocate` has given a block. -/
structure Allocated (m : MemoryState) (L : Layout n) (k : UINT) (b : Block) (m' : MemoryState)
    (L' : Layout n) : Prop where
  len : b.len = k.toNat
  result : memoryAllocate m k = (some (byteAddr m (4 * b.start)), m')
  memory : m'.memory = m.memory
  holds : Holds m' L'
  later : Later m L m' L'
  mem : b ∈ L'.blocks
  fresh : ∀ i, b.Covers i → ¬L.Covered i

theorem Holds.allocated (hm : Holds m L) {k : UINT} {b : Block} {hapart hin}
    (hlen : b.len = k.toNat)
    (hres : memoryAllocate m k = (some (bitmapIxToAddress m (BitVec.ofNat 32 b.start)), m'))
    (hbase : m'.memoryBaseAddress = m.memoryBaseAddress)
    (hrep : Represents m' (L.insert b hapart hin)) :
    Allocated m L k b m' (L.insert b hapart hin) := by
  have hmem := memoryAllocate_memory m k
  rw [hres] at hmem
  have hsame : SameRegion m m' := ⟨hbase, by rw [hmem]⟩
  refine ⟨hlen, ?_, hmem, ⟨hrep, hsame.region hm.region, ?_⟩, ⟨hsame, ?_, ?_⟩, ?_, ?_⟩
  · rw [hres]
    congr 2
    exact wordAddr_eq_byteAddr m b.start
  · rw [hmem]
    exact hm.words
  · intro c hc
    exact Layout.mem_insert_blocks.mpr (Or.inr hc)
  · intro i _
    rw [wordAt, hmem]
    rfl
  · exact Layout.mem_insert_blocks.mpr (Or.inl rfl)
  · intro i hbi hcov
    obtain ⟨c, hc, hci⟩ := hcov
    have hap := hapart c hc
    rw [Block.Apart] at hap
    obtain ⟨h₁, h₂⟩ := hbi
    obtain ⟨h₃, h₄⟩ := hci
    omega

/-- An allocation fails and changes nothing, or gives a block. -/
theorem Holds.allocate_cases (hm : Holds m L) (k : UINT) :
    memoryAllocate m k = (none, m) ∨ ∃ b m' L', Allocated m L k b m' L' := by
  rcases memoryAllocate_represents hm.represents k with
    hnone | ⟨b, hapart, hin, m', hlen, hres, hbase, hrep⟩
  · exact Or.inl hnone
  · exact Or.inr ⟨b, m', _, hm.allocated hlen hres hbase hrep⟩

/-- It gives a block when there is room. -/
theorem Holds.allocate (hm : Holds m L) {k : UINT} (hk : 0 < k.toNat) {r len : Nat}
    (hrun : FreeRun L r len) (hle : k.toNat ≤ len) :
    ∃ b m' L', Allocated m L k b m' L' ∧ FreeRun L' (r + k.toNat) (len - k.toNat) := by
  obtain ⟨b, hapart, hin, m', hlen, hres, hbase, -, hrep, hrun'⟩ :=
    memoryAllocate_of_freeRun hm.represents hk hrun hle
  exact ⟨b, m', _, hm.allocated hlen hres hbase hrep, hrun'⟩

/-- Writing within the memory keeps what does not depend on the contents. -/
theorem Holds.of_memory (hm : Holds m L) (memory : List UINT)
    (hlen : memory.length = m.memory.length) : Holds { m with memory := memory } L := by
  refine ⟨hm.represents.of_codes rfl rfl rfl fun i hi => hm.represents.codes i hi, ?_, ?_⟩
  · refine ⟨hm.region.aligned, ?_⟩
    show m.memoryBaseAddress.toNat + 4 * memory.length ≤ 2 ^ 32
    rw [hlen]
    exact hm.region.fits
  · show n ≤ memory.length
    rw [hlen]
    exact hm.words

/-- Writing in a block that is new leaves the older ones. -/
theorem Later.write {m₁ : MemoryState} (h : Later m L m₁ L') {b : Block}
    (hnew : ∀ i, b.Covers i → ¬L.Covered i) {m₂ : MemoryState} (hsame : SameRegion m₁ m₂)
    (hword : ∀ i, ¬b.Covers i → wordAt m₂ i = wordAt m₁ i) : Later m L m₂ L' := by
  refine ⟨⟨?_, ?_⟩, h.blocks, fun i hi => ?_⟩
  · rw [hsame.base, h.same.base]
  · rw [hsame.length, h.same.length]
  · rw [hword i fun hb => hnew i hb hi, h.word i hi]

/-- **`symrepr_addsym`** enters a new name in front of the others when it has the blocks for its
entry and its text. -/
theorem symreprAddsym_of_allocated {st : SymbolTable} {names : List (List (BitVec 8))}
    (hn : Names m L st names) {text : List (BitVec 8)} (hne : text ≠ [])
    (hnul : ∀ c ∈ text, c ≠ 0#8) (hspecial : specialId text = none) (hnew : text ∉ names)
    (hshort : text.length + 1 < 2 ^ 32) {e s : Block} {m₁ m₂ : MemoryState} {L₁ L₂ : Layout n}
    (h₁ : Allocated m L 3#32 e m₁ L₁)
    (h₂ : Allocated m₁ L₁ (BitVec.ofNat 32 (text.length + 1)) s m₂ L₂) :
    ∃ (m' : MemoryState) (st' : SymbolTable),
      symreprAddsym m st text = some (some (symbolId names.length), m', st')
      ∧ Holds m' L₂ ∧ Later m L m' L₂ ∧ Names m' L₂ st' (text :: names) := by
  have hpos := List.length_pos_iff.mpr hne
  have hk : (BitVec.ofNat 32 (text.length + 1)).toNat = text.length + 1 := by
    rw [BitVec.toNat_ofNat]
    omega
  have helen : e.len = 3 := h₁.len
  have hslen : s.len = text.length + 1 := by rw [h₂.len, hk]
  have halloc₁ := h₁.result
  have halloc₂ := h₂.result
  have hlater₁ := h₁.later
  have hlater₂ := h₂.later
  have he₁ := h₁.mem
  have hs₂ := h₂.mem
  have hm₂ := h₂.holds
  have hnew₁ := h₁.fresh
  have hnew₂ := h₂.fresh
  -- the text, and then the three words of the entry
  have hsend := hm₂.lt_length hs₂ (i := s.start + s.len - 1) (by omega)
  obtain ⟨m₃, hwrite₃, hbytes₃⟩ := @Region.writeBytes_byteAddr (text ++ [0#8]) _ (4 * s.start)
    hm₂.region (by simp only [List.length_append, List.length_singleton]; omega)
  have hlenText : (text ++ [0#8]).length = text.length + 1 := by simp
  have hm₃ : Holds m₃ L₂ := by
    have := hm₂.of_memory m₃.memory hbytes₃.length
    rwa [← hbytes₃.only] at this
  have he₂ : e ∈ L₂.blocks := hlater₂.blocks e he₁
  have hlt := fun i (hi : i < 3) => hm₃.lt_length he₂ (i := e.start + i) (by omega)
  let w₀ := m₃.memory.set e.start (byteAddr m (4 * s.start))
  let w₁ := w₀.set (e.start + 2) st.symlist
  let w₂ := w₁.set (e.start + 1) (symbolId names.length)
  have hlen₀ : w₀.length = m₃.memory.length := List.length_set
  have hlen₁ : w₁.length = m₃.memory.length := by rw [← hlen₀]; exact List.length_set
  have hlen₂ : w₂.length = m₃.memory.length := by rw [← hlen₁]; exact List.length_set
  have hh₀ := hm₃.of_memory w₀ hlen₀
  have hh₁ := hm₃.of_memory w₁ hlen₁
  have haddr : ∀ k, byteAddr m₂ k = byteAddr m k := fun k => by
    rw [hlater₂.same.byteAddr, hlater₁.same.byteAddr]
  have haddr₁ : ∀ k, byteAddr m₁ k = byteAddr m k := fun k => hlater₁.same.byteAddr k
  have haddr₃ : ∀ k, byteAddr m₃ k = byteAddr m k := fun k => by
    rw [hbytes₃.sameRegion.byteAddr, haddr]
  have hword₀ : writeWord m₃ (byteAddr m (4 * e.start)) (byteAddr m (4 * s.start))
      = some { m₃ with memory := w₀ } := by
    rw [← haddr₃ (4 * e.start)]
    exact hm₃.region.writeWord_byteAddr (hlt 0 (by decide)) _
  have hword₁ : writeWord { m₃ with memory := w₀ } (byteAddr m (4 * e.start) + 8#32) st.symlist
      = some { m₃ with memory := w₁ } := by
    have haddr₈ : byteAddr m (4 * e.start) + 8#32
        = byteAddr { m₃ with memory := w₀ } (4 * (e.start + 2)) := by
      rw [byteAddr_add m _ 8, ← haddr₃]
      rfl
    rw [haddr₈]
    exact hh₀.region.writeWord_byteAddr
      (by show _ < w₀.length; rw [hlen₀]; exact hlt 2 (by decide)) _
  have hword₂ : writeWord { m₃ with memory := w₁ } (byteAddr m (4 * e.start) + 4#32)
      (symbolId names.length) = some { m₃ with memory := w₂ } := by
    have haddr₄ : byteAddr m (4 * e.start) + 4#32
        = byteAddr { m₃ with memory := w₁ } (4 * (e.start + 1)) := by
      rw [byteAddr_add m _ 4, ← haddr₃]
      rfl
    rw [haddr₄]
    exact hh₁.region.writeWord_byteAddr
      (by show _ < w₁.length; rw [hlen₁]; exact hlt 1 (by decide)) _
  -- the words of the result
  have hat : ∀ i, wordAt { m₃ with memory := w₂ } i
      = if e.start + 1 = i then symbolId names.length
        else if e.start + 2 = i then st.symlist
        else if e.start = i then byteAddr m (4 * s.start) else wordAt m₃ i := by
    intro i
    have h₂ := wordAt_set (m := { m₃ with memory := w₁ }) (i := e.start + 1)
      (by show _ < w₁.length; rw [hlen₁]; exact hlt 1 (by decide)) (symbolId names.length) i
    have h₁ := wordAt_set (m := { m₃ with memory := w₀ }) (i := e.start + 2)
      (by show _ < w₀.length; rw [hlen₀]; exact hlt 2 (by decide)) st.symlist i
    have h₀ := wordAt_set (m := m₃) (hlt 0 (by decide)) (byteAddr m (4 * s.start)) i
    rw [show wordAt { m₃ with memory := w₂ } i = _ from h₂,
      show wordAt { m₃ with memory := w₁ } i = _ from h₁,
      show wordAt { m₃ with memory := w₀ } i = _ from h₀]
    rfl
  have hapart : ∀ i, s.Covers i → ¬(e.start ≤ i ∧ i < e.start + 3) := by
    intro i hsi hei
    exact hnew₂ i hsi ⟨e, he₁, hei.1, by rw [Block.last]; omega⟩
  have hout : ∀ i, ¬e.Covers i → wordAt { m₃ with memory := w₂ } i = wordAt m₃ i := by
    intro i hi
    have hout : ¬(e.start ≤ i ∧ i < e.start + 3) := fun h => hi ⟨h.1, by rw [Block.last]; omega⟩
    rw [hat, if_neg (by omega), if_neg (by omega), if_neg (by omega)]
  have hlater₃ : Later m₁ L₁ m₃ L₂ := by
    refine hlater₂.write hnew₂ hbytes₃.sameRegion fun i hi => hbytes₃.word i ?_
    rw [hlenText]
    by_contra hin
    exact hi ⟨by omega, by rw [Block.last]; omega⟩
  have hlater : Later m L { m₃ with memory := w₂ } L₂ :=
    (hlater₁.trans hlater₃).write hnew₁ ⟨rfl, hlen₂⟩ hout
  have hm' := hm₃.of_memory w₂ hlen₂
  refine ⟨{ m₃ with memory := w₂ }, ⟨byteAddr m (4 * e.start), st.nextSymbolId + 1#32⟩, ?_, hm',
    hlater, ?_⟩
  · have hid : maxSpecialSymbols + st.nextSymbolId = symbolId names.length := by
      rw [hn.next]
      rfl
    rw [symreprAddsym]
    simp only [show ¬(text.length + 1 = 1) by omega, if_false, halloc₁, halloc₂, hid]
    rw [haddr₁, ← haddr (4 * s.start), hwrite₃]
    simp only [Option.bind_eq_bind, Option.bind_some]
    rw [haddr (4 * s.start), hword₀]
    simp only [Option.bind_some, hword₁, hword₂]
  · obtain ⟨bs, hc, hnodup⟩ := hn.chain
    have hchain' := hc.later hlater
    have hold := hc.mem_blocks
    -- the blocks of the entry and the text are not among the older ones
    have hfresh_e : e ∉ bs := fun h =>
      hnew₁ e.start ⟨le_refl _, e.start_le_last⟩ ⟨e, hold e h, le_refl _, e.start_le_last⟩
    have hfresh_s : s ∉ bs := fun h =>
      hnew₂ s.start ⟨le_refl _, s.start_le_last⟩
        ⟨s, hlater₁.blocks s (hold s h), le_refl _, s.start_le_last⟩
    have hne_es : e ≠ s := by
      rintro rfl
      exact hnew₂ e.start ⟨le_refl _, e.start_le_last⟩ ⟨e, he₁, le_refl _, e.start_le_last⟩
    refine ⟨⟨e :: s :: bs, ?_, ?_⟩, ?_, ?_, ?_, ?_⟩
    · have haddr' : ∀ k, byteAddr { m₃ with memory := w₂ } k = byteAddr m k := fun k => haddr₃ k
      show NameChain _ L₂ (byteAddr m (4 * e.start)) _ _
      rw [← haddr' (4 * e.start)]
      refine .cons he₂ hs₂ helen hslen ?_ ?_ ?_ ?_
      · rw [hat, if_neg (by omega), if_neg (by omega), if_pos rfl]
        exact (haddr' _).symm
      · rw [hat, if_pos rfl]
      · refine (hbytes₃.holdsText hnul).congr fun j hj => ?_
        have hcov : s.Covers ((4 * s.start + j) / 4) := ⟨by omega, by rw [Block.last]; omega⟩
        have hne : ¬e.Covers ((4 * s.start + j) / 4) := fun he =>
          hapart _ hcov ⟨he.1, by have := he.2; rw [Block.last] at this; omega⟩
        rw [byteAt, hout _ hne]
        rfl
      · rw [hat, if_neg (by omega), if_pos rfl]
        exact hchain'
    · exact List.nodup_cons.mpr ⟨by simp [hne_es, hfresh_e], List.nodup_cons.mpr ⟨hfresh_s, hnodup⟩⟩
    · show st.nextSymbolId + 1#32 = _
      rw [hn.next, List.length_cons, BitVec.ofNat_add]
    · exact List.nodup_cons.mpr ⟨hnew, hn.nodup⟩
    · intro t ht
      rcases List.mem_cons.mp ht with rfl | ht
      · exact hne
      · exact hn.nonempty t ht
    · intro t ht
      rcases List.mem_cons.mp ht with rfl | ht
      · exact hspecial
      · exact hn.notSpecial t ht

/-- The name is entered when there is room. -/
theorem symreprAddsym_eq (hm : Holds m L) {st : SymbolTable} {names : List (List (BitVec 8))}
    (hn : Names m L st names) {text : List (BitVec 8)} (hne : text ≠ [])
    (hnul : ∀ c ∈ text, c ≠ 0#8) (hspecial : specialId text = none) (hnew : text ∉ names)
    {r len : Nat} (hrun : FreeRun L r len) (hroom : text.length + 4 ≤ len) :
    ∃ (m' : MemoryState) (st' : SymbolTable) (L' : Layout n),
      symreprAddsym m st text = some (some (symbolId names.length), m', st')
      ∧ Holds m' L' ∧ Later m L m' L' ∧ Names m' L' st' (text :: names)
      ∧ FreeRun L' (r + (text.length + 4)) (len - (text.length + 4)) := by
  have hn30 := hm.represents.addressable
  have hinside := hrun.inside
  have hk : (BitVec.ofNat 32 (text.length + 1)).toNat = text.length + 1 := by
    rw [BitVec.toNat_ofNat]
    omega
  have hthree : (3#32).toNat = 3 := rfl
  obtain ⟨e, m₁, L₁, h₁, hrun₁⟩ := hm.allocate (k := 3#32) (by decide) hrun (by omega)
  obtain ⟨s, m₂, L₂, h₂, hrun₂⟩ := h₁.holds.allocate (k := BitVec.ofNat 32 (text.length + 1))
    (by omega) hrun₁ (by omega)
  obtain ⟨m', st', hadd, hm', hlater, hnames⟩ :=
    symreprAddsym_of_allocated hn hne hnul hspecial hnew (by omega) h₁ h₂
  refine ⟨m', st', L₂, hadd, hm', hlater, hnames, ?_⟩
  rw [hk, hthree] at hrun₂
  rw [show r + (text.length + 4) = r + 3 + (text.length + 1) by omega,
    show len - (text.length + 4) = len - 3 - (text.length + 1) by omega]
  exact hrun₂

end LispBM
