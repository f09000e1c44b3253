import LispBM.Symrepr.Intern

/-!
# LispBM — extensions (`src/extensions.c`)

An extension is a C function that the host registers under a name. `extensions_add` enters the name
as a new symbol without looking it up, while the reader interns the lower-case text of a symbol:
the two agree on a name that neither the special symbols nor the table knew when it was registered.

`ExtRun` are the states reached by reading symbols and registering extensions in any order, next to
the other users of the memory. A state keeps what was read and registered so far.
-/

namespace LispBM

open BlockLayout

variable {ε : Type}

/-- The list of `extension_function_t`, newest first. -/
abbrev Extensions (ε : Type) := List (UINT × ε)

/-- `extensions_lookup`, `none` for NULL. -/
def extensionsLookup : Extensions ε → UINT → Option ε
  | [], _ => none
  | (s, f) :: rest, sym => if s = sym then some f else extensionsLookup rest sym

/-- `extensions_add(sym_str, ext)`. Whether the C library finds room for the list entry is given. -/
def extensionsAdd (m : MemoryState) (st : SymbolTable) (exts : Extensions ε)
    (symStr : List (BitVec 8)) (ext : ε) (malloced : Bool) :
    Option (Bool × MemoryState × SymbolTable × Extensions ε) := do
  let (res, m, st) ← symreprAddsym m st symStr
  match res with
  | none => some (false, m, st, exts)
  | some symbol =>
      if !malloced then some (false, m, st, exts) else some (true, m, st, (symbol, ext) :: exts)

/-! ## Runs -/

/-- The memory, the symbol table and the extensions, with the history: the symbols that were read,
as they stand in the text and with the id they got, and the names that were registered, newest
first. -/
structure ExtState (ε : Type) where
  memory : MemoryState
  symtab : SymbolTable
  exts : Extensions ε
  read : List (List (BitVec 8) × UINT)
  registered : List (List (BitVec 8) × ε)

/-- A C string of the host. -/
structure IsCString (s : List (BitVec 8)) : Prop where
  noNul : ∀ c ∈ s, c ≠ 0#8
  short : s.length + 1 < 2 ^ 32

/-- The reader interns the lower-case text of a symbol. -/
def lowerCase (text : List (BitVec 8)) : List (BitVec 8) := text.map Tokpar.tolower

/-- The states of all runs in which `ok` holds of the memory, the table and the name before every
call of `extensions_add`. -/
inductive ExtRun (n : Nat) (ok : MemoryState → SymbolTable → List (BitVec 8) → Prop) :
    ExtState ε → Prop where
  | start {m : MemoryState} {L : Layout n} (hm : Holds m L) :
      ExtRun n ok ⟨m, ⟨0#32, 0#32⟩, [], [], []⟩
  /-- The reader comes to the symbol `text` and interns it. -/
  | read {s : ExtState ε} {text : List (BitVec 8)} {id : UINT} {m' : MemoryState}
      {st' : SymbolTable} (hrun : ExtRun n ok s) (htext : IsCString (lowerCase text))
      (h : symreprIntern s.memory s.symtab (lowerCase text) = some (some id, m', st')) :
      ExtRun n ok { s with memory := m', symtab := st', read := (text, id) :: s.read }
  /-- A symbol that cannot be entered, and a name interned by `str-to-sym`. -/
  | intern {s : ExtState ε} {name : List (BitVec 8)} {r : Option UINT} {m' : MemoryState}
      {st' : SymbolTable} (hrun : ExtRun n ok s) (hname : IsCString name)
      (h : symreprIntern s.memory s.symtab name = some (r, m', st')) :
      ExtRun n ok { s with memory := m', symtab := st' }
  | add {s : ExtState ε} {name : List (BitVec 8)} {f : ε} {malloced : Bool} {m' : MemoryState}
      {st' : SymbolTable} {exts' : Extensions ε} (hrun : ExtRun n ok s) (hname : IsCString name)
      (hok : ok s.memory s.symtab name)
      (h : extensionsAdd s.memory s.symtab s.exts name f malloced = some (true, m', st', exts')) :
      ExtRun n ok { s with memory := m', symtab := st', exts := exts',
                           registered := (name, f) :: s.registered }
  | addFails {s : ExtState ε} {name : List (BitVec 8)} {f : ε} {malloced : Bool} {m' : MemoryState}
      {st' : SymbolTable} {exts' : Extensions ε} (hrun : ExtRun n ok s) (hname : IsCString name)
      (hok : ok s.memory s.symtab name)
      (h : extensionsAdd s.memory s.symtab s.exts name f malloced = some (false, m', st', exts')) :
      ExtRun n ok { s with memory := m', symtab := st', exts := exts' }
  | other {s : ExtState ε} {m' : MemoryState} {L' : Layout n} (hrun : ExtRun n ok s)
      (hm' : Holds m' L') (hsame : SameRegion s.memory m')
      (hkeep : ∀ L : Layout n, Holds s.memory L → ∀ b ∈ L.blocks,
        byteAddr s.memory (4 * b.start)
          ∈ tableAddrs s.memory (s.memory.memory.length + 1) s.symtab.symlist →
          b ∈ L'.blocks ∧ ∀ i, b.Covers i → wordAt m' i = wordAt s.memory i) :
      ExtRun n ok { s with memory := m' }

/-- Every occurrence of a registered name denotes a symbol whose extension is the one registered,
or a later one of the same name; and each name has one id. -/
structure FoundByName (s : ExtState ε) : Prop where
  found : ∀ newer name f older, s.registered = newer ++ (name, f) :: older →
    ∀ id, (name, id) ∈ s.read →
      ∃ g, extensionsLookup s.exts id = some g ∧ (name, g) ∈ newer ++ [(name, f)]
  oneId : ∀ name id, symreprLookup s.memory s.symtab name = some (some id)
    ↔ symreprLookupName s.memory s.symtab id = some (some name)

/-- The name is one the reader can make, and neither the special symbols nor the table know it. -/
def FreshName (m : MemoryState) (st : SymbolTable) (name : List (BitVec 8)) : Prop :=
  lowerCase name = name ∧ symreprLookup m st name = some none

/-! ## The invariant -/

/-- The id of a name in a table of names. -/
def nameId (names : List (List (BitVec 8))) (name : List (BitVec 8)) : Option UINT :=
  (specialId name).or (findName name names)

/-- The history of a state agrees with a table of names. -/
structure Agrees (names : List (List (BitVec 8))) (s : ExtState ε) : Prop where
  read : ∀ text id, (text, id) ∈ s.read → nameId names (lowerCase text) = some id
  registered : ∀ name f, (name, f) ∈ s.registered →
    lowerCase name = name ∧ ∃ id, nameId names name = some id ∧ extensionsLookup s.exts id = some f

section

variable {n : Nat} {m m' : MemoryState} {L : Layout n} {st st' : SymbolTable}
  {names : List (List (BitVec 8))} {s : ExtState ε} {name : List (BitVec 8)} {id : UINT}

theorem symreprLookup_eq_nameId (hm : Holds m L) (hn : Names m L st names)
    (name : List (BitVec 8)) : symreprLookup m st name = some (nameId names name) := by
  rw [symreprLookup_eq hm hn, nameId]
  cases specialId name <;> rfl

theorem nameId_cons {t : List (BitVec 8)} (hne : name ≠ t) :
    nameId (t :: names) name = nameId names name := by
  rw [nameId, nameId, findName, if_neg hne]

/-- A name that is entered anew leaves the ids of the others alone. -/
theorem nameId_of_fresh {t : List (BitVec 8)} (hfresh : nameId names t = none)
    (hid : nameId names name = some id) : nameId (t :: names) name = some id := by
  have hne : name ≠ t := by
    rintro rfl
    rw [hfresh] at hid
    exact absurd hid (by simp)
  rw [nameId_cons hne, hid]

theorem nameId_ne_symbolId (hlen : 5 * names.length ≤ 2 ^ 30) (hid : nameId names name = some id) :
    symbolId names.length ≠ id := by
  rintro rfl
  have hnew := symbolId_toNat hlen
  rw [nameId, Option.or_eq_some_iff] at hid
  rcases hid with hspecial | ⟨-, hfind⟩
  · have hlt : (symbolId names.length).toNat < 4096 := specialId_lt hspecial
    omega
  · obtain ⟨-, k, hk, heq⟩ := findName_eq_some hfind
    have := symbolId_inj hlen (by omega) heq
    omega

/-- A table that is the same, or has one more name, which was not known. -/
inductive Grown (names : List (List (BitVec 8))) : List (List (BitVec 8)) → Prop where
  | same : Grown names names
  | new {t : List (BitVec 8)} (hfresh : nameId names t = none) : Grown names (t :: names)

theorem Grown.nameId_eq {names' : List (List (BitVec 8))} (hg : Grown names names')
    (hid : nameId names name = some id) : nameId names' name = some id := by
  cases hg with
  | same => exact hid
  | new hfresh => exact nameId_of_fresh hfresh hid

/-- The history still agrees with a table that has grown. -/
theorem Agrees.grown {names' : List (List (BitVec 8))} (ha : Agrees names s)
    (hg : Grown names names') (m' : MemoryState) (st' : SymbolTable) :
    Agrees names' { s with memory := m', symtab := st' } := by
  refine ⟨fun text id hmem => hg.nameId_eq (ha.read text id hmem), fun name f hmem => ?_⟩
  obtain ⟨hlower, id, hid, hext⟩ := ha.registered name f hmem
  exact ⟨hlower, id, hg.nameId_eq hid, hext⟩

theorem symreprAddsym_grown (hm : Holds m L) (hn : Names m L st names) (hname : IsCString name)
    (hfresh : nameId names name = none) {r : Option UINT}
    (h : symreprAddsym m st name = some (r, m', st')) :
    ∃ (L' : Layout n) (names' : List (List (BitVec 8))), Holds m' L' ∧ Names m' L' st' names'
      ∧ Grown names names'
      ∧ ∀ id, r = some id → id = symbolId names.length ∧ names' = name :: names := by
  rw [nameId, Option.or_eq_none_iff] at hfresh
  obtain ⟨hspecial, hfind⟩ := hfresh
  rcases symreprAddsym_cases hm hn hname.noNul hspecial (findName_eq_none.mp hfind) hname.short with
    hfail | ⟨m₁, st₁, L₁, hadd, hm₁, hn₁⟩
  · rw [hfail] at h
    cases h
    exact ⟨L, names, hm, hn, .same, fun id hid => absurd hid (by simp)⟩
  · rw [hadd] at h
    cases h
    refine ⟨L₁, name :: names, hm₁, hn₁, .new ?_, fun id hid => ⟨(Option.some.inj hid).symm, rfl⟩⟩
    rw [nameId, hspecial, hfind]
    rfl

theorem nameId_self (hspecial : specialId name = none) :
    nameId (name :: names) name = some (symbolId names.length) := by
  rw [nameId, hspecial, findName, if_pos rfl]
  rfl

theorem symreprIntern_grown (hm : Holds m L) (hn : Names m L st names) (hname : IsCString name)
    {r : Option UINT} (h : symreprIntern m st name = some (r, m', st')) :
    ∃ (L' : Layout n) (names' : List (List (BitVec 8))), Holds m' L' ∧ Names m' L' st' names'
      ∧ Grown names names' ∧ ∀ id, r = some id → nameId names' name = some id := by
  rw [symreprIntern, symreprLookup_eq_nameId hm hn] at h
  cases hid : nameId names name with
  | some id =>
    rw [hid] at h
    cases h
    refine ⟨L, names, hm, hn, .same, fun id' hid' => ?_⟩
    rw [hid, hid']
  | none =>
    rw [hid] at h
    obtain ⟨L', names', hm', hn', hg, hnew⟩ := symreprAddsym_grown hm hn hname hid h
    refine ⟨L', names', hm', hn', hg, fun id hr => ?_⟩
    obtain ⟨rfl, rfl⟩ := hnew id hr
    exact nameId_self (Option.or_eq_none_iff.mp hid).1

/-- One registration of a fresh name. -/
theorem extensionsAdd_agrees (hm : Holds s.memory L) (hn : Names s.memory L s.symtab names)
    (ha : Agrees names s) (hname : IsCString name) (hfresh : FreshName s.memory s.symtab name)
    {f : ε} {malloced ok : Bool} {exts' : Extensions ε}
    (h : extensionsAdd s.memory s.symtab s.exts name f malloced = some (ok, m', st', exts')) :
    ∃ (L' : Layout n) (names' : List (List (BitVec 8))), Holds m' L' ∧ Names m' L' st' names'
      ∧ Agrees names' { s with memory := m', symtab := st', exts := exts',
                               registered := if ok then (name, f) :: s.registered
                                 else s.registered } := by
  have hlen := hn.five_mul_length_le
  have haddr := hm.represents.addressable
  have hnone : nameId names name = none := by
    have := hfresh.2
    rw [symreprLookup_eq_nameId hm hn] at this
    exact Option.some.inj this
  rw [extensionsAdd] at h
  obtain ⟨⟨r, m₁, st₁⟩, hadd, h⟩ := Option.bind_eq_some_iff.mp h
  obtain ⟨L', names', hm', hn', hg, hnew⟩ := symreprAddsym_grown hm hn hname hnone hadd
  cases r with
  | none =>
    cases h
    exact ⟨L', names', hm', hn', ha.grown hg _ _⟩
  | some id =>
    cases malloced with
    | false =>
      cases h
      exact ⟨L', names', hm', hn', ha.grown hg _ _⟩
    | true =>
      cases h
      obtain ⟨rfl, rfl⟩ := hnew id rfl
      have hself := @nameId_self names name (Option.or_eq_none_iff.mp hnone).1
      have hg' := ha.grown hg m' st'
      refine ⟨L', name :: names, hm', hn', hg'.read, fun name' g hmem => ?_⟩
      rcases List.mem_cons.mp hmem with heq | hmem
      · obtain ⟨rfl, rfl⟩ := Prod.mk.inj heq
        exact ⟨hfresh.1, _, hself, if_pos rfl⟩
      · -- the extensions of the names before are behind the new entry
        obtain ⟨hlower, id', hid', hext⟩ := ha.registered name' g hmem
        have hne := nameId_ne_symbolId (by omega) hid'
        refine ⟨hlower, id', hg.nameId_eq hid', ?_⟩
        show extensionsLookup ((symbolId names.length, f) :: s.exts) id' = some g
        rw [extensionsLookup, if_neg hne, hext]

theorem ExtRun.agrees (hrun : ExtRun n FreshName s) :
    ∃ (L : Layout n) (names : List (List (BitVec 8))), Holds s.memory L
      ∧ Names s.memory L s.symtab names ∧ Agrees names s := by
  induction hrun with
  | @start m L hm =>
    exact ⟨L, [], hm, ⟨⟨[], .nil, List.nodup_nil⟩, rfl, List.nodup_nil, by simp, by simp⟩, by simp,
      by simp⟩
  | @read s text id m' st' hrun htext h ih =>
    obtain ⟨L, names, hm, hn, ha⟩ := ih
    obtain ⟨L', names', hm', hn', hg, hid⟩ := symreprIntern_grown hm hn htext h
    have ha' := ha.grown hg m' st'
    refine ⟨L', names', hm', hn', fun text' id' hmem => ?_, ha'.registered⟩
    rcases List.mem_cons.mp hmem with heq | hmem
    · obtain ⟨rfl, rfl⟩ := Prod.mk.inj heq
      exact hid _ rfl
    · exact ha'.read text' id' hmem
  | @intern s name r m' st' hrun hname h ih =>
    obtain ⟨L, names, hm, hn, ha⟩ := ih
    obtain ⟨L', names', hm', hn', hg, -⟩ := symreprIntern_grown hm hn hname h
    exact ⟨L', names', hm', hn', ha.grown hg m' st'⟩
  | add hrun hname hok h ih =>
    obtain ⟨L, names, hm, hn, ha⟩ := ih
    obtain ⟨L', names', hm', hn', ha'⟩ := extensionsAdd_agrees hm hn ha hname hok h
    exact ⟨L', names', hm', hn', ha'⟩
  | addFails hrun hname hok h ih =>
    obtain ⟨L, names, hm, hn, ha⟩ := ih
    obtain ⟨L', names', hm', hn', ha'⟩ := extensionsAdd_agrees hm hn ha hname hok h
    exact ⟨L', names', hm', hn', ha'⟩
  | @other s m' L' hrun hm' hsame hkeep ih =>
    obtain ⟨L, names, hm, hn, ha⟩ := ih
    exact ⟨L', names, hm', hn.keep hm hsame hkeep, ha.grown .same m' s.symtab⟩

end

/-- **Extensions are found by name** in every run that registers fresh names only. -/
theorem ExtRun.foundByName {n : Nat} {s : ExtState ε} (hrun : ExtRun n FreshName s) :
    FoundByName s := by
  obtain ⟨L, names, hm, hn, ha⟩ := hrun.agrees
  refine ⟨fun newer name f older hreg id hmem => ?_, hn.lookup_iff hm⟩
  obtain ⟨hlower, id', hid', hext⟩ := ha.registered name f (by simp [hreg])
  have hid := ha.read name id hmem
  rw [hlower, hid'] at hid
  obtain rfl := Option.some.inj hid
  exact ⟨f, hext, by simp⟩

theorem isCString_foo : IsCString (cstring "foo") := ⟨by decide, by decide⟩

/-- The result of a step whose C result is `r`. -/
theorem exists_of_map_fst {α β : Type} {o : Option (α × β)} {r : α}
    (h : o.map (fun p => p.1) = some r) : ∃ b, o = some (r, b) := by
  obtain ⟨⟨a, b⟩, hr, rfl⟩ := Option.map_eq_some_iff.mp h
  exact ⟨b, hr⟩

/-- `foo` is registered and read afterwards. -/
theorem foundByName_foo : ∃ s : ExtState Unit,
    ExtRun 64 FreshName s ∧ s.read = [(cstring "foo", 4096#32)]
      ∧ s.registered = [(cstring "foo", ())] ∧ FoundByName s := by
  obtain ⟨⟨m₁, st₁, exts₁⟩, hadd⟩ := exists_of_map_fst (show
    (extensionsAdd words64 ⟨0#32, 0#32⟩ ([] : Extensions Unit) (cstring "foo") () true).map
      (fun p => p.1) = some true by decide +kernel)
  have hread : ((extensionsAdd words64 ⟨0#32, 0#32⟩ ([] : Extensions Unit) (cstring "foo") ()
      true).bind fun p => symreprIntern p.2.1 p.2.2.1 (cstring "foo")).map (fun p => p.1)
        = some (some 4096#32) := by decide +kernel
  rw [hadd] at hread
  obtain ⟨⟨m₂, st₂⟩, hread⟩ := exists_of_map_fst hread
  have hfresh : FreshName words64 ⟨0#32, 0#32⟩ (cstring "foo") := ⟨by decide, by decide +kernel⟩
  have hrun₁ := ExtRun.add (ExtRun.start holds_words64) isCString_foo hfresh hadd
  have hrun₂ : ExtRun 64 FreshName (⟨m₂, st₂, exts₁, [(cstring "foo", 4096#32)],
      [(cstring "foo", ())]⟩ : ExtState Unit) := .read hrun₁ isCString_foo hread
  exact ⟨_, hrun₂, rfl, rfl, hrun₂.foundByName⟩

/-- `foo` is read and registered afterwards: the occurrence that was read keeps its old id, which
has no extension. -/
theorem not_foundByName_foo : ∃ s : ExtState Unit,
    ExtRun 64 (fun _ _ _ => True) s ∧ s.registered = [(cstring "foo", ())] ∧ ¬FoundByName s := by
  obtain ⟨⟨m₁, st₁⟩, hread⟩ := exists_of_map_fst (show
    (symreprIntern words64 ⟨0#32, 0#32⟩ (cstring "foo")).map (fun p => p.1) = some (some 4096#32)
      by decide +kernel)
  have hadd : ((symreprIntern words64 ⟨0#32, 0#32⟩ (cstring "foo")).bind fun p =>
      extensionsAdd p.2.1 p.2.2 ([] : Extensions Unit) (cstring "foo") () true).map
        (fun p => (p.1, p.2.2.2)) = some (true, [(4097#32, ())]) := by decide +kernel
  rw [hread] at hadd
  obtain ⟨⟨ok, m₂, st₂, exts₂⟩, hadd, hres⟩ := Option.map_eq_some_iff.mp hadd
  obtain ⟨rfl, rfl⟩ := Prod.mk.inj hres
  have hrun₁ : ExtRun 64 (fun _ _ _ => True) (⟨m₁, st₁, [], [(cstring "foo", 4096#32)], []⟩ :
      ExtState Unit) := .read (.start holds_words64) isCString_foo hread
  have hrun₂ := ExtRun.add hrun₁ isCString_foo trivial hadd
  refine ⟨_, hrun₂, rfl, fun hf => ?_⟩
  obtain ⟨g, hg, -⟩ := hf.found [] (cstring "foo") () [] rfl 4096#32 (by simp)
  have hnone : extensionsLookup [(4097#32, ())] 4096#32 = none := by decide
  exact absurd (hnone.symm.trans hg) (by simp)

end LispBM
