import LispBM.Env.Bindings
import LispBM.Heap.Structures
import LispBM.Semantics

/-!
# LispBM — values in the heap

How values, environments and memories of the semantics lie in the heap. Every location has a cell of
its own, with the name and the value of its binding; these are the only cells that are written to
once they are in use. The others are data and stay what they are (`Keeps`), so that what a word
stands for is not changed by anything that happens later (`Keeps.holds`).

* `Layout` — which cells are free, and which are those of the locations;
* `IsEnv`, `Holds` — a word stands for an environment, or for a value;
* `Sound` — the heap and the global environment stand for a memory;
* `Sound.take`, `Sound.bind`, `Sound.assign` — the three ways in which a heap changes.
-/

namespace LispBM

namespace Semantics

open Structures

/-- The free cells, and the cell of every location. -/
structure Layout where
  free : List Nat
  locs : List Nat

/-- A cell that is in use and not that of a location. -/
structure Layout.Data (Λ : Layout) (h : HeapState) (i : Nat) : Prop where
  lt : i < h.heapSize
  used : i ∉ Λ.free
  apart : i ∉ Λ.locs

/-- The word points to the cell of the location, which has the name. -/
def Binds (h : HeapState) (Λ : Layout) (w : VALUE) (b : VALUE × Loc) : Prop :=
  ∃ i, Λ.locs[b.2]? = some i ∧ w = cellPtr i ∧ (h.cell i).car = b.1

/-- `w` stands for the environment `E`. -/
def IsEnv (h : HeapState) (Λ : Layout) (w : VALUE) (E : Env) : Prop :=
  ∃ ws is, ListOf h w ws is ∧ (∀ i ∈ is, Λ.Data h i) ∧ List.Forall₂ (Binds h Λ) ws E

/-- `w` stands for the value. -/
inductive Holds (h : HeapState) (Λ : Layout) : VALUE → Val → Prop where
  | word {w : VALUE} (hw : isImmediate w = true) : Holds h Λ w (.word w)
  | pair {w : VALUE} {a d : Val} (hty : typeOf w = ptrTypeCons) (hdata : Λ.Data h (ptrIx w))
      (ha : Holds h Λ (car h w) a) (hd : Holds h Λ (cdr h w) d) : Holds h Λ w (.pair a d)
  | closure {w params body env : VALUE} {ps : List VALUE} {e : Val} {E : Env} {is js : List Nat}
      (hlist : ListOf h w [encSym symreprClosure, params, body, env] is)
      (his : ∀ i ∈ is, Λ.Data h i) (hparams : ListOf h params ps js) (hjs : ∀ j ∈ js, Λ.Data h j)
      (hps : ∀ p ∈ ps, typeOf p = valTypeSymbol) (hbody : Holds h Λ body e)
      (henv : IsEnv h Λ env E) : Holds h Λ w (.closure ps e E)

/-- The heap and the global environment `g` stand for the memory. -/
structure Sound (h : HeapState) (Λ : Layout) (m : Memory) (g : VALUE) : Prop where
  free : FreeList h Λ.free
  nodup : Λ.locs.Nodup
  locs : ∀ i ∈ Λ.locs, i < h.heapSize ∧ i ∉ Λ.free
  length : Λ.locs.length = m.vals.length
  names : ∀ i ∈ Λ.locs, typeOf (h.cell i).car = valTypeSymbol
  vals : ∀ l i v, Λ.locs[l]? = some i → m.Has l v → Holds h Λ (h.cell i).cdr v
  globals : IsEnv h Λ g m.globals

/-- `n` free cells have become data or bindings. Data stays what it is, and names stay. -/
structure Keeps (h : HeapState) (Λ : Layout) (n : Nat) (h' : HeapState) (Λ' : Layout) : Prop where
  free : Λ'.free = Λ.free.drop n
  locs : Λ.locs <+: Λ'.locs
  fresh : ∀ i ∈ Λ'.locs, i ∈ Λ.locs ∨ i ∈ Λ.free
  cells : ∀ i, Λ.Data h i → h'.cell i = h.cell i
  names : ∀ i ∈ Λ.locs, (h'.cell i).car = (h.cell i).car
  size : h'.heapSize = h.heapSize

section

variable {h h' h'' : HeapState} {Λ Λ' Λ'' : Layout} {m : Memory} {g w a d : VALUE} {v : Val}
  {E : Env} {n k i j : Nat} {l ls : List Nat} {vs : List Val} {ws ps : List VALUE} {x : VALUE}

/-! ## What stays -/

namespace Keeps

theorem loc {b : Loc} (hk : Keeps h Λ n h' Λ') (hi : Λ.locs[b]? = some i) :
    Λ'.locs[b]? = some i := by
  obtain ⟨t, ht⟩ := hk.locs
  rw [← ht, List.getElem?_append_left (List.getElem?_eq_some_iff.mp hi).1]
  exact hi

theorem refl (h : HeapState) (Λ : Layout) : Keeps h Λ 0 h Λ :=
  ⟨rfl, List.prefix_refl _, fun _ hi => .inl hi, fun _ _ => rfl, fun _ _ => rfl, rfl⟩

theorem data (hk : Keeps h Λ n h' Λ') (hi : Λ.Data h i) : Λ'.Data h' i := by
  refine ⟨?_, fun hfree => ?_, fun hloc => ?_⟩
  · rw [hk.size]
    exact hi.lt
  · rw [hk.free] at hfree
    exact hi.used (List.mem_of_mem_drop hfree)
  · rcases hk.fresh i hloc with hold | hfree
    · exact hi.apart hold
    · exact hi.used hfree

theorem trans (hk : Keeps h Λ n h' Λ') (hk' : Keeps h' Λ' k h'' Λ'') :
    Keeps h Λ (n + k) h'' Λ'' := by
  refine ⟨?_, hk.locs.trans hk'.locs, fun i hi => ?_, fun i hi => ?_, fun i hi => ?_,
    hk'.size.trans hk.size⟩
  · rw [hk'.free, hk.free, List.drop_drop]
  · rcases hk'.fresh i hi with hold | hfree
    · exact hk.fresh i hold
    · rw [hk.free] at hfree
      exact .inr (List.mem_of_mem_drop hfree)
  · rw [hk'.cells i (hk.data hi), hk.cells i hi]
  · rw [hk'.names i (hk.locs.subset hi), hk.names i hi]

theorem binds {b : VALUE × Loc} (hk : Keeps h Λ n h' Λ') (hb : Binds h Λ w b) :
    Binds h' Λ' w b := by
  obtain ⟨i, hi, hw, hname⟩ := hb
  refine ⟨i, hk.loc hi, hw, ?_⟩
  rw [hk.names i (List.mem_of_getElem? hi)]
  exact hname

theorem isEnv (hk : Keeps h Λ n h' Λ') (hE : IsEnv h Λ w E) : IsEnv h' Λ' w E := by
  obtain ⟨ws, is, hlist, his, hbinds⟩ := hE
  refine ⟨ws, is, hlist.congr fun i hi => hk.cells i (his i hi), fun i hi => hk.data (his i hi), ?_⟩
  exact hbinds.imp fun _ _ hb => hk.binds hb

/-- **What a word stands for** does not change. -/
theorem holds (hk : Keeps h Λ n h' Λ') (hw : Holds h Λ w v) : Holds h' Λ' w v := by
  induction hw with
  | word hw => exact .word hw
  | pair hty hdata _ _ iha ihd =>
    have hcell := hk.cells _ hdata
    rw [← car_congr hty hcell] at iha
    rw [← cdr_congr hty hcell] at ihd
    exact .pair hty (hk.data hdata) iha ihd
  | closure hlist his hparams hjs hps _ henv ih =>
    refine .closure (hlist.congr fun i hi => hk.cells i (his i hi)) (fun i hi => hk.data (his i hi))
      (hparams.congr fun j hj => hk.cells j (hjs j hj)) (fun j hj => hk.data (hjs j hj)) hps ih ?_
    exact hk.isEnv henv

theorem forall_holds (hk : Keeps h Λ n h' Λ') (hws : List.Forall₂ (Holds h Λ) ws vs) :
    List.Forall₂ (Holds h' Λ') ws vs :=
  hws.imp fun _ _ hw => hk.holds hw

end Keeps

/-! ## Lists -/

theorem Holds.uncons {a d : Val} (hw : Holds h Λ w (.pair a d)) :
    typeOf w = ptrTypeCons ∧ Holds h Λ (car h w) a ∧ Holds h Λ (cdr h w) d := by
  cases hw with
  | pair hty _ ha hd => exact ⟨hty, ha, hd⟩

theorem Holds.list_uncons (hw : Holds h Λ w (.list (v :: vs))) :
    typeOf w = ptrTypeCons ∧ Holds h Λ (car h w) v ∧ Holds h Λ (cdr h w) (.list vs) :=
  Holds.uncons hw

theorem Holds.word_eq (hw : Holds h Λ w (.word x)) : w = x := by
  cases hw
  rfl

theorem Holds.isImmediate_eq (hw : Holds h Λ w (.word x)) : isImmediate x = true := by
  cases hw
  assumption

theorem Holds.sym_eq {id : UINT} (hw : Holds h Λ w (.sym id)) : w = encSym id := hw.word_eq

theorem Holds.nil_eq (hw : Holds h Λ w .nil) : w = NIL := hw.word_eq

/-- The words of a list stand for its elements. -/
theorem Holds.listOf : ∀ {vs : List Val} {w : VALUE}, Holds h Λ w (.list vs) →
    ∃ ws is, ListOf h w ws is ∧ (∀ i ∈ is, Λ.Data h i) ∧ List.Forall₂ (Holds h Λ) ws vs := by
  intro vs
  induction vs with
  | nil =>
    intro w hw
    rw [hw.nil_eq]
    exact ⟨[], [], .nil, by simp, .nil⟩
  | cons v vs ih =>
    intro w hw
    have hpair : Holds h Λ w (.pair v (.list vs)) := hw
    cases hpair with
    | pair hty hdata ha hd =>
      obtain ⟨ws, is, hlist, his, hws⟩ := ih hd
      refine ⟨_, _, .cons hty hlist, fun i hi => ?_, .cons ha hws⟩
      rcases List.mem_cons.mp hi with rfl | hi
      · exact hdata
      · exact his i hi

theorem forall_word_eq : ∀ {ws ps : List VALUE},
    List.Forall₂ (Holds h Λ) ws (ps.map .word) → ws = ps := by
  intro ws ps hws
  rw [List.forall₂_map_right_iff] at hws
  exact List.forall₂_eq_eq_eq ▸ hws.imp fun _ _ hw => hw.word_eq

/-- The tests for the end of a list. -/
theorem Holds.isNil_eq (hw : Holds h Λ w (.list vs)) :
    (typeOf w == valTypeSymbol && w == NIL) = vs.isEmpty := by
  cases vs with
  | nil =>
    rw [hw.nil_eq]
    rfl
  | cons v vs =>
    rw [hw.list_uncons.1]
    rfl

/-- The tests for a symbol are tests of the value. -/
theorem Holds.isSymbol_eq (hw : Holds h Λ w v) (id : UINT) :
    (typeOf w == valTypeSymbol && decSym w == id) = v.isSymbol id := by
  have hcons : (ptrTypeCons == valTypeSymbol) = false := by decide
  cases hw with
  | word => rfl
  | pair hty =>
    rw [hty, hcons]
    rfl
  | closure hlist =>
    rw [hlist.uncons.1, hcons]
    rfl

/-! ## Environments -/

theorem isEnv_nil : IsEnv h Λ NIL [] := ⟨[], [], .nil, by simp, .nil⟩

/-- An environment is no symbol but `nil`. -/
theorem IsEnv.isSymbol_eq {id : UINT} (hE : IsEnv h Λ w E) (hid : (symreprNil == id) = false) :
    (typeOf w == valTypeSymbol && decSym w == id) = false := by
  obtain ⟨ws, is, hlist, -⟩ := hE
  cases hlist with
  | nil =>
    have hnil : decSym NIL = symreprNil := by decide
    rw [hnil, hid, Bool.and_false]
  | cons hty =>
    rw [hty]
    rfl

/-- A walk over an environment ends within `walkFuel`. -/
theorem Sound.length_lt (hs : Sound h Λ m g) {is : List Nat} (hlist : ListOf h w ws is)
    (his : ∀ i ∈ is, Λ.Data h i) : ws.length < walkFuel h :=
  hlist.length_lt_walkFuel (fun i hi => (his i hi).lt) hs.free.fits

/-! ## The cells of the locations -/

namespace Sound

variable (hs : Sound h Λ m g)
include hs

theorem length_eq {is : List Nat} (hlist : ListOf h w ws is) (his : ∀ i ∈ is, Λ.Data h i) :
    LispBM.length h w = some ws.length := by
  rw [LispBM.length, hlist.lengthLoop_eq (hs.length_lt hlist his), Nat.zero_add]

theorem ptrIx_loc (hi : i ∈ Λ.locs) : ptrIx (cellPtr i) = i :=
  ptrIx_cellPtr (Nat.lt_of_lt_of_le (hs.locs i hi).1 hs.free.addressable)

theorem type_loc (hi : i ∈ Λ.locs) : typeOf (cellPtr i) = ptrTypeCons :=
  typeOf_cellPtr (Nat.lt_of_lt_of_le (hs.locs i hi).1 hs.free.addressable)

theorem car_loc (hi : i ∈ Λ.locs) : car h (cellPtr i) = (h.cell i).car := by
  rw [car_of_isPtr (isPtr_cellPtr i), hs.ptrIx_loc hi]

theorem cdr_loc (hi : i ∈ Λ.locs) : cdr h (cellPtr i) = (h.cell i).cdr := by
  rw [cdr_of_isPtr (isPtr_cellPtr i), hs.ptrIx_loc hi, if_pos (hs.type_loc hi)]

theorem isBinding (hi : i ∈ Λ.locs) : IsBinding h Λ.free (cellPtr i) := by
  refine ⟨hs.type_loc hi, ?_, ?_, ?_⟩
  · rw [hs.car_loc hi]
    exact hs.names i hi
  · rw [hs.ptrIx_loc hi]
    exact (hs.locs i hi).1
  · rw [hs.ptrIx_loc hi]
    exact (hs.locs i hi).2

/-- The binding that a walk finds is that of the location. -/
theorem bindingOf_eq (hbinds : List.Forall₂ (Binds h Λ) ws E) (x : VALUE) :
    (E.lookup x = none ∧ bindingOf h x ws = none)
      ∨ ∃ l i, E.lookup x = some l ∧ Λ.locs[l]? = some i ∧ bindingOf h x ws = some (cellPtr i) := by
  induction hbinds with
  | nil => exact .inl ⟨rfl, rfl⟩
  | @cons w b ws E hb _ ih =>
    obtain ⟨i, hi, rfl, hname⟩ := hb
    have hmem := List.mem_of_getElem? hi
    rw [bindingOf_cons, List.lookup_cons, hs.car_loc hmem, hname]
    by_cases hx : b.1 = x
    · right
      rw [if_pos hx, hx, beq_self_eq_true]
      exact ⟨b.2, i, rfl, hi, rfl⟩
    · have hne : (x == b.1) = false := by
        rw [beq_eq_false_iff_ne]
        exact fun heq => hx heq.symm
      rw [if_neg hx, hne]
      exact ih

/-- **A variable** is looked up in its environment. -/
theorem envLookup_eq (hE : IsEnv h Λ w E) (hx : decSym x ≠ symreprNil) :
    (E.lookup x = none ∧ envLookup h x w = some (encSym symreprNotFound))
      ∨ ∃ l i, E.lookup x = some l ∧ Λ.locs[l]? = some i
        ∧ envLookup h x w = some (h.cell i).cdr := by
  obtain ⟨ws, is, hlist, his, hbinds⟩ := hE
  have hne : ¬(decSym x == symreprNil) = true := by simpa using hx
  rw [envLookup, if_neg hne, hlist.envLookupLoop_eq x (hs.length_lt hlist his), boundTo]
  rcases hs.bindingOf_eq hbinds x with ⟨hnone, hb⟩ | ⟨l, i, hl, hi, hb⟩
  · left
    rw [hb]
    exact ⟨hnone, rfl⟩
  · right
    rw [hb, Option.map_some, hs.cdr_loc (List.mem_of_getElem? hi)]
    exact ⟨l, i, hl, hi, rfl⟩

/-! ## Assignments -/

theorem cell_assign (hi : i ∈ Λ.locs) (w : VALUE) (j : Nat) :
    (setCdr h (cellPtr i) w).cell j = if i = j then ⟨(h.cell i).car, w⟩ else h.cell j := by
  rw [cell_setCdr hs.free (hs.isBinding hi), hs.ptrIx_loc hi, hs.car_loc hi]

theorem keeps_assign (hi : i ∈ Λ.locs) (w : VALUE) : Keeps h Λ 0 (setCdr h (cellPtr i) w) Λ := by
  refine ⟨rfl, List.prefix_refl _, fun _ hj => .inl hj, fun j hj => ?_, fun j _ => ?_,
    (setCdr_fields (hs.isBinding hi) w).2.1⟩
  · rw [hs.cell_assign hi, if_neg]
    exact fun heq => hj.apart (heq ▸ hi)
  · rw [hs.cell_assign hi]
    split
    · next heq => rw [heq]
    · rfl

/-- **The value of a location** is overwritten. -/
theorem assign {l : Loc} (hl : Λ.locs[l]? = some i) (hw : Holds h Λ w v) :
    Sound (setCdr h (cellPtr i) w) Λ (m.assign l v) g := by
  have hi := List.mem_of_getElem? hl
  have hkeep := hs.keeps_assign hi w
  refine ⟨freeList_setCdr hs.free (hs.isBinding hi) w, hs.nodup, fun j hj => ?_, ?_, fun j hj => ?_,
    fun k j u hj hu => ?_, hkeep.isEnv hs.globals⟩
  · rw [hkeep.size]
    exact hs.locs j hj
  · rw [hs.length]
    exact (List.length_set ..).symm
  · rw [hkeep.names j hj]
    exact hs.names j hj
  · rw [hs.cell_assign hi]
    have hval : (m.vals.set l (some v))[k]? = some (some u) := hu
    rw [List.getElem?_set] at hval
    by_cases hk : l = k
    · -- the location itself
      obtain rfl : i = j := Option.some.inj (hl.symm.trans (hk ▸ hj))
      rw [if_pos hk] at hval
      split at hval
      · obtain rfl : v = u := by simpa using hval
        rw [if_pos rfl]
        exact hkeep.holds hw
      · cases hval
    · rw [if_neg hk] at hval
      rw [if_neg]
      · exact hkeep.holds (hs.vals k j u hj hval)
      · -- another location has another cell
        intro hij
        subst hij
        obtain ⟨hk₁, hk₂⟩ := List.getElem?_eq_some_iff.mp hl
        obtain ⟨hk₃, hk₄⟩ := List.getElem?_eq_some_iff.mp hj
        exact hk ((List.Nodup.getElem_inj_iff hs.nodup).mp (hk₂.trans hk₄.symm))

end Sound

/-! ## New cells -/

/-- A free cell that was taken is apart from what is in use. -/
theorem data_of_conses (hs : Sound h ⟨i :: l, ls⟩ m g) (hc : Conses h i l a d h') :
    Layout.Data ⟨l, ls⟩ h' i := by
  refine ⟨?_, hc.fresh, fun hloc => (hs.locs i hloc).2 List.mem_cons_self⟩
  rw [hc.size]
  exact hc.lt

/-- **A cell becomes data.** -/
theorem Sound.take (hs : Sound h ⟨i :: l, ls⟩ m g) (hc : Conses h i l a d h') :
    Sound h' ⟨l, ls⟩ m g ∧ Keeps h ⟨i :: l, ls⟩ 1 h' ⟨l, ls⟩ := by
  have hloc : ∀ j ∈ ls, h'.cell j = h.cell j := fun j hj => hc.kept j (hs.locs j hj).2
  have hkeep : Keeps h ⟨i :: l, ls⟩ 1 h' ⟨l, ls⟩ := by
    refine ⟨rfl, List.prefix_refl _, fun _ hj => .inl hj, fun j hj => hc.kept j hj.used,
      fun j hj => ?_, hc.size⟩
    rw [hloc j hj]
  refine ⟨⟨hc.free, hs.nodup, fun j hj => ?_, hs.length, fun j hj => ?_, fun k j v hj hv => ?_,
    hkeep.isEnv hs.globals⟩, hkeep⟩
  · rw [hc.size]
    exact ⟨(hs.locs j hj).1, fun hjl => (hs.locs j hj).2 (List.mem_cons_of_mem _ hjl)⟩
  · rw [hloc j hj]
    exact hs.names j hj
  · rw [hloc j (List.mem_of_getElem? hj)]
    exact hkeep.holds (hs.vals k j v hj hv)

/-- **A cell becomes that of a new location**, with or without a value. -/
theorem Sound.bind {o : Option Val} (hs : Sound h ⟨i :: l, ls⟩ m g) (hc : Conses h i l x w h')
    (hx : typeOf x = valTypeSymbol) (ho : ∀ v, o = some v → Holds h ⟨i :: l, ls⟩ w v) :
    Sound h' ⟨l, ls ++ [i]⟩ (m.allocate [o]) g ∧ Keeps h ⟨i :: l, ls⟩ 1 h' ⟨l, ls ++ [i]⟩ := by
  have hfresh : i ∉ ls := fun hi => (hs.locs i hi).2 List.mem_cons_self
  have hloc : ∀ j ∈ ls, h'.cell j = h.cell j := fun j hj => hc.kept j (hs.locs j hj).2
  have hcell : h'.cell i = ⟨x, w⟩ := by
    have hp := isPtr_cellPtr i
    have hcar := hc.car
    have hcdr := hc.cdr
    rw [car_of_isPtr hp, hc.ix] at hcar
    rw [cdr_of_isPtr hp, hc.ix, if_pos hc.type] at hcdr
    rw [← hcar, ← hcdr]
  have hkeep : Keeps h ⟨i :: l, ls⟩ 1 h' ⟨l, ls ++ [i]⟩ := by
    refine ⟨rfl, List.prefix_append _ _, fun j hj => ?_, fun j hj => hc.kept j hj.used,
      fun j hj => ?_, hc.size⟩
    · rcases List.mem_append.mp hj with hj | hj
      · exact .inl hj
      · rw [List.mem_singleton.mp hj]
        exact .inr List.mem_cons_self
    · rw [hloc j hj]
  refine ⟨⟨hc.free, ?_, fun j hj => ?_, ?_, fun j hj => ?_, fun k j v hj hv => ?_,
    hkeep.isEnv hs.globals⟩, hkeep⟩
  · rw [List.nodup_append_comm]
    exact List.nodup_cons.mpr ⟨hfresh, hs.nodup⟩
  · rw [hc.size]
    rcases List.mem_append.mp hj with hj | hj
    · exact ⟨(hs.locs j hj).1, fun hjl => (hs.locs j hj).2 (List.mem_cons_of_mem _ hjl)⟩
    · rw [List.mem_singleton.mp hj]
      exact ⟨hc.lt, hc.fresh⟩
  · have hlen : ls.length = m.vals.length := hs.length
    show (ls ++ [i]).length = (m.vals ++ [o]).length
    rw [List.length_append, List.length_append, hlen]
    rfl
  · rcases List.mem_append.mp hj with hj | hj
    · rw [hloc j hj]
      exact hs.names j hj
    · rw [List.mem_singleton.mp hj, hcell]
      exact hx
  · have hlen : ls.length = m.vals.length := hs.length
    have hval : (m.vals ++ [o])[k]? = some (some v) := hv
    rcases Nat.lt_or_ge k ls.length with hk | hk
    · rw [List.getElem?_append_left (hlen ▸ hk)] at hval
      have hj' : ls[k]? = some j := by rwa [List.getElem?_append_left hk] at hj
      rw [hloc j (List.mem_of_getElem? hj')]
      exact hkeep.holds (hs.vals k j v hj' hval)
    · -- the new location
      rw [List.getElem?_append_right (hlen ▸ hk), List.getElem?_singleton] at hval
      rw [List.getElem?_append_right hk, List.getElem?_singleton] at hj
      split at hval
      · next hzero =>
        rw [if_pos (hlen ▸ hzero)] at hj
        obtain rfl := Option.some.inj hj
        rw [hcell]
        exact hkeep.holds (ho v (Option.some.inj hval))
      · cases hval

end

end Semantics

end LispBM
