import LispBM.Heap.Builders

/-!
# LispBM — the cells of a structure

What a program sees of a list, a tree or a piece of code are the cells that `car` and `cdr` come to
from its value. As long as these are left alone and not free, the structure is what it was.

* `Under` — the cells under a value; `Under.congr` — they are the same after a change elsewhere;
* `Intact`, `Occupied` — a change that leaves structures alone, and structures without a free cell;
* `ListTo.under` — what is under a list.
-/

namespace LispBM

namespace Structures

/-- The cell `i` is under `v`: `car` and `cdr` come to it. -/
inductive Under (h : HeapState) : VALUE → Nat → Prop where
  | here {v : VALUE} (hty : typeOf v = ptrTypeCons) : Under h v (ptrIx v)
  | car {v : VALUE} {i : Nat} (hty : typeOf v = ptrTypeCons) (hi : Under h (car h v) i) :
      Under h v i
  | cdr {v : VALUE} {i : Nat} (hty : typeOf v = ptrTypeCons) (hi : Under h (cdr h v) i) :
      Under h v i

/-- The structures of the words `ws` are in `h'` what they are in `h`. -/
def Intact (ws : List VALUE) (h h' : HeapState) : Prop :=
  ∀ w ∈ ws, ∀ i, Under h w i → h'.cell i = h.cell i

/-- `v` is the list of the words `ws`. -/
def IsList (h : HeapState) (v : VALUE) (ws : List VALUE) : Prop := ∃ is, ListOf h v ws is

/-- None of the cells under `ws` is one of the free cells `l`. -/
def Occupied (h : HeapState) (l : List Nat) (ws : List VALUE) : Prop :=
  ∀ w ∈ ws, ∀ i, Under h w i → i < h.heapSize ∧ i ∉ l

section

variable {h h' h'' : HeapState} {v u w b : VALUE} {ws us : List VALUE}
  {is l l' : List Nat} {i n : Nat}

theorem car_congr (hty : typeOf v = ptrTypeCons) (hcell : h'.cell (ptrIx v) = h.cell (ptrIx v)) :
    LispBM.car h' v = LispBM.car h v := by
  have hp := isPtr_of_typeOf_cons hty
  rw [car_of_isPtr hp, car_of_isPtr hp, hcell]

theorem cdr_congr (hty : typeOf v = ptrTypeCons) (hcell : h'.cell (ptrIx v) = h.cell (ptrIx v)) :
    LispBM.cdr h' v = LispBM.cdr h v := by
  have hp := isPtr_of_typeOf_cons hty
  rw [cdr_of_isPtr hp, cdr_of_isPtr hp, hcell]

/-! ## Changes elsewhere -/

/-- A change elsewhere brings no cell under `v`. -/
theorem Under.of_congr (hi : Under h' v i)
    (hcell : ∀ j, Under h v j → h'.cell j = h.cell j) : Under h v i := by
  induction hi with
  | here hty => exact .here hty
  | car hty _ ih =>
    have hcar := car_congr hty (hcell _ (.here hty))
    rw [hcar] at ih
    exact .car hty (ih fun j hj => hcell j (.car hty hj))
  | cdr hty _ ih =>
    have hcdr := cdr_congr hty (hcell _ (.here hty))
    rw [hcdr] at ih
    exact .cdr hty (ih fun j hj => hcell j (.cdr hty hj))

/-- A change elsewhere takes none away. -/
theorem Under.congr (hi : Under h v i)
    (hcell : ∀ j, Under h v j → h'.cell j = h.cell j) : Under h' v i := by
  induction hi with
  | here hty => exact .here hty
  | @car v i hty _ ih =>
    apply Under.car hty
    rw [car_congr hty (hcell _ (.here hty))]
    exact ih fun j hj => hcell j (.car hty hj)
  | @cdr v i hty _ ih =>
    apply Under.cdr hty
    rw [cdr_congr hty (hcell _ (.here hty))]
    exact ih fun j hj => hcell j (.cdr hty hj)

theorem Intact.refl (ws : List VALUE) (h : HeapState) : Intact ws h h := fun _ _ _ _ => rfl

theorem Intact.trans (h₁ : Intact ws h h') (h₂ : Intact ws h' h'') : Intact ws h h'' := by
  intro w hw i hi
  rw [h₂ w hw i (hi.congr (h₁ w hw)), h₁ w hw i hi]

theorem Intact.subset (hkeep : Intact ws h h') (hus : us ⊆ ws) : Intact us h h' :=
  fun w hw => hkeep w (hus hw)

/-- Allocation leaves alone what has no free cell. -/
theorem Occupied.intact (huse : Occupied h l ws) (hkept : ∀ j, j ∉ l → h'.cell j = h.cell j) :
    Intact ws h h' :=
  fun w hw i hi => hkept i (huse w hw i hi).2

theorem Occupied.congr (huse : Occupied h l ws) (hkeep : Intact ws h h')
    (hsize : h'.heapSize = h.heapSize)
    (hl : l' ⊆ l) : Occupied h' l' ws := by
  intro w hw i hi
  obtain ⟨hlt, hfree⟩ := huse w hw i (hi.of_congr (hkeep w hw))
  rw [hsize]
  exact ⟨hlt, fun hmem => hfree (hl hmem)⟩

theorem Occupied.subset (huse : Occupied h l ws) (hus : us ⊆ ws) : Occupied h l us :=
  fun w hw => huse w (hus hw)

theorem Occupied.append (h₁ : Occupied h l ws) (h₂ : Occupied h l us) :
    Occupied h l (ws ++ us) := by
  intro w hw
  rcases List.mem_append.mp hw with hw | hw
  · exact h₁ w hw
  · exact h₂ w hw

/-! ## Lists -/

/-- What is under a list: its own cells, and what is under its words and its end. -/
theorem under_of_listTo (hlist : ListTo h b v ws is) (hi : Under h v i) :
    i ∈ is ∨ (∃ w ∈ ws, Under h w i) ∨ Under h b i := by
  induction hlist with
  | nil => exact .inr (.inr hi)
  | @cons v ws is hty _ ih =>
    cases hi with
    | here => exact .inl List.mem_cons_self
    | car _ hcar => exact .inr (.inl ⟨_, List.mem_cons_self, hcar⟩)
    | cdr _ hcdr =>
      rcases ih hcdr with hmem | ⟨w, hw, hi⟩ | hi
      · exact .inl (List.mem_cons_of_mem _ hmem)
      · exact .inr (.inl ⟨w, List.mem_cons_of_mem _ hw, hi⟩)
      · exact .inr (.inr hi)

theorem listTo_under_cell (hlist : ListTo h b v ws is) (hi : i ∈ is) : Under h v i := by
  induction hlist with
  | nil => exact absurd hi List.not_mem_nil
  | @cons v ws is hty _ ih =>
    rcases List.mem_cons.mp hi with rfl | hi
    · exact .here hty
    · exact .cdr hty (ih hi)

theorem listTo_under_word (hlist : ListTo h b v ws is) (hw : w ∈ ws) (hi : Under h w i) :
    Under h v i := by
  induction hlist with
  | nil => exact absurd hw List.not_mem_nil
  | @cons v ws is hty _ ih =>
    rcases List.mem_cons.mp hw with rfl | hw
    · exact .car hty hi
    · exact .cdr hty (ih hw)

theorem listTo_under_end (hlist : ListTo h b v ws is) (hi : Under h b i) : Under h v i := by
  induction hlist with
  | nil => exact hi
  | cons hty _ ih => exact .cdr hty ih

theorem not_under_nil : ¬Under h NIL i := by
  intro hi
  cases hi with
  | here hty => exact absurd hty (by decide)
  | car hty _ => exact absurd hty (by decide)
  | cdr hty _ => exact absurd hty (by decide)

/-- The words of a list in use are in use. -/
theorem Occupied.words (huse : Occupied h l [v]) (hlist : ListTo h b v ws is) : Occupied h l ws :=
  fun _ hw i hi => huse v List.mem_cons_self i (listTo_under_word hlist hw hi)

/-- A list in use has no free cell. -/
theorem Occupied.cells (huse : Occupied h l [v]) (hlist : ListTo h b v ws is) :
    ∀ i ∈ is, i < h.heapSize ∧ i ∉ l :=
  fun i hi => huse v List.mem_cons_self i (listTo_under_cell hlist hi)

/-- A list in cells that are not free, of words in use. -/
theorem occupied_of_listTo (hlist : ListTo h b v ws is) (his : ∀ i ∈ is, i < h.heapSize ∧ i ∉ l)
    (hws : Occupied h l ws) (hb : Occupied h l [b]) : Occupied h l [v] := by
  intro u hu i hi
  rw [List.mem_singleton.mp hu] at hi
  rcases under_of_listTo hlist hi with hmem | ⟨w, hw, hi⟩ | hi
  · exact his i hmem
  · exact hws w hw i hi
  · exact hb b List.mem_cons_self i hi

theorem occupied_nil : Occupied h l [NIL] :=
  fun _ hw _ hi => absurd (List.mem_singleton.mp hw ▸ hi) not_under_nil

/-- A word that is no pointer to a cons cell has no cell under it. -/
theorem occupied_atom (hty : typeOf v ≠ ptrTypeCons) : Occupied h l [v] := by
  intro w hw i hi
  rw [List.mem_singleton.mp hw] at hi
  cases hi with
  | here hty' => exact absurd hty' hty
  | car hty' _ => exact absurd hty' hty
  | cdr hty' _ => exact absurd hty' hty

theorem IsList.congr (hlist : IsList h v ws) (hcell : ∀ i, Under h v i → h'.cell i = h.cell i) :
    IsList h' v ws := by
  obtain ⟨is, hlist⟩ := hlist
  exact ⟨is, hlist.congr fun i hi => hcell i (listTo_under_cell hlist.listTo hi)⟩

theorem IsList.under {i : Nat} (hlist : IsList h v ws) (hw : w ∈ ws) (hi : Under h w i) :
    Under h v i := by
  obtain ⟨is, hlist⟩ := hlist
  exact listTo_under_word hlist.listTo hw hi

theorem IsList.head_eq (hlist : IsList h v (w :: ws)) : typeOf v = ptrTypeCons ∧ car h v = w := by
  obtain ⟨is, hlist⟩ := hlist
  exact ⟨hlist.uncons.1, hlist.uncons.2.1⟩

theorem IsList.second_eq (hlist : IsList h v (w :: u :: ws)) : car h (cdr h v) = u := by
  obtain ⟨is, hlist⟩ := hlist
  obtain ⟨-, -, js, -, hrest⟩ := hlist.uncons
  exact hrest.uncons.2.1

/-! ## Allocation -/

/-- `h'` is `h` after the first `n` of its free cells `l` were taken. -/
structure TakesFree (h : HeapState) (l : List Nat) (n : Nat) (h' : HeapState) : Prop where
  enough : n ≤ l.length
  free : FreeList h' (l.drop n)
  kept : ∀ j, j ∉ l → h'.cell j = h.cell j
  size : h'.heapSize = h.heapSize

/-- The words `ws` were put in front of `b`. -/
structure Makes (h : HeapState) (l : List Nat) (ws : List VALUE) (b v : VALUE) (h' : HeapState) :
    Prop where
  grows : TakesFree h l ws.length h'
  list : ∃ is, ListTo h' b v ws is
  pointer : ws ≠ [] → typeOf v = ptrTypeCons
  occupied : Occupied h' (l.drop ws.length) [v]

theorem TakesFree.refl (hl : FreeList h l) : TakesFree h l 0 h :=
  ⟨Nat.zero_le _, hl, fun _ _ => rfl, rfl⟩

theorem TakesFree.trans {m : Nat} {h'' : HeapState} (h₁ : TakesFree h l n h')
    (h₂ : TakesFree h' (l.drop n) m h'') : TakesFree h l (n + m) h'' := by
  have hn := h₁.enough
  have hm := h₂.enough
  rw [List.length_drop] at hm
  refine ⟨by omega, ?_, fun j hj => ?_, h₂.size.trans h₁.size⟩
  · rw [← List.drop_drop]
    exact h₂.free
  · rw [h₂.kept j fun hmem => hj (List.mem_of_mem_drop hmem), h₁.kept j hj]

theorem TakesFree.occupied (hg : TakesFree h l n h') (huse : Occupied h l ws) :
    Occupied h' (l.drop n) ws :=
  huse.congr (huse.intact hg.kept) hg.size (List.drop_subset _ _)

theorem Makes.isList (hm : Makes h l ws NIL v h') : IsList h' v ws := by
  obtain ⟨is, hlist⟩ := hm.list
  exact ⟨is, hlist.listOf⟩

theorem makes_consAll (hl : FreeList h l) (hn : ws.length ≤ l.length) (hws : Occupied h l ws)
    (hb : Occupied h l [b]) :
    Makes h l ws b (consAll ws.reverse b h).1 (consAll ws.reverse b h).2 := by
  obtain ⟨-, -, -, hkept⟩ := consAll_takes ws.reverse b h l hl
  rcases @consAll_builds b ws.reverse [] _ _ _ _ hl .nil (by simp) with ⟨hlt, -⟩ | ⟨-, hall⟩
  · rw [List.length_reverse] at hlt
    omega
  have hlist := hall.list
  have hfree := hall.free
  rw [List.length_reverse] at hlist hfree
  rw [List.reverse_reverse, List.append_nil, List.append_nil] at hlist
  have hg : TakesFree h l ws.length (consAll ws.reverse b h).2 := ⟨hn, hfree, hkept, hall.size⟩
  refine ⟨hg, ⟨_, hlist⟩, fun hne => hall.pointer (by simpa using hne),
    occupied_of_listTo hlist ?_ (hg.occupied hws) (hg.occupied hb)⟩
  intro i hi
  rw [List.mem_reverse] at hi
  rw [hall.size]
  refine ⟨hl.chain.lt i (List.mem_of_mem_take hi), fun hmem => ?_⟩
  -- the cells that were taken are not free any more
  have hnd := hl.nodup
  rw [← List.take_append_drop ws.length l, List.nodup_append] at hnd
  exact hnd.2.2 i hi i hmem rfl

end

end Structures

end LispBM
