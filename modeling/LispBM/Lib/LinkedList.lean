import Mathlib.Data.List.Basic
import Mathlib.Data.List.Nodup
import Mathlib.Logic.Function.Basic

/-!
# Intrusive doubly linked lists

The nodes carry the two links of the list they are in. `Spells links before l after` says that
the links of the nodes of `l` go through `l` in order, that the first node points back to
`before` and that the last one points on to `after`. A whole list is spelled from `none` to
`none`; its first and last nodes are `l.head?` and `l.getLast?`, which is what the owner of the
list keeps.

The rules for adding a node at either end and for taking one out anywhere are stated for the
links after the assignments that programs make.
-/

namespace LinkedList

/-- The links of a node. -/
structure Links (α : Type*) where
  prev : Option α
  next : Option α

variable {α : Type*}

def Spells (links : α → Links α) : Option α → List α → Option α → Prop
  | _, [], _ => True
  | before, a :: l, after =>
      (links a).prev = before ∧ (links a).next = l.head?.or after ∧ Spells links (some a) l after

variable {links links' : α → Links α} {before after : Option α} {l l₁ l₂ : List α} {a b : α}

theorem spells_congr (h : ∀ a ∈ l, links' a = links a) :
    Spells links' before l after ↔ Spells links before l after := by
  induction l generalizing before with
  | nil => exact Iff.rfl
  | cons a l ih =>
    rw [Spells, Spells, h a (by simp), ih fun b hb => h b (by simp [hb])]

theorem spells_append :
    Spells links before (l₁ ++ l₂) after
      ↔ Spells links before l₁ (l₂.head?.or after)
        ∧ Spells links (l₁.getLast?.or before) l₂ after := by
  induction l₁ generalizing before with
  | nil => simp [Spells]
  | cons a l₁ ih =>
    simp only [List.cons_append, Spells, ih, List.head?_append, Option.or_assoc]
    have hlast : (a :: l₁).getLast?.or before = l₁.getLast?.or (some a) := by
      cases l₁ with
      | nil => rfl
      | cons b l₁ => simp [List.getLast?_cons]
    rw [hlast]
    tauto

/-- The node after `a`. -/
theorem next_of_spells (h : Spells links before (l₁ ++ a :: l₂) after) :
    (links a).next = l₂.head?.or after := (spells_append.mp h).2.2.1

/-- The node before `a`. -/
theorem prev_of_spells (h : Spells links before (l₁ ++ a :: l₂) after) :
    (links a).prev = l₁.getLast?.or before := (spells_append.mp h).2.1

/-! ## Changing the ends of a segment -/

/-- The link of the last node set to another node. -/
theorem spells_setAfter {after' : Option α} (h : Spells links before l after) (hnd : l.Nodup)
    (hlast : ∀ b, l.getLast? = some b → links' b = { links b with next := after' })
    (hrest : ∀ b ∈ l, l.getLast? ≠ some b → links' b = links b) :
    Spells links' before l after' := by
  rcases List.eq_nil_or_concat' l with rfl | ⟨l, b, rfl⟩
  · exact trivial
  · have hb := hlast b (by simp)
    obtain ⟨hnd', hbl⟩ : l.Nodup ∧ b ∉ l := by
      have := List.nodup_append.mp hnd
      exact ⟨this.1, fun hmem => this.2.2 b hmem b (by simp) rfl⟩
    obtain ⟨hinit, hend⟩ := spells_append.mp h
    refine spells_append.mpr ⟨?_, ?_, ?_, trivial⟩
    · refine (spells_congr ?_).mpr hinit
      intro c hc
      apply hrest c (by simp [hc])
      rintro heq
      have : b = c := by simpa using heq
      exact hbl (this ▸ hc)
    · rw [hb]
      exact hend.1
    · rw [hb]
      simp

/-- The link of the first node set to another node. -/
theorem spells_setBefore {before' : Option α} (h : Spells links before l after) (hnd : l.Nodup)
    (hfirst : ∀ b, l.head? = some b → links' b = { links b with prev := before' })
    (hrest : ∀ b ∈ l, l.head? ≠ some b → links' b = links b) :
    Spells links' before' l after := by
  cases l with
  | nil => exact trivial
  | cons b l =>
    have hb := hfirst b rfl
    refine ⟨by rw [hb], by rw [hb]; exact h.2.1, (spells_congr ?_).mpr h.2.2⟩
    intro c hc
    apply hrest c (by simp [hc])
    rintro heq
    have : b = c := by simpa using heq
    exact (List.nodup_cons.mp hnd).1 (this ▸ hc)

/-! ## Adding and removing nodes -/

theorem spells_concat (h : Spells links none l none) (hnd : l.Nodup)
    (ha : links' a = ⟨l.getLast?, none⟩)
    (hlast : ∀ b, l.getLast? = some b → links' b = { links b with next := some a })
    (hrest : ∀ b ∈ l, l.getLast? ≠ some b → links' b = links b) :
    Spells links' none (l ++ [a]) none := by
  refine spells_append.mpr ⟨spells_setAfter h hnd hlast hrest, ?_, ?_, trivial⟩
  · rw [ha]
    simp
  · rw [ha]
    rfl

theorem spells_cons (h : Spells links none l none) (hnd : l.Nodup)
    (ha : links' a = ⟨none, l.head?⟩)
    (hfirst : ∀ b, l.head? = some b → links' b = { links b with prev := some a })
    (hrest : ∀ b ∈ l, l.head? ≠ some b → links' b = links b) :
    Spells links' none (a :: l) none := by
  refine ⟨by rw [ha], by rw [ha]; simp, spells_setBefore h hnd hfirst hrest⟩

/-- The node `a` is taken out: its neighbours are linked with each other. -/
theorem spells_erase (h : Spells links none (l₁ ++ a :: l₂) none) (hnd : (l₁ ++ a :: l₂).Nodup)
    (hprev : ∀ b, l₁.getLast? = some b → links' b = { links b with next := l₂.head? })
    (hnext : ∀ b, l₂.head? = some b → links' b = { links b with prev := l₁.getLast? })
    (hrest : ∀ b ∈ l₁ ++ l₂, l₁.getLast? ≠ some b → l₂.head? ≠ some b → links' b = links b) :
    Spells links' none (l₁ ++ l₂) none := by
  obtain ⟨h₁, h₂⟩ := spells_append.mp h
  obtain ⟨hnd₁, hnd₂, hdisj⟩ := List.nodup_append.mp hnd
  have hnd₂' := (List.nodup_cons.mp hnd₂).2
  -- a node of one part is not a node of the other
  have hne₁ : ∀ b ∈ l₁, l₂.head? ≠ some b := fun b hb heq =>
    hdisj b hb b (by simp [List.mem_of_mem_head? heq]) rfl
  have hne₂ : ∀ b ∈ l₂, l₁.getLast? ≠ some b := fun b hb heq =>
    hdisj b (List.mem_of_getLast? heq) b (by simp [hb]) rfl
  refine spells_append.mpr ⟨spells_setAfter h₁ hnd₁ ?_ ?_, spells_setBefore h₂.2.2 hnd₂' ?_ ?_⟩
  · intro b hb
    rw [hprev b hb, Option.or_none]
  · intro b hb hlast
    exact hrest b (by simp [hb]) hlast (hne₁ b hb)
  · intro b hb
    rw [hnext b hb, Option.or_none]
  · intro b hb hfirst
    exact hrest b (by simp [hb]) (hne₂ b hb) hfirst

end LinkedList
