import Mathlib.Algebra.Order.BigOperators.Group.Finset
import Mathlib.Algebra.GroupWithZero.Nat
import Mathlib.Order.Interval.Finset.Nat

/-!
# Layouts of disjoint blocks

A *layout* of `n` words is a finite set of pairwise disjoint, non-empty blocks of
consecutive words below `n`. It is what a storage allocator maintains, with the
representation (bitmap, headers, free list) left out.

A left-to-right scan over the words is either at a block boundary or *midway* through
exactly one block; `not_midway_succ` and its companions say how that status moves from a
word to the next.
-/

namespace BlockLayout

/-- A block of `len` consecutive words from `start` on. -/
structure Block where
  start : Nat
  len : Nat
  pos : 0 < len
deriving DecidableEq

/-- The last word of a block. -/
def Block.last (b : Block) : Nat := b.start + b.len - 1

def Block.Covers (b : Block) (i : Nat) : Prop := b.start ≤ i ∧ i ≤ b.last

/-- Two blocks that share no word. -/
def Block.Apart (b c : Block) : Prop := b.last < c.start ∨ c.last < b.start

theorem Block.start_le_last (b : Block) : b.start ≤ b.last := by
  have := b.pos
  unfold Block.last
  omega

theorem Block.Apart.symm {b c : Block} (h : b.Apart c) : c.Apart b := Or.symm h

/-- Pairwise disjoint blocks inside the first `n` words. -/
structure Layout (n : Nat) where
  blocks : Finset Block
  apart : ∀ b ∈ blocks, ∀ c ∈ blocks, b ≠ c → b.Apart c
  inside : ∀ b ∈ blocks, b.last < n

namespace Layout

variable {n : Nat}

/-- The layout with no block. -/
def empty (n : Nat) : Layout n where
  blocks := ∅
  apart := by simp
  inside := by simp

/-- Add a block that overlaps no block of the layout. -/
def insert (L : Layout n) (b : Block) (hapart : ∀ c ∈ L.blocks, b.Apart c) (hin : b.last < n) :
    Layout n where
  blocks := Insert.insert b L.blocks
  apart := by
    intro c hc d hd hne
    rcases Finset.mem_insert.mp hc with hcb | hcL
    · rcases Finset.mem_insert.mp hd with hdb | hdL
      · exact absurd (hcb.trans hdb.symm) hne
      · exact hcb ▸ hapart d hdL
    · rcases Finset.mem_insert.mp hd with hdb | hdL
      · exact hdb ▸ (hapart c hcL).symm
      · exact L.apart c hcL d hdL hne
  inside := by
    intro c hc
    rcases Finset.mem_insert.mp hc with rfl | hc
    · exact hin
    · exact L.inside c hc

/-- Remove a block. -/
def erase (L : Layout n) (b : Block) : Layout n where
  blocks := L.blocks.erase b
  apart := fun c hc d hd => L.apart c (Finset.mem_of_mem_erase hc) d (Finset.mem_of_mem_erase hd)
  inside := fun c hc => L.inside c (Finset.mem_of_mem_erase hc)

@[simp] theorem mem_empty_blocks (b : Block) : b ∉ (empty n).blocks := by
  simp [empty]

@[simp] theorem mem_insert_blocks {L : Layout n} {b c : Block} {hapart hin} :
    c ∈ (L.insert b hapart hin).blocks ↔ c = b ∨ c ∈ L.blocks := by
  simp [insert]

@[simp] theorem mem_erase_blocks {L : Layout n} {b c : Block} :
    c ∈ (L.erase b).blocks ↔ c ≠ b ∧ c ∈ L.blocks := by
  simp [erase]

/-- Word `i` belongs to some block. -/
def Covered (L : Layout n) (i : Nat) : Prop := ∃ b ∈ L.blocks, b.Covers i

/-- Word `i` continues a block that started before it. -/
def Midway (L : Layout n) (i : Nat) : Prop := ∃ b ∈ L.blocks, b.start < i ∧ i ≤ b.last

/-- Disjoint blocks: a word determines its block. -/
theorem eq_of_covers {L : Layout n} {b c : Block} (hb : b ∈ L.blocks) (hc : c ∈ L.blocks)
    {i : Nat} (hbi : b.Covers i) (hci : c.Covers i) : b = c := by
  by_contra hne
  have h := L.apart b hb c hc hne
  obtain ⟨hb1, hb2⟩ := hbi
  obtain ⟨hc1, hc2⟩ := hci
  rcases h with h | h <;> omega

theorem eq_of_start_eq {L : Layout n} {b c : Block} (hb : b ∈ L.blocks) (hc : c ∈ L.blocks)
    (h : b.start = c.start) : b = c :=
  eq_of_covers hb hc (i := b.start) ⟨le_refl _, b.start_le_last⟩
    ⟨by omega, by have := c.start_le_last; omega⟩

/-- The number of words in blocks. -/
def size (L : Layout n) : Nat := ∑ b ∈ L.blocks, b.len

instance (L : Layout n) (i : Nat) : Decidable (L.Covered i) :=
  inferInstanceAs (Decidable (∃ b ∈ L.blocks, b.start ≤ i ∧ i ≤ b.last))

/-- The number of words below `i` that are in no block. -/
def freeBelow (L : Layout n) (i : Nat) : Nat := ((Finset.range i).filter fun j => ¬L.Covered j).card

theorem freeBelow_succ_of_covered {L : Layout n} {i : Nat} (h : L.Covered i) :
    L.freeBelow (i + 1) = L.freeBelow i := by
  rw [freeBelow, Finset.range_add_one, Finset.filter_insert, if_neg (not_not_intro h), freeBelow]

theorem freeBelow_succ_of_not_covered {L : Layout n} {i : Nat} (h : ¬L.Covered i) :
    L.freeBelow (i + 1) = L.freeBelow i + 1 := by
  rw [freeBelow, Finset.range_add_one, Finset.filter_insert, if_pos h, Finset.card_insert_of_notMem
    (by simp), freeBelow]

/-- Blocks share no word, so the words in blocks can be counted block by block. -/
theorem card_covered (L : Layout n) : ((Finset.range n).filter L.Covered).card = L.size := by
  have hunion : (Finset.range n).filter L.Covered
      = L.blocks.biUnion fun b => Finset.Ico b.start (b.start + b.len) := by
    ext i
    rw [Finset.mem_filter, Finset.mem_biUnion, Finset.mem_range]
    constructor
    · intro h
      obtain ⟨b, hb, hlo, hhi⟩ := h.2
      have hpos := b.pos
      rw [Block.last] at hhi
      exact ⟨b, hb, Finset.mem_Ico.mpr ⟨hlo, by omega⟩⟩
    · intro h
      obtain ⟨b, hb, hi⟩ := h
      have hin := L.inside b hb
      rw [Finset.mem_Ico] at hi
      rw [Block.last] at hin
      exact ⟨by omega, b, hb, hi.1, by rw [Block.last]; omega⟩
  have hdisjoint : ∀ b ∈ L.blocks, ∀ c ∈ L.blocks, b ≠ c →
      Disjoint (Finset.Ico b.start (b.start + b.len)) (Finset.Ico c.start (c.start + c.len)) := by
    intro b hb c hc hne
    rw [Finset.disjoint_left]
    intro i hi hj
    have hpos := b.pos
    have hpos' := c.pos
    rw [Finset.mem_Ico] at hi hj
    have hapart := L.apart b hb c hc hne
    rw [Block.Apart, Block.last, Block.last] at hapart
    omega
  rw [hunion, Finset.card_biUnion hdisjoint, size]
  apply Finset.sum_congr rfl
  intro b _
  rw [Nat.card_Ico]
  omega

/-- Every word is in a block or free. -/
theorem freeBelow_add_size (L : Layout n) : L.freeBelow n + L.size = n := by
  rw [← card_covered, freeBelow, Nat.add_comm, Finset.card_filter_add_card_filter_not,
    Finset.card_range]

/-- Different blocks together have no more words than there are. -/
theorem sum_len_le (L : Layout n) {bs : List Block} (hnodup : bs.Nodup)
    (hbs : ∀ b ∈ bs, b ∈ L.blocks) : (bs.map Block.len).sum ≤ n := by
  have hsub : bs.toFinset ⊆ L.blocks := fun b hb => hbs b (List.mem_toFinset.mp hb)
  calc (bs.map Block.len).sum = ∑ b ∈ bs.toFinset, b.len := (List.sum_toFinset _ hnodup).symm
    _ ≤ L.size := Finset.sum_le_sum_of_subset hsub
    _ ≤ n := by have := L.freeBelow_add_size; omega

theorem not_mem_of_apart {L : Layout n} {b : Block} (hapart : ∀ c ∈ L.blocks, b.Apart c) :
    b ∉ L.blocks := by
  intro hb
  have hle := b.start_le_last
  rcases hapart b hb with h | h <;> omega

theorem size_insert {L : Layout n} {b : Block} {hapart hin} :
    (L.insert b hapart hin).size = b.len + L.size :=
  Finset.sum_insert (not_mem_of_apart hapart)

theorem size_erase {L : Layout n} {b : Block} (hb : b ∈ L.blocks) :
    b.len + (L.erase b).size = L.size :=
  Finset.add_sum_erase _ _ hb

/-- A run of uncovered words is apart from every block. -/
theorem apart_of_uncovered {L : Layout n} {b : Block}
    (hfree : ∀ i, b.start ≤ i → i ≤ b.last → ¬L.Covered i) : ∀ c ∈ L.blocks, b.Apart c := by
  intro c hc
  by_contra hna
  have hb := b.start_le_last
  have hcl := c.start_le_last
  have hov : ¬(b.last < c.start) ∧ ¬(c.last < b.start) := not_or.mp hna
  -- the later of the two starts lies in both blocks
  rcases Nat.le_total b.start c.start with hle | hle
  · exact hfree c.start hle (by omega) ⟨c, hc, le_refl _, hcl⟩
  · exact hfree b.start (le_refl _) hb ⟨c, hc, hle, by omega⟩

theorem not_midway_zero (L : Layout n) : ¬L.Midway 0 := by
  rintro ⟨b, _, h, _⟩
  omega

/-- At a boundary word where no block starts, the word is uncovered. -/
theorem not_covered_of_not_midway {L : Layout n} {i : Nat} (hmid : ¬L.Midway i)
    (hstart : ∀ b ∈ L.blocks, b.start ≠ i) : ¬L.Covered i := by
  rintro ⟨b, hb, hlo, hhi⟩
  exact hmid ⟨b, hb, lt_of_le_of_ne hlo (hstart b hb), hhi⟩

/-- A boundary word where no block starts is followed by a boundary word. -/
theorem not_midway_succ {L : Layout n} {i : Nat} (hmid : ¬L.Midway i)
    (hstart : ∀ b ∈ L.blocks, b.start ≠ i) : ¬L.Midway (i + 1) := by
  rintro ⟨b, hb, hlo, hhi⟩
  have hne := hstart b hb
  exact hmid ⟨b, hb, by omega, by omega⟩

/-- A word that ends a block is followed by a boundary word. -/
theorem not_midway_succ_of_last {L : Layout n} {b : Block} (hb : b ∈ L.blocks) :
    ¬L.Midway (b.last + 1) := by
  rintro ⟨c, hc, hlo, hhi⟩
  have hbc : b = c := eq_of_covers hb hc (i := b.last) ⟨b.start_le_last, le_refl _⟩
    ⟨by omega, by omega⟩
  subst hbc
  omega

/-- A word midway through a block that no block ends at is followed by a midway word. -/
theorem midway_succ {L : Layout n} {i : Nat} (hmid : L.Midway i)
    (hlast : ∀ b ∈ L.blocks, b.last ≠ i) : L.Midway (i + 1) := by
  obtain ⟨b, hb, hlo, hhi⟩ := hmid
  have hne := hlast b hb
  exact ⟨b, hb, by omega, by omega⟩

end Layout

end BlockLayout
