import Mathlib.Data.List.Infix
import Mathlib.Data.List.Pairwise

/-!
# Prefix codes and longest matches

`longest p len l` is the loop that goes through a table and remembers the longest entry that
matches, the first one of that length. In a table of code words of which none is the beginning of
another, at most one entry matches the bits at hand, so this finds the one that was written.
-/

namespace PrefixCode

variable {α : Type*}

/-- The loop. `best` is the longest match so far and its length. -/
def longestLoop (p : α → Bool) (len : α → Nat) :
    List α → Nat → Option Nat × Nat → Option Nat × Nat
  | [], _, best => best
  | a :: l, i, best =>
      longestLoop p len l (i + 1) (if p a && decide (best.2 < len a) then (some i, len a) else best)

def longest (p : α → Bool) (len : α → Nat) (l : List α) : Option Nat :=
  (longestLoop p len l 0 (none, 0)).1

variable {p : α → Bool} {len : α → Nat} {l : List α} {i j : Nat} {best : Option Nat × Nat}

theorem longestLoop_eq (h : (longestLoop p len l i best).1 = some j) :
    best.1 = some j ∨ ∃ a k, l[k]? = some a ∧ j = i + k ∧ p a = true := by
  induction l generalizing i best with
  | nil => exact .inl h
  | cons a l ih =>
    rcases ih h with hbest | ⟨b, k, hk, hj, hb⟩
    · split at hbest
      · next hc =>
        simp only [Bool.and_eq_true] at hc
        exact .inr ⟨a, 0, rfl, (Option.some.inj hbest).symm, hc.1⟩
      · exact .inl hbest
    · exact .inr ⟨b, k + 1, hk, by omega, hb⟩

/-- What is found matches. -/
theorem longest_matches (h : longest p len l = some j) : ∃ a, l[j]? = some a ∧ p a = true := by
  rcases longestLoop_eq h with hbest | ⟨a, k, hk, hj, ha⟩
  · cases hbest
  · rw [Nat.zero_add] at hj
    exact ⟨a, hj ▸ hk, ha⟩

theorem longestLoop_isSome (hbest : best.2 ≠ 0 → best.1.isSome)
    (h : best.1.isSome ∨ ∃ a ∈ l, p a = true ∧ 0 < len a) :
    (longestLoop p len l i best).1.isSome := by
  induction l generalizing i best with
  | nil =>
    rcases h with h | ⟨a, ha, -⟩
    · exact h
    · cases ha
  | cons a l ih =>
    apply ih
    · split
      · exact fun _ => rfl
      · exact hbest
    · rcases h with h | ⟨b, hb, hpb, hlen⟩
      · left
        split
        · rfl
        · exact h
      · rcases List.mem_cons.mp hb with rfl | hb
        · left
          split
          · rfl
          · next hc =>
            -- a match that was passed over was not the first one
            simp only [hpb, Bool.true_and, decide_eq_true_eq] at hc
            exact hbest (by omega)
        · exact .inr ⟨b, hb, hpb, hlen⟩

/-- Something is found if an entry matches. -/
theorem longest_isSome {a : α} (ha : a ∈ l) (hp : p a = true) (hlen : 0 < len a) :
    (longest p len l).isSome :=
  longestLoop_isSome (by simp) (.inr ⟨a, ha, hp, hlen⟩)

/-! ## Codes -/

variable {β : Type*}

/-- No code word is the beginning of another one. -/
def PrefixFree (codes : List (List β)) : Prop :=
  codes.Pairwise fun c d => ¬ c <+: d ∧ ¬ d <+: c

instance [DecidableEq β] (codes : List (List β)) : Decidable (PrefixFree codes) :=
  inferInstanceAs (Decidable (codes.Pairwise _))

/-- Two code words at the beginning of the same bits are the same one. -/
theorem PrefixFree.index_eq {codes : List (List β)} {c d bits : List β} (h : PrefixFree codes)
    (hi : codes[i]? = some c) (hj : codes[j]? = some d) (hc : c <+: bits) (hd : d <+: bits) :
    i = j := by
  have hno : ∀ {i j : Nat} {c d : List β}, codes[i]? = some c → codes[j]? = some d →
      c <+: bits → d <+: bits →
      ¬ i < j := by
    intro i j c d hi hj hc hd hlt
    obtain ⟨hilt, rfl⟩ := List.getElem?_eq_some_iff.mp hi
    obtain ⟨hjlt, rfl⟩ := List.getElem?_eq_some_iff.mp hj
    have hfree := List.pairwise_iff_getElem.mp h i j hilt hjlt hlt
    rcases List.prefix_or_prefix_of_prefix hc hd with hcd | hdc
    · exact hfree.1 hcd
    · exact hfree.2 hdc
  have h₁ := hno hi hj hc hd
  have h₂ := hno hj hi hd hc
  omega

end PrefixCode
