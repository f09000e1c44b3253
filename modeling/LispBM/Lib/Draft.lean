import Mathlib.Data.List.Infix

/-!
# Texts that are known up to a point

A `Draft` is the beginning of a text, or all of it. Drafts are put one after the other (what follows
an incomplete one is not known), and one draft is below another if it is a beginning of it that is
not complete, or the same. A text that may have no end is given by drafts that grow with a depth.

* `append_mono`, `append_assoc` — putting drafts one after the other;
* `IsWhole.hasText`, `Begins.hasFirst` — growing drafts have one text, with one beginning of each
  length.
-/

/-- The beginning of a text, or the whole of it. -/
structure Draft (α : Type) where
  text : List α
  complete : Bool

namespace Draft

variable {α : Type} {a b c d : Draft α} {text pre : List α}

def whole (text : List α) : Draft α := ⟨text, true⟩

/-- Nothing is known. -/
def blank : Draft α := ⟨[], false⟩

def append (a b : Draft α) : Draft α := if a.complete then ⟨a.text ++ b.text, b.complete⟩ else a

/-- `b` says more than `a`, or the same. -/
def Le (a b : Draft α) : Prop := a = b ∨ a.complete = false ∧ a.text <+: b.text

theorem Le.refl (a : Draft α) : Le a a := .inl rfl

theorem Le.begins (h : Le a b) : a.text <+: b.text := by
  rcases h with rfl | ⟨-, h⟩
  · exact List.prefix_refl _
  · exact h

theorem Le.trans (h : Le a b) (h' : Le b c) : Le a c := by
  rcases h with rfl | ⟨ha, hab⟩
  · exact h'
  · exact .inr ⟨ha, hab.trans h'.begins⟩

theorem blank_le (a : Draft α) : Le blank a := .inr ⟨rfl, List.nil_prefix⟩

/-- A complete text is not continued. -/
theorem Le.eq_of_complete (h : Le a b) (ha : a.complete = true) : a = b := by
  rcases h with h | ⟨hc, -⟩
  · exact h
  · rw [ha] at hc
    exact absurd hc (by simp)

theorem append_mono (h : Le a b) (h' : Le c d) : Le (a.append c) (b.append d) := by
  unfold append
  rcases h with rfl | ⟨ha, hab⟩
  · cases a.complete with
    | false => exact .refl _
    | true =>
      rcases h' with rfl | ⟨hc, hcd⟩
      · exact .refl _
      · exact .inr ⟨hc, (List.prefix_append_right_inj _).mpr hcd⟩
  · rw [ha]
    refine .inr ⟨ha, ?_⟩
    cases b.complete with
    | false => exact hab
    | true => exact hab.trans (List.prefix_append _ _)

theorem append_assoc (a b c : Draft α) : (a.append b).append c = a.append (b.append c) := by
  unfold append
  cases ha : a.complete with
  | false => simp [ha]
  | true =>
    cases hb : b.complete with
    | false => simp [hb]
    | true => simp

theorem append_whole_nil (a : Draft α) : a.append (whole []) = a := by
  obtain ⟨text, complete⟩ := a
  cases complete with
  | false => rfl
  | true =>
    show (⟨text ++ [], true⟩ : Draft α) = _
    rw [List.append_nil]

/-! ## Growing drafts -/

variable {f : Nat → Draft α}

/-- Deeper drafts say more. -/
def Grows (f : Nat → Draft α) : Prop := ∀ n, Le (f n) (f (n + 1))

/-- The text of the drafts begins with `pre`. -/
def Begins (f : Nat → Draft α) (pre : List α) : Prop := ∃ n, pre <+: (f n).text

/-- The text of the drafts has an end, and is `text`. -/
def IsWhole (f : Nat → Draft α) (text : List α) : Prop := ∃ n, f n = whole text

theorem Grows.le (hf : Grows f) : ∀ {n m : Nat}, n ≤ m → Le (f n) (f m) := by
  intro n m h
  induction m, h using Nat.le_induction with
  | base => exact .refl _
  | succ m _ ih => exact ih.trans (hf m)

theorem Begins.le_total (hf : Grows f) (h : Begins f text) (h' : Begins f pre) :
    text <+: pre ∨ pre <+: text := by
  obtain ⟨n, hn⟩ := h
  obtain ⟨m, hm⟩ := h'
  have hn' := hn.trans (hf.le (Nat.le_max_left n m)).begins
  have hm' := hm.trans (hf.le (Nat.le_max_right n m)).begins
  exact List.prefix_or_prefix_of_prefix hn' hm'

/-- There is one beginning of each length. -/
theorem Begins.eq_of_length (hf : Grows f) (h : Begins f text) (h' : Begins f pre)
    (hlen : text.length = pre.length) : text = pre := by
  rcases h.le_total hf h' with hp | hp
  · exact hp.eq_of_length hlen
  · exact (hp.eq_of_length hlen.symm).symm

/-- A beginning of the text is a beginning of the whole of it. -/
theorem Begins.le_whole (hf : Grows f) (h : Begins f pre) (h' : IsWhole f text) :
    pre <+: text := by
  obtain ⟨n, hn⟩ := h
  obtain ⟨m, hm⟩ := h'
  have hle := hn.trans (hf.le (Nat.le_max_left n m)).begins
  rw [← (hf.le (Nat.le_max_right n m)).eq_of_complete (by rw [hm]; rfl), hm] at hle
  exact hle

/-- The text of the drafts has an end, and is `text` and no other. -/
def HasText (f : Nat → Draft α) (text : List α) : Prop := ∀ other, IsWhole f other ↔ other = text

/-- `pre` is the first `k` elements of the text of the drafts. -/
def HasFirst (f : Nat → Draft α) (k : Nat) (pre : List α) : Prop :=
  ∀ other, Begins f other ∧ other.length = k ↔ other = pre

theorem IsWhole.begins (h : IsWhole f text) : Begins f text := by
  obtain ⟨n, hn⟩ := h
  refine ⟨n, ?_⟩
  rw [hn]
  exact List.prefix_refl _

theorem IsWhole.hasText (hf : Grows f) (h : IsWhole f text) : HasText f text := by
  intro other
  constructor
  · intro hother
    have hle : other <+: text := hother.begins.le_whole hf h
    have hge : text <+: other := h.begins.le_whole hf hother
    exact hle.eq_of_length_le hge.length_le
  · intro heq
    rw [heq]
    exact h

theorem Begins.hasFirst (hf : Grows f) (h : Begins f text) {k : Nat} (hk : k ≤ text.length) :
    HasFirst f k (text.take k) := by
  have hlength : (text.take k).length = k := List.length_take_of_le hk
  have hbegins : Begins f (text.take k) := by
    obtain ⟨n, hn⟩ := h
    exact ⟨n, (List.take_prefix k text).trans hn⟩
  intro other
  constructor
  · intro hother
    apply hother.1.eq_of_length hf hbegins
    rw [hother.2, hlength]
  · intro heq
    rw [heq]
    exact ⟨hbegins, hlength⟩

end Draft
