import Mathlib.Data.List.Basic

/-!
# Machines that keep frames on a stack of words

An evaluator without recursion keeps what remains to be done in frames, and the frames as plain
words on a stack. `layout` is the stack of a list of frames; `Machine` is what the rules here
need to know of an evaluator. The value of an expression that was started on the stack `k` is
*delivered* when the machine hands on a value and is back at the height of `k`; `RunTo k` are
the runs up to that point.

* `Reading` — a way to read states as frames on top of `k`, kept by every step;
* `Reading.run` — a run up to the delivery keeps `k` below its frames;
* `Reading.eq_nil_of_delivered` — at the delivery no frame is left;
* `SubEval` — the sub-expressions of one form, in the order in which they are started.
-/

namespace FrameStack

/-! ## Frames on a stack -/

section Layout

variable {φ ω : Type*} {words : φ → List φ → List ω}

/-- The stack with the frames `fs` (top first) on top of `k`. The words of a frame may depend on
the frames below it. -/
def layout (words : φ → List φ → List ω) (k : List ω) : List φ → List ω
  | [] => k
  | f :: fs => layout words k fs ++ words f fs

theorem prefix_layout (k : List ω) (fs : List φ) : k <+: layout words k fs := by
  induction fs with
  | nil => exact List.prefix_refl k
  | cons f fs ih => exact ih.trans (List.prefix_append _ _)

theorem eq_nil_of_length_layout_le (hwords : ∀ f fs, words f fs ≠ []) {k : List ω}
    {fs : List φ} (h : (layout words k fs).length ≤ k.length) : fs = [] := by
  cases fs with
  | nil => rfl
  | cons f fs =>
    have hbelow : k.length ≤ (layout words k fs).length := (prefix_layout k fs).length_le
    have hf := List.length_pos_of_ne_nil (hwords f fs)
    rw [layout, List.length_append] at h
    omega

end Layout

/-! ## Machines -/

structure Machine (σ ω : Type*) where
  step : σ → σ → Prop
  stack : σ → List ω
  /-- An expression is about to be evaluated. -/
  evaluating : σ → Prop
  /-- A value is about to be handed to the topmost frame. -/
  returning : σ → Prop

namespace Machine

variable {σ ω : Type*} (M : Machine σ ω)

/-- A value is about to be handed to what is on top of `k`. -/
def Delivered (k : List ω) (s : σ) : Prop := M.returning s ∧ (M.stack s).length ≤ k.length

/-- `t` comes after `s`, and nothing was delivered to `k` before `t`. -/
inductive RunTo (k : List ω) (s : σ) : σ → Prop where
  | refl : RunTo k s s
  | tail {t u : σ} (hrun : RunTo k s t) (hpending : ¬ M.Delivered k t) (hstep : M.step t u) :
      RunTo k s u

/-- `s` is about to evaluate a sub-expression of the form that `s₀` is about to evaluate. The
first one is started by a step that enters the form; if it left a frame of the form on the
stack, the step that hands its value to that frame, from a state that is `ok`, starts another
one. -/
inductive SubEval (enter : σ → σ → Prop) (ok : σ → Prop) (s₀ : σ) : σ → Prop where
  | first {s : σ} (hform : M.evaluating s₀) (henter : enter s₀ s) (hsub : M.evaluating s) :
      SubEval enter ok s₀ s
  | next {s t u : σ} (hprev : SubEval enter ok s₀ s)
      (hframe : (M.stack s₀).length < (M.stack s).length) (hrun : M.RunTo (M.stack s) s t)
      (hdel : M.Delivered (M.stack s) t) (hok : ok t) (hstep : M.step t u)
      (hsub : M.evaluating u) : SubEval enter ok s₀ u

/-- States read as lists of frames on top of `k`. -/
structure Reading {φ : Type*} (words : φ → List φ → List ω) (k : List ω)
    (Rep : σ → List φ → Prop) : Prop where
  stack : ∀ {s fs}, Rep s fs → M.stack s = layout words k fs
  step : ∀ {s t fs}, Rep s fs → (M.returning s → fs ≠ []) → M.step s t → ∃ fs', Rep t fs'

variable {M} {φ : Type*} {words : φ → List φ → List ω} {k : List ω} {Rep : σ → List φ → Prop}

/-- **Up to the delivery the states can be read.** -/
theorem Reading.run (hrep : M.Reading words k Rep) {s t : σ} (hrun : M.RunTo k s t)
    {fs : List φ} (hs : Rep s fs) : ∃ fs', Rep t fs' := by
  induction hrun with
  | refl => exact ⟨fs, hs⟩
  | tail _ hpending hstep ih =>
    obtain ⟨fs', ht⟩ := ih
    apply hrep.step ht _ hstep
    -- a value that finds no frame is delivered
    rintro hret rfl
    exact hpending ⟨hret, Nat.le_of_eq (congrArg List.length (hrep.stack ht))⟩

theorem Reading.eq_nil_of_delivered (hrep : M.Reading words k Rep)
    (hwords : ∀ f fs, words f fs ≠ []) {t : σ} {fs : List φ} (ht : Rep t fs)
    (hdel : M.Delivered k t) : fs = [] := by
  apply eq_nil_of_length_layout_le hwords
  rw [← hrep.stack ht]
  exact hdel.2

end Machine

end FrameStack
