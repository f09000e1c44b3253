import Mathlib.Data.List.Basic
import Mathlib.Data.List.GetD

/-!
# Programs that read a sequence through a cursor

A `Reader` looks ahead of a cursor, takes what is there, or moves on. `run` executes it on a stream
given by four functions. `Within` is the weakest precondition of a reader on a sequence with a
terminator: it ends, it neither looks nor moves behind the terminator, and what it returns and where
it stops satisfy a postcondition.

* `within_bind` — a reader after another;
* `within_lookWhile`, `within_takeMany` — loops;
* `exists_run_of_within` — a reader that is within a sequence runs to its end on it.
-/

namespace Cursor

/-- A stream with a state `σ`. -/
structure Stream (σ α : Type) where
  more : σ → Bool
  get : σ → α × σ
  peek : σ → Nat → α
  drop : σ → Nat → σ

/-- A program that reads elements of type `α` and returns a `β`; `stuck` is a loop that has not
come to its end. -/
inductive Reader (α β : Type) where
  | done (b : β)
  | stuck
  | more (k : Bool → Reader α β)
  | peek (n : Nat) (k : α → Reader α β)
  | get (k : α → Reader α β)
  | drop (n : Nat) (k : Reader α β)

namespace Reader

variable {σ α β γ : Type}

def bind : Reader α β → (β → Reader α γ) → Reader α γ
  | done b, f => f b
  | stuck, _ => stuck
  | more k, f => more fun b => (k b).bind f
  | peek n k, f => peek n fun a => (k a).bind f
  | get k, f => get fun a => (k a).bind f
  | drop n k, f => drop n (k.bind f)

/-- The result and the state of the stream after it. -/
def run (str : Stream σ α) : Reader α β → σ → Option (β × σ)
  | done b, s => some (b, s)
  | stuck, _ => none
  | more k, s => (k (str.more s)).run str s
  | peek n k, s => (k (str.peek s n)).run str s
  | get k, s => (k (str.get s).1).run str (str.get s).2
  | drop n k, s => k.run str (str.drop s n)

theorem run_bind (str : Stream σ α) (r : Reader α β) (f : β → Reader α γ) (s : σ) :
    (r.bind f).run str s = (r.run str s).bind fun x => (f x.1).run str x.2 := by
  induction r generalizing s with
  | done b => rfl
  | stuck => rfl
  | more k ih => exact ih _ s
  | peek n k ih => exact ih _ s
  | get k ih => exact ih _ _
  | drop n k ih => exact ih _

/-! ## Readers within a sequence -/

/-- From the position `p` of a sequence that is followed by the terminator `nul`, the reader ends
without looking or moving behind the terminator, and `Q` holds of its result and its last
position. -/
def Within (text : List α) (nul : α) (Q : β → Nat → Prop) : Reader α β → Nat → Prop
  | done b, p => Q b p
  | stuck, _ => False
  | more k, p => p ≤ text.length ∧ (k (decide (p < text.length))).Within text nul Q p
  | peek n k, p => p + n ≤ text.length ∧ (k (text.getD (p + n) nul)).Within text nul Q p
  | get k, p => p < text.length ∧ (k (text.getD p nul)).Within text nul Q (p + 1)
  | drop n k, p => p + n ≤ text.length ∧ k.Within text nul Q (p + n)

variable {text : List α} {nul : α} {Q R : β → Nat → Prop} {p : Nat}

theorem Within.mono {r : Reader α β} (h : r.Within text nul Q p) (hQ : ∀ b p, Q b p → R b p) :
    r.Within text nul R p := by
  induction r generalizing p with
  | done b => exact hQ b p h
  | stuck => exact h
  | more k ih => exact ⟨h.1, ih _ h.2⟩
  | peek n k ih => exact ⟨h.1, ih _ h.2⟩
  | get k ih => exact ⟨h.1, ih _ h.2⟩
  | drop n k ih => exact ⟨h.1, ih h.2⟩

/-- The precondition of a sequence of readers. -/
theorem within_bind {r : Reader α β} {f : β → Reader α γ} {Q : γ → Nat → Prop} :
    (r.bind f).Within text nul Q p
      ↔ r.Within text nul (fun b q => (f b).Within text nul Q q) p := by
  induction r generalizing p with
  | done b => exact Iff.rfl
  | stuck => exact Iff.rfl
  | more k ih => exact and_congr_right fun _ => ih _
  | peek n k ih => exact and_congr_right fun _ => ih _
  | get k ih => exact and_congr_right fun _ => ih _
  | drop n k ih => exact and_congr_right fun _ => ih

/-! ## Loops -/

/-- Look ahead from the distance `n` on for as long as `c` holds, and accumulate what is there. -/
def lookWhile (c : α → Bool) (step : γ → α → γ) : Nat → Nat → γ → Reader α (Nat × γ)
  | 0, _, _ => stuck
  | fuel + 1, n, acc =>
      peek n fun a => if c a then lookWhile c step fuel (n + 1) (step acc a) else done (n, acc)

/-- Take `n` elements, one at a time. -/
def takeMany : Nat → Reader α (List α)
  | 0 => done []
  | n + 1 => get fun a => (takeMany n).bind fun as => done (a :: as)

/-- A look-ahead stops at the terminator at the latest. -/
theorem within_lookWhile {c : α → Bool} {step : γ → α → γ} (hnul : c nul = false) :
    ∀ {fuel n : Nat} {acc : γ}, p + n ≤ text.length → text.length - (p + n) < fuel →
    (lookWhile c step fuel n acc).Within text nul
      (fun r q => q = p ∧ n ≤ r.1 ∧ p + r.1 ≤ text.length ∧ c (text.getD (p + r.1) nul) = false
        ∧ ∀ i, n ≤ i → i < r.1 → c (text.getD (p + i) nul) = true) p := by
  intro fuel
  induction fuel with
  | zero => intro n acc _ hfuel; exact absurd hfuel (Nat.not_lt_zero _)
  | succ fuel ih =>
    intro n acc hn hfuel
    refine ⟨hn, ?_⟩
    dsimp only
    by_cases hc : c (text.getD (p + n) nul) = true
    · rw [if_pos hc]
      -- the terminator is not of the kind
      have hlt : p + n < text.length := by
        by_contra hle
        rw [List.getD_eq_default _ _ (Nat.not_lt.mp hle), hnul] at hc
        exact absurd hc (by simp)
      refine (ih (n := n + 1) (by omega) (by omega)).mono fun r q ⟨hq, hr, hle, hstop, hall⟩ => ?_
      refine ⟨hq, by omega, hle, hstop, fun i hi hir => ?_⟩
      by_cases hin : i = n
      · rw [hin]
        exact hc
      · exact hall i (by omega) hir
    · rw [if_neg hc]
      exact ⟨rfl, Nat.le_refl n, hn, by simpa using hc, fun i hi hin => absurd hin (by omega)⟩

/-- Elements are taken up to the terminator. -/
theorem within_takeMany : ∀ {n p : Nat}, p + n ≤ text.length →
    (takeMany n).Within text nul (fun _ q => q = p + n) p := by
  intro n
  induction n with
  | zero => intro p _; exact rfl
  | succ n ih =>
    intro p hn
    refine ⟨by omega, within_bind.mpr ?_⟩
    refine (ih (p := p + 1) (by omega)).mono fun as q hq => ?_
    show q = p + (n + 1)
    omega

/-! ## Runs on a sequence -/

/-- The stream whose state is the rest of a sequence. -/
def listStream (nul : α) : Stream (List α) α where
  more s := !s.isEmpty
  get s := (s.headD nul, s.tail)
  peek s n := s.getD n nul
  drop s n := s.drop n

theorem headD_drop (text : List α) (nul : α) (p : Nat) :
    (text.drop p).headD nul = text.getD p nul := by
  rw [List.headD_eq_head?_getD, List.head?_drop, List.getD_eq_getElem?_getD]

theorem getD_drop (text : List α) (nul : α) (p n : Nat) :
    (text.drop p).getD n nul = text.getD (p + n) nul := by
  rw [List.getD_eq_getElem?_getD, List.getElem?_drop, List.getD_eq_getElem?_getD]

theorem more_listStream (text : List α) (nul : α) (p : Nat) :
    (listStream nul).more (text.drop p) = decide (p < text.length) := by
  show (!(text.drop p).isEmpty) = _
  by_cases hp : p < text.length
  · have hne : text.drop p ≠ [] := by
      rw [Ne, List.drop_eq_nil_iff]
      omega
    simp [hp, hne]
  · rw [List.drop_eq_nil_of_le (Nat.not_lt.mp hp), decide_eq_false hp]
    rfl

/-- **Readers within a sequence run to their end.** -/
theorem exists_run_of_within {r : Reader α β} (h : r.Within text nul Q p) :
    ∃ b q, r.run (listStream nul) (text.drop p) = some (b, text.drop q) ∧ Q b q := by
  induction r generalizing p with
  | done b => exact ⟨b, p, rfl, h⟩
  | stuck => exact absurd h id
  | more k ih =>
    rw [run, more_listStream]
    exact ih _ h.2
  | peek n k ih =>
    have hpeek : (listStream nul).peek (text.drop p) n = text.getD (p + n) nul :=
      getD_drop text nul p n
    rw [run, hpeek]
    exact ih _ h.2
  | get k ih =>
    have hget : (listStream nul).get (text.drop p) = (text.getD p nul, text.drop (p + 1)) :=
      Prod.ext (headD_drop text nul p) (List.tail_drop ..)
    rw [run, hget]
    exact ih _ h.2
  | drop n k ih =>
    have hdrop : (listStream nul).drop (text.drop p) n = text.drop (p + n) := List.drop_drop ..
    rw [run, hdrop]
    exact ih h.2

end Reader

end Cursor
