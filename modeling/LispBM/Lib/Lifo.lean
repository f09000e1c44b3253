import Mathlib.Data.List.Basic

/-!
# Stacks that answer requests

`run` hands a sequence of requests to a machine and collects what it answers. `Tracks` compares a
machine with a specification that answers the same requests, under a condition on each request:
where the condition holds the machine gives the same answer and stays related, and where it does
not the machine gives none. `answer` is the specification of a stack as a list.

* `Tracks.run`, `Tracks.along` — the machine gives the answers of the specification exactly when the
  condition holds of every request of the run.
-/

namespace Lifo

/-! ## Runs -/

section

variable {σ τ ι ρ : Type*}

/-- The answers to a sequence of requests and the last state. -/
def run (step : σ → ι → Option (ρ × σ)) : σ → List ι → Option (List ρ × σ)
  | s, [] => some ([], s)
  | s, i :: is => (step s i).bind fun p => (run step p.2 is).map fun q => (p.1 :: q.1, q.2)

/-- Every request of the run meets a condition on it and on the state that it finds. -/
def Along (step : σ → ι → Option (ρ × σ)) (ok : σ → ι → Prop) : σ → List ι → Prop
  | _, [] => True
  | s, i :: is => ok s i ∧ ∀ p, step s i = some p → Along step ok p.2 is

theorem run_cons {step : σ → ι → Option (ρ × σ)} {s s' : σ} {i : ι} {is : List ι} {rs : List ρ} :
    run step s (i :: is) = some (rs, s') ↔
      ∃ r t rs', step s i = some (r, t) ∧ run step t is = some (rs', s') ∧ rs = r :: rs' := by
  rw [run]
  constructor
  · intro h
    cases hstep : step s i with
    | none => rw [hstep] at h; cases h
    | some p =>
      rw [hstep, Option.bind_some] at h
      obtain ⟨q, hq, hrs⟩ := Option.map_eq_some_iff.mp h
      cases hrs
      exact ⟨p.1, p.2, q.1, rfl, hq, rfl⟩
  · rintro ⟨r, t, rs', hstep, hrun, rfl⟩
    rw [hstep, Option.bind_some, hrun, Option.map_some]

/-- The machine `step` follows the specification `spec` on the requests that are `ok`, and on
no others. -/
structure Tracks (step : σ → ι → Option (ρ × σ)) (spec : τ → ι → Option (ρ × τ))
    (rel : σ → τ → Prop) (ok : τ → ι → Prop) : Prop where
  answers : ∀ {s t i r t'}, rel s t → spec t i = some (r, t') → ok t i →
    ∃ s', step s i = some (r, s') ∧ rel s' t'
  fails : ∀ {s t i r t' s'}, rel s t → spec t i = some (r, t') → step s i = some (r, s') → ok t i

variable {step : σ → ι → Option (ρ × σ)} {spec : τ → ι → Option (ρ × τ)} {rel : σ → τ → Prop}
  {ok : τ → ι → Prop}

theorem Tracks.run (h : Tracks step spec rel ok) : ∀ {is : List ι} {s : σ} {t t' : τ} {rs : List ρ},
    rel s t → run spec t is = some (rs, t') → Along spec ok t is →
    ∃ s', run step s is = some (rs, s') ∧ rel s' t' := by
  intro is
  induction is with
  | nil =>
    intro s t t' rs hrel hspec _
    cases hspec
    exact ⟨s, rfl, hrel⟩
  | cons i is ih =>
    intro s t t' rs hrel hspec hok
    obtain ⟨r, u, rs', hi, his, rfl⟩ := run_cons.mp hspec
    obtain ⟨s₁, hstep, hrel₁⟩ := h.answers hrel hi hok.1
    obtain ⟨s₂, hrun, hrel₂⟩ := ih hrel₁ his (hok.2 _ hi)
    exact ⟨s₂, run_cons.mpr ⟨r, s₁, rs', hstep, hrun, rfl⟩, hrel₂⟩

theorem Tracks.along (h : Tracks step spec rel ok) : ∀ {is : List ι} {s s' : σ} {t t' : τ}
    {rs : List ρ}, rel s t → Lifo.run spec t is = some (rs, t') →
    Lifo.run step s is = some (rs, s') → Along spec ok t is := by
  intro is
  induction is with
  | nil => intro s s' t t' rs _ _ _; exact trivial
  | cons i is ih =>
    intro s s' t t' rs hrel hspec hrun
    obtain ⟨r, u, rs', hi, his, rfl⟩ := run_cons.mp hspec
    obtain ⟨r', s₁, rs'', hstep, hrest, heq⟩ := run_cons.mp hrun
    cases heq
    have hok := h.fails hrel hi hstep
    refine ⟨hok, fun p hp => ?_⟩
    obtain rfl : p = (r, u) := Option.some.inj (hp.symm.trans hi)
    obtain ⟨s₂, hstep₂, hrel₂⟩ := h.answers hrel hi hok
    obtain rfl : s₂ = s₁ := (Prod.mk.inj (Option.some.inj (hstep₂.symm.trans hstep))).2
    exact ih hrel₂ his hrest

/-- A condition that an invariant implies holds along every run. -/
theorem along_of_invariant (inv : τ → Prop) (hinv : ∀ t i p, inv t → spec t i = some p → inv p.2)
    (hok : ∀ t i, inv t → ok t i) : ∀ (is : List ι) {t : τ}, inv t → Along spec ok t is
  | [], _, _ => trivial
  | i :: is, t, ht =>
    ⟨hok t i ht, fun p hp => along_of_invariant inv hinv hok is (hinv t i p ht hp)⟩

end

/-! ## The list -/

section

variable {α : Type*}

inductive Request (α : Type*) where
  | push (v : α)
  | pop
  | drop (k : Nat)
  /-- The `k` topmost elements are asked for. -/
  | top (k : Nat)
  | clear

inductive Reply (α : Type*) where
  | pushed (done : Bool)
  | popped (v : α)
  | dropped (done : Bool)
  | top (vs : Option (List α))
  | cleared
deriving DecidableEq

/-- The reply says that the request was refused. -/
def Reply.refused : Reply α → Bool
  | .pushed done => !done
  | .dropped done => !done
  | .top vs => vs.isNone
  | _ => false

/-- A stack as a list, the topmost element last, with room for `bound` elements or for any number
of them. Nothing can be popped off the empty list. -/
def answer (bound : Option Nat) (l : List α) : Request α → Option (Reply α × List α)
  | .push v =>
      if bound = some l.length then some (.pushed false, l)
      else some (.pushed true, l ++ [v])
  | .pop => l.getLast?.map fun v => (.popped v, l.dropLast)
  | .drop k =>
      if l.length < k then some (.dropped false, l)
      else some (.dropped true, l.take (l.length - k))
  | .top k =>
      if l.length < k then some (.top none, l) else some (.top (some (l.drop (l.length - k))), l)
  | .clear => some (.cleared, [])

/-- The list stays within its bound. -/
theorem length_le_of_answer {n : Nat} {l : List α} {i : Request α} {p : Reply α × List α}
    (hl : l.length ≤ n) (h : answer (some n) l i = some p) : p.2.length ≤ n := by
  cases i with
  | push v =>
    rw [answer] at h
    split at h
    · cases h
      exact hl
    · next hne =>
      cases h
      have hlt : l.length ≠ n := fun heq => hne (congrArg some heq.symm)
      rw [List.length_append, List.length_singleton]
      omega
  | pop =>
    obtain ⟨v, -, hv⟩ := Option.map_eq_some_iff.mp h
    cases hv
    rw [List.length_dropLast]
    omega
  | drop k =>
    rw [answer] at h
    split at h
    · cases h
      exact hl
    · cases h
      exact Nat.le_trans (List.length_take_le _ _) (Nat.le_trans (Nat.sub_le _ _) hl)
  | top k =>
    rw [answer] at h
    split at h
    · cases h
      exact hl
    · cases h
      exact hl
  | clear =>
    cases h
    exact Nat.zero_le _

end

end Lifo
