import Mathlib.Data.Finset.Card
import Mathlib.Logic.Relation

/-!
# Depth-first traversal with a bounded work stack

A graph is given by *work items*: an item may refer to a vertex (`node`), and visiting that
vertex pushes the item's `kids`. `trace` is the usual marking loop: pop an item, skip it if it
refers to no vertex or to a visited one, otherwise mark the vertex and push its kids; it
stops with `false` when the kids no longer fit on a stack of `lim` items.

* `trace_sound` — only vertices reachable from the stack are added;
* `trace_complete` — a traversal that was not cut leaves a set closed under `kids`;
* `trace_isSome` — it terminates, whatever the shape of the graph;
* `traceAll` runs one traversal per root over a common visited set;
* `pops` and `popsAll` list the items a traversal comes to, and what was visited by then.

Items that refer to the same vertex must agree on their kids; `Domain` asks for it on a set
of items closed under `kids`, so that it need not hold for items nobody can reach.
-/

namespace GraphTrace

structure WorkGraph (α κ : Type*) where
  node : α → Option κ
  kids : α → List α
  kids_eq_nil : ∀ a, node a = none → kids a = []

namespace WorkGraph

variable {α κ : Type*} (g : WorkGraph α κ)

/-- Item `b` can be reached from item `a`. -/
def Reach : α → α → Prop := Relation.ReflTransGen (fun a b => b ∈ g.kids a)

/-- Vertex `k` can be reached from one of the roots. -/
def Reachable (roots : List α) (k : κ) : Prop :=
  ∃ r ∈ roots, ∃ a, g.Reach r a ∧ g.node a = some k

/-- A set of items closed under `kids` on which a vertex determines the kids. -/
structure Domain (P : α → Prop) : Prop where
  kids : ∀ a, P a → ∀ c ∈ g.kids a, P c
  consistent : ∀ a b k, P a → P b → g.node a = some k → g.node b = some k → g.kids a = g.kids b

theorem Domain.reach {g : WorkGraph α κ} {P : α → Prop} (hdom : g.Domain P) {a b : α} (ha : P a)
    (hab : g.Reach a b) : P b := by
  induction hab with
  | refl => exact ha
  | tail _ hstep ih => exact hdom.kids _ ih _ hstep

/-! ## One traversal -/

variable [DecidableEq κ]

/-- The marking loop with `n` iterations of fuel, a work stack and a visited set: `none` when
the fuel runs out, `some (false, M)` when the stack overflowed with `M` visited. -/
def trace (lim : Nat) : Nat → List α → Finset κ → Option (Bool × Finset κ)
  | 0, _, _ => none
  | _ + 1, [], M => some (true, M)
  | n + 1, a :: s, M =>
      match g.node a with
      | none => trace lim n s M
      | some k =>
          if k ∈ M then trace lim n s M
          else if (g.kids a).length + s.length ≤ lim then
            trace lim n (g.kids a ++ s) (insert k M)
          else some (false, insert k M)

variable {g}

theorem subset_of_trace {lim : Nat} : ∀ {n : Nat} {s : List α} {M M' : Finset κ} {ok : Bool},
    g.trace lim n s M = some (ok, M') → M ⊆ M' := by
  intro n
  induction n with
  | zero => intro s M M' ok h; exact absurd h (by simp [trace])
  | succ n ih =>
    intro s M M' ok h
    cases s with
    | nil =>
      obtain ⟨-, rfl⟩ : ok = true ∧ M = M' := by simpa [trace, eq_comm] using h
      exact Finset.Subset.refl _
    | cons a s =>
      rw [trace] at h
      split at h
      · exact ih h
      · split_ifs at h with hk hlen
        · exact ih h
        · exact (Finset.subset_insert _ _).trans (ih h)
        · obtain ⟨-, rfl⟩ : ok = false ∧ _ = M' := by simpa [eq_comm] using h
          exact Finset.subset_insert _ _

/-- **Soundness.** A traversal only adds vertices reachable from its stack. -/
theorem trace_sound {lim : Nat} : ∀ {n : Nat} {s : List α} {M M' : Finset κ} {ok : Bool},
    g.trace lim n s M = some (ok, M') → ∀ k ∈ M', k ∈ M ∨ g.Reachable s k := by
  intro n
  induction n with
  | zero => intro s M M' ok h; exact absurd h (by simp [trace])
  | succ n ih =>
    intro s M M' ok h k hk
    cases s with
    | nil =>
      obtain ⟨-, rfl⟩ : ok = true ∧ M = M' := by simpa [trace, eq_comm] using h
      exact Or.inl hk
    | cons a s =>
      have hweaken : g.Reachable s k → g.Reachable (a :: s) k := by
        rintro ⟨r, hr, b, hrb, hb⟩
        exact ⟨r, List.mem_cons_of_mem _ hr, b, hrb, hb⟩
      rw [trace] at h
      split at h
      · exact (ih h k hk).imp_right hweaken
      · next v hv =>
        have hself : g.Reachable (a :: s) v := ⟨a, by simp, a, .refl, hv⟩
        split_ifs at h with hvM hlen
        · exact (ih h k hk).imp_right hweaken
        · rcases ih h k hk with hin | ⟨r, hr, b, hrb, hb⟩
          · rcases Finset.mem_insert.mp hin with rfl | hin
            · exact Or.inr hself
            · exact Or.inl hin
          · -- reached through a kid of `a`, or from the rest of the stack
            rcases List.mem_append.mp hr with hr | hr
            · exact Or.inr ⟨a, by simp, b, Relation.ReflTransGen.head hr hrb, hb⟩
            · exact Or.inr (hweaken ⟨r, hr, b, hrb, hb⟩)
        · obtain ⟨-, rfl⟩ : ok = false ∧ _ = M' := by simpa [eq_comm] using h
          rcases Finset.mem_insert.mp hk with rfl | hin
          · exact Or.inr hself
          · exact Or.inl hin

/-- Every kid of a visited item is visited. -/
def Closed (g : WorkGraph α κ) (P : α → Prop) (M : Finset κ) : Prop :=
  ∀ a k, P a → g.node a = some k → k ∈ M → ∀ c ∈ g.kids a, ∀ k', g.node c = some k' → k' ∈ M

/-- Every kid of a visited item is visited or waits on the stack. -/
def PendingClosed (g : WorkGraph α κ) (P : α → Prop) (s : List α) (M : Finset κ) : Prop :=
  ∀ a k, P a → g.node a = some k → k ∈ M → ∀ c ∈ g.kids a, ∀ k', g.node c = some k' →
    k' ∈ M ∨ ∃ d ∈ s, g.node d = some k'

/-- **Completeness.** A traversal that was not cut ends with a set that is closed under `kids`
and contains every vertex of the stack it started with. -/
theorem trace_complete {P : α → Prop} (hdom : g.Domain P) {lim : Nat} :
    ∀ {n : Nat} {s : List α} {M M' : Finset κ}, (∀ a ∈ s, P a) → g.PendingClosed P s M →
      g.trace lim n s M = some (true, M') →
      g.Closed P M' ∧ ∀ a ∈ s, ∀ k, g.node a = some k → k ∈ M' := by
  intro n
  induction n with
  | zero => intro s M M' _ _ h; exact absurd h (by simp [trace])
  | succ n ih =>
    intro s M M' hs hpend h
    cases s with
    | nil =>
      obtain rfl : M = M' := by simpa [trace, eq_comm] using h
      refine ⟨fun a k ha hak hk c hc k' hk' => ?_, by simp⟩
      rcases hpend a k ha hak hk c hc k' hk' with hin | ⟨d, hd, _⟩
      · exact hin
      · exact absurd hd (by simp)
    | cons a s =>
      have hs' : ∀ b ∈ s, P b := fun b hb => hs b (List.mem_cons_of_mem _ hb)
      have hPa : P a := hs a (by simp)
      rw [trace] at h
      split at h
      · next hnone =>
        -- the popped item refers to no vertex, so nothing was waiting for it
        have hpend' : g.PendingClosed P s M := by
          intro b k hb hbk hk c hc k' hk'
          rcases hpend b k hb hbk hk c hc k' hk' with hin | ⟨d, hd, hdk⟩
          · exact Or.inl hin
          · rcases List.mem_cons.mp hd with rfl | hd
            · exact absurd (hnone.symm.trans hdk) (by simp)
            · exact Or.inr ⟨d, hd, hdk⟩
        obtain ⟨hcl, hall⟩ := ih hs' hpend' h
        refine ⟨hcl, fun b hb k hbk => ?_⟩
        rcases List.mem_cons.mp hb with rfl | hb
        · exact absurd (hnone.symm.trans hbk) (by simp)
        · exact hall b hb k hbk
      · next v hv =>
        split_ifs at h with hvM hlen
        · have hpend' : g.PendingClosed P s M := by
            intro b k hb hbk hk c hc k' hk'
            rcases hpend b k hb hbk hk c hc k' hk' with hin | ⟨d, hd, hdk⟩
            · exact Or.inl hin
            · rcases List.mem_cons.mp hd with rfl | hd
              · exact Or.inl (Option.some.inj (hv.symm.trans hdk) ▸ hvM)
              · exact Or.inr ⟨d, hd, hdk⟩
          obtain ⟨hcl, hall⟩ := ih hs' hpend' h
          refine ⟨hcl, fun b hb k hbk => ?_⟩
          rcases List.mem_cons.mp hb with rfl | hb
          · exact subset_of_trace h (Option.some.inj (hv.symm.trans hbk) ▸ hvM)
          · exact hall b hb k hbk
        · have hs'' : ∀ b ∈ g.kids a ++ s, P b := by
            intro b hb
            rcases List.mem_append.mp hb with hb | hb
            · exact hdom.kids a hPa b hb
            · exact hs' b hb
          have hpend' : g.PendingClosed P (g.kids a ++ s) (insert v M) := by
            intro b k hb hbk hk c hc k' hk'
            rcases Finset.mem_insert.mp hk with rfl | hkM
            · -- an item for the vertex just visited: its kids are the ones pushed
              rw [hdom.consistent b a k hb hPa hbk hv] at hc
              exact Or.inr ⟨c, List.mem_append_left _ hc, hk'⟩
            · rcases hpend b k hb hbk hkM c hc k' hk' with hin | ⟨d, hd, hdk⟩
              · exact Or.inl (Finset.mem_insert_of_mem hin)
              · rcases List.mem_cons.mp hd with rfl | hd
                · exact Or.inl (Option.some.inj (hv.symm.trans hdk) ▸ Finset.mem_insert_self _ _)
                · exact Or.inr ⟨d, List.mem_append_right _ hd, hdk⟩
          obtain ⟨hcl, hall⟩ := ih hs'' hpend' h
          refine ⟨hcl, fun b hb k hbk => ?_⟩
          rcases List.mem_cons.mp hb with rfl | hb
          · have heq := Option.some.inj (hv.symm.trans hbk)
            exact subset_of_trace h (heq ▸ Finset.mem_insert_self _ _)
          · exact hall b (List.mem_append_right _ hb) k hbk
        · exact absurd h (by simp)

/-- **Termination.** With more fuel than the stack plus `w` times the unvisited vertices, the
traversal comes to an end: visiting a vertex pushes at most `w` kids and uses the vertex up. -/
theorem trace_isSome {P : α → Prop} (hdom : g.Domain P) {U : Finset κ}
    (hU : ∀ a k, P a → g.node a = some k → k ∈ U) {w : Nat} (hw : ∀ a, (g.kids a).length ≤ w)
    {lim : Nat} : ∀ {n : Nat} {s : List α} {M : Finset κ}, (∀ a ∈ s, P a) →
      s.length + w * (U \ M).card < n → (g.trace lim n s M).isSome := by
  intro n
  induction n with
  | zero => intro s M _ h; omega
  | succ n ih =>
    intro s M hs hlt
    cases s with
    | nil => simp [trace]
    | cons a s =>
      have hs' : ∀ b ∈ s, P b := fun b hb => hs b (List.mem_cons_of_mem _ hb)
      simp only [List.length_cons] at hlt
      rw [trace]
      split
      · exact ih hs' (by omega)
      · next v hv =>
        split_ifs with hvM hlen
        · exact ih hs' (by omega)
        · refine ih ?_ ?_
          · intro b hb
            rcases List.mem_append.mp hb with hb | hb
            · exact hdom.kids a (hs a (by simp)) b hb
            · exact hs' b hb
          · have hvU : v ∈ U \ M :=
              Finset.mem_sdiff.mpr ⟨hU a v (hs a (by simp)) hv, hvM⟩
            have hcard : (U \ insert v M).card + 1 = (U \ M).card := by
              rw [Finset.sdiff_insert, Finset.card_erase_add_one hvU]
            have hkids := hw a
            rw [← hcard, Nat.mul_add] at hlt
            rw [List.length_append]
            omega
        · rfl

omit [DecidableEq κ] in
theorem Closed.mem_of_reach {P : α → Prop} (hdom : g.Domain P) {M : Finset κ}
    (hcl : g.Closed P M) {a b : α} (ha : P a) (hroot : ∀ k, g.node a = some k → k ∈ M)
    (hab : g.Reach a b) : ∀ k, g.node b = some k → k ∈ M := by
  induction hab with
  | refl => exact hroot
  | @tail c d hac hstep ih =>
    intro k hk
    cases hc : g.node c with
    | none =>
      rw [g.kids_eq_nil c hc] at hstep
      exact absurd hstep (by simp)
    | some v => exact hcl c v (hdom.reach ha hac) hc (ih v hc) d hstep k hk

/-! ## One traversal per root -/

/-- Trace from each root in turn over a common visited set; the list says which traversals
came to their end. -/
def traceAll (g : WorkGraph α κ) (lim n : Nat) : List α → Finset κ → Option (List Bool × Finset κ)
  | [], M => some ([], M)
  | a :: as, M =>
      match g.trace lim n [a] M with
      | none => none
      | some (ok, M₁) =>
          match g.traceAll lim n as M₁ with
          | none => none
          | some (oks, M₂) => some (ok :: oks, M₂)

theorem traceAll_cons {lim n : Nat} {a : α} {as : List α} {M M' : Finset κ} {oks : List Bool}
    (h : g.traceAll lim n (a :: as) M = some (oks, M')) :
    ∃ ok oks' M₁, g.trace lim n [a] M = some (ok, M₁)
      ∧ g.traceAll lim n as M₁ = some (oks', M') ∧ oks = ok :: oks' := by
  rw [traceAll] at h
  split at h
  · exact absurd h (by simp)
  · next ok M₁ htr =>
    split at h
    · exact absurd h (by simp)
    · next oks' M₂ hall =>
      obtain ⟨rfl, rfl⟩ : oks = ok :: oks' ∧ M' = M₂ := by simpa [eq_comm] using h
      exact ⟨ok, oks', M₁, htr, hall, rfl⟩

theorem subset_of_traceAll {lim n : Nat} {as : List α} : ∀ {M M' : Finset κ} {oks : List Bool},
    g.traceAll lim n as M = some (oks, M') → M ⊆ M' := by
  induction as with
  | nil =>
    intro M M' oks h
    obtain ⟨-, rfl⟩ : oks = [] ∧ M = M' := by simpa [traceAll, eq_comm] using h
    exact Finset.Subset.refl _
  | cons a as ih =>
    intro M M' oks h
    obtain ⟨ok, oks', M₁, htr, hall, -⟩ := traceAll_cons h
    exact (subset_of_trace htr).trans (ih hall)

theorem traceAll_sound {lim n : Nat} {as : List α} : ∀ {M M' : Finset κ} {oks : List Bool},
    g.traceAll lim n as M = some (oks, M') → ∀ k ∈ M', k ∈ M ∨ g.Reachable as k := by
  induction as with
  | nil =>
    intro M M' oks h k hk
    obtain ⟨-, rfl⟩ : oks = [] ∧ M = M' := by simpa [traceAll, eq_comm] using h
    exact Or.inl hk
  | cons a as ih =>
    intro M M' oks h k hk
    obtain ⟨ok, oks', M₁, htr, hall, -⟩ := traceAll_cons h
    have hmono : ∀ {bs : List α}, bs ⊆ a :: as → g.Reachable bs k → g.Reachable (a :: as) k :=
      fun hsub ⟨r, hr, b, hrb, hb⟩ => ⟨r, hsub hr, b, hrb, hb⟩
    rcases ih hall k hk with hin | hre
    · exact (trace_sound htr k hin).imp_right (hmono (by simp))
    · exact Or.inr (hmono (by simp) hre)

/-- A sequence of traversals none of which was cut visits everything reachable from its roots,
provided the set it starts from is closed. -/
theorem traceAll_complete {P : α → Prop} (hdom : g.Domain P) {lim n : Nat} {as : List α} :
    ∀ {M M' : Finset κ} {oks : List Bool}, (∀ a ∈ as, P a) → g.Closed P M →
      g.traceAll lim n as M = some (oks, M') → (∀ ok ∈ oks, ok = true) →
      g.Closed P M' ∧ ∀ k, g.Reachable as k → k ∈ M' := by
  induction as with
  | nil =>
    intro M M' oks _ hcl h _
    obtain ⟨-, rfl⟩ : oks = [] ∧ M = M' := by simpa [traceAll, eq_comm] using h
    exact ⟨hcl, fun k ⟨r, hr, _⟩ => absurd hr (by simp)⟩
  | cons a as ih =>
    intro M M' oks has hcl h hok
    obtain ⟨ok, oks', M₁, htr, hall, rfl⟩ := traceAll_cons h
    obtain rfl : ok = true := hok ok (by simp)
    have hPa : P a := has a (by simp)
    obtain ⟨hcl₁, hroot⟩ := trace_complete hdom (s := [a]) (by simpa using hPa)
      (fun b k hb hbk hk c hc k' hk' => Or.inl (hcl b k hb hbk hk c hc k' hk')) htr
    obtain ⟨hcl', hrest⟩ := ih (fun b hb => has b (List.mem_cons_of_mem _ hb)) hcl₁ hall
      (fun b hb => hok b (List.mem_cons_of_mem _ hb))
    refine ⟨hcl', ?_⟩
    rintro k ⟨r, hr, b, hrb, hb⟩
    rcases List.mem_cons.mp hr with rfl | hr
    · exact subset_of_traceAll hall
        (hcl₁.mem_of_reach hdom hPa (hroot r (by simp)) hrb k hb)
    · exact hrest k ⟨r, hr, b, hrb, hb⟩

theorem traceAll_isSome {P : α → Prop} (hdom : g.Domain P) {U : Finset κ}
    (hU : ∀ a k, P a → g.node a = some k → k ∈ U) {w : Nat} (hw : ∀ a, (g.kids a).length ≤ w)
    {lim n : Nat} (hn : 1 + w * U.card < n) {as : List α} :
    ∀ {M : Finset κ}, (∀ a ∈ as, P a) → (g.traceAll lim n as M).isSome := by
  induction as with
  | nil => intro M _; simp [traceAll]
  | cons a as ih =>
    intro M has
    have hfuel : [a].length + w * (U \ M).card < n := by
      have : w * (U \ M).card ≤ w * U.card :=
        Nat.mul_le_mul_left _ (Finset.card_le_card Finset.sdiff_subset)
      simp only [List.length_singleton]
      omega
    have hsome : (g.trace lim n [a] M).isSome :=
      trace_isSome hdom hU hw (by simpa using has a (by simp)) hfuel
    obtain ⟨⟨ok, M₁⟩, htr⟩ := Option.isSome_iff_exists.mp hsome
    obtain ⟨⟨oks, M₂⟩, hall⟩ := Option.isSome_iff_exists.mp
      (ih (M := M₁) (fun b hb => has b (List.mem_cons_of_mem _ hb)))
    simp [traceAll, htr, hall]

/-! ## What a traversal comes to -/

/-- The items a traversal pops, each with the vertices visited by then. -/
def pops (g : WorkGraph α κ) (lim : Nat) : Nat → List α → Finset κ → List (α × Finset κ)
  | 0, _, _ => []
  | _ + 1, [], _ => []
  | n + 1, a :: s, M =>
      (a, M) ::
        match g.node a with
        | none => g.pops lim n s M
        | some k =>
            if k ∈ M then g.pops lim n s M
            else if (g.kids a).length + s.length ≤ lim then
              g.pops lim n (g.kids a ++ s) (insert k M)
            else []

/-- The items that a sequence of traversals pops. -/
def popsAll (g : WorkGraph α κ) (lim n : Nat) : List α → Finset κ → List (α × Finset κ)
  | [], _ => []
  | a :: as, M =>
      g.pops lim n [a] M ++
        match g.trace lim n [a] M with
        | none => []
        | some (_, M₁) => g.popsAll lim n as M₁

theorem popsAll_append {lim n : Nat} (as bs : List α) : ∀ M : Finset κ,
    g.popsAll lim n (as ++ bs) M = g.popsAll lim n as M ++
      match g.traceAll lim n as M with
      | none => []
      | some (_, M₁) => g.popsAll lim n bs M₁ := by
  induction as with
  | nil => intro M; simp [popsAll, traceAll]
  | cons a as ih =>
    intro M
    simp only [List.cons_append, popsAll, traceAll]
    cases g.trace lim n [a] M with
    | none => simp
    | some r =>
      simp only [ih r.2, List.append_assoc]
      cases g.traceAll lim n as r.2 <;> rfl

theorem traceAll_append {lim n : Nat} (as bs : List α) : ∀ M : Finset κ,
    g.traceAll lim n (as ++ bs) M
      = match g.traceAll lim n as M with
        | none => none
        | some (oks, M₁) =>
            match g.traceAll lim n bs M₁ with
            | none => none
            | some (oks', M₂) => some (oks ++ oks', M₂) := by
  induction as with
  | nil =>
    intro M
    simp only [List.nil_append, traceAll]
    cases g.traceAll lim n bs M <;> rfl
  | cons a as ih =>
    intro M
    simp only [List.cons_append, traceAll]
    cases g.trace lim n [a] M with
    | none => rfl
    | some r =>
      simp only [ih r.2]
      cases g.traceAll lim n as r.2 with
      | none => rfl
      | some r' =>
        simp only
        cases g.traceAll lim n bs r'.2 <;> rfl

end WorkGraph

end GraphTrace
