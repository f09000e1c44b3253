import LispBM.EvalCps.Scheduler

/-!
# LispBM — the timer arithmetic of the scheduler (`src/eval_cps.c`)

A context that sleeps is due when as many microseconds as it asked for have gone by since its
timestamp, on a clock that counts modulo `2 ^ 32`. `dequeue_ctx` is to return the first context
that is due, and when there is none a time to sleep after which nobody is late.

It departs from this twice.

* Once the clock has passed zero, `0xFFFFFFFF - timestamp + t_now` is one less than the time
  that has gone by.
* The minimum over the sleeping contexts is that of the times that have gone by, not of the times
  that remain.

* `timersExact_iff` — for every queue and clock, when the result is right all the same.
-/

namespace LispBM

namespace Scheduler

/-! ## Specification -/

/-- The time since the timestamp of a context, modulo `2 ^ 32`. -/
def elapsed (tNow : UINT) (n : Node) : UINT := tNow - n.timestamp

def due (tNow : UINT) (n : Node) : Bool := n.sleepUs ≤ elapsed tNow n

/-- How long a context that is not due has to wait. -/
def remaining (tNow : UINT) (n : Node) : Nat := n.sleepUs.toNat - (elapsed tNow n).toNat

/-- What `dequeue_ctx` is for, on a queue of the contexts `l`. -/
def TimersExact (tNow : UINT) (s : Sched) (l : List Addr) : Prop :=
  ∃ picked s', dequeueCtx tNow s = some (picked, s')
    ∧ (∀ a, picked = .inl a ↔ l.find? (fun b => due tNow (s.mem b)) = some a)
    ∧ ∀ us, picked = .inr us →
        us ≤ defaultSleepUs ∧ ∀ b ∈ l, us.toNat ≤ remaining tNow (s.mem b)

/-- The clock passed zero since the timestamp of a context. -/
def wrapped (tNow : UINT) (n : Node) : Bool := tNow < n.timestamp

/-- No first context is due to the microsecond after the clock passed zero. And when nobody is
due, a context that is due within a millisecond has one in the queue that went to sleep no
longer ago than this. -/
def TimersHold (tNow : UINT) (s : Sched) (l : List Addr) : Prop :=
  (∀ a, l.find? (fun b => due tNow (s.mem b)) = some a →
      ¬(wrapped tNow (s.mem a) ∧ elapsed tNow (s.mem a) = (s.mem a).sleepUs))
    ∧ (l.find? (fun b => due tNow (s.mem b)) = none →
        ∀ b ∈ l, defaultSleepUs.toNat ≤ remaining tNow (s.mem b)
          ∨ ∃ c ∈ l, (elapsed tNow (s.mem c)).toNat
              ≤ remaining tNow (s.mem b) + (wrapped tNow (s.mem c)).toNat)

/-! ## The test of one context -/

section

variable {tNow : UINT} {n : Node}

/-- The branch for a clock that passed zero misses the step from `0xFFFFFFFF` to zero. -/
theorem toNat_wrapped_sub {a b : UINT} (h : a < b) :
    (0xFFFFFFFF#32 - b + a).toNat + 1 = (a - b).toNat := by
  have ha := a.isLt
  have hb := b.isLt
  rw [BitVec.lt_def] at h
  have hsub : (0xFFFFFFFF#32 - b).toNat = 4294967295 - b.toNat := by
    rw [BitVec.toNat_sub_of_le]
    · rfl
    · rw [BitVec.le_def]
      show b.toNat ≤ 4294967295
      omega
  rw [BitVec.toNat_add, hsub, BitVec.toNat_sub]
  omega

theorem toNat_tDiff (tNow : UINT) (n : Node) :
    (tDiff tNow n).toNat + (wrapped tNow n).toNat = (elapsed tNow n).toNat := by
  unfold tDiff wrapped elapsed
  by_cases hlt : tNow < n.timestamp
  · rw [if_pos hlt, decide_eq_true hlt, Bool.toNat_true]
    exact toNat_wrapped_sub hlt
  · rw [if_neg hlt, decide_eq_false hlt, Bool.toNat_false, Nat.add_zero]

theorem due_of_awake (h : awake tNow n = true) : due tNow n = true := by
  have hdiff := toNat_tDiff tNow n
  simp only [awake, due, decide_eq_true_eq, BitVec.le_def] at h ⊢
  omega

theorem not_awake_iff (h : due tNow n = true) :
    awake tNow n = false ↔ wrapped tNow n ∧ elapsed tNow n = n.sleepUs := by
  have hdiff := toNat_tDiff tNow n
  simp only [due, decide_eq_true_eq, BitVec.le_def] at h
  simp only [awake, decide_eq_false_iff_not, BitVec.le_def, ← BitVec.toNat_inj]
  cases hwrapped : wrapped tNow n with
  | false =>
    rw [hwrapped, Bool.toNat_false] at hdiff
    simp only [Bool.false_eq_true, false_and, iff_false, not_not]
    omega
  | true =>
    rw [hwrapped, Bool.toNat_true] at hdiff
    simp only [true_and]
    omega

end

/-! ## The whole queue -/

section

variable {tNow : UINT} {s : Sched} {l l₁ l₂ : List Addr} {a : Addr}

/-- A context that is picked is the first one due, if that one is not missed. -/
theorem find_due_eq_iff (hfirst : ∀ b ∈ l₁, awake tNow (s.mem b) = false)
    (ha : awake tNow (s.mem a) = true) :
    (l₁ ++ a :: l₂).find? (fun b => due tNow (s.mem b)) = some a
      ↔ ∀ b, (l₁ ++ a :: l₂).find? (fun b => due tNow (s.mem b)) = some b →
          awake tNow (s.mem b) = true := by
  constructor
  · intro hfind b hb
    rw [hfind] at hb
    rw [← Option.some.inj hb]
    exact ha
  · intro hall
    have hdue := due_of_awake ha
    rw [List.find?_append] at hall ⊢
    cases hfind : l₁.find? (fun b => due tNow (s.mem b)) with
    | some c =>
      -- nobody before `a` is awake
      rw [hfind, Option.some_or] at hall
      have hc := hfirst c (List.mem_of_find?_eq_some hfind)
      rw [hall c rfl] at hc
      exact absurd hc (by decide)
    | none =>
      rw [Option.none_or]
      exact List.find?_cons_of_pos hdue

/-- `dequeue_ctx` on a queue, in terms of its own test. -/
theorem dequeueCtx_spec {q : Places} (h : Represents s q) (tNow : UINT) :
    (∃ us, (∀ b ∈ q.queue, awake tNow (s.mem b) = false)
        ∧ (∀ m : Nat, us.toNat ≤ m ↔ defaultSleepUs.toNat ≤ m
            ∨ ∃ c ∈ q.queue, (tDiff tNow (s.mem c)).toNat ≤ m)
        ∧ dequeueCtx tNow s = some (.inr us, s))
      ∨ ∃ a l₁ l₂ s', q.queue = l₁ ++ a :: l₂ ∧ (∀ b ∈ l₁, awake tNow (s.mem b) = false)
        ∧ awake tNow (s.mem a) = true ∧ dequeueCtx tNow s = some (.inl a, s') := by
  have hl : ∀ b ∈ q.queue, b ∈ s.live := fun b hb => h.mem_live (mem_all_of_queue hb)
  unfold dequeueCtx
  rw [h.ctxQueue]
  rcases dequeueLoop_spec h.queue hl s.walk [] q.queue defaultSleepUs rfl h.length_queue
      (by simp) with hnone | ⟨a, l₁, l₂, hq, hfirst, ha, hloop⟩
  · exact .inl hnone
  · obtain ⟨s', hunlink, -⟩ :=
      unlinkCtx_spec (hq ▸ h.ctxQueue) (hq ▸ h.ctxQueueLast) (hq ▸ h.queue) (hq ▸ h.nodup_queue)
        (hq ▸ hl)
    refine .inr ⟨a, l₁, l₂, s', hq, hfirst, ha, ?_⟩
    rw [hloop, hunlink]
    rfl

/-- The first context due is awake unless the clock passed zero and it is due to the
microsecond. -/
theorem first_awake_iff :
    (∀ a, l.find? (fun b => due tNow (s.mem b)) = some a → awake tNow (s.mem a) = true)
      ↔ ∀ a, l.find? (fun b => due tNow (s.mem b)) = some a →
          ¬(wrapped tNow (s.mem a) ∧ elapsed tNow (s.mem a) = (s.mem a).sleepUs) := by
  apply forall_congr'
  intro a
  apply imp_congr_right
  intro hfind
  have hdue : due tNow (s.mem a) = true := List.find?_some (p := fun b => due tNow (s.mem b)) hfind
  rw [← not_awake_iff hdue, Bool.not_eq_false]

theorem timersExact_of_run {picked : Addr ⊕ UINT} {s' : Sched}
    (hrun : dequeueCtx tNow s = some (picked, s')) :
    TimersExact tNow s l ↔
      (∀ a, picked = .inl a ↔ l.find? (fun b => due tNow (s.mem b)) = some a)
        ∧ ∀ us, picked = .inr us →
          us ≤ defaultSleepUs ∧ ∀ b ∈ l, us.toNat ≤ remaining tNow (s.mem b) := by
  constructor
  · intro h
    obtain ⟨picked', s'', hrun', hpicked, hus⟩ := h
    obtain ⟨rfl, rfl⟩ := Prod.mk.inj (Option.some.inj (hrun.symm.trans hrun'))
    exact ⟨hpicked, hus⟩
  · intro h
    exact ⟨picked, s', hrun, h.1, h.2⟩

/-- For every queue and every time on the clock, `dequeue_ctx` returns the first context whose
time has gone by and else suggests a sleep in which nobody gets late, just if `TimersHold`. -/
theorem timersExact_iff {q : Places} (h : Represents s q) (tNow : UINT) :
    TimersExact tNow s q.queue ↔ TimersHold tNow s q.queue := by
  unfold TimersHold
  rw [← first_awake_iff]
  rcases dequeueCtx_spec h tNow with ⟨us, hnone, hmin, hrun⟩ | ⟨a, l₁, l₂, s', hq, hfirst, ha, hrun⟩
  · -- nobody is picked, so nobody may be due
    rw [timersExact_of_run hrun]
    have hinl : (∀ a, (Sum.inr us : Addr ⊕ UINT) = .inl a
          ↔ q.queue.find? (fun b => due tNow (s.mem b)) = some a)
        ↔ q.queue.find? (fun b => due tNow (s.mem b)) = none := by
      simp only [reduceCtorEq, false_iff, Option.eq_none_iff_forall_ne_some, ne_eq]
    have hfirst : (∀ a, q.queue.find? (fun b => due tNow (s.mem b)) = some a →
          awake tNow (s.mem a) = true)
        ↔ q.queue.find? (fun b => due tNow (s.mem b)) = none := by
      rw [Option.eq_none_iff_forall_ne_some]
      apply forall_congr'
      intro a
      apply imp_congr_right
      intro hfind
      rw [hnone a (List.mem_of_find?_eq_some hfind)]
      decide
    rw [hinl, hfirst]
    apply and_congr_right
    intro hnobody
    have hdefault : us ≤ defaultSleepUs := (hmin _).mpr (.inl le_rfl)
    -- the minimum is small enough if it starts so or some context makes it so
    have hle : ∀ b, us.toNat ≤ remaining tNow (s.mem b)
        ↔ defaultSleepUs.toNat ≤ remaining tNow (s.mem b)
          ∨ ∃ c ∈ q.queue, (elapsed tNow (s.mem c)).toNat
              ≤ remaining tNow (s.mem b) + (wrapped tNow (s.mem c)).toNat := by
      intro b
      rw [hmin]
      simp only [← toNat_tDiff, Nat.add_le_add_iff_right]
    simp only [← hle, hnobody, Sum.inr.injEq, forall_eq', hdefault, true_and, forall_const]
  · rw [timersExact_of_run hrun, hq]
    have hinl : (∀ b, (Sum.inl a : Addr ⊕ UINT) = .inl b
          ↔ (l₁ ++ a :: l₂).find? (fun b => due tNow (s.mem b)) = some b)
        ↔ (l₁ ++ a :: l₂).find? (fun b => due tNow (s.mem b)) = some a := by
      constructor
      · intro hall
        exact (hall a).mp rfl
      · intro hfind b
        rw [hfind, Sum.inl.injEq, Option.some.injEq]
    rw [hinl, find_due_eq_iff hfirst ha]
    simp only [reduceCtorEq, false_implies, implies_true, and_true]
    refine (and_iff_left_of_imp ?_).symm
    -- `a` is due, so that there is a first one
    intro _ hnobody
    have := List.find?_eq_none.mp hnobody a (by simp)
    exact absurd (due_of_awake ha) this

/-- A queue of one context. -/
def oneSleeper (timestamp sleepUs : UINT) : Sched where
  mem _ := { blankNode with timestamp := timestamp, sleepUs := sleepUs }
  live := [4#32]
  ctxQueue := some 4#32
  ctxQueueLast := some 4#32
  ctxDone := none
  ctxRunning := none
  nextCtxId := 2#32

theorem oneSleeper_represents (timestamp sleepUs : UINT) :
    Represents (oneSleeper timestamp sleepUs) ⟨[4#32], none, []⟩ where
  queue := ⟨rfl, rfl, trivial⟩
  done := trivial
  ctxQueue := rfl
  ctxQueueLast := rfl
  ctxDone := rfl
  ctxRunning := rfl
  live := .refl _
  nodup := List.nodup_singleton _

/-- A queue of two contexts. -/
def twoSleepers (timestamp₁ sleepUs₁ timestamp₂ sleepUs₂ : UINT) : Sched where
  mem a :=
    if a = 4#32 then
      { blankNode with timestamp := timestamp₁, sleepUs := sleepUs₁, next := some 8#32 }
    else { blankNode with timestamp := timestamp₂, sleepUs := sleepUs₂, prev := some 4#32 }
  live := [4#32, 8#32]
  ctxQueue := some 4#32
  ctxQueueLast := some 8#32
  ctxDone := none
  ctxRunning := none
  nextCtxId := 3#32

theorem twoSleepers_represents (timestamp₁ sleepUs₁ timestamp₂ sleepUs₂ : UINT) :
    Represents (twoSleepers timestamp₁ sleepUs₁ timestamp₂ sleepUs₂) ⟨[4#32, 8#32], none, []⟩ where
  queue := ⟨rfl, rfl, rfl, rfl, trivial⟩
  done := trivial
  ctxQueue := rfl
  ctxQueueLast := rfl
  ctxDone := rfl
  ctxRunning := rfl
  live := .refl _
  nodup := by decide

/-- The clock has passed zero for one of two contexts. One has slept 100 of its 500 microseconds,
the other one 356. -/
theorem timersExact_twoSleepers :
    Represents (twoSleepers 0#32 500#32 0xFFFFFF00#32 500#32) ⟨[4#32, 8#32], none, []⟩
      ∧ TimersExact 100#32 (twoSleepers 0#32 500#32 0xFFFFFF00#32 500#32) [4#32, 8#32] := by
  have hrep := twoSleepers_represents 0#32 500#32 0xFFFFFF00#32 500#32
  have hnone : [4#32, 8#32].find? (fun b => due 100#32
      ((twoSleepers 0#32 500#32 0xFFFFFF00#32 500#32).mem b)) = none := by decide
  refine ⟨hrep, (timersExact_iff hrep 100#32).mpr ⟨fun a ha => ?_, fun _ b hb => .inr ?_⟩⟩
  · cases hnone.symm.trans ha
  · -- the suggestion is 100 microseconds
    refine ⟨4#32, by simp, ?_⟩
    rcases List.mem_cons.mp hb with rfl | hb
    · decide
    · rw [List.mem_singleton.mp hb]
      decide

/-- A context that has slept 400 of its 500 microseconds is to wait for another 400. And one that
went to sleep for 5 microseconds a microsecond before the clock passed zero is not due when the
clock is at 4. -/
theorem not_timersExact_oneSleeper :
    (∀ timestamp sleepUs, Represents (oneSleeper timestamp sleepUs) ⟨[4#32], none, []⟩)
      ∧ ¬TimersExact 400#32 (oneSleeper 0#32 500#32) [4#32]
      ∧ ¬TimersExact 4#32 (oneSleeper 0xFFFFFFFF#32 5#32) [4#32] := by
  refine ⟨oneSleeper_represents, ?_, ?_⟩
  · intro h
    have hrun : dequeueCtx 400#32 (oneSleeper 0#32 500#32)
        = some (.inr 400#32, oneSleeper 0#32 500#32) := rfl
    have hus := ((timersExact_of_run hrun).mp h).2 400#32 rfl
    exact absurd (hus.2 4#32 (by simp)) (by decide)
  · intro h
    have hrun : dequeueCtx 4#32 (oneSleeper 0xFFFFFFFF#32 5#32)
        = some (.inr 4#32, oneSleeper 0xFFFFFFFF#32 5#32) := rfl
    exact absurd (((timersExact_of_run hrun).mp h).1 4#32) (by decide)

end

end Scheduler

end LispBM
