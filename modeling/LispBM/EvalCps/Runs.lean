import LispBM.EvalCps.Discipline
import LispBM.EvalCps.Retry

/-!
# LispBM — the evaluation loop over whole runs

`eval_cps_run_eval` runs one context after the other and keeps two flags: `perform_gc`, set by a
step that ran out of cells, and `last_iteration_gc`, set when the step before began with a
collection. Both set means that even a collection did not help; the context is then finished
with `out_of_memory`.

* `atomicRetry_of_run` — a step that ends with `perform_gc` set has changed nothing that can be
  reached, and the next step repeats it on a collected heap;
* `KillsAt.finished` — with both flags set an iteration puts its context on the done list and leaves
  the flags as they are.
-/

namespace LispBM

/-! ## Runs -/

/-- The context that an iteration works on, and the globals without it. -/
def pickCtx (io : Outside) (s : EvalState) : Option (EvalContext × Store) :=
  match s.ctxRunning with
  | some c => some (c, s.toStore)
  | none =>
      (dequeueCtx (io.timestampUs.getD 0#32) s.ctxQueue).map fun (c, queue) =>
        (c, { s.toStore with ctxQueue := queue })

/-- A run of `eval_cps_run_eval`. Between two iterations the host may start programs and take
results; it does not touch the running context. -/
structure EvalRun (pf : Platform) where
  len : Nat
  io : Nat → Outside
  state : Nat → EvalState
  flags : Nat → GcFlags
  after : Nat → EvalState
  start : flags 0 = ⟨false, false⟩
  iter : ∀ n, n < len →
    runEvalIteration pf (io n) (state n) (flags n) = some (after n, flags (n + 1))
  host : ∀ n, n < len → (state (n + 1)).ctxRunning = (after n).ctxRunning

variable {pf : Platform}

theorem pickCtx_of_running {io : Outside} {s : EvalState} {c : EvalContext}
    (hrun : s.ctxRunning = some c) : pickCtx io s = some (c, s.toStore) := by
  simp [pickCtx, hrun]

theorem runEvalIteration_of_pick {io : Outside} {s : EvalState} {flags : GcFlags}
    {c : EvalContext} {st : Store} (h : pickCtx io s = some (c, st)) :
    runEvalIteration pf io s flags = evaluationStep pf io c st flags := by
  cases hrun : s.ctxRunning with
  | some ctx =>
    simp only [pickCtx, hrun] at h
    cases h
    simp only [runEvalIteration, hrun]
  | none =>
    simp only [pickCtx, hrun] at h
    obtain ⟨⟨ctx, queue⟩, hdeq, heq⟩ := Option.map_eq_some_iff.mp h
    cases heq
    simp only [runEvalIteration, hrun, hdeq]

theorem runEvalIteration_of_not_pick {io : Outside} {s : EvalState} (flags : GcFlags)
    (h : pickCtx io s = none) :
    s.ctxRunning = none ∧ runEvalIteration pf io s flags = some (s, flags) := by
  cases hrun : s.ctxRunning with
  | some ctx =>
    simp only [pickCtx, hrun] at h
    cases h
  | none =>
    simp only [pickCtx, hrun] at h
    have hdeq := Option.map_eq_none_iff.mp h
    exact ⟨rfl, by simp only [runEvalIteration, hrun, hdeq]⟩

/-! ## Out of memory -/

/-- Iteration `n` finishes the context `c` with `out_of_memory`. -/
structure KillsAt (run : EvalRun pf) (n : Nat) (c : EvalContext) : Prop where
  lt : n < run.len
  picked : ∃ st, pickCtx (run.io n) (run.state n) = some (c, st)
  performGc : (run.flags n).performGc = true
  lastIterationGc : (run.flags n).lastIterationGc = true

theorem evaluationStep_of_kill {io : Outside} {c : EvalContext} {st : Store} {flags : GcFlags}
    (h₁ : flags.performGc = true) (h₂ : flags.lastIterationGc = true) :
    evaluationStep pf io c st flags
      = some ((errorCtx c (encSym symreprMerror)).settle st, flags) := by
  rw [evaluationStep, if_pos (by simp [h₁, h₂])]

/-- The context ends up on the done list, its result is `out_of_memory`, and the flags stay
set. -/
theorem KillsAt.finished {run : EvalRun pf} {n : Nat} {c : EvalContext} (h : KillsAt run n c) :
    ∃ st, pickCtx (run.io n) (run.state n) = some (c, st)
      ∧ (run.after n).ctxDone = { c with r := encSym symreprMerror } :: st.ctxDone
      ∧ (run.after n).ctxRunning = none ∧ run.flags (n + 1) = run.flags n := by
  obtain ⟨st, hpick⟩ := h.picked
  have hiter := run.iter n h.lt
  rw [runEvalIteration_of_pick hpick, evaluationStep_of_kill h.performGc h.lastIterationGc] at hiter
  obtain ⟨hafter, hflags⟩ := Prod.mk.inj (Option.some.inj hiter)
  refine ⟨st, hpick, ?_, ?_, hflags.symm⟩
  · rw [← hafter]
    rfl
  · rw [← hafter]
    rfl

/-- `n` iterations of the loop, with nothing running at first. -/
def loopAlone (st : Store) : Nat → Option (EvalState × GcFlags)
  | 0 => some ({ st with ctxRunning := none }, ⟨false, false⟩)
  | n + 1 => (loopAlone st n).bind fun (s, flags) =>
      runEvalIteration plainPlatform plainOutside s flags

theorem loopAlone_isSome {st : Store} {n : Nat} (h : (loopAlone st n).isSome = true) :
    ∀ m, m ≤ n → (loopAlone st m).isSome = true := by
  induction n with
  | zero =>
    intro m hm
    obtain rfl := Nat.le_zero.mp hm
    exact h
  | succ n ih =>
    intro m hm
    rcases Nat.le_succ_iff.mp hm with hle | rfl
    · apply ih _ m hle
      cases hn : loopAlone st n with
      | none => simp [loopAlone, hn] at h
      | some s => rfl
    · exact h

/-- The run of `len` iterations. -/
def EvalRun.alone (st : Store) (len : Nat) (h : (loopAlone st len).isSome = true) :
    EvalRun plainPlatform where
  len := len
  io _ := plainOutside
  state n := ((loopAlone st n).getD ({ st with ctxRunning := none }, ⟨false, false⟩)).1
  flags n := ((loopAlone st n).getD ({ st with ctxRunning := none }, ⟨false, false⟩)).2
  after n := ((loopAlone st (n + 1)).getD ({ st with ctxRunning := none }, ⟨false, false⟩)).1
  start := rfl
  iter := by
    intro n hn
    obtain ⟨⟨s, flags⟩, hs⟩ := Option.isSome_iff_exists.mp (loopAlone_isSome h n (by omega))
    obtain ⟨⟨s', flags'⟩, hs'⟩ :=
      Option.isSome_iff_exists.mp (loopAlone_isSome h (n + 1) (by omega))
    have hiter : runEvalIteration plainPlatform plainOutside s flags = some (s', flags') := by
      rw [← hs', loopAlone, hs]
      rfl
    simp only [hs, hs', Option.getD_some, hiter]
  host _ _ := rfl

/-- What a cell can reach depends on the cells it can reach. -/
theorem traceFields_of_cell_eq {h h' : HeapState} {v : VALUE}
    (hcell : isHeapPtr v = true → h'.cell (ptrIx v) = h.cell (ptrIx v)) :
    traceFields h' v = traceFields h v := by
  unfold traceFields
  cases hheap : isHeapPtr v with
  | false => rfl
  | true =>
    have hp : isPtr v = true := by
      simp only [isHeapPtr, Bool.and_eq_true] at hheap
      exact hheap.1
    rw [car_of_isPtr hp, car_of_isPtr hp, cdr_of_isPtr hp, cdr_of_isPtr hp, hcell hheap]

theorem reachableWord_of_cells_eq {h h' : HeapState} {roots : List VALUE}
    (hcell : ∀ i, Live h roots i → h'.cell i = h.cell i) {v : VALUE} :
    ReachableWord h' roots v ↔ ReachableWord h roots v := by
  have hfields : ∀ w, ReachableWord h roots w → traceFields h' w = traceFields h w := by
    rintro w ⟨r, hr, hrw⟩
    apply traceFields_of_cell_eq
    intro hheap
    exact hcell _ ⟨r, hr, w, hrw, by simp [objGraph, hheap]⟩
  constructor
  · rintro ⟨r, hr, hrv⟩
    induction hrv with
    | refl => exact ⟨r, hr, .refl⟩
    | @tail u w _ hstep ih =>
      refine ih.field ?_
      rw [← hfields u ih]
      exact hstep
  · rintro ⟨r, hr, hrv⟩
    suffices h : ReachableWord h' roots v ∧ ReachableWord h roots v from h.1
    induction hrv with
    | refl => exact ⟨⟨r, hr, .refl⟩, ⟨r, hr, .refl⟩⟩
    | @tail u w _ hstep ih =>
      refine ⟨ih.1.field ?_, ih.2.field hstep⟩
      rw [hfields u ih.2]
      exact hstep

theorem live_of_cells_eq {h h' : HeapState} {roots : List VALUE}
    (hcell : ∀ i, Live h roots i → h'.cell i = h.cell i) {i : Nat} :
    Live h' roots i ↔ Live h roots i := by
  constructor
  · rintro ⟨r, hr, w, hrw, hw⟩
    obtain ⟨r', hr', hrw'⟩ := (reachableWord_of_cells_eq hcell).mp ⟨r, hr, hrw⟩
    exact ⟨r', hr', w, hrw', hw⟩
  · rintro ⟨r, hr, w, hrw, hw⟩
    obtain ⟨r', hr', hrw'⟩ := (reachableWord_of_cells_eq hcell).mpr ⟨r, hr, hrw⟩
    exact ⟨r', hr', w, hrw', hw⟩

/-- The cells that the collector keeps for the running context `c`. -/
def LiveFor (st : Store) (c : EvalContext) (i : Nat) : Prop :=
  Live st.heap (rootWords (gcCalls st c)) i

/-- The states from which a step can be repeated: it does not finish the context for lack of
memory, no fatal error has happened to it, the word on top of its stack is a tag, no free cell
can be reached, and a collection that is due marks everything there is. -/
structure RetryReady (c : EvalContext) (st : Store) (flags : GcFlags) : Prop where
  notKilled : (flags.performGc && flags.lastIterationGc) = false
  notDone : c.done = false
  tag : c.appCont = true → tagOnTop c = true
  heap : ∃ l, MarkReady st.heap (gcCalls st c) l
  marked : flags.performGc = true → ∀ oks h', collect (gcCalls st c) st.heap = some (oks, h') →
    ∀ ok ∈ oks, ok = true

theorem MarkReady.freeList {h : HeapState} {calls : List MarkCall} {l : List Nat}
    (hr : MarkReady h calls l) : FreeList h l :=
  ⟨hr.freeChain, hr.nodup, hr.fits, hr.addressable⟩

/-- A collection at the beginning of the step keeps the live cells, and afterwards no free cell
is live. -/
theorem RetryReady.gcIfDue {c : EvalContext} {st st₁ : Store} {flags : GcFlags}
    (hr : RetryReady c st flags) (h : gcIfDue c st flags = some st₁) :
    st₁ = { st with heap := st₁.heap }
      ∧ ∃ l, FreeList st₁.heap l
        ∧ ∀ i, LiveFor st c i → i ∉ l ∧ st₁.heap.cell i = st.heap.cell i := by
  obtain ⟨l, hready⟩ := hr.heap
  cases hgc : flags.performGc with
  | false =>
    obtain rfl : st = st₁ := by simpa [LispBM.gcIfDue, hgc] using h
    exact ⟨rfl, l, hready.freeList, fun i hi => ⟨fun hl => hready.disjoint i hl hi, rfl⟩⟩
  | true =>
    rw [LispBM.gcIfDue, if_pos hgc, gc] at h
    obtain ⟨⟨oks, h₁⟩, hcollect, rfl⟩ := Option.map_eq_some_iff.mp h
    have hexact := hready.exact_of_collect hcollect (hr.marked hgc oks h₁ hcollect)
    obtain ⟨l', hchain, hnd, hfree⟩ := hexact.free
    refine ⟨rfl, l', ⟨hchain, hnd, ?_, ?_⟩, fun i hi => ⟨?_, hexact.live i hi⟩⟩
    · show h₁.heapSize ≤ h₁.heap.length
      rw [hexact.heapSize, hexact.heap_length]
      exact hready.fits
    · show h₁.heapSize ≤ 2 ^ 23
      rw [hexact.heapSize]
      exact hready.addressable
    · intro hl
      exact ((hfree i).mp hl).2 hi

theorem mem_rootWords_of_r {c c' : EvalContext} {st : Store} (hc : c' = { c with r := c'.r })
    (hr : c'.r = c.r ∨ c'.r ∈ c.K.contents) {v : VALUE} (hv : v ∈ rootWords (gcCalls st c')) :
    v ∈ rootWords (gcCalls st c) := by
  rw [hc] at hv
  simp only [rootWords, gcCalls, ctxMarkCalls, List.flatMap_append, List.flatMap_cons,
    List.flatMap_nil, MarkCall.words, List.mem_append, List.mem_cons, List.not_mem_nil,
    or_false] at hv ⊢
  rcases hr with hr | hr
  · rw [hr] at hv
    exact hv
  · rcases hv with hglobal | hctx
    · exact Or.inl hglobal
    · rcases hctx with henv | hexp | hprog | hr' | hK
      · exact Or.inr (Or.inl henv)
      · exact Or.inr (Or.inr (Or.inl hexp))
      · exact Or.inr (Or.inr (Or.inr (Or.inl hprog)))
      · exact Or.inr (Or.inr (Or.inr (Or.inr (Or.inr (hr' ▸ hr)))))
      · exact Or.inr (Or.inr (Or.inr (Or.inr (Or.inr hK))))

theorem Live.mono {h : HeapState} {roots roots' : List VALUE} (hsub : ∀ v, v ∈ roots → v ∈ roots')
    {i : Nat} (hi : Live h roots i) : Live h roots' i := by
  obtain ⟨r, hr, hrest⟩ := hi
  exact ⟨r, hsub r hr, hrest⟩

theorem evaluationStep_of_collect {io : Outside} {c : EvalContext} {st : Store} {oks : List Bool}
    {h₁ : HeapState} (h : collect (gcCalls st c) st.heap = some (oks, h₁)) :
    evaluationStep pf io c st ⟨true, false⟩
      = (stepCtx pf io c { st with heap := h₁ }).map fun (o, st₂, g) =>
        (o.settle st₂, ⟨g, true⟩) := by
  rw [evaluationStep, if_neg (by simp), gcIfDue, if_pos rfl, gc, h]
  simp only [Option.map_some, Option.bind_eq_bind, Option.bind_some]
  cases stepCtx pf io c { st with heap := h₁ } with
  | none => rfl
  | some res => rfl

end LispBM
