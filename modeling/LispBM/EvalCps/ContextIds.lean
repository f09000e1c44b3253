import LispBM.EvalCps.Contexts
import LispBM.Heap.Lists

/-!
# LispBM — context ids

`next_ctx_id` has 32 bits and an id has 16: from the 65536th context on, ids are 0 or occur
again. `SPAWN_ALL` puts the next id into its list before it calls `create_ctx`, and does not look
at the result. As long as the counter is below 2^16 whenever a context is created, and every
`create_ctx` of a `spawn` succeeds, ids identify contexts (`contextIds`).
-/

namespace LispBM

/-! ## Lists of ids -/

/-- The ids `ids` are in use, and `next` is the next one. -/
structure IdsOk (next : UINT) (ids : List CID) : Prop where
  nodup : ids.Nodup
  nonzero : 0#16 ∉ ids
  below : next = 0#32 ∨ 2 ^ 16 ≤ next.toNat ∨ ∀ i ∈ ids, i.toNat < next.toNat

section

variable {next : UINT} {ids ids' : List CID}

theorem IdsOk.perm (h : IdsOk next ids) (hperm : ids'.Perm ids) : IdsOk next ids' where
  nodup := hperm.nodup_iff.mpr h.nodup
  nonzero := fun hmem => h.nonzero (hperm.subset hmem)
  below := h.below.imp_right fun hb => hb.imp_right fun hlt i hi => hlt i (hperm.subset hi)

theorem IdsOk.sublist (h : IdsOk next ids) (hsub : ids'.Sublist ids) : IdsOk next ids' where
  nodup := h.nodup.sublist hsub
  nonzero := fun hmem => h.nonzero (hsub.subset hmem)
  below := h.below.imp_right fun hb => hb.imp_right fun hlt i hi => hlt i (hsub.subset hi)

/-- An id that is used up without a context. -/
theorem IdsOk.skip (h : IdsOk next ids) (hnext : next ≠ 0#32) : IdsOk (next + 1#32) ids where
  nodup := h.nodup
  nonzero := h.nonzero
  below := by
    by_cases hzero : next + 1#32 = 0#32
    · exact Or.inl hzero
    have hadd : (next + 1#32).toNat = next.toNat + 1 := by bv_omega
    refine Or.inr ?_
    rw [hadd]
    rcases h.below with h0 | hbig | hsmall
    · exact absurd h0 hnext
    · exact Or.inl (by omega)
    · refine Or.inr fun i hi => ?_
      have := hsmall i hi
      omega

/-- A new context takes the next id. -/
theorem IdsOk.create (h : IdsOk next ids) (hnext : next ≠ 0#32) (hlt : next.toNat < 2 ^ 16) :
    IdsOk (next + 1#32) (next.setWidth 16 :: ids) := by
  have hid : (next.setWidth 16).toNat = next.toNat := by
    rw [BitVec.toNat_setWidth]
    omega
  have hadd : (next + 1#32).toNat = next.toNat + 1 := by bv_omega
  have hbelow : ∀ i ∈ ids, i.toNat < next.toNat := by
    rcases h.below with h0 | hbig | hsmall
    · exact absurd h0 hnext
    · omega
    · exact hsmall
  refine ⟨List.nodup_cons.mpr ⟨fun hmem => ?_, h.nodup⟩, fun hmem => ?_, Or.inr (Or.inr ?_)⟩
  · have := hbelow _ hmem
    omega
  · rcases List.mem_cons.mp hmem with heq | hmem
    · apply hnext
      apply BitVec.eq_of_toNat_eq
      rw [← hid, ← heq]
      rfl
    · exact h.nonzero hmem
  · intro i hi
    rw [hadd]
    rcases List.mem_cons.mp hi with rfl | hi
    · omega
    · have := hbelow i hi
      omega

end

/-! ## One step -/

/-- The ids of all contexts. -/
def EvalState.ids (s : EvalState) : List CID := s.contexts.map (·.id)

/-- The ids in the queue and on the done list. -/
def Store.ids (st : Store) : List CID := (st.ctxQueue ++ st.ctxDone).map (·.id)

section

variable {pf : Platform} {io : Outside} {s s' : EvalState} {st st' : Store} {ctx : EvalContext}
  {flags flags' : GcFlags}

theorem removeDoneCtx_sublist {cid : CID} : ∀ {done done' : List EvalContext} {v : VALUE},
    removeDoneCtx cid done = some (v, done') → done'.Sublist done
  | [], _, _, h => by cases h
  | c :: done, done', v, h => by
    rw [removeDoneCtx] at h
    split at h
    · cases h
      exact List.sublist_cons_self c done
    · obtain ⟨⟨w, rest⟩, hrest, heq⟩ := Option.map_eq_some_iff.mp h
      cases heq
      exact (removeDoneCtx_sublist hrest).cons_cons c

/-- A `create_ctx` call that creates a context only while the counter fits into an id. -/
theorem createCtx_idsOk {program env : VALUE} {stackSize : StackSize} {growStack : Bool}
    {ids : List CID}
    (h : IdsOk st.nextCtxId (ids ++ st.ids))
    (hok : canCreate io program stackSize growStack st = true → st.nextCtxId.toNat < 2 ^ 16) :
    IdsOk (createCtx io program env stackSize growStack st).2.nextCtxId
      (ids ++ (createCtx io program env stackSize growStack st).2.ids) := by
  cases hcan : canCreate io program stackSize growStack st with
  | false =>
    obtain ⟨-, next, hnext, heq⟩ := @createCtx_of_not _ _ _ env _ _ hcan
    rw [heq]
    rcases hnext with rfl | ⟨hne, rfl⟩
    · exact h
    · exact h.skip hne
  | true =>
    obtain ⟨hne, K, heq⟩ := @createCtx_of_canCreate _ _ _ env _ _ hcan
    rw [heq]
    refine (h.create hne (hok hcan)).perm ?_
    simp only [Store.ids, List.map_append, List.map_cons, newCtx, List.append_assoc,
      List.cons_append, List.nil_append]
    rw [← List.append_assoc, ← List.append_assoc]
    exact List.perm_middle

theorem ids_settle (o : Outcome) (st : Store) : (o.settle st).ids.Perm (o.ctx.id :: st.ids) := by
  cases o with
  | running c => exact List.Perm.refl _
  | fatal c => exact List.Perm.refl _
  | finished c =>
    simp only [EvalState.ids, EvalState.contexts, Outcome.settle, Outcome.ctx, Store.ids,
      Option.toList_none, List.nil_append, List.map_append, List.map_cons]
    exact List.perm_middle
  | yielded c =>
    simp only [EvalState.ids, EvalState.contexts, Outcome.settle, Outcome.ctx, Store.ids,
      Option.toList_none, List.nil_append, List.map_append, List.map_cons, List.append_assoc,
      List.cons_append]
    exact List.perm_middle

theorem ids_pick (h : pickCtx io s = some (ctx, st)) :
    s.ids.Perm (ctx.id :: st.ids) ∧ st.nextCtxId = s.nextCtxId := by
  unfold pickCtx at h
  split at h
  · next c hrun =>
    cases h
    refine ⟨?_, rfl⟩
    simp [EvalState.ids, EvalState.contexts, hrun, Store.ids]
  · next hrun =>
    obtain ⟨⟨c, queue⟩, hdeq, heq⟩ := Option.map_eq_some_iff.mp h
    cases heq
    refine ⟨?_, rfl⟩
    have hperm := (dequeueCtx_perm hdeq).symm
    have := (hperm.append_right s.ctxDone).map (·.id)
    simpa [EvalState.ids, EvalState.contexts, hrun, Store.ids] using this

/-- The `create_ctx` call of an iteration, if it makes one, meets `P`. -/
def SpawnsOk (io : Outside) (s : EvalState) (flags : GcFlags) (P : VALUE → Store → Prop) : Prop :=
  ∀ ctx st st₁ program, pickCtx io s = some (ctx, st) → gcIfDue ctx st flags = some st₁ →
    spawnProgram ctx st₁ = some program → P program st₁

/-- **An iteration keeps the ids apart.** -/
theorem runEvalIteration_idsOk (hext : ExtensionsApart pf) (h : IdsOk s.nextCtxId s.ids)
    (hok : SpawnsOk io s flags fun _ st => st.nextCtxId.toNat < 2 ^ 16)
    (hiter : runEvalIteration pf io s flags = some (s', flags')) : IdsOk s'.nextCtxId s'.ids := by
  cases hpick : pickCtx io s with
  | none =>
    rw [(runEvalIteration_of_not_pick flags hpick).2] at hiter
    cases hiter
    exact h
  | some picked =>
    obtain ⟨ctx, st⟩ := picked
    rw [runEvalIteration_of_pick hpick] at hiter
    obtain ⟨hperm, hnext⟩ := ids_pick hpick
    have hst : IdsOk st.nextCtxId (ctx.id :: st.ids) := by
      rw [hnext]
      exact h.perm hperm.symm
    cases hkill : (flags.performGc && flags.lastIterationGc) with
    | true =>
      simp only [Bool.and_eq_true] at hkill
      rw [evaluationStep_of_kill hkill.1 hkill.2] at hiter
      cases hiter
      exact hst.perm (ids_settle _ _)
    | false =>
      obtain ⟨st₁, o, st', g, hdue, hstep, rfl, rfl⟩ := evaluationStep_eq hkill hiter
      obtain ⟨hqueue₁, hdone₁, hnext₁⟩ := gcIfDue_keeps hdue
      have hst₁ : IdsOk st₁.nextCtxId (ctx.id :: st₁.ids) := by
        rw [hnext₁, Store.ids, hqueue₁, hdone₁]
        exact hst
      obtain ⟨hid, heffect⟩ := stepCtx_effect hext hstep
      have hst' : IdsOk st'.nextCtxId (ctx.id :: st'.ids) := by
        cases heffect with
        | keeps hk =>
          rw [hk.next, Store.ids, hk.queue, hk.done]
          exact hst₁
        | takes cid v hdone hqueue hnext =>
          rw [hnext, Store.ids, hqueue]
          refine hst₁.sublist (List.Sublist.cons_cons _ ?_)
          exact ((removeDoneCtx_sublist hdone).append_left _).map _
        | spawns program env hprogram heq =>
          rw [heq]
          have hlt := hok ctx st st₁ program hpick hdue hprogram
          exact @createCtx_idsOk _ { st₁ with heap := (cons (encI st₁.nextCtxId) ctx.r st₁.heap).2 }
            _ _ _ _ [ctx.id] hst₁ (fun _ => hlt)
      rw [← hid] at hst'
      have hsettle : (o.settle st').nextCtxId = st'.nextCtxId := by cases o <;> rfl
      rw [hsettle]
      exact hst'.perm (ids_settle _ _)

end

/-! ## The steps of a `spawn` -/

/-- The programs of a `spawn` form. -/
def spawnArgs (h : HeapState) (exp : VALUE) : Option VALUE :=
  if typeOf exp == ptrTypeCons && typeOf (car h exp) == valTypeSymbol
      && decSym (car h exp) == symreprSpawn then some (cdr h exp)
  else none

/-- The context is about to go on with a `SPAWN_ALL` frame for the programs `rest`. -/
def SpawnFrame (c : EvalContext) (rest : VALUE) : Prop :=
  c.appCont = true ∧ ∃ k env, c.K.contents = k ++ [env, rest, encU contSpawnAll]

/-- The element of the list of ids for a context. -/
def idWord (c : CID) : VALUE := encI (c.setWidth 32)

/-- The free list is intact, and a collection that is due finds a well-formed heap and marks
everything there is. -/
structure HeapReady (c : EvalContext) (st : Store) (flags : GcFlags) : Prop where
  freeList : ∃ l, FreeList st.heap l
  collects : flags.performGc = true → ∃ l, MarkReady st.heap (gcCalls st c) l
    ∧ ∀ oks h', collect (gcCalls st c) st.heap = some (oks, h') → ∀ ok ∈ oks, ok = true

section

variable {pf : Platform} {io : Outside} {c : EvalContext} {st st₁ st' : Store} {flags : GcFlags}
  {v rest : VALUE} {ws : List VALUE} {o : Outcome} {g : Bool}

/-- A collection at the beginning of a step keeps what the context refers to. -/
theorem HeapReady.gcIfDue (hr : HeapReady c st flags) (hdue : gcIfDue c st flags = some st₁) :
    (flags.performGc = false ∧ st₁ = st)
      ∨ (st₁ = { st with heap := st₁.heap } ∧ ∃ l, FreeList st₁.heap l
        ∧ ∀ i, LiveFor st c i → i ∉ l ∧ st₁.heap.cell i = st.heap.cell i) := by
  cases hgc : flags.performGc with
  | false =>
    refine Or.inl ⟨rfl, ?_⟩
    rw [LispBM.gcIfDue, hgc] at hdue
    exact (Option.some.inj hdue).symm
  | true =>
    obtain ⟨l, hready, hmarked⟩ := hr.collects hgc
    rw [LispBM.gcIfDue, if_pos hgc, gc] at hdue
    obtain ⟨⟨oks, h₁⟩, hcollect, rfl⟩ := Option.map_eq_some_iff.mp hdue
    have hexact := hready.exact_of_collect hcollect (hmarked oks h₁ hcollect)
    obtain ⟨l', hchain, hnd, hfree⟩ := hexact.free
    have hfits : h₁.heapSize ≤ h₁.heap.length := by
      rw [hexact.heapSize, hexact.heap_length]
      exact hready.fits
    have haddr : h₁.heapSize ≤ 2 ^ 23 := by
      rw [hexact.heapSize]
      exact hready.addressable
    refine Or.inr ⟨rfl, l', ⟨hchain, hnd, hfits, haddr⟩, fun i hi => ⟨?_, hexact.live i hi⟩⟩
    exact fun hl => ((hfree i).mp hl).2 hi

theorem HeapReady.holding (hr : HeapReady c st flags) (hdue : LispBM.gcIfDue c st flags = some st₁)
    (hh : Holding st.heap v ws) (hv : ws = [] ∨ v ∈ rootWords (gcCalls st c)) :
    Holding st₁.heap v ws := by
  rcases hr.gcIfDue hdue with ⟨-, rfl⟩ | ⟨-, l', hfree', hlive⟩
  · exact hh
  obtain ⟨is, l, hlist, -, -⟩ := hh
  have hcells : ∀ i ∈ is, LiveFor st c i := by
    rcases hv with rfl | hv
    · cases hlist
      simp
    · exact hlist.live ⟨v, hv, .refl⟩
  exact ⟨is, l', hlist.congr fun i hi => (hlive i (hcells i hi)).2, hfree',
    fun i hi => (hlive i (hcells i hi)).1⟩

theorem r_mem_rootWords (c : EvalContext) (st : Store) : c.r ∈ rootWords (gcCalls st c) := by
  simp [rootWords, gcCalls, ctxMarkCalls, MarkCall.words]

theorem currExp_mem_rootWords (c : EvalContext) (st : Store) :
    c.currExp ∈ rootWords (gcCalls st c) := by
  simp [rootWords, gcCalls, ctxMarkCalls, MarkCall.words]

theorem HeapReady.spawnArgs_eq (hr : HeapReady c st flags)
    (hdue : LispBM.gcIfDue c st flags = some st₁) :
    spawnArgs st₁.heap c.currExp = spawnArgs st.heap c.currExp := by
  rcases hr.gcIfDue hdue with ⟨-, rfl⟩ | ⟨-, l', -, hlive⟩
  · rfl
  by_cases hty : typeOf c.currExp = ptrTypeCons
  · have hp := isPtr_of_typeOf_cons hty
    have hl : LiveFor st c (ptrIx c.currExp) :=
      ⟨c.currExp, currExp_mem_rootWords c st, c.currExp, .refl,
        by simp [objGraph, isHeapPtr_of_cons hty]⟩
    have hcell := (hlive _ hl).2
    have hcar : car st₁.heap c.currExp = car st.heap c.currExp := by
      rw [car_of_isPtr hp, car_of_isPtr hp, hcell]
    have hcdr : cdr st₁.heap c.currExp = cdr st.heap c.currExp := by
      rw [cdr_of_isPtr hp, cdr_of_isPtr hp, hcell]
    rw [spawnArgs, spawnArgs, hcar, hcdr]
  · simp [spawnArgs, hty]

/-- The evaluation of a `spawn` form begins with the empty list. -/
theorem stepCtx_spawnForm {args : VALUE} (ha : c.appCont = false)
    (hargs : spawnArgs st.heap c.currExp = some args) (h : stepCtx pf io c st = some (o, st', g)) :
    st' = st ∧ ∀ c', (o.settle st').ctxRunning = some c' → c'.r = NIL := by
  unfold spawnArgs at hargs
  split at hargs
  swap
  · cases hargs
  next hform =>
  simp only [Bool.and_eq_true, beq_iff_eq] at hform
  obtain ⟨⟨hty, hsym⟩, hspawn⟩ := hform
  have hexp : evalExp pf io c st = evalForm io c st := by
    simp only [evalExp, hty]
    rfl
  have hform : evalForm io c st = some (evalSpawn io c st) := by
    simp only [evalForm, hsym, hspawn]
    rfl
  rw [stepCtx, if_neg (by simp [ha]), hexp, hform] at h
  have h := Option.some.inj h
  unfold evalSpawn at h
  simp only at h
  split at h
  · cases h
    refine ⟨rfl, fun c' hc' => ?_⟩
    obtain rfl := Option.some.inj hc'
    rfl
  · split at h
    · cases h
      exact ⟨rfl, fun c' hc' => absurd hc' (by simp [Outcome.settle, fof, errorCtx])⟩
    · cases h
      refine ⟨rfl, fun c' hc' => ?_⟩
      obtain rfl := Option.some.inj hc'
      rfl

theorem spawnFrame_pops (hframe : SpawnFrame c rest) :
    ∃ K₁ K₂ K₃ env, popU32 c.K = some (encU contSpawnAll, K₁) ∧ popU32 K₁ = some (rest, K₂)
      ∧ popU32 K₂ = some (env, K₃)
      ∧ stepCtx pf io c st
        = contSpawnAllCase io { c with K := K₁, appCont := false } st := by
  obtain ⟨ha, k, env, hK⟩ := hframe
  obtain ⟨K₁, K₂, K₃, hpop₁, hpop₂, hpop₃, -⟩ := popU32_three_of_contents hK
  refine ⟨K₁, K₂, K₃, env, hpop₁, hpop₂, hpop₃, ?_⟩
  rw [stepCtx, if_pos ha, applyContinuation, hpop₁]
  rfl

/-- The last step of a `spawn` leaves the list in `r`. -/
theorem stepCtx_spawnFrame_nil (hframe : SpawnFrame c NIL)
    (h : stepCtx pf io c st = some (o, st', g)) :
    st' = st ∧ ∃ K, o = .running { c with K := K } := by
  obtain ⟨K₁, K₂, K₃, env, hpop₁, hpop₂, hpop₃, hstep⟩ :=
    @spawnFrame_pops pf io _ st _ hframe
  rw [hstep, contSpawnAllCase, hpop₂] at h
  simp only [Option.bind_eq_bind, Option.bind_some, hpop₃] at h
  cases h
  refine ⟨rfl, K₃, ?_⟩
  rw [← hframe.1]

theorem idWord_next {next : UINT} (hlt : next.toNat < 2 ^ 16) :
    idWord (next.setWidth 16) = encI next := by
  have hwide : (next.setWidth 16).setWidth 32 = next := by
    apply BitVec.eq_of_toNat_eq
    simp only [BitVec.toNat_setWidth]
    omega
  rw [idWord, hwide]

/-- **One program of a `spawn`.** The context that the step creates, if any, goes to the end of
the queue, and its id to the front of the list. -/
theorem stepCtx_spawnFrame_next (hframe : SpawnFrame c rest) (hrest : rest ≠ NIL)
    (hh : Holding st.heap c.r ws)
    (hok : ∀ program, spawnProgram c st = some program →
      canCreate io program evalCpsDefaultStackSize evalCpsDefaultStackGrowPolicy st = true
        ∧ st.nextCtxId.toNat < 2 ^ 16)
    (h : stepCtx pf io c st = some (o, st', g)) :
    ∃ new : List EvalContext, (o.settle st').ctxQueue = st.ctxQueue ++ new
      ∧ ∀ c', (o.settle st').ctxRunning = some c' → c'.appCont = true →
        Holding (o.settle st').heap c'.r ((new.map fun c => idWord c.id).reverse ++ ws) := by
  obtain ⟨K₁, K₂, K₃, env, hpop₁, hpop₂, hpop₃, hstep⟩ :=
    @spawnFrame_pops pf io _ st _ hframe
  rw [hstep, contSpawnAllCase, hpop₂] at h
  simp only [Option.bind_eq_bind, Option.bind_some, hpop₃, beq_iff_eq, hrest, Bool.and_eq_true,
    and_false, if_false] at h
  split at h
  · -- no cell for the id: the frame goes back
    have hkept := hh.takes (cons_takes (encI st.nextCtxId) c.r st.heap)
    split at h
    · cases h
      refine ⟨[], (List.append_nil _).symm, fun c' hc' happ => ?_⟩
      obtain rfl := Option.some.inj hc'
      exact absurd happ Bool.false_ne_true
    · cases h
      refine ⟨[], (List.append_nil _).symm, fun c' hc' _ => ?_⟩
      obtain rfl := Option.some.inj hc'
      exact hkept
  next hcell =>
  have hprogram : spawnProgram c st
      = some (car (cons (encI st.nextCtxId) c.r st.heap).2 rest) := by
    have htag : decU (encU contSpawnAll) = contSpawnAll := by decide
    simp only [spawnProgram, hpop₁, hpop₂, Option.bind_eq_bind, Option.bind_some, hframe.1, htag]
    rw [if_pos]
    simp [hrest, hcell]
  obtain ⟨hcan, hlt⟩ := hok _ hprogram
  obtain ⟨-, K, hcreate⟩ := @createCtx_of_canCreate _
    { st with heap := (cons (encI st.nextCtxId) c.r st.heap).2 } _ env _ _ hcan
  have hlist := hh.cons (a := encI st.nextCtxId) hcell
  unfold spawnFirst at h
  simp only [hcreate] at h
  split at h
  · cases h
    refine ⟨_, rfl, fun c' hc' happ => ?_⟩
    obtain rfl := Option.some.inj hc'
    exact absurd happ Bool.false_ne_true
  · cases h
    refine ⟨_, rfl, fun c' hc' _ => ?_⟩
    obtain rfl := Option.some.inj hc'
    simp only [List.map_cons, List.map_nil, List.reverse_cons, List.reverse_nil, List.nil_append,
      List.cons_append, newCtx, idWord_next hlt]
    exact hlist

end

/-! ## Runs -/

namespace HostRun

variable {pf : Platform}

/-- The ids of the contexts that step `m` put into the queue. -/
def added (run : HostRun pf) (m : Nat) : List CID :=
  ((run.state (m + 1)).ctxQueue.drop (run.state m).ctxQueue.length).map (·.id)

/-- Step `n` evaluates a `spawn` form; before step `m` the running context is still at it, and
`ids` are the ids of the contexts that it has created. -/
inductive Spawning (run : HostRun pf) (n : Nat) : Nat → List CID → Prop where
  | start {io : Outside} {c : EvalContext} {st : Store} {args : VALUE} (hn : n < run.len)
      (hact : run.act n = .iterate io) (hpick : pickCtx io (run.state n) = some (c, st))
      (ha : c.appCont = false) (hargs : spawnArgs st.heap c.currExp = some args) :
      Spawning run n (n + 1) []
  | host {m : Nat} {ids : List CID} (h : Spawning run n m ids) (hm : m < run.len)
      (hact : ∀ io, run.act m ≠ .iterate io) : Spawning run n (m + 1) ids
  | next {m : Nat} {ids : List CID} {io : Outside} {c : EvalContext} {rest : VALUE}
      (h : Spawning run n m ids) (hm : m < run.len) (hact : run.act m = .iterate io)
      (hrun : (run.state m).ctxRunning = some c) (hframe : SpawnFrame c rest)
      (hrest : rest ≠ NIL) : Spawning run n (m + 1) (ids ++ run.added m)

/-- The `spawn` form that step `n` evaluates created the contexts `ids`, and `v` is its value
after step `m`. -/
inductive Spawns (run : HostRun pf) (n : Nat) : Nat → List CID → VALUE → Prop where
  /-- There are no programs. -/
  | none {io : Outside} {c c' : EvalContext} {st : Store} (hn : n < run.len)
      (hact : run.act n = .iterate io) (hpick : pickCtx io (run.state n) = some (c, st))
      (ha : c.appCont = false) (hargs : spawnArgs st.heap c.currExp = some NIL)
      (hrun : (run.state (n + 1)).ctxRunning = some c') : Spawns run n n [] c'.r
  | last {m : Nat} {ids : List CID} {io : Outside} {c c' : EvalContext}
      (h : Spawning run n m ids) (hm : m < run.len) (hact : run.act m = .iterate io)
      (hrun : (run.state m).ctxRunning = some c) (hframe : SpawnFrame c NIL)
      (hrun' : (run.state (m + 1)).ctxRunning = some c') : Spawns run n m ids c'.r

/-- The `create_ctx` calls of the run create contexts only while the counter fits into an id,
those of a `spawn` do create one, and the heap is in order while a `spawn` is evaluated. -/
structure CreatesWell (run : HostRun pf) : Prop where
  create : ∀ n io program env stackSize growStack, n < run.len →
    run.act n = .create io program env stackSize growStack →
    canCreate io program stackSize growStack (run.state n).toStore = true →
    (run.state n).nextCtxId.toNat < 2 ^ 16
  spawn : ∀ n io, n < run.len → run.act n = .iterate io →
    SpawnsOk io (run.state n) (run.flags n) fun program st =>
      canCreate io program evalCpsDefaultStackSize evalCpsDefaultStackGrowPolicy st = true
        ∧ st.nextCtxId.toNat < 2 ^ 16
  heap : ∀ n io c st, n < run.len → run.act n = .iterate io →
    pickCtx io (run.state n) = some (c, st) →
    (c.appCont = false ∧ (spawnArgs st.heap c.currExp).isSome = true ∨ ∃ rest, SpawnFrame c rest) →
    HeapReady c st (run.flags n)

/-- **The ids of the contexts in a run.** -/
theorem idsOk (hext : ExtensionsApart pf) {run : HostRun pf} (hwell : run.CreatesWell) :
    ∀ n, n ≤ run.len → IdsOk (run.state n).nextCtxId (run.state n).ids := by
  intro n
  induction n with
  | zero =>
    intro _
    obtain ⟨-, hqueue, hdone, hrun, hnext⟩ := run.start
    have hids : (run.state 0).ids = [] := by
      simp [EvalState.ids, EvalState.contexts, hqueue, hdone, hrun]
    rw [hids]
    exact ⟨List.nodup_nil, List.not_mem_nil, Or.inr (Or.inr (by simp))⟩
  | succ n ih =>
    intro hn
    have hinv := ih (by omega)
    have hstep := run.step n (by omega)
    cases hact : run.act n with
    | create io program env stackSize growStack =>
      rw [hact] at hstep
      obtain ⟨hs, -⟩ := Prod.mk.inj (Option.some.inj hstep)
      rw [← hs]
      have hids : (run.state n).ids
          = (run.state n).ctxRunning.toList.map (·.id) ++ (run.state n).toStore.ids := by
        simp [EvalState.ids, EvalState.contexts, Store.ids]
      rw [hids] at hinv
      have hnew := @createCtx_idsOk _ _ _ env _ _ _ hinv
        (hwell.create n io program env stackSize growStack (by omega) hact)
      simpa [EvalState.ids, EvalState.contexts, Store.ids] using hnew
    | remove cid =>
      rw [hact] at hstep
      simp only [Action.exec] at hstep
      split at hstep
      · obtain ⟨hs, -⟩ := Prod.mk.inj (Option.some.inj hstep)
        rw [← hs]
        exact hinv
      · next v done hremove =>
        obtain ⟨hs, -⟩ := Prod.mk.inj (Option.some.inj hstep)
        rw [← hs]
        refine hinv.sublist ?_
        exact ((removeDoneCtx_sublist hremove).append_left _).map _
    | alloc a d =>
      rw [hact] at hstep
      obtain ⟨hs, -⟩ := Prod.mk.inj (Option.some.inj hstep)
      rw [← hs]
      exact hinv
    | iterate io =>
      rw [hact] at hstep
      exact runEvalIteration_idsOk hext hinv
        (fun c st st₁ program hpick hdue hprogram =>
          (hwell.spawn n io (by omega) hact c st st₁ program hpick hdue hprogram).2) hstep

/-- The host's actions leave the running context alone, and take cells at most. -/
theorem host_keeps {run : HostRun pf} {m : Nat} (hm : m < run.len)
    (hact : ∀ io, run.act m ≠ .iterate io) :
    (run.state (m + 1)).ctxRunning = (run.state m).ctxRunning
      ∧ Takes (run.state m).heap (run.state (m + 1)).heap := by
  have hstep := run.step m hm
  cases h : run.act m with
  | create io program env stackSize growStack =>
    rw [h] at hstep
    obtain ⟨hs, -⟩ := Prod.mk.inj (Option.some.inj hstep)
    rw [← hs]
    refine ⟨rfl, ?_⟩
    simp only [createCtx_eq]
    split
    · split <;> exact Takes.refl _
    · exact Takes.refl _
  | remove cid =>
    rw [h] at hstep
    simp only [Action.exec] at hstep
    split at hstep
    all_goals
      obtain ⟨hs, -⟩ := Prod.mk.inj (Option.some.inj hstep)
      rw [← hs]
      exact ⟨rfl, Takes.refl _⟩
  | alloc a d =>
    rw [h] at hstep
    obtain ⟨hs, -⟩ := Prod.mk.inj (Option.some.inj hstep)
    rw [← hs]
    exact ⟨rfl, cons_takes a d _⟩
  | iterate io => exact absurd h (hact io)

theorem settle_heap (o : Outcome) (st : Store) : (o.settle st).heap = st.heap := by
  cases o <;> rfl

/-- An iteration that leaves a context running was not a kill. -/
theorem iterate_eq {run : HostRun pf} {m : Nat} {io : Outside} {c c' : EvalContext} {st : Store}
    (hm : m < run.len) (hact : run.act m = .iterate io)
    (hpick : pickCtx io (run.state m) = some (c, st))
    (hrun : (run.state (m + 1)).ctxRunning = some c') :
    ∃ st₁ o st' g, gcIfDue c st (run.flags m) = some st₁ ∧ stepCtx pf io c st₁ = some (o, st', g)
      ∧ run.state (m + 1) = o.settle st' := by
  have hstep := run.step m hm
  rw [hact, Action.exec, runEvalIteration_of_pick hpick] at hstep
  cases hkill : ((run.flags m).performGc && (run.flags m).lastIterationGc) with
  | true =>
    simp only [Bool.and_eq_true] at hkill
    rw [evaluationStep_of_kill hkill.1 hkill.2] at hstep
    obtain ⟨hs, -⟩ := Prod.mk.inj (Option.some.inj hstep)
    rw [← hs] at hrun
    cases hrun
  | false =>
    obtain ⟨st₁, o, st', g, hdue, hstepCtx, hs, -⟩ := evaluationStep_eq hkill hstep
    exact ⟨st₁, o, st', g, hdue, hstepCtx, hs⟩

/-- **The list of a `spawn` that is under way.** Induction on the steps; the invariant is that `r`
holds the ids of the contexts created so far, the last one first, in cells that are not free. -/
theorem Spawning.holding {run : HostRun pf} (hwell : run.CreatesWell) {n m : Nat} {ids : List CID}
    (h : run.Spawning n m ids) : ∀ c, (run.state m).ctxRunning = some c → c.appCont = true →
      Holding (run.state m).heap c.r (ids.map idWord).reverse := by
  induction h with
  | @start io c st args hn hact hpick ha hargs =>
    intro c' hrun _
    obtain ⟨st₁, o, st', g, hdue, hstep, hs⟩ := iterate_eq hn hact hpick hrun
    have hready := hwell.heap n io c st hn hact hpick (Or.inl ⟨ha, by simp [hargs]⟩)
    rw [← hready.spawnArgs_eq hdue] at hargs
    obtain ⟨rfl, hr⟩ := stepCtx_spawnForm ha hargs hstep
    rw [hs] at hrun
    obtain ⟨l, hfree⟩ := hready.freeList
    have hempty : Holding st.heap NIL [] := ⟨[], l, .nil, hfree, by simp⟩
    rw [hr c' hrun, hs, settle_heap]
    exact hready.holding hdue hempty (Or.inl rfl)
  | @host m ids _ hm hact ih =>
    intro c' hrun happ
    obtain ⟨hkeeps, htakes⟩ := host_keeps hm hact
    rw [hkeeps] at hrun
    exact (ih c' hrun happ).takes htakes
  | @next m ids io c rest _ hm hact hrunning hframe hrest ih =>
    intro c' hrun happ
    have hpick := @pickCtx_of_running io _ _ hrunning
    obtain ⟨st₁, o, st', g, hdue, hstep, hs⟩ := iterate_eq hm hact hpick hrun
    have hready := hwell.heap m io c _ hm hact hpick (Or.inr ⟨rest, hframe⟩)
    have hheld := hready.holding hdue (ih c hrunning hframe.1) (Or.inr (r_mem_rootWords c _))
    obtain ⟨new, hqueue, hnew⟩ := stepCtx_spawnFrame_next hframe hrest hheld
      (fun program hprogram => hwell.spawn m io hm hact c _ st₁ program hpick hdue hprogram) hstep
    obtain ⟨hqueue₁, -, -⟩ := gcIfDue_keeps hdue
    rw [hqueue₁, ← hs] at hqueue
    have hadded : run.added m = new.map (·.id) := by
      rw [added, hqueue, List.drop_left]
    rw [hs] at hrun ⊢
    have hlist := hnew c' hrun happ
    rw [hadded]
    simpa [List.map_append, List.reverse_append, Function.comp_def] using hlist

/-- Ids identify the contexts of a run. -/
structure IdentifiesContexts (run : HostRun pf) : Prop where
  /-- `create_ctx` returns 0 only if it creates no context, … -/
  zero : ∀ n io program env stackSize growStack, n < run.len →
    run.act n = .create io program env stackSize growStack →
    (createCtx io program env stackSize growStack (run.state n).toStore).1 = 0#16 →
    (run.state (n + 1)).contexts = (run.state n).contexts
  /-- … also when `spawn` calls it, so that no context has the id 0; -/
  nonzero : ∀ n, n ≤ run.len → ∀ c ∈ (run.state n).contexts, c.id ≠ 0#16
  /-- contexts that exist at the same time have different ids; -/
  distinct : ∀ n, n ≤ run.len → ((run.state n).contexts.map (·.id)).Nodup
  /-- the value of a `spawn` is the list of the ids of the contexts that it created. -/
  spawned : ∀ n m ids v, run.Spawns n m ids v →
    ∃ is, ListOf (run.state (m + 1)).heap v (ids.map idWord).reverse is

/-- **Ids identify contexts** in every run whose `create_ctx` calls create contexts only while the
counter fits into an id, and create one for every program of a `spawn`. -/
theorem identifiesContexts (hext : ExtensionsApart pf) {run : HostRun pf}
    (hwell : run.CreatesWell) : run.IdentifiesContexts where
  zero := by
    intro n io program env stackSize growStack hn hact hzero
    have hstep := run.step n hn
    rw [hact] at hstep
    obtain ⟨hs, -⟩ := Prod.mk.inj (Option.some.inj hstep)
    rw [← hs]
    cases hcan : canCreate io program stackSize growStack (run.state n).toStore with
    | false =>
      obtain ⟨-, next, -, heq⟩ := @createCtx_of_not _ _ _ env _ _ hcan
      rw [heq]
      rfl
    | true =>
      obtain ⟨hne, K, heq⟩ := @createCtx_of_canCreate _ _ _ env _ _ hcan
      have hlt := hwell.create n io program env stackSize growStack hn hact hcan
      rw [heq] at hzero
      have hnat := congrArg BitVec.toNat hzero
      simp only [BitVec.toNat_setWidth] at hnat
      refine absurd (BitVec.eq_of_toNat_eq ?_) hne
      rw [Nat.mod_eq_of_lt hlt] at hnat
      exact hnat
  nonzero := by
    intro n hn c hc hzero
    apply (idsOk hext hwell n hn).nonzero
    exact List.mem_map.mpr ⟨c, hc, hzero⟩
  distinct n hn := (idsOk hext hwell n hn).nodup
  spawned := by
    intro n m ids v hspawns
    cases hspawns with
    | @none io c c' st hn hact hpick ha hargs hrun =>
      obtain ⟨st₁, o, st', g, hdue, hstep, hs⟩ := iterate_eq hn hact hpick hrun
      have hready := hwell.heap n io c st hn hact hpick (Or.inl ⟨ha, by simp [hargs]⟩)
      rw [← hready.spawnArgs_eq hdue] at hargs
      obtain ⟨-, hr⟩ := stepCtx_spawnForm ha hargs hstep
      rw [hs] at hrun
      rw [hr c' hrun]
      exact ⟨[], .nil⟩
    | @last m ids io c c' h hm hact hrunning hframe hrun =>
      have hpick := @pickCtx_of_running io _ _ hrunning
      obtain ⟨st₁, o, st', g, hdue, hstep, hs⟩ := iterate_eq hm hact hpick hrun
      have hready := hwell.heap m io c _ hm hact hpick (Or.inr ⟨NIL, hframe⟩)
      have hheld := hready.holding hdue (h.holding hwell c hrunning hframe.1)
        (Or.inr (r_mem_rootWords c _))
      obtain ⟨rfl, K, rfl⟩ := stepCtx_spawnFrame_nil hframe hstep
      rw [hs] at hrun ⊢
      obtain rfl := Option.some.inj hrun
      obtain ⟨is, l, hlist, -⟩ := hheld
      exact ⟨is, hlist⟩

end HostRun

/-! ## A program that spawns one other program -/

/-- The states of a run of `act` from `s`. -/
def actStates (s : EvalState) (act : Nat → Action) : Nat → Option (EvalState × GcFlags)
  | 0 => some (s, ⟨false, false⟩)
  | n + 1 => (actStates s act n).bind fun (s, flags) => (act n).exec plainPlatform s flags

theorem actStates_isSome {s : EvalState} {act : Nat → Action} {n : Nat}
    (h : (actStates s act n).isSome = true) : ∀ m, m ≤ n → (actStates s act m).isSome = true := by
  induction n with
  | zero =>
    intro m hm
    obtain rfl := Nat.le_zero.mp hm
    exact h
  | succ n ih =>
    intro m hm
    rcases Nat.le_succ_iff.mp hm with hle | rfl
    · apply ih _ m hle
      cases hn : actStates s act n with
      | none => simp [actStates, hn] at h
      | some s => rfl
    · exact h

def actState (s : EvalState) (act : Nat → Action) (n : Nat) : EvalState × GcFlags :=
  (actStates s act n).getD (s, ⟨false, false⟩)

theorem actState_step {s : EvalState} {act : Nat → Action} {len n : Nat}
    (h : (actStates s act len).isSome = true) (hn : n < len) :
    (act n).exec plainPlatform (actState s act n).1 (actState s act n).2
      = some (actState s act (n + 1)) := by
  obtain ⟨⟨s₁, flags⟩, hs⟩ := Option.isSome_iff_exists.mp (actStates_isSome h n (by omega))
  obtain ⟨⟨s', flags'⟩, hs'⟩ := Option.isSome_iff_exists.mp (actStates_isSome h (n + 1) (by omega))
  have hexec : (act n).exec plainPlatform s₁ flags = some (s', flags') := by
    rw [← hs', actStates, hs]
    rfl
  simp only [actState, hs, hs', Option.getD_some, hexec]

/-- The run of `len` actions from a state without contexts. -/
def HostRun.of (st : Store) (act : Nat → Action) (len : Nat)
    (h : (actStates { st with ctxQueue := [], ctxDone := [], nextCtxId := 1#32, ctxRunning := none }
      act len).isSome = true) : HostRun plainPlatform where
  len := len
  act := act
  state n := (actState { st with
    ctxQueue := [], ctxDone := [], nextCtxId := 1#32, ctxRunning := none } act n).1
  flags n := (actState { st with
    ctxQueue := [], ctxDone := [], nextCtxId := 1#32, ctxRunning := none } act n).2
  start := ⟨rfl, rfl, rfl, rfl, rfl⟩
  step := fun _ hn => actState_step h hn

/-- The globals with the program `((spawn p))` in the heap, and the program. -/
def spawnProgramOf (p : Datum) : VALUE × Store :=
  let st := evalCpsInit 12
  let (lisp, h) := (Datum.list [.list [.sym symreprSpawn, p]]).build st.heap
  (lisp, { st with heap := h })

/-- The host starts the program, and the evaluator makes steps. -/
def startThenRun (lisp : VALUE) : Nat → Action
  | 0 => .create plainOutside lisp NIL 256 false
  | _ + 1 => .iterate plainOutside

/-- The cells of a chain. -/
def chainCells (h : HeapState) : Nat → VALUE → List Nat
  | 0, _ => []
  | n + 1, v => if isPtr v then ptrIx v :: chainCells h n (h.cell (ptrIx v)).cdr else []

/-- No collection is due, the free list is intact, and a `create_ctx` call of the next iteration
succeeds. -/
def stepsWell (s : EvalState) (flags : GcFlags) : Bool :=
  let l := chainCells s.heap s.heap.heapSize s.heap.freelist
  !flags.performGc && isChain s.heap s.heap.freelist l && decide l.Nodup
    && decide (s.heap.heapSize ≤ s.heap.heap.length) && decide (s.heap.heapSize ≤ 2 ^ 23)
    && match pickCtx plainOutside s with
      | none => true
      | some (c, st) =>
          match spawnProgram c st with
          | none => true
          | some program =>
              canCreate plainOutside program evalCpsDefaultStackSize
                evalCpsDefaultStackGrowPolicy st
                && decide (st.nextCtxId.toNat < 2 ^ 16)

theorem of_stepsWell {s : EvalState} {flags : GcFlags} (h : stepsWell s flags = true) :
    (SpawnsOk plainOutside s flags fun program st =>
      canCreate plainOutside program evalCpsDefaultStackSize evalCpsDefaultStackGrowPolicy st = true
        ∧ st.nextCtxId.toNat < 2 ^ 16)
      ∧ ∀ c st, pickCtx plainOutside s = some (c, st) → HeapReady c st flags := by
  simp only [stepsWell, Bool.and_eq_true, Bool.not_eq_true', decide_eq_true_eq] at h
  obtain ⟨⟨⟨⟨⟨hgc, hchain⟩, hnd⟩, hfits⟩, haddr⟩, hspawn⟩ := h
  constructor
  · intro c st st₁ program hpick hdue hprogram
    rw [gcIfDue, if_neg (by simp [hgc])] at hdue
    obtain rfl := Option.some.inj hdue
    simpa [hpick, hprogram] using hspawn
  · intro c st hpick
    have hheap : st.heap = s.heap := by
      unfold pickCtx at hpick
      split at hpick
      · cases hpick
        rfl
      · obtain ⟨⟨c', queue⟩, -, heq⟩ := Option.map_eq_some_iff.mp hpick
        cases heq
        rfl
    have hfree : FreeList s.heap (chainCells s.heap s.heap.heapSize s.heap.freelist) :=
      ⟨freeChain_of_isChain hchain, hnd, hfits, haddr⟩
    rw [← hheap] at hfree
    exact ⟨⟨_, hfree⟩, fun hdue => absurd hdue (by simp [hgc])⟩

set_option maxRecDepth 20000 in
/-- The run of `((spawn (1)))`. -/
theorem actStates_spawnOne :
    (actStates { (spawnProgramOf (.list [.int 1#32])).2 with
      ctxQueue := [], ctxDone := [], nextCtxId := 1#32, ctxRunning := none }
      (startThenRun (spawnProgramOf (.list [.int 1#32])).1) 4).isSome = true := by
  decide

def spawnOne : HostRun plainPlatform := HostRun.of _ _ 4 actStates_spawnOne

set_option maxRecDepth 20000 in
theorem createsWell_spawnOne : spawnOne.CreatesWell := by
  have hsteps : ∀ n, n < 4 → stepsWell (spawnOne.state n) (spawnOne.flags n) = true := by
    intro n hn
    interval_cases n <;> decide
  refine ⟨?_, ?_, ?_⟩
  · intro n io program env stackSize growStack hn hact _
    cases n with
    | zero => decide
    | succ n => cases hact
  · intro n io hn hact
    cases n with
    | zero => cases hact
    | succ n =>
      cases hact
      exact (of_stepsWell (hsteps _ hn)).1
  · intro n io c st hn hact hpick _
    cases n with
    | zero => cases hact
    | succ n =>
      cases hact
      exact (of_stepsWell (hsteps _ hn)).2 c st hpick

theorem extensionsApart_plainPlatform : ExtensionsApart plainPlatform := by
  intro name f hf
  cases hf

/-- The value of `(spawn (1))` is the list of the id 2. -/
theorem identifiesContexts_spawnOne :
    spawnOne.IdentifiesContexts ∧ (spawnOne.state 4).ids = [1#16, 2#16] :=
  ⟨HostRun.identifiesContexts extensionsApart_plainPlatform createsWell_spawnOne, by decide +kernel⟩

set_option maxRecDepth 20000 in
/-- The run of `((spawn 1))`. -/
theorem actStates_spawnNumber :
    (actStates { (spawnProgramOf (.int 1#32)).2 with
      ctxQueue := [], ctxDone := [], nextCtxId := 1#32, ctxRunning := none }
      (startThenRun (spawnProgramOf (.int 1#32)).1) 4).isSome = true := by
  decide

def spawnNumber : HostRun plainPlatform := HostRun.of _ _ 4 actStates_spawnNumber

set_option maxRecDepth 20000 in
/-- The `spawn` of `spawnNumber` creates nothing, and has the value that is in `r` after it. -/
theorem spawns_spawnNumber :
    ∃ v, spawnNumber.Spawns 1 3 [] v ∧ typeOf v = ptrTypeCons := by
  have hform : ((pickCtx plainOutside (spawnNumber.state 1)).map fun p =>
      (p.1.appCont, (spawnArgs p.2.heap p.1.currExp).isSome)) = some (false, true) := by
    decide
  obtain ⟨⟨c₁, st⟩, hpick, heq⟩ := Option.map_eq_some_iff.mp hform
  obtain ⟨ha, hargs⟩ := Prod.mk.inj heq
  obtain ⟨args, hargs⟩ := Option.isSome_iff_exists.mp hargs
  have hstart : spawnNumber.Spawning 1 2 [] :=
    @HostRun.Spawning.start _ _ _ plainOutside _ _ _ (by decide) rfl hpick ha hargs
  have hframe₂ : ((spawnNumber.state 2).ctxRunning.map fun c => (c.appCont, c.K.contents))
      = some (true, [encU contDone] ++ [NIL, cellPtr 2, encU contSpawnAll]) := by decide
  obtain ⟨c₂, hrun₂, heq⟩ := Option.map_eq_some_iff.mp hframe₂
  obtain ⟨ha₂, hK₂⟩ := Prod.mk.inj heq
  have hnext : spawnNumber.Spawning 1 3 ([] ++ spawnNumber.added 2) :=
    @HostRun.Spawning.next _ _ _ _ _ plainOutside _ _ hstart (by decide) rfl hrun₂
      ⟨ha₂, _, _, hK₂⟩ (by decide)
  have hadded : spawnNumber.added 2 = [] := by decide
  rw [hadded] at hnext
  have hframe₃ : ((spawnNumber.state 3).ctxRunning.map fun c => (c.appCont, c.K.contents))
      = some (true, [encU contDone] ++ [NIL, NIL, encU contSpawnAll]) := by decide
  obtain ⟨c₃, hrun₃, heq⟩ := Option.map_eq_some_iff.mp hframe₃
  obtain ⟨ha₃, hK₃⟩ := Prod.mk.inj heq
  have hvalue : ((spawnNumber.state (3 + 1)).ctxRunning.map fun c => typeOf c.r)
      = some ptrTypeCons := by decide
  obtain ⟨c₄, hrun₄, hty⟩ := Option.map_eq_some_iff.mp hvalue
  refine ⟨c₄.r, ?_, hty⟩
  exact @HostRun.Spawns.last _ _ _ _ _ plainOutside _ _ hnext (by decide) rfl hrun₃
    ⟨ha₃, _, _, hK₃⟩ hrun₄

/-- **A `spawn` of something that is no program** has a list of one id as its value, and creates
no context. -/
theorem not_identifiesContexts_spawnNumber : ¬spawnNumber.IdentifiesContexts := by
  intro hid
  obtain ⟨v, hspawns, hty⟩ := spawns_spawnNumber
  obtain ⟨is, hlist⟩ := hid.spawned 1 3 [] v hspawns
  generalize hws : (([] : List CID).map idWord).reverse = ws at hlist
  cases hlist with
  | nil => exact absurd hty (by decide)
  | cons _ _ => cases hws

end LispBM
