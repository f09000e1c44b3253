import LispBM.EvalCps.Discipline
import LispBM.Lib.LinkedList

/-!
# LispBM — the scheduler's queues as linked lists (`src/eval_cps.c`)

The model of the evaluator keeps the run queue and the done list as lists. In the source they
are doubly linked lists that share the fields `prev` and `next` of `eval_context_t`, and a
context that is running has the links of the list it was in last. Here the functions are as in
the source, on contexts in memory. `Places` says where every context is, and `Represents` that
the links and the four pointers spell it.

* `Effect` — what an operation does to the places and to the contexts;
* `scheduler_safe` — in every state that operations can reach, every context that was created
  and not removed is in exactly one place, and every operation does what `Effect` says.
-/

namespace LispBM

namespace Scheduler

open LinkedList

/-! ## The functions -/

abbrev Addr := UINT

/-- `eval_context_t`. -/
structure Node extends EvalContext where
  prev : Option Addr
  next : Option Addr

/-- The static variables of the scheduler, and the contexts in memory. -/
structure Sched where
  mem : Addr → Node
  /-- What `malloc` has given out and `free` has not taken back. -/
  live : List Addr
  ctxQueue : Option Addr
  ctxQueueLast : Option Addr
  ctxDone : Option Addr
  ctxRunning : Option Addr
  nextCtxId : UINT

namespace Sched

/-- `*a`; `none` for memory that is not a context. -/
def deref (s : Sched) (a : Addr) : Option Node := if a ∈ s.live then some (s.mem a) else none

/-- An assignment to fields of `*a`. -/
def assign (s : Sched) (a : Addr) (f : Node → Node) : Option Sched :=
  if a ∈ s.live then some { s with mem := Function.update s.mem a (f (s.mem a)) } else none

/-- An assignment to fields of `*p`, if `p` is not `NULL`. -/
def assignIf (s : Sched) (p : Option Addr) (f : Node → Node) : Option Sched :=
  match p with
  | none => some s
  | some a => s.assign a f

def free (s : Sched) (a : Addr) : Sched := { s with live := s.live.erase a }

/-- Iterations of a walk along the links of a list. -/
def walk (s : Sched) : Nat := s.live.length + 1

end Sched

def enqueueCtx (ctx : Addr) (s : Sched) : Option Sched :=
  match s.ctxQueueLast with
  | none => do
      let s ← s.assign ctx fun n => { n with prev := none, next := none }
      some { s with ctxQueue := some ctx, ctxQueueLast := some ctx }
  | some last => do
      let s ← s.assign ctx fun n => { n with prev := some last, next := none }
      let s ← s.assign last fun n => { n with next := some ctx }
      some { s with ctxQueueLast := some ctx }

/-- `finish_ctx`; `ctx_running` is dereferenced. -/
def finishCtx (s : Sched) : Option Sched := do
  let ctx ← s.ctxRunning
  let s ←
    match s.ctxDone with
    | none => s.assign ctx fun n => { n with prev := none, next := none }
    | some first => do
        let s ← s.assign ctx fun n => { n with prev := none, next := some first }
        s.assign first fun n => { n with prev := some ctx }
  some { s with ctxDone := some ctx, ctxRunning := none }

def errorCtx (errVal : VALUE) (s : Sched) : Option Sched := do
  let ctx ← s.ctxRunning
  let s ← s.assign ctx fun n => { n with r := errVal }
  finishCtx s

/-- The loop of `eval_cps_remove_done_ctx`, after its first context. -/
def removeDoneLoop (cid : CID) : Nat → Option Addr → Sched → Option (Option VALUE × Sched)
  | 0, _, _ => none
  | _ + 1, none, s => some (none, s)
  | n + 1, some curr, s => do
      let node ← s.deref curr
      if node.id = cid then
        let s ← s.assignIf node.prev fun n => { n with next := node.next }
        let node ← s.deref curr
        let s ← s.assignIf node.next fun n => { n with prev := node.prev }
        let node ← s.deref curr
        some (some node.r, s.free curr)
      else removeDoneLoop cid n node.next s

/-- `eval_cps_remove_done_ctx`: the result of the context, if it returns true. -/
def removeDoneCtx (cid : CID) (s : Sched) : Option (Option VALUE × Sched) :=
  match s.ctxDone with
  | none => some (none, s)
  | some first => do
      let node ← s.deref first
      let curr := node.next
      if node.id = cid then
        let s := { s.free first with ctxDone := curr }
        let s ← s.assignIf curr fun n => { n with prev := none }
        some (some node.r, s)
      else removeDoneLoop cid s.walk curr s

/-- The time since the timestamp of a context. After the clock wrapped it comes out one too
small. -/
def tDiff (tNow : UINT) (n : Node) : UINT :=
  if tNow < n.timestamp then 0xFFFFFFFF#32 - n.timestamp + tNow else tNow - n.timestamp

/-- The elapsed-time test of `dequeue_ctx`. -/
def awake (tNow : UINT) (n : Node) : Bool := n.sleepUs ≤ tDiff tNow n

/-- Take `*curr` out of the queue. -/
def unlinkCtx (curr : Addr) (s : Sched) : Option Sched := do
  let node ← s.deref curr
  if some curr = s.ctxQueueLast then
    match node.prev with
    | some p => do
        let s := { s with ctxQueueLast := some p }
        s.assign p fun n => { n with next := none }
    | none => some { s with ctxQueue := none, ctxQueueLast := none }
  else
    match node.prev with
    | none =>
        let s := { s with ctxQueue := node.next }
        s.assignIf s.ctxQueue fun n => { n with prev := none }
    | some p => do
        let s ← s.assign p fun n => { n with next := node.next }
        let node ← s.deref curr
        s.assignIf node.next fun n => { n with prev := node.prev }

def defaultSleepUs : UINT := 1000#32

/-- The loop of `dequeue_ctx`: the context, or how long to sleep. -/
def dequeueLoop (tNow : UINT) : Nat → Option Addr → UINT → Sched → Option ((Addr ⊕ UINT) × Sched)
  | 0, _, _, _ => none
  | _ + 1, none, minUs, s => some (.inr minUs, s)
  | n + 1, some curr, minUs, s => do
      let node ← s.deref curr
      if awake tNow node then
        let s ← unlinkCtx curr s
        some (.inl curr, s)
      else
        let minUs := if tDiff tNow node < minUs then tDiff tNow node else minUs
        dequeueLoop tNow n node.next minUs s

def dequeueCtx (tNow : UINT) (s : Sched) : Option ((Addr ⊕ UINT) × Sched) :=
  dequeueLoop tNow s.walk s.ctxQueue defaultSleepUs s

/-- The beginning of an iteration of `eval_cps_run_eval`. -/
def schedule (tNow : UINT) (s : Sched) : Option Sched :=
  match s.ctxRunning with
  | some _ => some s
  | none => do
      let (picked, s) ← dequeueCtx tNow s
      match picked with
      | .inl ctx => some { s with ctxRunning := some ctx }
      | .inr _ => some s

def yieldCtx (io : Outside) (sleepUs : UINT) (s : Sched) : Option Sched := do
  let ctx ← s.ctxRunning
  let s ← s.assign ctx fun n =>
    match io.timestampUs with
    | some t => { n with timestamp := t, sleepUs := sleepUs }
    | none => { n with timestamp := 0#32, sleepUs := 0#32 }
  let s ← s.assign ctx fun n => { n with r := encSym symreprTrue, appCont := true }
  let s ← enqueueCtx ctx s
  some { s with ctxRunning := none }

/-- `create_ctx` on the heap `h`; `addr` is what `malloc` returns, unless it returns `NULL`, and
`node` what is in the memory there. -/
def createCtx (io : Outside) (addr : Addr) (node : Node) (h : HeapState) (program env : VALUE)
    (stackSize : StackSize) (growStack : Bool) (s : Sched) : Option (CID × Sched) :=
  if s.nextCtxId = 0#32 then some (0#16, s)
  else if typeOf program != ptrTypeCons then some (0#16, s)
  else if !io.mallocCtx then some (0#16, s)
  else
    let id : CID := s.nextCtxId.setWidth 16
    let s := { s with nextCtxId := s.nextCtxId + 1#32 }
    match stackAllocate io.malloc stackSize growStack with
    | none => some (0#16, s)
    | some K =>
        match pushU32 io.malloc K (encU contDone) with
        | (false, _) => some (0#16, s)
        | (true, K) => do
            let node :=
              { node with
                program := cdr h program
                currExp := car h program
                currEnv := env
                done := false
                appCont := false
                timestamp := 0#32
                sleepUs := 0#32
                id := id
                K := K }
            let s :=
              { s with live := addr :: s.live, mem := Function.update s.mem addr node }
            let s ← enqueueCtx addr s
            some (id, s)

/-! ## Where the contexts are -/

/-- The run queue and the done list, first context first, and the running context. -/
structure Places where
  queue : List Addr
  running : Option Addr
  done : List Addr

def Places.all (q : Places) : List Addr := q.queue ++ q.running.toList ++ q.done

def Sched.links (s : Sched) (a : Addr) : Links Addr := ⟨(s.mem a).prev, (s.mem a).next⟩

/-- The context at `a`, without its links. -/
def Sched.ctxAt (s : Sched) (a : Addr) : EvalContext := (s.mem a).toEvalContext

/-- The pointers and links of `s` spell `q`, and the contexts in memory are those in `q`, each of
them once. -/
structure Represents (s : Sched) (q : Places) : Prop where
  queue : Spells s.links none q.queue none
  done : Spells s.links none q.done none
  ctxQueue : s.ctxQueue = q.queue.head?
  ctxQueueLast : s.ctxQueueLast = q.queue.getLast?
  ctxDone : s.ctxDone = q.done.head?
  ctxRunning : s.ctxRunning = q.running
  live : s.live.Perm q.all
  nodup : q.all.Nodup

/-! ## Operations -/

inductive Op where
  | create (io : Outside) (addr : Addr) (node : Node) (h : HeapState) (program env : VALUE)
      (stackSize : StackSize) (growStack : Bool)
  | schedule (tNow : UINT)
  | yield (io : Outside) (sleepUs : UINT)
  | finish
  | error (errVal : VALUE)
  | remove (cid : CID)
  /-- The running context goes on evaluating, and has become `ctx`. -/
  | evaluate (ctx : EvalContext)

/-- What an operation returns: the id of the new context, or the result of the removed one. -/
inductive Out where
  | unit
  | id (cid : CID)
  | result (r : Option VALUE)

def Op.exec (s : Sched) : Op → Option (Out × Sched)
  | .create io addr node h program env stackSize growStack =>
      (createCtx io addr node h program env stackSize growStack s).map fun (cid, s) => (.id cid, s)
  | .schedule tNow => (Scheduler.schedule tNow s).map fun s => (.unit, s)
  | .yield io sleepUs => (yieldCtx io sleepUs s).map fun s => (.unit, s)
  | .finish => (finishCtx s).map fun s => (.unit, s)
  | .error errVal => (errorCtx errVal s).map fun s => (.unit, s)
  | .remove cid => (removeDoneCtx cid s).map fun (r, s) => (.result r, s)
  | .evaluate ctx => do
      let a ← s.ctxRunning
      let s ← s.assign a fun n => { n with toEvalContext := ctx }
      some (.unit, s)

/-- When the evaluator and its host may make an operation: `malloc` returns memory that is not in
use, contexts are yielded and finished while they run, and evaluation does not change an id. -/
def Op.Enabled (s : Sched) : Op → Prop
  | .create _ addr _ _ _ _ _ _ => addr ∉ s.live
  | .schedule _ | .remove _ => True
  | .yield _ _ | .finish | .error _ => s.ctxRunning ≠ none
  | .evaluate ctx => ∃ a, s.ctxRunning = some a ∧ ctx.id = (s.ctxAt a).id

/-- What an operation does: the new places, and the contexts it does not change. -/
inductive Effect (s s' : Sched) (q : Places) : Op → Out → Places → Prop where
  | created {io addr node h program env stackSize growStack}
      (hid : (s'.ctxAt addr).id = s.nextCtxId.setWidth 16)
      (hnext : s'.nextCtxId = s.nextCtxId + 1#32)
      (hsame : ∀ a ∈ q.all, s'.ctxAt a = s.ctxAt a) :
      Effect s s' q (.create io addr node h program env stackSize growStack)
        (.id (s.nextCtxId.setWidth 16)) { q with queue := q.queue ++ [addr] }
  | notCreated {io addr node h program env stackSize growStack}
      (hsame : ∀ a ∈ q.all, s'.ctxAt a = s.ctxAt a) :
      Effect s s' q (.create io addr node h program env stackSize growStack) (.id 0#16) q
  /-- The first context that passes the elapsed-time test. -/
  | picked {tNow : UINT} {a : Addr} {l₁ l₂ : List Addr} (hrun : q.running = none)
      (hq : q.queue = l₁ ++ a :: l₂) (hfirst : ∀ b ∈ l₁, awake tNow (s.mem b) = false)
      (ha : awake tNow (s.mem a) = true) (hsame : ∀ a ∈ q.all, s'.ctxAt a = s.ctxAt a) :
      Effect s s' q (.schedule tNow) .unit ⟨l₁ ++ l₂, some a, q.done⟩
  | nonePicked {tNow : UINT} (hrun : q.running = none)
      (hq : ∀ b ∈ q.queue, awake tNow (s.mem b) = false)
      (hsame : ∀ a ∈ q.all, s'.ctxAt a = s.ctxAt a) : Effect s s' q (.schedule tNow) .unit q
  | busy {tNow : UINT} (hrun : q.running ≠ none) (hsame : ∀ a ∈ q.all, s'.ctxAt a = s.ctxAt a) :
      Effect s s' q (.schedule tNow) .unit q
  | yielded {io : Outside} {sleepUs : UINT} {a : Addr} (hrun : q.running = some a)
      (ha : LispBM.yieldCtx io (s.ctxAt a) sleepUs = .yielded (s'.ctxAt a))
      (hsame : ∀ b ∈ q.all, b ≠ a → s'.ctxAt b = s.ctxAt b) :
      Effect s s' q (.yield io sleepUs) .unit ⟨q.queue ++ [a], none, q.done⟩
  | finished {a : Addr} (hrun : q.running = some a)
      (hsame : ∀ b ∈ q.all, s'.ctxAt b = s.ctxAt b) :
      Effect s s' q .finish .unit ⟨q.queue, none, a :: q.done⟩
  | failed {errVal : VALUE} {a : Addr} (hrun : q.running = some a)
      (ha : s'.ctxAt a = { s.ctxAt a with r := errVal })
      (hsame : ∀ b ∈ q.all, b ≠ a → s'.ctxAt b = s.ctxAt b) :
      Effect s s' q (.error errVal) .unit ⟨q.queue, none, a :: q.done⟩
  /-- The result is the one with which the context was put on the done list. -/
  | removed {cid : CID} {a : Addr} {l₁ l₂ : List Addr} (hq : q.done = l₁ ++ a :: l₂)
      (hfirst : ∀ b ∈ l₁, (s.ctxAt b).id ≠ cid) (ha : (s.ctxAt a).id = cid)
      (hsame : ∀ b ∈ q.all, s'.ctxAt b = s.ctxAt b) :
      Effect s s' q (.remove cid) (.result (some (s.ctxAt a).r)) { q with done := l₁ ++ l₂ }
  | notRemoved {cid : CID} (hq : ∀ b ∈ q.done, (s.ctxAt b).id ≠ cid)
      (hsame : ∀ b ∈ q.all, s'.ctxAt b = s.ctxAt b) :
      Effect s s' q (.remove cid) (.result none) q
  | evaluated {ctx : EvalContext} {a : Addr} (hrun : q.running = some a) (ha : s'.ctxAt a = ctx)
      (hsame : ∀ b ∈ q.all, b ≠ a → s'.ctxAt b = s.ctxAt b) :
      Effect s s' q (.evaluate ctx) .unit q

/-! ## Assignments -/

section

variable {s s' : Sched} {a b : Addr} {f : Node → Node} {l : List Addr}

theorem assign_of_mem (h : a ∈ s.live) (f : Node → Node) :
    s.assign a f = some { s with mem := Function.update s.mem a (f (s.mem a)) } := if_pos h

theorem deref_of_mem (h : a ∈ s.live) : s.deref a = some (s.mem a) := if_pos h

theorem mem_eq (hctx : s'.ctxAt a = s.ctxAt a) (hlinks : s'.links a = s.links a) :
    s'.mem a = s.mem a := by
  simp only [Sched.ctxAt, Sched.links, Links.mk.injEq] at hctx hlinks
  cases hm : s.mem a
  cases hm' : s'.mem a
  simp_all

/-- Only links and the two pointers of the queue differ. -/
structure SameContexts (s s' : Sched) : Prop where
  ctxAt : ∀ a, s'.ctxAt a = s.ctxAt a
  live : s'.live = s.live
  ctxRunning : s'.ctxRunning = s.ctxRunning
  nextCtxId : s'.nextCtxId = s.nextCtxId

theorem SameContexts.refl (s : Sched) : SameContexts s s := ⟨fun _ => rfl, rfl, rfl, rfl⟩

theorem SameContexts.trans {s'' : Sched} (h : SameContexts s s') (h' : SameContexts s' s'') :
    SameContexts s s'' where
  ctxAt a := (h'.ctxAt a).trans (h.ctxAt a)
  live := h'.live.trans h.live
  ctxRunning := h'.ctxRunning.trans h.ctxRunning
  nextCtxId := h'.nextCtxId.trans h.nextCtxId

/-- An assignment to links. -/
theorem assign_links (h : a ∈ s.live) (hf : ∀ n, (f n).toEvalContext = n.toEvalContext) :
    ∃ s', s.assign a f = some s' ∧ SameContexts s s'
      ∧ s'.links a = ⟨(f (s.mem a)).prev, (f (s.mem a)).next⟩
      ∧ (∀ b, b ≠ a → s'.links b = s.links b)
      ∧ s'.ctxQueue = s.ctxQueue ∧ s'.ctxQueueLast = s.ctxQueueLast ∧ s'.ctxDone = s.ctxDone := by
  refine ⟨_, assign_of_mem h f, ⟨fun b => ?_, rfl, rfl, rfl⟩, ?_, fun b hb => ?_, rfl, rfl, rfl⟩
  · by_cases hb : b = a
    · subst hb
      simp only [Sched.ctxAt, Function.update_self]
      exact hf _
    · simp only [Sched.ctxAt, Function.update_of_ne hb]
  · simp only [Sched.links, Function.update_self]
  · simp only [Sched.links, Function.update_of_ne hb]

theorem enqueueCtx_spec (hhead : s.ctxQueue = l.head?) (hlast : s.ctxQueueLast = l.getLast?)
    (hspells : Spells s.links none l none) (hnd : l.Nodup) (ha : a ∉ l) (hlive : a ∈ s.live)
    (hl : ∀ b ∈ l, b ∈ s.live) :
    ∃ s', enqueueCtx a s = some s' ∧ SameContexts s s' ∧ s'.ctxDone = s.ctxDone
      ∧ s'.ctxQueue = (l ++ [a]).head? ∧ s'.ctxQueueLast = (l ++ [a]).getLast?
      ∧ Spells s'.links none (l ++ [a]) none
      ∧ ∀ b, b ∉ l → b ≠ a → s'.links b = s.links b := by
  unfold enqueueCtx
  rcases List.eq_nil_or_concat' l with rfl | ⟨l, c, rfl⟩
  -- An empty queue: the new node has no neighbours.
  · obtain ⟨s₁, hassign, hsame, hlinks, hother, -, -, hdone⟩ :=
      assign_links hlive (f := fun n => { n with prev := none, next := none }) fun _ => rfl
    rw [show s.ctxQueueLast = none from hlast]
    simp only [hassign, Option.bind_eq_bind, Option.bind_some]
    refine ⟨_, rfl, ⟨hsame.ctxAt, hsame.live, hsame.ctxRunning, hsame.nextCtxId⟩, hdone, rfl, rfl,
      ?_, fun b _ hb => hother b hb⟩
    have hnil : Spells s.links none [] none := trivial
    exact spells_concat hnil List.nodup_nil hlinks (by simp) (by simp)
  -- The last context `c` gets a successor; `hca` keeps the two assignments apart.
  · have hc : c ∈ s.live := hl c (by simp)
    have hca : c ≠ a := by
      rintro rfl
      exact ha (by simp)
    obtain ⟨s₁, hassign₁, hsame₁, hlinks₁, hother₁, hq₁, -, hdone₁⟩ :=
      assign_links hlive (f := fun n => { n with prev := some c, next := none }) fun _ => rfl
    obtain ⟨s₂, hassign₂, hsame₂, hlinks₂, hother₂, hq₂, -, hdone₂⟩ :=
      assign_links (s := s₁) (a := c) (by rw [hsame₁.live]; exact hc)
        (f := fun n => { n with next := some a }) fun _ => rfl
    have hsame := hsame₁.trans hsame₂
    rw [show s.ctxQueueLast = some c by rw [hlast]; simp]
    simp only [hassign₁, hassign₂, Option.bind_eq_bind, Option.bind_some]
    refine ⟨_, rfl, ⟨hsame.ctxAt, hsame.live, hsame.ctxRunning, hsame.nextCtxId⟩,
      hdone₂.trans hdone₁, ?_, by simp, ?_, ?_⟩
    · show s₂.ctxQueue = _
      rw [hq₂, hq₁, hhead]
      cases l <;> rfl
    · refine spells_concat hspells hnd ?_ ?_ ?_
      · show s₂.links a = _
        rw [hother₂ a hca.symm, hlinks₁]
        simp
      · intro b hb
        obtain rfl : c = b := by simpa using hb
        show s₂.links c = _
        rw [hlinks₂]
        have := hother₁ c hca
        simp only [Sched.links, Links.mk.injEq] at this
        simp [Sched.links, this.1]
      · intro b hb hne
        have hbc : b ≠ c := by
          rintro rfl
          exact hne (by simp)
        have hba : b ≠ a := by
          rintro rfl
          exact ha hb
        exact (hother₂ b hbc).trans (hother₁ b hba)
    · intro b hb hba
      have hbc : b ≠ c := by
        rintro rfl
        exact hb (by simp)
      exact (hother₂ b hbc).trans (hother₁ b hba)

theorem finishCtx_spec (hrun : s.ctxRunning = some a) (hdone : s.ctxDone = l.head?)
    (hspells : Spells s.links none l none) (hnd : l.Nodup) (ha : a ∉ l) (hlive : a ∈ s.live)
    (hl : ∀ b ∈ l, b ∈ s.live) :
    ∃ s', finishCtx s = some s' ∧ SameContexts { s with ctxRunning := none } s'
      ∧ s'.ctxQueue = s.ctxQueue ∧ s'.ctxQueueLast = s.ctxQueueLast ∧ s'.ctxDone = some a
      ∧ Spells s'.links none (a :: l) none ∧ ∀ b, b ∉ l → b ≠ a → s'.links b = s.links b := by
  unfold finishCtx
  simp only [hrun, Option.bind_eq_bind, Option.bind_some]
  cases l with
  | nil =>
    obtain ⟨s₁, hassign, hsame, hlinks, hother, hq, hlast, -⟩ :=
      assign_links hlive (f := fun n => { n with prev := none, next := none }) fun _ => rfl
    rw [show s.ctxDone = none from hdone]
    simp only [hassign, Option.bind_some]
    refine ⟨_, rfl, ⟨hsame.ctxAt, hsame.live, rfl, hsame.nextCtxId⟩, hq, hlast, rfl, ?_,
      fun b _ hb => hother b hb⟩
    have hnil : Spells s.links none [] none := trivial
    exact spells_cons hnil List.nodup_nil hlinks (by simp) (by simp)
  | cons c l =>
    have hc : c ∈ s.live := hl c (by simp)
    have hca : c ≠ a := by
      rintro rfl
      exact ha (by simp)
    obtain ⟨s₁, hassign₁, hsame₁, hlinks₁, hother₁, hq₁, hlast₁, -⟩ :=
      assign_links hlive (f := fun n => { n with prev := none, next := some c }) fun _ => rfl
    obtain ⟨s₂, hassign₂, hsame₂, hlinks₂, hother₂, hq₂, hlast₂, -⟩ :=
      assign_links (s := s₁) (a := c) (by rw [hsame₁.live]; exact hc)
        (f := fun n => { n with prev := some a }) fun _ => rfl
    -- The old head `c` gets a predecessor; the queue is not touched.
    have hsame := hsame₁.trans hsame₂
    rw [show s.ctxDone = some c from hdone]
    simp only [hassign₁, hassign₂, Option.bind_some]
    refine ⟨_, rfl, ⟨hsame.ctxAt, hsame.live, rfl, hsame.nextCtxId⟩, hq₂.trans hq₁,
      hlast₂.trans hlast₁, rfl, ?_, ?_⟩
    · refine spells_cons hspells hnd ?_ ?_ ?_
      · show s₂.links a = _
        rw [hother₂ a hca.symm, hlinks₁]
        simp
      · intro b hb
        obtain rfl : c = b := by simpa using hb
        show s₂.links c = _
        rw [hlinks₂]
        have := hother₁ c hca
        simp only [Sched.links, Links.mk.injEq] at this
        simp [Sched.links, this.2]
      · intro b hb hne
        have hbc : b ≠ c := by
          rintro rfl
          exact hne (by simp)
        have hba : b ≠ a := by
          rintro rfl
          exact ha hb
        exact (hother₂ b hbc).trans (hother₁ b hba)
    · intro b hb hba
      have hbc : b ≠ c := by
        rintro rfl
        exact hb (by simp)
      exact (hother₂ b hbc).trans (hother₁ b hba)

/-! ## Taking contexts out of a list -/

/-- An assignment to a link of a node, if there is one. -/
theorem assignIf_links {p : Option Addr} (h : ∀ a, p = some a → a ∈ s.live)
    (hf : ∀ n, (f n).toEvalContext = n.toEvalContext) :
    ∃ s', s.assignIf p f = some s' ∧ SameContexts s s'
      ∧ (∀ b, p = some b → s'.links b = ⟨(f (s.mem b)).prev, (f (s.mem b)).next⟩)
      ∧ (∀ b, p ≠ some b → s'.links b = s.links b)
      ∧ s'.ctxQueue = s.ctxQueue ∧ s'.ctxQueueLast = s.ctxQueueLast ∧ s'.ctxDone = s.ctxDone := by
  cases p with
  | none => exact ⟨s, rfl, .refl s, by simp, fun _ _ => rfl, rfl, rfl, rfl⟩
  | some a =>
    obtain ⟨s', hassign, hsame, hlinks, hother, hq, hlast, hdone⟩ := assign_links (h a rfl) hf
    refine ⟨s', hassign, hsame, fun b hb => ?_, fun b hb => ?_, hq, hlast, hdone⟩
    · obtain rfl := Option.some.inj hb
      exact hlinks
    · exact hother b (by rintro rfl; exact hb rfl)

variable {l₁ l₂ : List Addr}

/-- The two assignments that take a node out: first the link of the node before it, then that of
the node after it. -/
theorem unlink_spec (hspells : Spells s.links none (l₁ ++ a :: l₂) none)
    (hnd : (l₁ ++ a :: l₂).Nodup) (hl : ∀ b ∈ l₁ ++ a :: l₂, b ∈ s.live) :
    ∃ s₁ s₂, s.assignIf (s.mem a).prev (fun n => { n with next := (s.mem a).next }) = some s₁
      ∧ s₁.mem a = s.mem a ∧ SameContexts s s₁
      ∧ s₁.assignIf (s₁.mem a).next (fun n => { n with prev := (s₁.mem a).prev }) = some s₂
      ∧ SameContexts s s₂ ∧ s₂.ctxQueue = s.ctxQueue ∧ s₂.ctxQueueLast = s.ctxQueueLast
      ∧ s₂.ctxDone = s.ctxDone ∧ Spells s₂.links none (l₁ ++ l₂) none
      ∧ (∀ b, b ∉ l₁ ++ l₂ → s₂.links b = s.links b) := by
  have hprev : (s.links a).prev = l₁.getLast? := by simpa using prev_of_spells hspells
  have hnext : (s.links a).next = l₂.head? := by simpa using next_of_spells hspells
  obtain ⟨-, hnd₂, hdisj⟩ := List.nodup_append.mp hnd
  have hal₁ : a ∉ l₁ := fun ha => hdisj a ha a (by simp) rfl
  have hal₂ : a ∉ l₂ := (List.nodup_cons.mp hnd₂).1
  -- No context is before `a` and after it, so the second assignment leaves the first one alone.
  have hne : ∀ b, l₁.getLast? = some b → l₂.head? ≠ some b := fun b hb hb' =>
    hdisj b (List.mem_of_getLast? hb) b (by simp [List.mem_of_mem_head? hb']) rfl
  obtain ⟨s₁, hassign₁, hsame₁, hlinks₁, hother₁, hq₁, hlast₁, hdone₁⟩ :=
    assignIf_links (s := s) (p := (s.links a).prev)
      (f := fun n => { n with next := (s.mem a).next })
      (fun b hb => hl b (by simp [List.mem_of_getLast? (hprev ▸ hb)])) fun _ => rfl
  -- The links of `a` itself are still those that the second assignment reads.
  have ha₁ : s₁.mem a = s.mem a := by
    refine mem_eq (hsame₁.ctxAt a) (hother₁ a ?_)
    rw [hprev]
    exact fun h => hal₁ (List.mem_of_getLast? h)
  obtain ⟨s₂, hassign₂, hsame₂, hlinks₂, hother₂, hq₂, hlast₂, hdone₂⟩ :=
    assignIf_links (s := s₁) (p := (s₁.links a).next)
      (f := fun n => { n with prev := (s₁.mem a).prev })
      (fun b hb => by
        rw [hsame₁.live]
        have hb : (s.links a).next = some b := by rw [← hb]; simp [Sched.links, ha₁]
        exact hl b (by simp [List.mem_of_mem_head? (hnext ▸ hb)])) fun _ => rfl
  have hnext₁ : (s₁.links a).next = l₂.head? := by rw [← hnext]; simp [Sched.links, ha₁]
  refine ⟨s₁, s₂, hassign₁, ha₁, hsame₁, hassign₂, hsame₁.trans hsame₂, hq₂.trans hq₁,
    hlast₂.trans hlast₁, hdone₂.trans hdone₁, spells_erase hspells hnd ?_ ?_ ?_, ?_⟩
  · intro b hb
    rw [hother₂ b (by rw [hnext₁]; exact hne b hb), hlinks₁ b (by rw [hprev, hb])]
    exact congrArg (Links.mk _) hnext
  · intro b hb
    have hb₁ : l₁.getLast? ≠ some b := fun h => hne b h hb
    rw [hlinks₂ b (by rw [hnext₁, hb])]
    have hlb := hother₁ b (by rw [hprev]; exact hb₁)
    simp only [Sched.links, Links.mk.injEq] at hlb hprev ⊢
    exact ⟨by rw [ha₁, hprev], hlb.2⟩
  · intro b _ hb₁ hb₂
    exact (hother₂ b (by rw [hnext₁]; exact hb₂)).trans (hother₁ b (by rw [hprev]; exact hb₁))
  · intro b hb
    simp only [List.mem_append, not_or] at hb
    refine (hother₂ b ?_).trans (hother₁ b ?_)
    · rw [hnext₁]
      exact fun h => hb.2 (List.mem_of_mem_head? h)
    · rw [hprev]
      exact fun h => hb.1 (List.mem_of_getLast? h)

/-- It makes no difference whether the pointers of the queue are set before or after. -/
theorem assignIf_setQueue (s : Sched) (x y p : Option Addr) (f : Node → Node) :
    Sched.assignIf { s with ctxQueue := x, ctxQueueLast := y } p f
      = (s.assignIf p f).map fun s => { s with ctxQueue := x, ctxQueueLast := y } := by
  cases p with
  | none => rfl
  | some a =>
    simp only [Sched.assignIf, Sched.assign]
    split <;> rfl

theorem unlinkCtx_spec (hhead : s.ctxQueue = (l₁ ++ a :: l₂).head?)
    (hlast : s.ctxQueueLast = (l₁ ++ a :: l₂).getLast?)
    (hspells : Spells s.links none (l₁ ++ a :: l₂) none) (hnd : (l₁ ++ a :: l₂).Nodup)
    (hl : ∀ b ∈ l₁ ++ a :: l₂, b ∈ s.live) :
    ∃ s', unlinkCtx a s = some s' ∧ SameContexts s s' ∧ s'.ctxDone = s.ctxDone
      ∧ s'.ctxQueue = (l₁ ++ l₂).head? ∧ s'.ctxQueueLast = (l₁ ++ l₂).getLast?
      ∧ Spells s'.links none (l₁ ++ l₂) none
      ∧ (∀ b, b ∉ l₁ ++ l₂ → s'.links b = s.links b) := by
  have hprev : (s.mem a).prev = l₁.getLast? := by
    have := prev_of_spells hspells
    rwa [Option.or_none] at this
  have hnext : (s.mem a).next = l₂.head? := by
    have := next_of_spells hspells
    rwa [Option.or_none] at this
  have hal₂ : a ∉ l₂ := (List.nodup_cons.mp (List.nodup_append.mp hnd).2.1).1
  obtain ⟨s₁, s₂, hassign₁, ha₁, hsame₁, hassign₂, hsame₂, hq, hql, hdone, hspells', hother⟩ :=
    unlink_spec hspells hnd hl
  have hderef := deref_of_mem (hl a (by simp))
  rw [hprev, hnext] at hassign₁
  rw [ha₁, hprev, hnext] at hassign₂
  unfold unlinkCtx
  simp only [hderef, Option.bind_eq_bind, Option.bind_some, hprev, hnext]
  rcases List.eq_nil_or_concat' l₂ with rfl | ⟨l₂', c, rfl⟩
  · -- the last context of the queue
    rw [if_pos (by rw [hlast]; simp)]
    cases hassign₂
    rcases List.eq_nil_or_concat' l₁ with rfl | ⟨l₁', p, rfl⟩
    · cases hassign₁
      exact ⟨_, rfl, ⟨fun _ => rfl, rfl, rfl, rfl⟩, rfl, rfl, rfl, trivial, fun _ _ => rfl⟩
    · have hq₁ := assignIf_setQueue s s.ctxQueue (some p) (some p) fun n => { n with next := none }
      simp only [List.getLast?_concat, List.head?_nil] at hassign₁
      rw [hassign₁] at hq₁
      simp only [List.getLast?_concat]
      refine ⟨_, hq₁, ⟨hsame₂.ctxAt, hsame₂.live, hsame₂.ctxRunning, hsame₂.nextCtxId⟩, hdone, ?_,
        by simp, hspells', hother⟩
      show s.ctxQueue = _
      rw [hhead]
      cases l₁' <;> simp
  · have hlast' : s.ctxQueueLast = some c := by
      rw [hlast, ← List.cons_append, ← List.append_assoc, List.getLast?_concat]
    have hca : a ≠ c := by
      rintro rfl
      exact hal₂ (by simp)
    rw [if_neg (by rw [hlast']; simpa using hca)]
    rcases List.eq_nil_or_concat' l₁ with rfl | ⟨l₁', p, rfl⟩
    · -- the first context of the queue, which has others
      cases hassign₁
      have hq₁ := assignIf_setQueue s (l₂' ++ [c]).head? s.ctxQueueLast (l₂' ++ [c]).head? fun n =>
        { n with prev := none }
      simp only [List.getLast?_nil] at hassign₂
      rw [hassign₂] at hq₁
      refine ⟨_, hq₁, ⟨hsame₂.ctxAt, hsame₂.live, hsame₂.ctxRunning, hsame₂.nextCtxId⟩,
        hdone, rfl, ?_,
        hspells', hother⟩
      show s.ctxQueueLast = _
      rw [hlast']
      simp
    · simp only [List.getLast?_concat] at hassign₁ hassign₂ ⊢
      have hassign₁' : s.assign p (fun n => { n with next := (l₂' ++ [c]).head? }) = some s₁ :=
        hassign₁
      have hderef₁ := deref_of_mem (s := s₁) (a := a) (by rw [hsame₁.live]; exact hl a (by simp))
      simp only [hassign₁', Option.bind_some, hderef₁, ha₁, hprev, hnext, List.getLast?_concat]
      refine ⟨s₂, hassign₂, hsame₂, hdone, ?_, ?_, hspells', hother⟩
      · rw [hq, hhead]
        cases l₁' <;> simp
      · rw [hql, hlast', ← List.append_assoc, List.getLast?_concat]

/-- The loop keeps the smaller of two times. -/
theorem toNat_shorter (a b : UINT) : (if a < b then a else b).toNat = min a.toNat b.toNat := by
  split <;> rename_i h <;> rw [BitVec.lt_def] at h <;> omega

/-- The walk of `dequeue_ctx` has passed `l₁`, where no context is awake. -/
theorem dequeueLoop_spec {tNow : UINT} (hspells : Spells s.links none l none)
    (hl : ∀ b ∈ l, b ∈ s.live) :
    ∀ (n : Nat) (l₁ l₂ : List Addr) (minUs : UINT), l = l₁ ++ l₂ → l₂.length < n →
      (∀ b ∈ l₁, awake tNow (s.mem b) = false) →
      (∃ us, (∀ b ∈ l, awake tNow (s.mem b) = false)
          ∧ (∀ m : Nat, us.toNat ≤ m
              ↔ minUs.toNat ≤ m ∨ ∃ c ∈ l₂, (tDiff tNow (s.mem c)).toNat ≤ m)
          ∧ dequeueLoop tNow n l₂.head? minUs s = some (.inr us, s))
        ∨ ∃ a m₁ m₂, l = m₁ ++ a :: m₂ ∧ (∀ b ∈ m₁, awake tNow (s.mem b) = false)
          ∧ awake tNow (s.mem a) = true
          ∧ dequeueLoop tNow n l₂.head? minUs s = (unlinkCtx a s).map fun s => (.inl a, s) := by
  intro n
  induction n with
  | zero => intro l₁ l₂ minUs _ hlen; omega
  | succ n ih =>
    intro l₁ l₂ minUs hsplit hlen hpassed
    cases l₂ with
    | nil =>
      -- The end of the queue: `minUs` is the least time that is left.
      refine .inl ⟨minUs, ?_, by simp, rfl⟩
      rw [hsplit, List.append_nil]
      exact hpassed
    | cons a l₂ =>
      have hderef := deref_of_mem (hl a (by simp [hsplit]))
      have hnext : (s.mem a).next = l₂.head? := by
        have := next_of_spells (hsplit ▸ hspells)
        rwa [Option.or_none] at this
      cases hawake : awake tNow (s.mem a) with
      | true =>
        refine .inr ⟨a, l₁, l₂, hsplit, hpassed, hawake, ?_⟩
        simp only [List.head?_cons, dequeueLoop, hderef, Option.bind_eq_bind, Option.bind_some,
          hawake, if_true]
        cases unlinkCtx a s <;> rfl
      | false =>
        simp only [List.head?_cons, dequeueLoop, hderef, Option.bind_eq_bind, Option.bind_some,
          hawake, hnext]
        have hpassed' : ∀ b ∈ l₁ ++ [a], awake tNow (s.mem b) = false := by
          intro b hb
          rcases List.mem_append.mp hb with hb | hb
          · exact hpassed b hb
          · rw [List.mem_singleton.mp hb]
            exact hawake
        have hsplit' : l = (l₁ ++ [a]) ++ l₂ := by
          rw [hsplit, List.append_assoc]
          rfl
        simp only [List.length_cons] at hlen
        -- `a` sleeps on: it is passed, and its time is in the minimum.
        rcases ih (l₁ ++ [a]) l₂ _ hsplit' (by omega) hpassed' with
          ⟨us, hnone, hus, hloop⟩ | hpicked
        · refine .inl ⟨us, hnone, fun m => ?_, hloop⟩
          rw [hus, toNat_shorter, List.exists_mem_cons_iff, ← or_assoc]
          exact or_congr_left (by omega)
        · exact .inr hpicked

/-- The walk of `eval_cps_remove_done_ctx` has passed `l₁`, where no context has the id. -/
theorem removeDoneLoop_spec {cid : CID} (hspells : Spells s.links none l none) (hnd : l.Nodup)
    (hl : ∀ b ∈ l, b ∈ s.live) :
    ∀ (n : Nat) (l₁ l₂ : List Addr), l = l₁ ++ l₂ → l₂.length < n →
      (∀ b ∈ l₁, (s.ctxAt b).id ≠ cid) →
      ((∀ b ∈ l, (s.ctxAt b).id ≠ cid) ∧ removeDoneLoop cid n l₂.head? s = some (none, s))
        ∨ ∃ a m₁ m₂ s', l = m₁ ++ a :: m₂ ∧ l₁ <+: m₁ ∧ (∀ b ∈ m₁, (s.ctxAt b).id ≠ cid)
          ∧ (s.ctxAt a).id = cid
          ∧ removeDoneLoop cid n l₂.head? s = some (some (s.ctxAt a).r, s'.free a)
          ∧ SameContexts s s' ∧ s'.ctxQueue = s.ctxQueue ∧ s'.ctxQueueLast = s.ctxQueueLast
          ∧ s'.ctxDone = s.ctxDone ∧ Spells s'.links none (m₁ ++ m₂) none
          ∧ (∀ b, b ∉ m₁ ++ m₂ → s'.links b = s.links b) := by
  intro n
  induction n with
  | zero => intro l₁ l₂ _ hlen; omega
  | succ n ih =>
    intro l₁ l₂ hsplit hlen hpassed
    cases l₂ with
    | nil =>
      refine .inl ⟨?_, rfl⟩
      rw [hsplit, List.append_nil]
      exact hpassed
    | cons a l₂ =>
      have hderef := deref_of_mem (hl a (by simp [hsplit]))
      have hnext : (s.mem a).next = l₂.head? := by
        have := next_of_spells (hsplit ▸ hspells)
        rwa [Option.or_none] at this
      -- The links are set before the node is freed, so every pointer of the walk is still live.
      by_cases hid : (s.mem a).id = cid
      · obtain ⟨s₁, s₂, hassign₁, ha₁, hsame₁, hassign₂, hsame₂, hq, hql, hdone,
          hspells', hother⟩ :=
          unlink_spec (hsplit ▸ hspells) (hsplit ▸ hnd) (hsplit ▸ hl)
        have hderef₁ := deref_of_mem (s := s₁) (a := a)
          (by rw [hsame₁.live]; exact hl a (by simp [hsplit]))
        have hderef₂ := deref_of_mem (s := s₂) (a := a)
          (by rw [hsame₂.live]; exact hl a (by simp [hsplit]))
        have hr : (s₂.mem a).r = (s.ctxAt a).r := congrArg EvalContext.r (hsame₂.ctxAt a)
        refine .inr ⟨a, l₁, l₂, s₂, hsplit, List.prefix_refl l₁, hpassed, hid, ?_, hsame₂, hq, hql,
          hdone, hspells', hother⟩
        simp only [List.head?_cons, removeDoneLoop, hderef, Option.bind_eq_bind, Option.bind_some,
          if_pos hid, hassign₁, hderef₁, hassign₂, hderef₂, hr]
      · have hstep : removeDoneLoop cid (n + 1) (a :: l₂).head? s
            = removeDoneLoop cid n l₂.head? s := by
          simp only [List.head?_cons, removeDoneLoop, hderef, Option.bind_eq_bind, Option.bind_some,
            if_neg hid, hnext]
        rw [hstep]
        have hlen' : l₂.length < n := by
          simp only [List.length_cons] at hlen
          omega
        rcases ih (l₁ ++ [a]) l₂ (by rw [hsplit, List.append_assoc]; rfl) hlen' (by
            intro b hb
            rcases List.mem_append.mp hb with hb | hb
            · exact hpassed b hb
            · rw [List.mem_singleton.mp hb]
              exact hid) with hnone | ⟨b, m₁, m₂, s', hm, hpre, hrest⟩
        · exact .inl hnone
        · exact .inr ⟨b, m₁, m₂, s', hm, (List.prefix_append l₁ [a]).trans hpre, hrest⟩

end

/-! ## The operations -/

section

variable {s s' : Sched} {q q' : Places} {a b : Addr}

theorem Represents.mem_live (h : Represents s q) (hb : b ∈ q.all) : b ∈ s.live :=
  h.live.mem_iff.mpr hb

theorem mem_all_of_queue (hb : b ∈ q.queue) : b ∈ q.all := by simp [Places.all, hb]

theorem mem_all_of_done (hb : b ∈ q.done) : b ∈ q.all := by simp [Places.all, hb]

theorem mem_all_of_running (hb : q.running = some b) : b ∈ q.all := by simp [Places.all, hb]

theorem Represents.nodup_queue (h : Represents s q) : q.queue.Nodup :=
  (List.nodup_append.mp (List.nodup_append.mp h.nodup).1).1

theorem Represents.nodup_done (h : Represents s q) : q.done.Nodup :=
  (List.nodup_append.mp h.nodup).2.1

theorem Represents.queue_done (h : Represents s q) (hb : b ∈ q.queue) : b ∉ q.done := fun hd =>
  (List.nodup_append.mp h.nodup).2.2 b (by simp [hb]) b hd rfl

theorem Represents.running_queue (h : Represents s q) (hb : q.running = some b) : b ∉ q.queue :=
  fun hq => (List.nodup_append.mp (List.nodup_append.mp h.nodup).1).2.2 b hq b (by simp [hb]) rfl

theorem Represents.running_done (h : Represents s q) (hb : q.running = some b) : b ∉ q.done :=
  fun hd => (List.nodup_append.mp h.nodup).2.2 b (by simp [hb]) b hd rfl

theorem Represents.length_queue (h : Represents s q) : q.queue.length < s.walk := by
  have := h.live.length_eq
  simp only [Places.all, List.length_append] at this
  unfold Sched.walk
  omega

theorem Represents.length_done (h : Represents s q) : q.done.length < s.walk := by
  have := h.live.length_eq
  simp only [Places.all, List.length_append] at this
  unfold Sched.walk
  omega

theorem schedule_effect (h : Represents s q) (tNow : UINT) :
    ∃ s' q', schedule tNow s = some s' ∧ Represents s' q' ∧ s'.nextCtxId = s.nextCtxId
      ∧ Effect s s' q (.schedule tNow) .unit q' := by
  unfold schedule
  cases hrun : q.running with
  | some a =>
    -- A context is running: the queue is not looked at.
    refine ⟨s, q, by rw [h.ctxRunning, hrun], h, rfl, .busy (by simp [hrun]) fun _ _ => rfl⟩
  | none =>
    rw [h.ctxRunning, hrun]
    have hl : ∀ b ∈ q.queue, b ∈ s.live := fun b hb => h.mem_live (mem_all_of_queue hb)
    unfold dequeueCtx
    rw [h.ctxQueue]
    rcases dequeueLoop_spec h.queue hl s.walk [] q.queue defaultSleepUs rfl h.length_queue
        (by simp) with ⟨us, hnone, -, hloop⟩ | ⟨a, l₁, l₂, hq, hfirst, ha, hloop⟩
    · refine ⟨s, q, by rw [hloop]; rfl, h, rfl, .nonePicked hrun hnone fun _ _ => rfl⟩
    · obtain ⟨s₁, hunlink, hsame, hdone, hhead, hlast, hspells, hother⟩ :=
        unlinkCtx_spec (hq ▸ h.ctxQueue) (hq ▸ h.ctxQueueLast) (hq ▸ h.queue) (hq ▸ h.nodup_queue)
          (hq ▸ hl)
      have hperm : (⟨l₁ ++ l₂, some a, q.done⟩ : Places).all.Perm q.all := by
        simp only [Places.all, hq, hrun, Option.toList_some, Option.toList_none, List.append_nil]
        refine List.Perm.append_right _ ?_
        refine (List.perm_append_singleton a _).trans ?_
        exact List.perm_middle.symm
      refine ⟨{ s₁ with ctxRunning := some a }, ⟨l₁ ++ l₂, some a, q.done⟩, ?_, ?_,
        hsame.nextCtxId, .picked hrun hq hfirst ha fun b _ => hsame.ctxAt b⟩
      · rw [hloop, hunlink]
        rfl
      · refine ⟨hspells, ?_, hhead, hlast, hdone.trans h.ctxDone, rfl, ?_,
          hperm.nodup_iff.mpr h.nodup⟩
        -- `a` was in the queue, so no link of the done list has changed.
        · refine (spells_congr fun b hb => hother b fun hb' => ?_).mpr h.done
          refine h.queue_done (b := b) ?_ hb
          rw [hq]
          simp only [List.mem_append, List.mem_cons] at hb' ⊢
          tauto
        · show s₁.live.Perm _
          rw [hsame.live]
          exact h.live.trans hperm.symm

/-- An assignment to fields other than the links. -/
theorem Represents.assign_fields {f : Node → Node} (h : Represents s q) (ha : a ∈ q.all)
    (hf : ∀ n, (f n).prev = n.prev ∧ (f n).next = n.next) :
    ∃ s', s.assign a f = some s' ∧ Represents s' q ∧ s'.ctxAt a = (f (s.mem a)).toEvalContext
      ∧ s'.nextCtxId = s.nextCtxId ∧ ∀ b, b ≠ a → s'.ctxAt b = s.ctxAt b := by
  have hlinks : ∀ b, Sched.links { s with mem := Function.update s.mem a (f (s.mem a)) } b
      = s.links b := by
    intro b
    by_cases hb : b = a
    · subst hb
      simp only [Sched.links, Function.update_self, hf]
    · simp only [Sched.links, Function.update_of_ne hb]
  refine ⟨_, assign_of_mem (h.mem_live ha) f, ⟨?_, ?_, h.ctxQueue, h.ctxQueueLast, h.ctxDone,
    h.ctxRunning, h.live, h.nodup⟩, ?_, rfl, fun b hb => ?_⟩
  · exact (spells_congr fun b _ => hlinks b).mpr h.queue
  · exact (spells_congr fun b _ => hlinks b).mpr h.done
  · simp only [Sched.ctxAt, Function.update_self]
  · simp only [Sched.ctxAt, Function.update_of_ne hb]

/-- The running context is put on the done list. -/
theorem Represents.finishCtx (h : Represents s q) (hrun : q.running = some a) :
    ∃ s', finishCtx s = some s' ∧ Represents s' ⟨q.queue, none, a :: q.done⟩
      ∧ s'.nextCtxId = s.nextCtxId ∧ ∀ b, s'.ctxAt b = s.ctxAt b := by
  obtain ⟨s', hfinish, hsame, hhead, hlast, hdone, hspells, hother⟩ :=
    finishCtx_spec (h.ctxRunning.trans hrun) h.ctxDone h.done h.nodup_done (h.running_done hrun)
      (h.mem_live (mem_all_of_running hrun)) fun b hb => h.mem_live (mem_all_of_done hb)
  have hperm : (⟨q.queue, none, a :: q.done⟩ : Places).all.Perm q.all := by
    simp [Places.all, hrun]
  refine ⟨s', hfinish, ⟨?_, hspells, hhead.trans h.ctxQueue, hlast.trans h.ctxQueueLast, hdone,
    hsame.ctxRunning, ?_, hperm.nodup_iff.mpr h.nodup⟩, hsame.nextCtxId, hsame.ctxAt⟩
  · refine (spells_congr fun b hb => hother b (h.queue_done hb) ?_).mpr h.queue
    rintro rfl
    exact h.running_queue hrun hb
  · rw [hsame.live]
    exact h.live.trans hperm.symm

theorem finish_effect (h : Represents s q) (hrun : q.running = some a) :
    ∃ s' q', finishCtx s = some s' ∧ Represents s' q' ∧ s'.nextCtxId = s.nextCtxId
      ∧ Effect s s' q .finish .unit q' := by
  obtain ⟨s', hfinish, hrep, hnext, hsame⟩ := h.finishCtx hrun
  exact ⟨s', _, hfinish, hrep, hnext, .finished hrun fun b _ => hsame b⟩

theorem error_effect (h : Represents s q) (hrun : q.running = some a) (errVal : VALUE) :
    ∃ s' q', errorCtx errVal s = some s' ∧ Represents s' q' ∧ s'.nextCtxId = s.nextCtxId
      ∧ Effect s s' q (.error errVal) .unit q' := by
  obtain ⟨s₁, hassign, hrep₁, ha, hnext₁, hother⟩ := h.assign_fields (mem_all_of_running hrun)
    (f := fun n => { n with r := errVal }) fun _ => ⟨rfl, rfl⟩
  obtain ⟨s', hfinish, hrep, hnext, hsame⟩ := hrep₁.finishCtx hrun
  refine ⟨s', _, ?_, hrep, hnext.trans hnext₁, .failed hrun ?_ fun b _ hb => ?_⟩
  · unfold errorCtx
    simp only [h.ctxRunning, hrun, hassign, Option.bind_eq_bind, Option.bind_some, hfinish]
  · rw [hsame, ha]
    rfl
  · rw [hsame, hother b hb]

theorem yield_effect (h : Represents s q) (hrun : q.running = some a) (io : Outside)
    (sleepUs : UINT) :
    ∃ s' q', yieldCtx io sleepUs s = some s' ∧ Represents s' q' ∧ s'.nextCtxId = s.nextCtxId
      ∧ Effect s s' q (.yield io sleepUs) .unit q' := by
  obtain ⟨s₁, hassign₁, hrep₁, ha₁, hnext₁, hother₁⟩ := h.assign_fields (mem_all_of_running hrun)
    (f := fun n => match io.timestampUs with
      | some t => { n with timestamp := t, sleepUs := sleepUs }
      | none => { n with timestamp := 0#32, sleepUs := 0#32 })
    (by intro n; cases io.timestampUs <;> exact ⟨rfl, rfl⟩)
  -- The value of `yield` is `t`, and the context goes on with its continuation.
  obtain ⟨s₂, hassign₂, hrep₂, ha₂, hnext₂, hother₂⟩ :=
    hrep₁.assign_fields (mem_all_of_running hrun)
    (f := fun n => { n with r := encSym symreprTrue, appCont := true }) fun _ => ⟨rfl, rfl⟩
  obtain ⟨s₃, henqueue, hsame, hdone, hhead, hlast, hspells, hother⟩ :=
    enqueueCtx_spec hrep₂.ctxQueue hrep₂.ctxQueueLast hrep₂.queue h.nodup_queue
      (h.running_queue hrun) (hrep₂.mem_live (mem_all_of_running hrun))
      fun b hb => hrep₂.mem_live (mem_all_of_queue hb)
  have hperm : (⟨q.queue ++ [a], none, q.done⟩ : Places).all.Perm q.all := by
    simp [Places.all, hrun]
  refine ⟨{ s₃ with ctxRunning := none }, ⟨q.queue ++ [a], none, q.done⟩, ?_, ?_,
    hsame.nextCtxId.trans (hnext₂.trans hnext₁), .yielded hrun ?_ fun b _ hb => ?_⟩
  · unfold yieldCtx
    simp only [h.ctxRunning, hrun, hassign₁, hassign₂, henqueue, Option.bind_eq_bind,
      Option.bind_some]
  · refine ⟨hspells, ?_, hhead, hlast, hdone.trans hrep₂.ctxDone, rfl, ?_,
      hperm.nodup_iff.mpr h.nodup⟩
    -- Nothing of the queue and not `a` itself is on the done list.
    · refine (spells_congr fun b hb => hother b (fun hq => h.queue_done hq hb) ?_).mpr hrep₂.done
      rintro rfl
      exact h.running_done hrun hb
    · show s₃.live.Perm _
      rw [hsame.live]
      exact hrep₂.live.trans hperm.symm
  · have hmem : ({ s₁.mem a with r := encSym symreprTrue, appCont := true } : Node).toEvalContext
        = { s₁.ctxAt a with r := encSym symreprTrue, appCont := true } := rfl
    show _ = Outcome.yielded (s₃.ctxAt a)
    rw [hsame.ctxAt, ha₂, hmem, ha₁]
    unfold LispBM.yieldCtx
    cases io.timestampUs <;> rfl
  · show s₃.ctxAt b = _
    rw [hsame.ctxAt, hother₂ b hb, hother₁ b hb]

/-- A state that differs in the next id only. -/
theorem Represents.setNextCtxId (h : Represents s q) (id : UINT) :
    Represents { s with nextCtxId := id } q :=
  ⟨h.queue, h.done, h.ctxQueue, h.ctxQueueLast, h.ctxDone, h.ctxRunning, h.live, h.nodup⟩

/-- A new context is put at the end of the queue. -/
theorem Represents.enqueueNew {addr : Addr} (h : Represents s q) (hfresh : addr ∉ s.live)
    (node : Node) :
    ∃ s', enqueueCtx addr
        { s with live := addr :: s.live, mem := Function.update s.mem addr node } = some s'
      ∧ Represents s' { q with queue := q.queue ++ [addr] }
      ∧ s'.ctxAt addr = node.toEvalContext ∧ s'.nextCtxId = s.nextCtxId
      ∧ ∀ b ∈ q.all, s'.ctxAt b = s.ctxAt b := by
  -- The fresh address is in no list, so the lists are spelled by the same links as before.
  have hnew : ∀ b ∈ q.all, b ≠ addr := by
    rintro b hb rfl
    exact hfresh (h.mem_live hb)
  have hlinks : ∀ b ∈ q.all, Sched.links
      { s with live := addr :: s.live, mem := Function.update s.mem addr node } b = s.links b := by
    intro b hb
    simp only [Sched.links, Function.update_of_ne (hnew b hb)]
  have hmem : ∀ b ∈ q.queue, b ∈ addr :: s.live := fun b hb =>
    List.mem_cons_of_mem _ (h.mem_live (mem_all_of_queue hb))
  obtain ⟨s', henqueue, hsame, hdone, hhead, hlast, hspells, hother⟩ :=
    enqueueCtx_spec
      (s := { s with live := addr :: s.live, mem := Function.update s.mem addr node }) (a := addr)
      h.ctxQueue h.ctxQueueLast
      ((spells_congr fun b hb => hlinks b (mem_all_of_queue hb)).mpr h.queue) h.nodup_queue
      (fun hb => hnew _ (mem_all_of_queue hb) rfl) (by simp) hmem
  have hperm : ({ q with queue := q.queue ++ [addr] } : Places).all.Perm (addr :: q.all) := by
    simp only [Places.all, List.append_assoc]
    exact List.perm_middle
  refine ⟨s', henqueue, ⟨hspells, ?_, hhead, hlast, hdone.trans h.ctxDone,
    hsame.ctxRunning.trans h.ctxRunning, ?_, ?_⟩, ?_, hsame.nextCtxId, fun b hb => ?_⟩
  · refine (spells_congr fun b hb => ?_).mpr h.done
    have hb' : b ∈ q.all := mem_all_of_done hb
    exact (hother b (fun hq => h.queue_done hq hb) (hnew b hb')).trans (hlinks b hb')
  · rw [hsame.live]
    exact (h.live.cons addr).trans hperm.symm
  · exact hperm.nodup_iff.mpr (List.nodup_cons.mpr ⟨fun hb => hnew _ hb rfl, h.nodup⟩)
  · rw [hsame.ctxAt]
    simp only [Sched.ctxAt, Function.update_self]
  · rw [hsame.ctxAt]
    simp only [Sched.ctxAt, Function.update_of_ne (hnew b hb)]

theorem create_effect {addr : Addr} (h : Represents s q) (hfresh : addr ∉ s.live) (io : Outside)
    (node : Node) (heap : HeapState) (program env : VALUE) (stackSize : StackSize)
    (growStack : Bool) :
    ∃ cid s' q', createCtx io addr node heap program env stackSize growStack s = some (cid, s')
      ∧ Represents s' q'
      ∧ (s'.nextCtxId = s.nextCtxId ∨ s'.nextCtxId = s.nextCtxId + 1#32)
      ∧ Effect s s' q (.create io addr node heap program env stackSize growStack) (.id cid) q' := by
  unfold createCtx
  split
  -- No id is left, the program is no list, or there is no memory: nothing has happened yet.
  · exact ⟨_, s, q, rfl, h, .inl rfl, .notCreated fun _ _ => rfl⟩
  split
  · exact ⟨_, s, q, rfl, h, .inl rfl, .notCreated fun _ _ => rfl⟩
  split
  · exact ⟨_, s, q, rfl, h, .inl rfl, .notCreated fun _ _ => rfl⟩
  simp only
  -- From here on the id is used up, also when there is no stack.
  have hrep := h.setNextCtxId (s.nextCtxId + 1#32)
  split
  · exact ⟨_, _, q, rfl, hrep, .inr rfl, .notCreated fun _ _ => rfl⟩
  split
  · exact ⟨_, _, q, rfl, hrep, .inr rfl, .notCreated fun _ _ => rfl⟩
  · next K _ =>
    obtain ⟨s', henqueue, hrep', hnode, hnext, hsame⟩ := hrep.enqueueNew hfresh
      { node with
        program := cdr heap program, currExp := car heap program, currEnv := env, done := false,
        appCont := false, timestamp := 0#32, sleepUs := 0#32,
        id := s.nextCtxId.setWidth 16, K := K }
    refine ⟨_, s', _, ?_, hrep', .inr hnext, .created ?_ hnext hsame⟩
    · simp only [henqueue, Option.bind_eq_bind, Option.bind_some]
    · rw [hnode]

/-- The places without the context `a` of the done list. -/
theorem perm_of_done {l₁ l₂ : List Addr} (hq : q.done = l₁ ++ a :: l₂) :
    q.all.Perm (a :: ({ q with done := l₁ ++ l₂ } : Places).all) := by
  simp only [Places.all, hq]
  rw [← List.append_assoc, ← List.append_assoc]
  exact List.perm_middle

/-- A context that is linked in no list any more is freed. -/
theorem Represents.free {l₁ l₂ : List Addr} {s₁ : Sched} (h : Represents s q)
    (hq : q.done = l₁ ++ a :: l₂) (hlive : s₁.live = s.live) (hrun : s₁.ctxRunning = s.ctxRunning)
    (hhead : s₁.ctxQueue = s.ctxQueue) (hlast : s₁.ctxQueueLast = s.ctxQueueLast)
    (hdone : s₁.ctxDone = (l₁ ++ l₂).head?) (hspells : Spells s₁.links none (l₁ ++ l₂) none)
    (hother : ∀ b, b ∉ l₁ ++ l₂ → s₁.links b = s.links b) :
    Represents (s₁.free a) { q with done := l₁ ++ l₂ } := by
  have hperm := perm_of_done hq
  refine ⟨?_, hspells, hhead.trans h.ctxQueue, hlast.trans h.ctxQueueLast, hdone,
    hrun.trans h.ctxRunning, ?_, ?_⟩
  · refine (spells_congr fun b hb => hother b fun hb' => ?_).mpr h.queue
    refine h.queue_done (b := b) hb ?_
    rw [hq]
    simp only [List.mem_append, List.mem_cons] at hb' ⊢
    tauto
  · show (s₁.live.erase a).Perm _
    rw [hlive]
    have := (h.live.trans hperm).erase a
    rwa [List.erase_cons_head] at this
  · exact (List.nodup_cons.mp (hperm.nodup_iff.mp h.nodup)).2

/-- The head of the done list is freed before the link of the next context is set. -/
theorem removeDoneCtx_head {node : Node} (h : Represents s q) {l : List Addr}
    (hq : q.done = a :: l) (hnode : s.deref a = some node) :
    ∃ s', Sched.assignIf { s.free a with ctxDone := node.next } node.next
        (fun n => { n with prev := none }) = some s'
      ∧ Represents s' { q with done := l } ∧ s'.nextCtxId = s.nextCtxId
      ∧ ∀ b, s'.ctxAt b = s.ctxAt b := by
  have hspells : Spells s.links none (a :: l) none := hq ▸ h.done
  have hnd : (a :: l).Nodup := hq ▸ h.nodup_done
  have hmem : a ∈ s.live := h.mem_live (mem_all_of_done (by simp [hq]))
  obtain rfl : s.mem a = node := by
    rw [deref_of_mem hmem] at hnode
    exact Option.some.inj hnode
  have hnext : (s.mem a).next = l.head? := by
    have := hspells.2.1
    rwa [Option.or_none] at this
  obtain ⟨s', hassign, hsame, hlinks, hother, hhead, hlast, hdone⟩ :=
    assignIf_links (s := { s.free a with ctxDone := (s.mem a).next }) (p := (s.mem a).next)
      (f := fun n => { n with prev := none })
      (fun b hb => by
        have hbl : b ∈ l := List.mem_of_mem_head? (hnext ▸ hb)
        have hba : b ≠ a := by
          rintro rfl
          exact (List.nodup_cons.mp hnd).1 hbl
        exact (List.mem_erase_of_ne hba).mpr (h.mem_live (mem_all_of_done (by simp [hq, hbl]))))
      fun _ => rfl
  refine ⟨s', hassign, ?_, hsame.nextCtxId, hsame.ctxAt⟩
  have hspells' : Spells s'.links none ([] ++ l) none := by
    refine spells_setBefore hspells.2.2 (List.nodup_cons.mp hnd).2 ?_ ?_
    · intro b hb
      exact hlinks b (hnext.trans hb)
    · intro b _ hb
      exact hother b (by rw [hnext]; exact hb)
  have hother' : ∀ b, b ∉ [] ++ l → s'.links b = s.links b := fun b hb =>
    hother b (by rw [hnext]; exact fun hb' => hb (List.mem_of_mem_head? hb'))
  have hfree : Represents (Sched.free { s' with live := s.live } a) { q with done := [] ++ l } :=
    h.free hq rfl hsame.ctxRunning hhead hlast (hdone.trans hnext) hspells' hother'
  -- `free` comes first in the source and last in `Represents.free`; they commute.
  have hlive : s'.live = s.live.erase a := hsame.live
  have : ({ s' with live := s.live } : Sched).free a = s' := by
    simp only [Sched.free, ← hlive]
  rwa [this] at hfree

theorem remove_effect (h : Represents s q) (cid : CID) :
    ∃ r s' q', removeDoneCtx cid s = some (r, s') ∧ Represents s' q' ∧ s'.nextCtxId = s.nextCtxId
      ∧ Effect s s' q (.remove cid) (.result r) q' := by
  unfold removeDoneCtx
  rw [h.ctxDone]
  cases hq : q.done with
  | nil => exact ⟨none, s, q, rfl, h, rfl, .notRemoved (by simp [hq]) fun _ _ => rfl⟩
  | cons a l =>
    have hmem : a ∈ s.live := h.mem_live (mem_all_of_done (by simp [hq]))
    have hderef := deref_of_mem hmem
    have hnext : (s.mem a).next = l.head? := by
      have := (hq ▸ h.done : Spells s.links none (a :: l) none).2.1
      rwa [Option.or_none] at this
    simp only [List.head?_cons, hderef, Option.bind_eq_bind, Option.bind_some]
    by_cases hid : (s.mem a).id = cid
    · obtain ⟨s', hassign, hrep, hnextId, hsame⟩ := removeDoneCtx_head h hq hderef
      refine ⟨some (s.mem a).r, s', _, ?_, hrep, hnextId, ?_⟩
      · rw [if_pos hid, hassign]
        rfl
      · have hq' : q.done = [] ++ a :: l := hq
        exact .removed hq' (by simp) hid fun b _ => hsame b
    · rw [if_neg hid, hnext]
      have hl : ∀ b ∈ q.done, b ∈ s.live := fun b hb => h.mem_live (mem_all_of_done hb)
      have hlen : l.length < s.walk := by
        have := h.length_done
        rw [hq, List.length_cons] at this
        omega
      rcases removeDoneLoop_spec h.done h.nodup_done hl s.walk [a] l hq hlen
        (by simpa [Sched.ctxAt] using hid)
        with ⟨hnone, hloop⟩ | ⟨b, l₁, l₂, s₁, hsplit, hpre, hfirst, hb, hloop, hsame, hqu, hql, hd,
          hspells, hother⟩
      · exact ⟨none, s, q, hloop, h, rfl, .notRemoved hnone fun _ _ => rfl⟩
      · refine ⟨some (s.ctxAt b).r, s₁.free b, { q with done := l₁ ++ l₂ }, hloop, ?_,
          hsame.nextCtxId, .removed hsplit hfirst hb fun c _ => hsame.ctxAt c⟩
        refine h.free hsplit hsame.live hsame.ctxRunning hqu hql ?_ hspells hother
        -- the first context stays the first one
        obtain ⟨l₁', rfl⟩ := hpre
        rw [hd, h.ctxDone, hq]
        rfl

theorem evaluate_effect (h : Represents s q) (hrun : q.running = some a) (ctx : EvalContext) :
    ∃ s', s.assign a (fun n => { n with toEvalContext := ctx }) = some s' ∧ Represents s' q
      ∧ s'.nextCtxId = s.nextCtxId ∧ Effect s s' q (.evaluate ctx) .unit q := by
  obtain ⟨s', hassign, hrep, ha, hnext, hother⟩ := h.assign_fields (mem_all_of_running hrun)
    (f := fun n => { n with toEvalContext := ctx }) fun _ => ⟨rfl, rfl⟩
  exact ⟨s', hassign, hrep, hnext, .evaluated hrun ha fun b _ hb => hother b hb⟩

def Op.isCreate : Op → Bool
  | .create _ _ _ _ _ _ _ _ => true
  | _ => false

/-- Every operation that may be made is made, and does what `Effect` says. -/
theorem op_effect {op : Op} (h : Represents s q) (hop : op.Enabled s) :
    ∃ out s' q', op.exec s = some (out, s') ∧ Represents s' q'
      ∧ (s'.nextCtxId = s.nextCtxId ∨ op.isCreate ∧ s'.nextCtxId = s.nextCtxId + 1#32)
      ∧ Effect s s' q op out q' := by
  have hrunning : s.ctxRunning ≠ none → ∃ a, q.running = some a := fun hne =>
    Option.ne_none_iff_exists'.mp (h.ctxRunning ▸ hne)
  cases op with
  | create io addr node heap program env stackSize growStack =>
    obtain ⟨cid, s', q', hexec, hrep, hnext, heffect⟩ :=
      create_effect h hop io node heap program env stackSize growStack
    exact ⟨_, s', q', by simp [Op.exec, hexec], hrep, hnext.imp_right fun h => ⟨rfl, h⟩, heffect⟩
  | schedule tNow =>
    obtain ⟨s', q', hexec, hrep, hnext, heffect⟩ := schedule_effect h tNow
    exact ⟨_, s', q', by simp [Op.exec, hexec], hrep, .inl hnext, heffect⟩
  | yield io sleepUs =>
    obtain ⟨a, hrun⟩ := hrunning hop
    obtain ⟨s', q', hexec, hrep, hnext, heffect⟩ := yield_effect h hrun io sleepUs
    exact ⟨_, s', q', by simp [Op.exec, hexec], hrep, .inl hnext, heffect⟩
  | finish =>
    obtain ⟨a, hrun⟩ := hrunning hop
    obtain ⟨s', q', hexec, hrep, hnext, heffect⟩ := finish_effect h hrun
    exact ⟨_, s', q', by simp [Op.exec, hexec], hrep, .inl hnext, heffect⟩
  | error errVal =>
    obtain ⟨a, hrun⟩ := hrunning hop
    obtain ⟨s', q', hexec, hrep, hnext, heffect⟩ := error_effect h hrun errVal
    exact ⟨_, s', q', by simp [Op.exec, hexec], hrep, .inl hnext, heffect⟩
  | remove cid =>
    obtain ⟨r, s', q', hexec, hrep, hnext, heffect⟩ := remove_effect h cid
    exact ⟨_, s', q', by simp [Op.exec, hexec], hrep, .inl hnext, heffect⟩
  | evaluate ctx =>
    obtain ⟨a, hrun, -⟩ := hop
    obtain ⟨s', hexec, hrep, hnext, heffect⟩ :=
      evaluate_effect h (h.ctxRunning.symm.trans hrun) ctx
    exact ⟨_, s', q, by simp [Op.exec, hrun, hexec], hrep, .inl hnext, heffect⟩

end

/-! ## Runs -/

/-- The static variables before the first operation. -/
def start (mem : Addr → Node) : Sched := ⟨mem, [], none, none, none, none, 1#32⟩

/-- What the operations of a run have done: how many there were and how many ids they have used,
which of them put a context at an address into the queue last, and with what result a context was
finished last. -/
structure History where
  ops : Nat
  idsUsed : Nat
  since : Addr → Nat
  result : Addr → VALUE

/-- The context that an operation puts into the queue. -/
def Op.enqueues (s s' : Sched) : Op → Option Addr
  | .create _ addr _ _ _ _ _ _ => if addr ∈ s'.live then some addr else none
  | .yield _ _ => s.ctxRunning
  | _ => none

/-- The context that an operation finishes, and its result. -/
def Op.finishes (s : Sched) : Op → Option (Addr × VALUE)
  | .finish => s.ctxRunning.map fun a => (a, (s.ctxAt a).r)
  | .error errVal => s.ctxRunning.map fun a => (a, errVal)
  | _ => none

def History.after (h : History) (s s' : Sched) (op : Op) : History where
  ops := h.ops + 1
  -- an id is used for a context, and also for one whose stack could not be allocated
  idsUsed := if s'.nextCtxId = s.nextCtxId then h.idsUsed else h.idsUsed + 1
  since a := if op.enqueues s s' = some a then h.ops + 1 else h.since a
  result a :=
    match op.finishes s with
    | some (b, r) => if b = a then r else h.result a
    | none => h.result a

/-- Sequences of operations from the start, in any order. -/
inductive Reaches : History → Sched → Prop where
  | start (mem : Addr → Node) : Reaches ⟨0, 0, fun _ => 0, fun _ => 0#32⟩ (start mem)
  | step {h : History} {s s' : Sched} {op : Op} {out : Out} (hs : Reaches h s)
      (hop : op.Enabled s) (hexec : op.exec s = some (out, s')) : Reaches (h.after s s' op) s'

/-- The queue is in the order in which its contexts were put into it. -/
structure InOrder (h : History) (q : Places) : Prop where
  pairwise : q.queue.Pairwise fun a b => h.since a < h.since b
  since_le : ∀ a ∈ q.queue, h.since a ≤ h.ops

/-- Contexts on the done list keep the result they were finished with. -/
def KeepsResults (h : History) (s : Sched) (q : Places) : Prop :=
  ∀ a ∈ q.done, (s.ctxAt a).r = h.result a

/-- While ids are not used again, a context has an id smaller than the next one, and no other
context has it. -/
structure UniqueIds (h : History) (s : Sched) (q : Places) : Prop where
  nextCtxId : 0 < s.nextCtxId.toNat ∧ s.nextCtxId.toNat = h.idsUsed + 1
  id_lt : ∀ a ∈ q.all, (s.ctxAt a).id.toNat < s.nextCtxId.toNat
  inj : ∀ a ∈ q.all, ∀ b ∈ q.all, (s.ctxAt a).id = (s.ctxAt b).id → a = b

section

variable {h : History} {s s' : Sched} {q q' : Places} {op : Op} {out : Out} {a b : Addr}

theorem since_after_of_ne (hne : op.enqueues s s' ≠ some a) :
    (h.after s s' op).since a = h.since a := if_neg hne

theorem since_after_self (ha : op.enqueues s s' = some a) :
    (h.after s s' op).since a = h.ops + 1 := if_pos ha

/-- Contexts may leave the queue anywhere. -/
theorem InOrder.sublist (hq : InOrder h q) (hsub : q'.queue.Sublist q.queue)
    (hnone : op.enqueues s s' = none) : InOrder (h.after s s' op) q' := by
  have hne : ∀ a, op.enqueues s s' ≠ some a := by simp [hnone]
  refine ⟨?_, fun a ha => ?_⟩
  · refine (hq.pairwise.sublist hsub).imp_of_mem ?_
    intro a b _ _ hab
    rwa [since_after_of_ne (hne a), since_after_of_ne (hne b)]
  · rw [since_after_of_ne (hne a)]
    exact (hq.since_le a (hsub.subset ha)).trans (Nat.le_succ _)

/-- A context is put at the end of the queue. -/
theorem InOrder.concat (hq : InOrder h q) (ha : op.enqueues s s' = some a) (hnot : a ∉ q.queue)
    (hq' : q'.queue = q.queue ++ [a]) : InOrder (h.after s s' op) q' := by
  have hne : ∀ b ∈ q.queue, op.enqueues s s' ≠ some b := by
    intro b hb heq
    rw [ha] at heq
    exact hnot (Option.some.inj heq ▸ hb)
  refine ⟨?_, fun b hb => ?_⟩
  · rw [hq', List.pairwise_append]
    refine ⟨?_, List.pairwise_singleton _ _, ?_⟩
    · refine hq.pairwise.imp_of_mem ?_
      intro b c hb hc hbc
      rwa [since_after_of_ne (hne b hb), since_after_of_ne (hne c hc)]
    · intro b hb c hc
      rw [List.mem_singleton.mp hc, since_after_self ha, since_after_of_ne (hne b hb)]
      exact Nat.lt_succ_of_le (hq.since_le b hb)
  · show _ ≤ h.ops + 1
    rw [hq'] at hb
    rcases List.mem_append.mp hb with hb | hb
    · rw [since_after_of_ne (hne b hb)]
      exact (hq.since_le b hb).trans (Nat.le_succ _)
    · rw [List.mem_singleton.mp hb, since_after_self ha]

theorem InOrder.step (hq : InOrder h q) (hrep : Represents s q) (hrep' : Represents s' q')
    (hop : op.Enabled s) (heffect : Effect s s' q op out q') : InOrder (h.after s s' op) q' := by
  -- A new context and one that yields come last; all others keep their order.
  cases heffect with
  | created hid hnext hsame =>
    rename_i io addr node heap program env stackSize growStack
    refine hq.concat (a := addr) ?_ (fun hb => hop (hrep.mem_live (mem_all_of_queue hb))) rfl
    exact if_pos (hrep'.mem_live (mem_all_of_queue (by simp)))
  | notCreated hsame =>
    rename_i io addr node heap program env stackSize growStack
    refine hq.sublist (List.Sublist.refl _) ?_
    have hnot : addr ∉ s'.live := fun hlive =>
      hop (hrep.mem_live (hrep'.live.mem_iff.mp hlive))
    exact if_neg hnot
  | picked hrun hq' hfirst ha hsame =>
    refine hq.sublist ?_ rfl
    rw [hq']
    exact (List.Sublist.refl _).append (List.sublist_cons_self _ _)
  | nonePicked hrun hq' hsame =>
    exact hq.sublist (List.Sublist.refl _) rfl
  | busy hrun hsame => exact hq.sublist (List.Sublist.refl _) rfl
  | yielded hrun ha hsame =>
    exact hq.concat (hrep.ctxRunning.trans hrun) (hrep.running_queue hrun) rfl
  | finished hrun hsame => exact hq.sublist (List.Sublist.refl _) rfl
  | failed hrun ha hsame => exact hq.sublist (List.Sublist.refl _) rfl
  | removed hq' hfirst ha hsame =>
    exact hq.sublist (List.Sublist.refl _) rfl
  | notRemoved hq' hsame => exact hq.sublist (List.Sublist.refl _) rfl
  | evaluated hrun ha hsame =>
    exact hq.sublist (List.Sublist.refl _) rfl

/-- The contexts that an operation leaves on the done list are as they were. -/
theorem KeepsResults.subset (hq : KeepsResults h s q) (hsub : q'.done ⊆ q.done)
    (hnone : op.finishes s = none) (hsame : ∀ a ∈ q.done, s'.ctxAt a = s.ctxAt a) :
    KeepsResults (h.after s s' op) s' q' := by
  intro a ha
  rw [hsame a (hsub ha), hq a (hsub ha)]
  simp only [History.after, hnone]

theorem KeepsResults.cons {r : VALUE} (hq : KeepsResults h s q) (hnot : a ∉ q.done)
    (ha : op.finishes s = some (a, r)) (hr : (s'.ctxAt a).r = r)
    (hsame : ∀ b ∈ q.done, s'.ctxAt b = s.ctxAt b) (hq' : q'.done = a :: q.done) :
    KeepsResults (h.after s s' op) s' q' := by
  intro b hb
  rw [hq'] at hb
  rcases List.mem_cons.mp hb with rfl | hb
  · simp only [History.after, ha, if_true, hr]
  · have hne : a ≠ b := by
      rintro rfl
      exact hnot hb
    rw [hsame b hb, hq b hb]
    simp only [History.after, ha, if_neg hne]

theorem KeepsResults.step (hq : KeepsResults h s q) (hrep : Represents s q)
    (heffect : Effect s s' q op out q') : KeepsResults (h.after s s' op) s' q' := by
  -- a context that is running is not on the done list
  have hother : ∀ {a : Addr}, q.running = some a → (∀ b ∈ q.all, b ≠ a → s'.ctxAt b = s.ctxAt b) →
      ∀ b ∈ q.done, s'.ctxAt b = s.ctxAt b := by
    intro a hrun hsame b hb
    apply hsame b (mem_all_of_done hb)
    rintro rfl
    exact hrep.running_done hrun hb
  cases heffect with
  | created hid hnext hsame =>
    exact hq.subset (List.Subset.refl _) rfl fun a ha => hsame a (mem_all_of_done ha)
  | notCreated hsame =>
    exact hq.subset (List.Subset.refl _) rfl fun a ha => hsame a (mem_all_of_done ha)
  | picked hrun hq' hfirst ha hsame =>
    exact hq.subset (List.Subset.refl _) rfl fun a ha => hsame a (mem_all_of_done ha)
  | nonePicked hrun hq' hsame =>
    exact hq.subset (List.Subset.refl _) rfl fun a ha => hsame a (mem_all_of_done ha)
  | busy hrun hsame =>
    exact hq.subset (List.Subset.refl _) rfl fun a ha => hsame a (mem_all_of_done ha)
  | yielded hrun ha hsame => exact hq.subset (List.Subset.refl _) rfl (hother hrun hsame)
  | finished hrun hsame =>
    rename_i a
    refine hq.cons (hrep.running_done hrun) (r := (s.ctxAt a).r) ?_ ?_
      (fun b hb => hsame b (mem_all_of_done hb)) rfl
    · simp [Op.finishes, hrep.ctxRunning, hrun]
    · rw [hsame a (mem_all_of_running hrun)]
  | failed hrun ha hsame =>
    rename_i errVal a
    refine hq.cons (hrep.running_done hrun) (r := errVal) ?_ ?_ (hother hrun hsame) rfl
    · simp [Op.finishes, hrep.ctxRunning, hrun]
    · rw [ha]
  | removed hq' hfirst ha hsame =>
    refine hq.subset ?_ rfl fun a ha => hsame a (mem_all_of_done ha)
    intro b hb
    rw [hq']
    simp only [List.mem_append, List.mem_cons] at hb ⊢
    tauto
  | notRemoved hq' hsame =>
    exact hq.subset (List.Subset.refl _) rfl fun a ha => hsame a (mem_all_of_done ha)
  | evaluated hrun ha hsame => exact hq.subset (List.Subset.refl _) rfl (hother hrun hsame)

theorem idsUsed_after_of_eq (hnext : s'.nextCtxId = s.nextCtxId) :
    (h.after s s' op).idsUsed = h.idsUsed := if_pos hnext

theorem idsUsed_after_of_succ (hnext : s'.nextCtxId = s.nextCtxId + 1#32) :
    (h.after s s' op).idsUsed = h.idsUsed + 1 := by
  refine if_neg fun heq => ?_
  rw [heq] at hnext
  exact absurd hnext (by bv_omega)

/-- Ids stay unique when no context is added. -/
theorem UniqueIds.subset (hq : UniqueIds h s q)
    (hsub : ∀ a ∈ q'.all, a ∈ q.all) (hid : ∀ a ∈ q'.all, (s'.ctxAt a).id = (s.ctxAt a).id)
    (hnext : s'.nextCtxId = s.nextCtxId
      ∨ h.idsUsed < 65535 ∧ s'.nextCtxId = s.nextCtxId + 1#32) :
    UniqueIds (h.after s s' op) s' q' := by
  obtain ⟨hpos, heq⟩ := hq.nextCtxId
  have hcount : s.nextCtxId.toNat ≤ s'.nextCtxId.toNat ∧ s'.nextCtxId.toNat
      = (h.after s s' op).idsUsed + 1 := by
    rcases hnext with hnext | ⟨hids, hnext⟩
    · rw [hnext, idsUsed_after_of_eq hnext]
      exact ⟨le_rfl, heq⟩
    · have : s'.nextCtxId.toNat = s.nextCtxId.toNat + 1 := by
        rw [hnext, BitVec.toNat_add, BitVec.toNat_ofNat, Nat.mod_eq_of_lt]
        omega
      rw [idsUsed_after_of_succ hnext]
      omega
  refine ⟨⟨by omega, hcount.2⟩, fun a ha => ?_, fun a ha b hb hab => ?_⟩
  · rw [hid a ha]
    exact (hq.id_lt a (hsub a ha)).trans_le hcount.1
  · rw [hid a ha, hid b hb] at hab
    exact hq.inj a (hsub a ha) b (hsub b hb) hab

/-- A new context gets an id that no other context has. -/
theorem UniqueIds.cons (hq : UniqueIds h s q) (hids : h.idsUsed < 65535)
    (hmem : ∀ b ∈ q'.all, b = a ∨ b ∈ q.all)
    (ha : (s'.ctxAt a).id = s.nextCtxId.setWidth 16)
    (hsame : ∀ b ∈ q.all, s'.ctxAt b = s.ctxAt b) (hnext : s'.nextCtxId = s.nextCtxId + 1#32) :
    UniqueIds (h.after s s' op) s' q' := by
  obtain ⟨hpos, hle⟩ := hq.nextCtxId
  have hnat : s'.nextCtxId.toNat = s.nextCtxId.toNat + 1 := by
    rw [hnext, BitVec.toNat_add, BitVec.toNat_ofNat, Nat.mod_eq_of_lt]
    omega
  have haid : (s'.ctxAt a).id.toNat = s.nextCtxId.toNat := by
    rw [ha, BitVec.toNat_setWidth, Nat.mod_eq_of_lt]
    omega
  -- the ids of the other contexts are smaller
  have hlt : ∀ b ∈ q.all, (s'.ctxAt b).id.toNat < s.nextCtxId.toNat := fun b hb => by
    rw [hsame b hb]
    exact hq.id_lt b hb
  refine ⟨⟨by omega, ?_⟩, fun b hb => ?_, fun b hb c hc hbc => ?_⟩
  · rw [idsUsed_after_of_succ hnext]
    omega
  · rcases hmem b hb with rfl | hb
    · omega
    · have := hlt b hb
      omega
  · have hnat' := congrArg BitVec.toNat hbc
    rcases hmem b hb with rfl | hb <;> rcases hmem c hc with rfl | hc
    · rfl
    · have := hlt c hc
      omega
    · have := hlt b hb
      omega
    · rw [hsame b hb, hsame c hc] at hbc
      exact hq.inj b hb c hc hbc

/-- Only `create_ctx` adds a context. -/
theorem Effect.mem_all (heffect : Effect s s' q op out q') (hnot : op.isCreate = false)
    (hb : b ∈ q'.all) : b ∈ q.all := by
  cases heffect with
  | created | notCreated => exact absurd hnot (by simp [Op.isCreate])
  | nonePicked | busy | notRemoved | evaluated => exact hb
  | picked hrun hq hfirst ha hsame =>
    simp only [Places.all, hq, hrun, Option.toList_some, Option.toList_none, List.mem_append,
      List.mem_cons, List.not_mem_nil] at hb ⊢
    tauto
  | yielded hrun ha hsame =>
    simp only [Places.all, hrun, Option.toList_some, Option.toList_none, List.mem_append,
      List.mem_cons, List.not_mem_nil] at hb ⊢
    tauto
  | finished hrun hsame | failed hrun ha hsame =>
    simp only [Places.all, hrun, Option.toList_some, Option.toList_none, List.mem_append,
      List.mem_cons, List.not_mem_nil] at hb ⊢
    tauto
  | removed hq hfirst ha hsame =>
    exact (perm_of_done hq).mem_iff.mpr (List.mem_cons_of_mem _ hb)

theorem id_of_yieldCtx {io : Outside} {c c' : EvalContext} {sleepUs : UINT}
    (h : LispBM.yieldCtx io c sleepUs = .yielded c') : c'.id = c.id := by
  unfold LispBM.yieldCtx at h
  cases hnow : io.timestampUs <;> rw [hnow] at h <;> cases h <;> rfl

/-- The running context may become another one, with the same id. -/
theorem Effect.id_eq (heffect : Effect s s' q op out q') (hop : op.Enabled s)
    (hrep : Represents s q) (hb : b ∈ q.all) : (s'.ctxAt b).id = (s.ctxAt b).id := by
  have hother : ∀ {a : Addr}, (s'.ctxAt a).id = (s.ctxAt a).id →
      (∀ b ∈ q.all, b ≠ a → s'.ctxAt b = s.ctxAt b) → (s'.ctxAt b).id = (s.ctxAt b).id := by
    intro a ha hsame
    by_cases hba : b = a
    · rw [hba, ha]
    · rw [hsame b hb hba]
  cases heffect with
  | created _ _ hsame => rw [hsame b hb]
  | notCreated hsame => rw [hsame b hb]
  | picked _ _ _ _ hsame => rw [hsame b hb]
  | nonePicked _ _ hsame => rw [hsame b hb]
  | busy _ hsame => rw [hsame b hb]
  | yielded _ ha hsame => exact hother (id_of_yieldCtx ha) hsame
  | finished _ hsame => rw [hsame b hb]
  | failed _ ha hsame => exact hother (by rw [ha]) hsame
  | removed _ _ _ hsame => rw [hsame b hb]
  | notRemoved _ hsame => rw [hsame b hb]
  | evaluated hrun ha hsame =>
    obtain ⟨a, hrun', hid⟩ := hop
    obtain rfl : _ = a := Option.some.inj ((hrep.ctxRunning.trans hrun).symm.trans hrun')
    exact hother (by rw [ha, hid]) hsame

theorem UniqueIds.step (hq : UniqueIds h s q) (hids : (h.after s s' op).idsUsed < 65536)
    (hop : op.Enabled s) (hrep : Represents s q) (heffect : Effect s s' q op out q')
    (hnext : s'.nextCtxId = s.nextCtxId ∨ op.isCreate ∧ s'.nextCtxId = s.nextCtxId + 1#32) :
    UniqueIds (h.after s s' op) s' q' := by
  have hcount (hsucc : s'.nextCtxId = s.nextCtxId + 1#32) : h.idsUsed < 65535 := by
    rw [idsUsed_after_of_succ hsucc] at hids
    omega
  cases hcreate : op.isCreate with
  | false =>
    exact hq.subset (fun a ha => heffect.mem_all hcreate ha)
      (fun a ha => heffect.id_eq hop hrep (heffect.mem_all hcreate ha))
      (.inl (hnext.resolve_right (by simp [hcreate])))
  | true =>
    cases heffect with
    | created hid hnext' hsame =>
      refine hq.cons (hcount hnext') (fun b hb => ?_) hid hsame hnext'
      simp only [Places.all, List.mem_append, List.mem_singleton] at hb ⊢
      tauto
    | notCreated hsame =>
      exact hq.subset (fun _ ha => ha) (fun a ha => by rw [hsame a ha])
        (hnext.imp_right fun h => ⟨hcount h.2, h.2⟩)
    | _ => exact absurd hcreate (by simp [Op.isCreate])

/-! ## The whole scheduler -/

/-- What holds in every state of a run. -/
theorem reaches_invariant (hs : Reaches h s) :
    ∃ q, Represents s q ∧ InOrder h q ∧ KeepsResults h s q
      ∧ (h.idsUsed < 65536 → UniqueIds h s q) := by
  induction hs with
  | start mem =>
    refine ⟨⟨[], none, []⟩, ⟨trivial, trivial, rfl, rfl, rfl, rfl, .refl _, List.nodup_nil⟩,
      ⟨.nil, by simp⟩, by simp [KeepsResults], fun _ => ⟨⟨Nat.one_pos, rfl⟩, ?_, ?_⟩⟩
    · simp [Places.all]
    · simp [Places.all]
  | step hs hop hexec ih =>
    rename_i h s s' op out
    obtain ⟨q, hrep, horder, hresults, hids⟩ := ih
    obtain ⟨out', s'', q', hexec', hrep', hnext, heffect⟩ := op_effect hrep hop
    obtain ⟨rfl, rfl⟩ : out' = out ∧ s'' = s' := by
      have := Option.some.inj (hexec'.symm.trans hexec)
      exact Prod.mk.inj this
    refine ⟨q', hrep', horder.step hrep hrep' hop heffect, hresults.step hrep heffect,
      fun hcount => ?_⟩
    have hbefore : h.idsUsed < 65536 := by
      simp only [History.after] at hcount
      split at hcount <;> omega
    exact (hids hbefore).step hcount hop hrep heffect hnext

/-- No context is lost or duplicated. In every state that operations can reach, in any order and
at any times, the pointers and links of the scheduler are those of two lists and a running
context. The contexts in these places are the ones that were created and not removed, each of them
once. The queue has the order of insertion. A context of the done list has the result that it was
finished with. As long as fewer than 65536 ids were used no two contexts have one id. And every
operation does what `Effect` says. -/
theorem scheduler_safe {h : History} {s : Sched} (hs : Reaches h s) :
    ∃ q, Represents s q
      ∧ (s.ctxQueue = none ↔ s.ctxQueueLast = none)
      ∧ (∀ a, a ∈ s.live ↔ a ∈ q.queue ∨ s.ctxRunning = some a ∨ a ∈ q.done)
      ∧ q.all.Nodup
      ∧ (q.queue.Pairwise fun a b => h.since a < h.since b)
      ∧ (∀ a ∈ q.done, (s.ctxAt a).r = h.result a)
      ∧ (h.idsUsed < 65536 →
          ∀ a ∈ q.all, ∀ b ∈ q.all, (s.ctxAt a).id = (s.ctxAt b).id → a = b)
      ∧ ∀ op : Op, op.Enabled s →
          ∃ out s' q', op.exec s = some (out, s') ∧ Represents s' q' ∧ Effect s s' q op out q' := by
  obtain ⟨q, hrep, horder, hresults, hids⟩ := reaches_invariant hs
  refine ⟨q, hrep, ?_, fun a => ?_, hrep.nodup, horder.pairwise, hresults,
    fun hcount => (hids hcount).inj, fun op hop => ?_⟩
  · rw [hrep.ctxQueue, hrep.ctxQueueLast, List.head?_eq_none_iff, List.getLast?_eq_none_iff]
  · rw [hrep.live.mem_iff, hrep.ctxRunning]
    simp only [Places.all, List.mem_append, Option.mem_toList, or_assoc]
  · obtain ⟨out, s', q', hexec, hrep', -, heffect⟩ := op_effect hrep hop
    exact ⟨out, s', q', hexec, hrep', heffect⟩

/-- Memory that no context was written to yet. -/
def blankNode : Node where
  program := 0#32
  currExp := 0#32
  currEnv := 0#32
  r := 0#32
  done := false
  appCont := false
  K := ⟨[0#32], 0, false, Nat.zero_le _, by decide⟩
  timestamp := 0#32
  sleepUs := 0#32
  id := 0#16
  prev := none
  next := none

/-- `create_ctx` for a program of one number. -/
def createAt (addr : Addr) : Op :=
  .create plainOutside addr blankNode (startPrograms plainOutside 7 [[.int 1#32]]).heap
    (encConsPtr 0#32) NIL ⟨8, by decide⟩ false

/-- Two contexts are created and the first of them finishes. -/
theorem scheduler_safe_twoContexts :
    ∃ h s q, Reaches h s ∧ h.idsUsed = 2 ∧ s.ctxQueue = some 8#32 ∧ s.ctxDone = some 4#32
      ∧ Represents s q
      ∧ (∀ a ∈ q.all, ∀ b ∈ q.all, (s.ctxAt a).id = (s.ctxAt b).id → a = b)
      ∧ ∀ op : Op, op.Enabled s →
          ∃ out s' q', op.exec s = some (out, s') ∧ Represents s' q' ∧ Effect s s' q op out q' := by
  have h₁ : Reaches _ _ := .step (.start fun _ => blankNode)
    (by simp [start, createAt, Op.Enabled] : (createAt 4#32).Enabled _) rfl
  have h₂ : Reaches _ _ := .step h₁
    (by simp [start, createAt, Op.Enabled] : (createAt 8#32).Enabled _) rfl
  have h₃ : Reaches _ _ := .step h₂ (by simp [Op.Enabled] : (Op.schedule 0#32).Enabled _) rfl
  have h₄ : Reaches _ _ := .step h₃ (by simp [Op.Enabled] : Op.finish.Enabled _) rfl
  obtain ⟨q, hrep, -, -, -, -, -, hids, hops⟩ := scheduler_safe h₄
  exact ⟨_, _, q, h₄, rfl, rfl, rfl, hrep, hids (by decide), hops⟩

end

end Scheduler

end LispBM
