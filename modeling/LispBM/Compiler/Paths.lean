import LispBM.Compiler.Registers
import LispBM.Compiler.Structure

/-!
# LispBM — the paths through compiled code

A path is the list of the statements that are executed. The labels of compiled code are ahead of the
jumps to them, so that a jump leaves out the statements up to its label: the one over a lambda body
leaves out the body. A call comes back at the label in `cont`.
-/

namespace LispBM

namespace Compiler

open Tokpar (Sexp)

/-! ## Walks -/

/-- The label a jump goes on at, while the statements up to it are left out, and the label in
`cont`. -/
structure Mode where
  skip : Option Label
  link : Option Label
  deriving DecidableEq

/-- What is possible after a statement. A procedure jumps away through `jmpval`; without a label in
`cont` this is a tail call. -/
def Stmt.after (link : Option Label) : Stmt → List Mode
  | .bpf l => [⟨none, link⟩, ⟨some l, link⟩]
  | .jmpimm l => [⟨some l, link⟩]
  | .jmpval => (link.map fun l => ⟨some l, link⟩).toList
  | .jmpcnt => []
  | .movimm .cont (.label l) => [⟨none, some l⟩]
  | .movimm .cont _ | .mov .cont _ | .lookup .cont _ | .pop .cont | .cons .cont _
  | .consimm .cont _ | .cadr .cont _ | .caddr .cont _ => [⟨none, none⟩]
  | _ => [⟨none, link⟩]

/-- The statements that are executed, for every way through the code, with the mode at its end. -/
def walks : Mode → List Stmt → List (List Stmt × Mode)
  | m, [] => [([], m)]
  | ⟨some l, k⟩, stm :: c => walks ⟨if stm = .label l then none else some l, k⟩ c
  | ⟨none, k⟩, stm :: c =>
      (stm.after k).flatMap fun m => (walks m c).map fun x => (stm :: x.1, x.2)

/-- The executions of a sequence. -/
def Path (c w : List Stmt) : Prop := ∃ m, (w, m) ∈ walks ⟨none, none⟩ c

/-- Jumps stay in the code, and calls come back to it. -/
structure Closed (c : List Stmt) : Prop where
  path : ∀ k w, (∃ m, (w, m) ∈ walks ⟨none, k⟩ c) ↔ Path c w
  ends : ∀ k w m, (w, m) ∈ walks ⟨none, k⟩ c → m.skip = none

section

variable {a b c u v w : List Stmt} {m m' : Mode} {k : Option Label} {stm : Stmt}

theorem mem_walks_cons : (w, m') ∈ walks ⟨none, k⟩ (stm :: c) ↔
    ∃ m ∈ stm.after k, ∃ v, (v, m') ∈ walks m c ∧ w = stm :: v := by
  rw [walks, List.mem_flatMap]
  constructor
  · intro h
    obtain ⟨m, hm, h⟩ := h
    obtain ⟨⟨v, m''⟩, hv, heq⟩ := List.mem_map.mp h
    obtain ⟨rfl, rfl⟩ := Prod.mk.inj heq
    exact ⟨m, hm, v, hv, rfl⟩
  · intro h
    obtain ⟨m, hm, v, hv, rfl⟩ := h
    exact ⟨m, hm, List.mem_map.mpr ⟨(v, m'), hv, rfl⟩⟩

/-- A way through two sequences is a way through the first and from there through the second. -/
theorem mem_walks_append : (w, m') ∈ walks m (a ++ b) ↔
    ∃ u m₁ v, (u, m₁) ∈ walks m a ∧ (v, m') ∈ walks m₁ b ∧ w = u ++ v := by
  induction a generalizing m w with
  | nil =>
    rw [List.nil_append]
    constructor
    · exact fun h => ⟨[], m, w, List.mem_singleton.mpr rfl, h, rfl⟩
    · intro h
      obtain ⟨u, m₁, v, hu, hv, rfl⟩ := h
      obtain ⟨rfl, rfl⟩ := Prod.mk.inj (List.mem_singleton.mp hu)
      exact hv
  | cons stm a ih =>
    rw [List.cons_append]
    cases m with
    | mk skip k =>
      cases skip with
      | some l => exact ih
      | none =>
        constructor
        · intro h
          obtain ⟨m, hm, x, hx, rfl⟩ := mem_walks_cons.mp h
          obtain ⟨u, m₁, v, hu, hv, rfl⟩ := ih.mp hx
          exact ⟨stm :: u, m₁, v, mem_walks_cons.mpr ⟨m, hm, u, hu, rfl⟩, hv, rfl⟩
        · intro h
          obtain ⟨x, m₁, v, hx, hv, rfl⟩ := h
          obtain ⟨m, hm, u, hu, rfl⟩ := mem_walks_cons.mp hx
          exact mem_walks_cons.mpr ⟨m, hm, u ++ v, ih.mpr ⟨u, m₁, v, hu, hv, rfl⟩, rfl⟩

/-- A jump passes over code that does not have its label. -/
theorem walks_over {l : Label} (h : l ∉ labels c) :
    walks ⟨some l, k⟩ (c ++ b) = walks ⟨some l, k⟩ b := by
  induction c with
  | nil => rfl
  | cons stm c ih =>
    have hne : stm ≠ .label l := by
      intro heq
      subst heq
      exact h List.mem_cons_self
    have hc : l ∉ labels c := by
      cases stm with
      | label l' => exact fun hl => h (List.mem_cons_of_mem _ hl)
      | _ => exact h
    rw [List.cons_append, walks, if_neg hne, ih hc]

theorem Closed.nil : Closed [] := by
  constructor
  · intro k w
    simp [walks, Path]
  · intro k w m h
    obtain ⟨-, rfl⟩ := Prod.mk.inj (List.mem_singleton.mp h)
    rfl

theorem Closed.walks_append (ha : Closed a) (hb : Closed b) :
    (∃ m, (w, m) ∈ walks ⟨none, k⟩ (a ++ b)) ↔ ∃ u v, Path a u ∧ Path b v ∧ w = u ++ v := by
  constructor
  · intro h
    obtain ⟨m, h⟩ := h
    obtain ⟨u, ⟨skip, k'⟩, v, hu, hv, rfl⟩ := mem_walks_append.mp h
    obtain rfl : skip = none := ha.ends k u _ hu
    exact ⟨u, v, (ha.path k u).mp ⟨_, hu⟩, (hb.path k' v).mp ⟨_, hv⟩, rfl⟩
  · intro h
    obtain ⟨u, v, hu, hv, rfl⟩ := h
    obtain ⟨⟨skip, k'⟩, hu⟩ := (ha.path k u).mpr hu
    obtain rfl : skip = none := ha.ends k u _ hu
    obtain ⟨m, hv⟩ := (hb.path k' v).mpr hv
    exact ⟨m, mem_walks_append.mpr ⟨u, _, v, hu, hv, rfl⟩⟩

theorem path_append (ha : Closed a) (hb : Closed b) :
    Path (a ++ b) w ↔ ∃ u v, Path a u ∧ Path b v ∧ w = u ++ v :=
  ha.walks_append hb

theorem Closed.append (ha : Closed a) (hb : Closed b) : Closed (a ++ b) := by
  constructor
  · intro k w
    rw [ha.walks_append hb, path_append ha hb]
  · intro k w m h
    obtain ⟨u, ⟨skip, k'⟩, v, hu, hv, -⟩ := mem_walks_append.mp h
    obtain rfl : skip = none := ha.ends k u _ hu
    exact hb.ends k' v m hv

/-! ## Code without jumps -/

/-- The next statement is executed next. -/
def Stmt.Straight (stm : Stmt) : Prop := ∀ k, ∃ k', stm.after k = [⟨none, k'⟩]

theorem Stmt.Straight.of_isPlain (h : stm.isPlain = true) (hcall : stm ≠ .jmpval) :
    stm.Straight := by
  intro k
  cases stm with
  | jmpval => exact absurd rfl hcall
  | label l => exact ⟨k, rfl⟩
  | jmpcnt => exact absurd h (by simp [Stmt.isPlain])
  | jmpimm l => exact absurd h (by simp [Stmt.isPlain])
  | bpf l => exact absurd h (by simp [Stmt.isPlain])
  | push r => exact ⟨k, rfl⟩
  | movimm r x => cases r <;> cases x <;> exact ⟨_, rfl⟩
  | mov r s => cases r <;> exact ⟨_, rfl⟩
  | lookup r i => cases r <;> exact ⟨_, rfl⟩
  | pop r => cases r <;> exact ⟨_, rfl⟩
  | cons r s => cases r <;> exact ⟨_, rfl⟩
  | consimm r x => cases r <;> exact ⟨_, rfl⟩
  | cadr r s => cases r <;> exact ⟨_, rfl⟩
  | caddr r s => cases r <;> exact ⟨_, rfl⟩
  | setglbval i => exact ⟨k, rfl⟩
  | exenvargl p => exact ⟨k, rfl⟩
  | exenvval i => exact ⟨k, rfl⟩
  | callf => exact ⟨k, rfl⟩
  | done => exact ⟨k, rfl⟩

theorem walks_straight (h : ∀ stm ∈ c, stm.Straight) (k : Option Label) :
    ∃ k', walks ⟨none, k⟩ c = [(c, ⟨none, k'⟩)] := by
  induction c generalizing k with
  | nil => exact ⟨k, rfl⟩
  | cons stm c ih =>
    obtain ⟨k₁, hk₁⟩ := h stm List.mem_cons_self k
    obtain ⟨k', hk'⟩ := ih (fun x hx => h x (List.mem_cons_of_mem _ hx)) k₁
    refine ⟨k', ?_⟩
    rw [walks, hk₁, List.flatMap_singleton, hk']
    rfl

theorem path_straight (h : ∀ stm ∈ c, stm.Straight) : Path c w ↔ w = c := by
  obtain ⟨k', hk'⟩ := walks_straight h none
  rw [Path, hk']
  simp

theorem Closed.straight (h : ∀ stm ∈ c, stm.Straight) : Closed c := by
  constructor
  · intro k w
    obtain ⟨k', hk'⟩ := walks_straight h k
    rw [path_straight h, hk']
    simp
  · intro k w m hm
    obtain ⟨k', hk'⟩ := walks_straight h k
    rw [hk'] at hm
    obtain ⟨-, rfl⟩ := Prod.mk.inj (List.mem_singleton.mp hm)
    rfl

theorem Closed.cons (hstm : stm.Straight) (hc : Closed c) : Closed (stm :: c) :=
  .append (.straight (c := [stm]) fun _ hx => List.mem_singleton.mp hx ▸ hstm) hc

theorem path_cons (hstm : stm.Straight) (hc : Closed c) :
    Path (stm :: c) w ↔ ∃ v, Path c v ∧ w = stm :: v := by
  have hsingle : ∀ x ∈ [stm], x.Straight := fun x hx => List.mem_singleton.mp hx ▸ hstm
  rw [← List.singleton_append, path_append (.straight hsingle) hc]
  constructor
  · intro h
    obtain ⟨u, v, hu, hv, rfl⟩ := h
    obtain rfl := (path_straight hsingle).mp hu
    exact ⟨v, hv, rfl⟩
  · intro h
    obtain ⟨v, hv, rfl⟩ := h
    exact ⟨[stm], v, (path_straight hsingle).mpr rfl, hv, rfl⟩

/-! ## Saved registers -/

theorem straight_push (r : Reg) : (Stmt.push r).Straight := fun k => ⟨k, rfl⟩

theorem straight_pop (r : Reg) : (Stmt.pop r).Straight := by
  intro k
  cases r <;> exact ⟨_, rfl⟩

theorem Closed.wrap (regs : List Reg) : ∀ {c : List Stmt}, Closed c → Closed (wrap regs c) := by
  induction regs with
  | nil => exact fun h => h
  | cons r regs ih =>
    intro c h
    exact ih (.cons (straight_push r) (h.append (.cons (straight_pop r) .nil)))

theorem path_wrap (regs : List Reg) : ∀ {c : List Stmt}, Closed c →
    (Path (wrap regs c) w ↔ ∃ u, Path c u ∧ w = wrap regs u) := by
  induction regs with
  | nil =>
    intro c _
    exact ⟨fun h => ⟨w, h, rfl⟩, fun ⟨u, hu, heq⟩ => heq ▸ hu⟩
  | cons r regs ih =>
    intro c h
    have hpop : Closed [.pop r] := .cons (straight_pop r) .nil
    have hpops : ∀ v, Path [.pop r] v ↔ v = [.pop r] := fun v =>
      path_straight fun x hx => List.mem_singleton.mp hx ▸ straight_pop r
    show Path (Compiler.wrap regs (.push r :: (c ++ [.pop r]))) w ↔ _
    rw [ih (.cons (straight_push r) (h.append hpop))]
    constructor
    · intro hw
      obtain ⟨x, hx, rfl⟩ := hw
      obtain ⟨y, hy, rfl⟩ := (path_cons (straight_push r) (h.append hpop)).mp hx
      obtain ⟨u, v, hu, hv, rfl⟩ := (path_append h hpop).mp hy
      obtain rfl := (hpops v).mp hv
      exact ⟨u, hu, rfl⟩
    · intro hw
      obtain ⟨u, hu, rfl⟩ := hw
      exact ⟨_, (path_cons (straight_push r) (h.append hpop)).mpr
        ⟨_, (path_append h hpop).mpr ⟨u, _, hu, (hpops _).mpr rfl, rfl⟩, rfl⟩, rfl⟩

variable {s₁ s₂ : InstrSeq} {regs : List Reg}

theorem Closed.preserving (h₁ : Closed s₁.statements) (h₂ : Closed s₂.statements)
    (regs : List Reg) : Closed (preserving regs s₁ s₂).statements := by
  obtain ⟨saved, -, hstatements⟩ := statements_preserving regs s₁ s₂
  rw [hstatements]
  exact (h₁.wrap saved).append h₂

/-- The registers that `s₂` needs and `s₁` modifies are saved along `s₁`. -/
theorem path_preserving (h₁ : Closed s₁.statements) (h₂ : Closed s₂.statements)
    (regs : List Reg) : ∃ saved : List Reg,
    (∀ r, r ∈ saved ↔ r ∈ regs ∧ r ∈ s₂.regsNeeded ∧ r ∈ s₁.regsModified) ∧
    ∀ w, Path (preserving regs s₁ s₂).statements w ↔
      ∃ u v, Path s₁.statements u ∧ Path s₂.statements v ∧ w = wrap saved u ++ v := by
  obtain ⟨saved, hsaved, hstatements⟩ := statements_preserving regs s₁ s₂
  refine ⟨saved, hsaved, fun w => ?_⟩
  rw [hstatements, path_append (h₁.wrap saved) h₂]
  constructor
  · intro h
    obtain ⟨x, v, hx, hv, rfl⟩ := h
    obtain ⟨u, hu, rfl⟩ := (path_wrap saved h₁).mp hx
    exact ⟨u, v, hu, hv, rfl⟩
  · intro h
    obtain ⟨u, v, hu, hv, rfl⟩ := h
    exact ⟨_, v, (path_wrap saved h₁).mpr ⟨u, hu, rfl⟩, hv, rfl⟩

theorem statements_endWithNext : (endWithLinkage .next s₁).statements = s₁.statements := by
  rw [endWithLinkage_next]
  exact List.append_nil _

/-! ## Calls -/

/-- Code whose ways are known one by one. -/
theorem closed_of_walks {ps : List (List Stmt)}
    (h : ∀ k, (walks ⟨none, k⟩ c).map Prod.fst = ps ∧ ∀ x ∈ walks ⟨none, k⟩ c, x.2.skip = none) :
    Closed c ∧ ∀ w, Path c w ↔ w ∈ ps := by
  have hmem : ∀ k w, (∃ m, (w, m) ∈ walks ⟨none, k⟩ c) ↔ w ∈ ps := by
    intro k w
    rw [← (h k).1, List.mem_map]
    exact ⟨fun ⟨m, hm⟩ => ⟨(w, m), hm, rfl⟩, fun ⟨⟨w', m⟩, hm, heq⟩ => ⟨m, heq ▸ hm⟩⟩
  refine ⟨⟨fun k w => (hmem k w).trans (hmem none w).symm, fun k w m hm => ?_⟩, hmem none⟩
  exact (h k).2 (w, m) hm

/-- The ways through a call with target `t`. A fundamental operation leaves its result in `val`. -/
def callPaths (operator : Expr) (t : Reg) (st : CompilerState) : List (List Stmt) :=
  let n := st.labelCounter
  if operator.isFundamental then [[.callf]]
  else if operator.isLambda then
    if t = .val then
      [[.movimm .cont (.label ⟨.afterCall, n + 1⟩), .cadr .val .proc, .jmpval]]
    else
      [[.movimm .cont (.label ⟨.procReturn, n + 2⟩), .cadr .val .proc, .jmpval, .mov t .val,
        .jmpimm ⟨.afterCall, n + 1⟩]]
  else if t = .val then
    [[.bpf ⟨.fundBranch, n + 1⟩, .label ⟨.compBranch, n + 2⟩,
        .movimm .cont (.label ⟨.afterCall, n + 3⟩), .cadr .val .proc, .jmpval],
      [.bpf ⟨.fundBranch, n + 1⟩, .callf, .label ⟨.afterCall, n + 3⟩]]
  else
    [[.bpf ⟨.fundBranch, n + 1⟩, .label ⟨.compBranch, n + 2⟩,
        .movimm .cont (.label ⟨.procReturn, n + 4⟩), .cadr .val .proc, .jmpval, .mov t .val,
        .jmpimm ⟨.afterCall, n + 3⟩],
      [.bpf ⟨.fundBranch, n + 1⟩, .callf, .label ⟨.afterCall, n + 3⟩]]

theorem callPaths_ne_nil (operator : Expr) (t : Reg) (st : CompilerState) :
    callPaths operator t st ≠ [] := by
  rw [callPaths]
  split
  · simp
  · split <;> split <;> simp

theorem paths_callCode (operator : Expr) (t : Reg) (st : CompilerState) :
    Closed (callCode operator (.next t) st).1.statements ∧
      ∀ w, Path (callCode operator (.next t) st).1.statements w ↔
        w ∈ callPaths operator t st := by
  rw [callCode, callPaths]
  split
  · have hcallf : (compileFundamentalProcCall t .next).statements = [.callf] :=
      statements_endWithNext
    show Closed (compileFundamentalProcCall t .next).statements ∧ ∀ w,
      Path (compileFundamentalProcCall t .next).statements w ↔ _
    rw [hcallf]
    apply closed_of_walks
    intro k
    simp [walks, Stmt.after]
  · split
    · split
      · next htarget =>
        subst htarget
        rw [lambdaProcCall_val]
        apply closed_of_walks
        intro k
        simp [walks, Stmt.after]
      · next htarget =>
        rw [lambdaProcCall_next htarget]
        apply closed_of_walks
        intro k
        cases t <;> simp [walks, Stmt.after]
    · split
      · next htarget =>
        subst htarget
        rw [procCall_val]
        apply closed_of_walks
        intro k
        simp [walks, Stmt.after]
      · next htarget =>
        rw [procCall_next htarget]
        apply closed_of_walks
        intro k
        cases t <;> simp [walks, Stmt.after]

end

/-! ## Every form -/

/-- The body of a procedure is left out. -/
theorem paths_lambda {t : Reg} {n : Nat} {body : List Stmt}
    (h : ⟨.afterLambda, n + 1⟩ ∉ labels body) :
    Closed ((makeLambda (.next t) ⟨.entry, n⟩ ⟨.afterLambda, n + 1⟩).statements
      ++ (.label ⟨.entry, n⟩ :: body) ++ [.label ⟨.afterLambda, n + 1⟩]) ∧
    ∀ w, Path ((makeLambda (.next t) ⟨.entry, n⟩ ⟨.afterLambda, n + 1⟩).statements
      ++ (.label ⟨.entry, n⟩ :: body) ++ [.label ⟨.afterLambda, n + 1⟩]) w ↔
        w ∈ [(makeLambda (.next t) ⟨.entry, n⟩ ⟨.afterLambda, n + 1⟩).statements] := by
  apply closed_of_walks
  intro k
  rw [makeLambda_next]
  simp only [List.cons_append, List.nil_append]
  cases t <;> simp [walks, Stmt.after, walks_over h, procSymbol]

theorem Data.straight_compileNest_aux {t : Reg} {c : List Stmt}
    (h : ∀ stm ∈ c, stm.Straight) : ∀ stm ∈ [.push t, .movimm t (.datum Sexp.nil)] ++ (c ++
      [.mov .argl t, .pop t, .cons t .argl]), stm.Straight := by
  intro stm hstm
  simp only [List.mem_append, List.mem_cons, List.not_mem_nil, or_false] at hstm
  rcases hstm with (rfl | rfl) | hmem | rfl | rfl | rfl
  · exact straight_push t
  · exact .of_isPlain rfl (by simp)
  · exact h stm hmem
  · exact .of_isPlain rfl (by simp)
  · exact straight_pop t
  · exact .of_isPlain rfl (by simp)

theorem straight_appendInstrSeqs {seqs : List InstrSeq}
    (h : ∀ s ∈ seqs, ∀ stm ∈ s.statements, stm.Straight) :
    ∀ stm ∈ (appendInstrSeqs seqs).statements, stm.Straight := by
  induction seqs with
  | nil => simp [appendInstrSeqs, emptyInstrSeq]
  | cons s seqs ih =>
    intro stm hstm
    rcases List.mem_append.mp hstm with hmem | hmem
    · exact h s List.mem_cons_self stm hmem
    · exact ih (fun x hx => h x (List.mem_cons_of_mem _ hx)) stm hmem

mutual

theorem Data.straight_compileNest (t : Reg) :
    ∀ q : Data, ∀ stm ∈ (q.compileNest t).statements, stm.Straight
  | .atom q _ => by
    rw [Data.compileNest]
    intro stm hstm
    simp only [appendTwoInstrSeqs, compileDataPrim, List.mem_append, List.mem_singleton] at hstm
    rcases hstm with rfl | rfl
    · exact .of_isPlain rfl (by simp)
    · exact .of_isPlain rfl (by simp)
  | .list first rest => by
    rw [Data.compileNest]
    apply Data.straight_compileNest_aux
    apply straight_appendInstrSeqs
    intro s hs
    rcases List.mem_cons.mp (List.mem_reverse.mp hs) with rfl | hmem
    · exact first.straight_compileNest t
    · exact Data.straight_compileNests t rest s hmem

theorem Data.straight_compileNests (t : Reg) : ∀ (qs : List Data),
    ∀ s ∈ Data.compileNests t qs, ∀ stm ∈ s.statements, stm.Straight
  | [], s, hs => by
    rw [Data.compileNests] at hs
    exact absurd hs (by simp)
  | q :: qs, s, hs => by
    rw [Data.compileNests] at hs
    rcases List.mem_cons.mp hs with rfl | hmem
    · exact q.straight_compileNest t
    · exact Data.straight_compileNests t qs s hmem

end

theorem Data.straight (t : Reg) (q : Data) : ∀ stm ∈ (q.compile t).statements, stm.Straight := by
  cases q with
  | atom q hq =>
    intro stm hstm
    obtain rfl := List.mem_singleton.mp hstm
    exact .of_isPlain rfl (by simp)
  | list first rest =>
    rw [Data.compile]
    intro stm hstm
    rcases List.mem_cons.mp hstm with rfl | hmem
    · exact .of_isPlain rfl (by simp)
    · apply straight_appendInstrSeqs _ stm hmem
      intro s hs
      exact Data.straight_compileNests t (first :: rest) s (List.mem_reverse.mp hs)

end Compiler

end LispBM
