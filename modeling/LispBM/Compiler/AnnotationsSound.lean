import LispBM.Compiler.Annotations

/-!
# LispBM — the register lists, settled

What `callf` does to `val` and which statement writes the target last; with the use of the
environment this says for which expressions the register lists are right.
-/

namespace LispBM

namespace Compiler

open Tokpar (Sexp)

/-! ## The result register of a call -/

/-- `val` is written and not restored on some path; it is listed as modified. -/
structure InstrSeq.ValUse (writes lists : Prop) (s : InstrSeq) : Prop where
  writes : (∃ w, Path s.statements w ∧ .val ∈ unrestored [] w) ↔ writes
  lists : .val ∈ s.regsModified ↔ lists

section

variable {writes writes₁ writes₂ lists lists₁ lists₂ : Prop} {n n₁ n₂ m m₁ m₂ : Reg → Prop}
  {s s₁ s₂ : InstrSeq} {regs : List Reg} {t : Reg}

theorem InstrSeq.ValUse.congr (h : s.ValUse writes₁ lists₁) (hwrites : writes₁ ↔ writes)
    (hlists : lists₁ ↔ lists) : s.ValUse writes lists :=
  ⟨h.writes.trans hwrites, h.lists.trans hlists⟩

/-- No register list names `val`. -/
theorem InstrSeq.ValUse.preserving (u₁ : s₁.Uses n₁ m₁) (u₂ : s₂.Uses n₂ m₂)
    (h₁ : s₁.ValUse writes₁ lists₁) (h₂ : s₂.ValUse writes₂ lists₂) (hregs : .val ∉ regs) :
    (preserving regs s₁ s₂).ValUse (writes₁ ∨ writes₂) (lists₁ ∨ lists₂) := by
  obtain ⟨saved, hsaved, hpath⟩ := path_preserving u₁.closed u₂.closed regs
  have hval : .val ∉ saved := fun hmem => hregs ((hsaved .val).mp hmem).1
  have hmem : ∀ u v, Path s₁.statements u → Path s₂.statements v →
      (.val ∈ unrestored [] (wrap saved u ++ v) ↔
        .val ∈ unrestored [] u ∨ .val ∈ unrestored [] v) := by
    intro u v hu _
    rw [mem_unrestored_append ((u₁.calm u hu).wrap saved), mem_unrestored_wrap saved (u₁.calm u hu)]
    simp [hval]
  obtain ⟨u₀, hu₀⟩ := u₁.runs
  obtain ⟨v₀, hv₀⟩ := u₂.runs
  refine ⟨?_, ?_⟩
  · rw [← h₁.writes, ← h₂.writes]
    constructor
    · intro h
      obtain ⟨w, hw, hr⟩ := h
      obtain ⟨u, v, hu, hv, rfl⟩ := (hpath w).mp hw
      exact ((hmem u v hu hv).mp hr).imp (fun h => ⟨u, hu, h⟩) fun h => ⟨v, hv, h⟩
    · intro h
      rcases h with ⟨u, hu, hr⟩ | ⟨v, hv, hr⟩
      · exact ⟨_, (hpath _).mpr ⟨u, v₀, hu, hv₀, rfl⟩, (hmem u v₀ hu hv₀).mpr (Or.inl hr)⟩
      · exact ⟨_, (hpath _).mpr ⟨u₀, v, hu₀, hv, rfl⟩, (hmem u₀ v hu₀ hv).mpr (Or.inr hr)⟩
  · rw [mem_modified_preserving, h₁.lists, h₂.lists]
    simp [hregs]

theorem InstrSeq.ValUse.appendTwo (u₁ : s₁.Uses n₁ m₁) (u₂ : s₂.Uses n₂ m₂)
    (h₁ : s₁.ValUse writes₁ lists₁) (h₂ : s₂.ValUse writes₂ lists₂) :
    (appendTwoInstrSeqs s₁ s₂).ValUse (writes₁ ∨ writes₂) (lists₁ ∨ lists₂) := by
  have hcode : (appendTwoInstrSeqs s₁ s₂).statements
      = (Compiler.preserving [] s₁ s₂).statements := by
    simp [Compiler.preserving, appendInstrSeqs, appendTwoInstrSeqs, emptyInstrSeq]
  obtain ⟨hwrites, -⟩ := InstrSeq.ValUse.preserving u₁ u₂ h₁ h₂
    (show Reg.val ∉ ([] : List Reg) by simp)
  rw [← hcode] at hwrites
  exact ⟨hwrites, by rw [mem_modified_appendTwo, h₁.lists, h₂.lists]⟩

theorem InstrSeq.ValUse.endWithNext (u : s.Uses n m) (h : s.ValUse writes lists) :
    (endWithLinkage .next s).ValUse writes lists := by
  rw [endWithLinkage_next]
  have hempty : emptyInstrSeq.ValUse False False :=
    ⟨by simp [path_straight, unrestored, emptyInstrSeq], by simp [emptyInstrSeq]⟩
  exact (h.appendTwo u uses_empty hempty).congr (by simp) (by simp)

theorem valUse_straight {needed : List Reg} {c : List Stmt} (h : ∀ stm ∈ c, stm.Straight)
    (hwrites : .val ∈ unrestored [] c ↔ t = .val) :
    InstrSeq.ValUse (t = .val) (t = .val) ⟨needed, [t], c⟩ := by
  have hpath : ∀ w, Path c w ↔ w = c := fun w => path_straight h
  exact ⟨by simp [hpath, hwrites], by simp [eq_comm]⟩

theorem writes_callCode (operator : Expr) (t : Reg) (st : CompilerState) :
    ∃ w, Path (callCode operator (.next t) st).1.statements w ∧ .val ∈ unrestored [] w := by
  have hpath := (paths_callCode operator t st).2
  simp only [hpath]
  rw [callPaths]
  split
  · simp [unrestored, Stmt.writes]
  · split <;> split <;> simp [unrestored, Stmt.writes]

/-- The operands list `val`, if there are any. -/
theorem val_modified_constructArglist {codes : List InstrSeq}
    (h : ∀ s ∈ codes, s.Delivers .val) :
    .val ∈ (constructArglist codes).regsModified ↔ codes ≠ [] := by
  rw [← List.reverse_ne_nil_iff, constructArglist]
  cases hcases : codes.reverse with
  | nil => simp
  | cons s rest =>
    have hs : s.Delivers .val :=
      h s (List.mem_reverse.mp (by rw [hcases]; exact List.mem_cons_self))
    have hfst : .val ∈ (addFstArgument s).regsModified :=
      mem_modified_appendTwo.mpr (Or.inl hs.target)
    refine iff_of_true ?_ (by simp)
    cases rest with
    | nil => exact hfst
    | cons y rest => exact mem_modified_preserving.mpr (Or.inl ⟨hfst, by simp⟩)

end

mutual

theorem Expr.writesVal_val : ∀ e : Expr, e.writesVal .val = true
  | .const _ _ => by rw [Expr.writesVal]; rfl
  | .sym _ _ => by rw [Expr.writesVal]; rfl
  | .quote _ => by rw [Expr.writesVal]; rfl
  | .define _ _ => by rw [Expr.writesVal]
  | .lambda _ _ => by rw [Expr.writesVal]; rfl
  | .letIn .nil body => by rw [Expr.writesVal]; exact body.writesVal_val
  | .letIn (.cons _ _ _) _ => by rw [Expr.writesVal]
  | .progn body => by rw [Expr.writesVal]; exact body.writesVal_val
  | .app _ _ => by rw [Expr.writesVal]

theorem Body.writesVal_val : ∀ b : Body, b.writesVal .val = true
  | .last e => by rw [Body.writesVal]; exact e.writesVal_val
  | .cons e rest => by rw [Body.writesVal, e.writesVal_val]; rfl

end

/-! ### Every form -/

theorem valUse_trivial (s : InstrSeq) :
    s.ValUse (∃ w, Path s.statements w ∧ .val ∈ unrestored [] w) (.val ∈ s.regsModified) :=
  ⟨Iff.rfl, Iff.rfl⟩

theorem valUse_lambda (formals : List Sexp) (body : Expr) (t : Reg) (st : CompilerState) :
    ((Expr.lambda formals body).compile (.next t) st).1.ValUse (t = .val) (t = .val) := by
  constructor
  · simp only [(paths_lambdaCode formals body t st).2]
    rw [makeLambda_next]
    simp [unrestored, Stmt.writes, eq_comm]
  · rw [Expr.compile, mem_modified_appendTwo]
    show (.val ∈ (endWithLinkage _ _).regsModified ∨ _) ↔ _
    rw [endWithLinkage, mem_modified_preserving]
    simp [compiledLinkage, Dest.linkage, compileLinkage, Label.seq, Dest.target, eq_comm]

theorem mem_overwritten_of_unrestored {w : List Stmt} {r : Reg} {saved : List Reg}
    (h : r ∈ unrestored saved w) : r ∈ overwritten w := by
  induction w generalizing saved with
  | nil => exact absurd h (by simp [unrestored])
  | cons stm w ih =>
    rw [overwritten, List.flatMap_cons, List.mem_append]
    cases stm with
    | push x => exact Or.inr (ih h)
    | pop x => exact Or.inr (ih h)
    | _ =>
      rcases List.mem_append.mp h with h | h
      · exact Or.inl (mem_listDiff.mp h).1
      · exact Or.inr (ih h)

theorem Data.valUse (t : Reg) (q : Data) : (q.compile t).ValUse (t = .val) (t = .val) := by
  have hpath : ∀ w, Path (q.compile t).statements w ↔ w = (q.compile t).statements :=
    fun w => path_straight (q.straight t)
  have hval : ∀ r, r = .val → (r = t ∨ r = .argl) → t = .val := by
    intro r hr h
    subst hr
    exact h.elim Eq.symm fun h => absurd h (by decide)
  constructor
  · simp only [hpath, exists_eq_left]
    constructor
    · exact fun h => hval .val rfl
        (q.registers_compile t .val (Or.inl (mem_overwritten_of_unrestored h)))
    · intro ht
      subst ht
      cases q with
      | atom q hq => simp [Data.compile, compileDataPrim, unrestored, Stmt.writes]
      | list first rest =>
        rw [Data.compile]
        simp [appendTwoInstrSeqs, unrestored, Stmt.writes]
  · constructor
    · exact fun h => hval .val rfl (q.registers_compile t .val (Or.inr h))
    · intro ht
      subst ht
      exact (q.delivers .val).target

theorem Exprs.compile_ne_nil (es : Exprs) (st : CompilerState) :
    (es.compile st).1 ≠ [] ↔ es.isNil = false := by
  cases es with
  | nil => simp [Exprs.compile, Exprs.isNil]
  | cons e es => simp [Exprs.compile, Exprs.isNil]

mutual

theorem Expr.valUse : ∀ (e : Expr) (t : Reg) (st : CompilerState), t ∈ allRegs →
    (e.compile (.next t) st).1.ValUse (e.writesVal t = true) (e.listsVal t = true)
  | .const e _, t, st, _ => by
    have hstraight : (Stmt.movimm t (.datum e)).Straight := .of_isPlain rfl (by simp)
    have hleaf : InstrSeq.ValUse (t = .val) (t = .val) ⟨[], [t], [.movimm t (.datum e)]⟩ :=
      valUse_straight (by simpa using hstraight) (by simp [unrestored, Stmt.writes, eq_comm])
    rw [Expr.compile, Expr.writesVal, Expr.listsVal]
    exact (hleaf.endWithNext (uses_movimm t (.datum e) [] (by simp))).congr (by simp) (by simp)
  | .sym s _, t, st, _ => by
    have hstraight : ∀ i, (Stmt.lookup t i).Straight := fun i => .of_isPlain rfl (by simp)
    have hleaf : ∀ i, InstrSeq.ValUse (t = .val) (t = .val) ⟨[.env], [t], [.lookup t i]⟩ :=
      fun i => valUse_straight (by simpa using hstraight i)
        (by simp [unrestored, Stmt.writes, eq_comm])
    rw [Expr.compile, Expr.writesVal, Expr.listsVal]
    exact ((hleaf _).endWithNext (uses_lookup t _)).congr (by simp) (by simp)
  | .quote q, t, st, _ => by
    rw [Expr.compile, Expr.writesVal, Expr.listsVal]
    exact ((q.valUse t).endWithNext (q.uses t)).congr (by simp) (by simp)
  | .define var e, t, st, _ => by
    have he := e.valUse .val (newIndirection var st).2 (by decide)
    have hu := e.uses .val (newIndirection var st).2 (by decide)
    have htarget := (e.delivers .val (newIndirection var st).2 (by decide)).target
    have hlists := he.lists.mp htarget
    rw [Expr.compile, Expr.writesVal, Expr.listsVal]
    exact ((he.appendTwo hu (uses_setglbval t _) (valUse_trivial _)).endWithNext
      (hu.appendTwo (uses_setglbval t _))).congr (by simp [e.writesVal_val]) (by simp [hlists])
  | .lambda formals body, t, st, _ => by
    rw [Expr.writesVal, Expr.listsVal]
    exact (valUse_lambda formals body t st).congr (by simp) (by simp)
  | .letIn .nil body, t, st, ht => by
    have he := body.valUse t st ht
    have hu := body.uses t st ht
    rw [Expr.compile, Bindings.compile, Expr.writesVal, Expr.listsVal]
    exact ((valUse_trivial emptyInstrSeq).appendTwo uses_empty hu he).congr
      (by simp [path_straight, unrestored, emptyInstrSeq]) (by simp [emptyInstrSeq])
  | .letIn (.cons key e bs) body, t, st, ht => by
    have he := e.valUse .val st (by decide)
    have hue := e.uses .val st (by decide)
    have hlists := he.lists.mp (e.delivers .val st (by decide)).target
    have hbs := bs.uses (newIndirection key (e.compile (.next .val) st).2).2
    have hbody := body.uses t (bs.compile (newIndirection key (e.compile (.next .val) st).2).2).2 ht
    have hfst := he.appendTwo hue (uses_exenvval (newIndirection key
      (e.compile (.next .val) st).2).1) (valUse_trivial _)
    have hall := (hfst.appendTwo (hue.appendTwo (uses_exenvval _)) hbs
      (valUse_trivial _)).appendTwo ((hue.appendTwo (uses_exenvval _)).appendTwo hbs) hbody
        (valUse_trivial _)
    rw [Expr.compile, Bindings.compile, Expr.writesVal, Expr.listsVal]
    exact hall.congr (by simp [e.writesVal_val]) (by simp [hlists])
  | .progn body, t, st, ht => by
    rw [Expr.compile, Expr.writesVal, Expr.listsVal]
    exact body.valUse t st ht
  | .app operator operands, t, st, ht => by
    have huproc := uses_operatorCode operator st ((operator.uses .proc st (by decide)).mono
      (fun r hr => hr) fun r hr => ⟨hr, Or.inr hr⟩)
    have huargs := uses_constructArglist (operands.uses
      (operatorCode operator (operator.compile (.next .proc) st) st).2)
    have hucall := uses_callCode operator ht (operands.compile
      (operatorCode operator (operator.compile (.next .proc) st) st).2).2
    have hwrites := writes_callCode operator t (operands.compile
      (operatorCode operator (operator.compile (.next .proc) st) st).2).2
    rw [Expr.compile, Expr.writesVal, Expr.listsVal]
    apply ((valUse_trivial _).preserving huproc (huargs.preserving hucall _)
      ((valUse_trivial _).preserving huargs hucall (valUse_trivial _) (by simp)) (by simp)).congr
    · simp [hwrites]
    · rw [val_modified_constructArglist (operands.delivers _), operands.compile_ne_nil]
      cases hfund : operator.isFundamental with
      | false =>
        have hmod := modified_callCode hfund (show Reg.val ∈ allRegs by decide) (.next t)
          (operands.compile (operatorCode operator (operator.compile (.next .proc) st) st).2).2
        simp [hmod]
      | true =>
        have hproc : .val ∉ (operatorCode operator (operator.compile (.next .proc) st)
            st).1.regsModified := by
          rw [operatorCode, if_pos hfund]
          simp
        have hcall : .val ∈ (callCode operator (.next t) (operands.compile (operatorCode operator
            (operator.compile (.next .proc) st) st).2).2).1.regsModified ↔ t = .val := by
          rw [callCode, if_pos hfund]
          show .val ∈ (endWithLinkage .next _).regsModified ↔ _
          rw [endWithLinkage_next]
          simp [emptyInstrSeq, Dest.target, eq_comm]
        simp only [hproc, hcall]
        grind

theorem Body.valUse : ∀ (b : Body) (t : Reg) (st : CompilerState), t ∈ allRegs →
    (b.compile (.next t) st).1.ValUse (b.writesVal t = true) (b.listsVal t = true)
  | .last e, t, st, ht => by
    rw [Body.compile, Body.writesVal, Body.listsVal]
    exact e.valUse t st ht
  | .cons e rest, t, st, ht => by
    have he := e.valUse t st ht
    have hrest := rest.valUse t (e.compile (.next t) st).2 ht
    rw [Body.compile, Body.writesVal, Body.listsVal]
    exact (he.preserving (e.uses t st ht) (rest.uses t _ ht) hrest (by simp)).congr (by simp)
      (by simp)

end

/-! ## The result -/

section

variable {t : Reg} {u v w : List Stmt} {stm : Stmt}

theorem LastSet.append_left (h : LastSet t w stm) (w₀ : List Stmt) : LastSet t (w₀ ++ w) stm := by
  obtain ⟨hset, u, v, rfl, hv⟩ := h
  exact ⟨hset, w₀ ++ u, v, by simp, hv⟩

theorem LastSet.last (hset : t ∈ stm.sets) : LastSet t (u ++ [stm]) stm :=
  ⟨hset, u, [], rfl, by simp⟩

theorem Data.ends_compileNest (t : Reg) (q : Data) :
    ∃ u, (q.compileNest t).statements = u ++ [.cons t .argl] := by
  cases q with
  | atom q hq =>
    rw [Data.compileNest]
    exact ⟨[.movimm .argl (.datum q)], rfl⟩
  | list first rest =>
    rw [Data.compileNest]
    refine ⟨[.push t, .movimm t (.datum Sexp.nil)] ++ ((appendInstrSeqs
      (first.compileNest t :: Data.compileNests t rest).reverse).statements ++
        [.mov .argl t, .pop t]), ?_⟩
    simp [appendTwoInstrSeqs]

theorem statements_appendInstrSeqs (seqs : List InstrSeq) (s : InstrSeq) :
    (appendInstrSeqs (seqs ++ [s])).statements
      = (appendInstrSeqs seqs).statements ++ s.statements := by
  induction seqs with
  | nil => exact List.append_nil _
  | cons x seqs ih =>
    show x.statements ++ (appendInstrSeqs (seqs ++ [s])).statements = _
    rw [ih, ← List.append_assoc]
    rfl

/-- The last element that is consed onto a quoted list is its first. -/
theorem Data.ends_list (t : Reg) (first : Data) (rest : List Data) :
    ∃ u, ((Data.list first rest).compile t).statements = u ++ [.cons t .argl] := by
  obtain ⟨u, hu⟩ := first.ends_compileNest t
  refine ⟨[.movimm t (.datum Sexp.nil)]
    ++ (appendInstrSeqs (Data.compileNests t rest).reverse).statements ++ u, ?_⟩
  rw [Data.compile, Data.compileNests, List.reverse_cons]
  show [.movimm t (.datum Sexp.nil)] ++ (appendInstrSeqs
    ((Data.compileNests t rest).reverse ++ [first.compileNest t])).statements = _
  rw [statements_appendInstrSeqs, hu, ← List.append_assoc, ← List.append_assoc]

theorem Data.lastSet_list (t : Reg) (first : Data) (rest : List Data) :
    LastSet t ((Data.list first rest).compile t).statements (.cons t .argl) := by
  obtain ⟨u, hu⟩ := Data.ends_list t first rest
  rw [hu]
  exact .last (by simp [Stmt.sets, Stmt.writes])

/-! ### Lists and procedures -/

/-- `n` times an element in `argl` is consed onto `t`. -/
def Conses (t : Reg) (n : Nat) (c : List Stmt) : Prop :=
  c.countP Stmt.isCons = n ∧ ∀ r s, .cons r s ∈ c → r = t ∧ s = .argl

theorem Conses.nil : Conses t 0 [] := ⟨rfl, by simp⟩

theorem Conses.append {n m : Nat} (hu : Conses t n u) (hv : Conses t m v) :
    Conses t (n + m) (u ++ v) := by
  refine ⟨by rw [List.countP_append, hu.1, hv.1], fun r s hmem => ?_⟩
  exact (List.mem_append.mp hmem).elim (hu.2 r s) (hv.2 r s)

theorem Conses.one : Conses t 1 [.cons t .argl] := by
  refine ⟨rfl, fun r s hmem => ?_⟩
  cases List.mem_singleton.mp hmem
  exact ⟨rfl, rfl⟩

theorem Conses.skip {n : Nat} (hstm : stm.isCons = false) (h : Conses t n v) :
    Conses t n (stm :: v) := by
  refine ⟨by rw [List.countP_cons, h.1, hstm]; rfl, fun r s hmem => ?_⟩
  rcases List.mem_cons.mp hmem with rfl | hmem
  · cases hstm
  · exact h.2 r s hmem

mutual

theorem Data.conses_compileNest (t : Reg) :
    ∀ q : Data, Conses t (q.elements + 1) (q.compileNest t).statements
  | .atom q _ => by
    rw [Data.compileNest, Data.elements]
    exact .skip rfl .one
  | .list first rest => by
    have hparts := Data.conses_compileNests t (first :: rest)
    have hend : Conses t 1 [.mov .argl t, .pop t, .cons t .argl] := .skip rfl (.skip rfl .one)
    rw [Data.compileNest, Data.elements]
    exact .skip rfl (.skip rfl (hparts.append hend))

theorem Data.conses_compileNests (t : Reg) : ∀ qs : List Data,
    Conses t (Data.elementsOf qs) (appendInstrSeqs (Data.compileNests t qs).reverse).statements
  | [] => by
    rw [Data.compileNests, Data.elementsOf]
    exact .nil
  | q :: qs => by
    rw [Data.compileNests, Data.elementsOf, List.reverse_cons, statements_appendInstrSeqs]
    exact (Data.conses_compileNests t qs).append (q.conses_compileNest t)

end

theorem Builds.append_left {n : Nat} (h : Builds t n w) (w₀ : List Stmt) :
    Builds t n (w₀ ++ w) := by
  obtain ⟨u, v, rfl, hv⟩ := h
  exact ⟨w₀ ++ u, v, by simp, hv⟩

theorem Data.builds_list (ht : t ≠ .argl) (first : Data) (rest : List Data) :
    Builds t (Data.list first rest).elements ((Data.list first rest).compile t).statements := by
  have hconses := Data.conses_compileNests t (first :: rest)
  refine ⟨[], _, rfl, ?_, fun r s hmem => ?_⟩
  · rw [Data.elements]
    exact hconses.1
  · obtain ⟨rfl, rfl⟩ := hconses.2 r s hmem
    exact ht

/-- The last `cons` of a path counts, if any does. -/
theorem not_builds_of_last {n : Nat} {r : Reg} (hv : v.countP Stmt.isCons = 0) :
    ¬Builds t (n + 1) (u ++ .cons r r :: v) := by
  intro h
  obtain ⟨u', v', heq, hcount, hdiff⟩ := h
  have hmem : .cons r r ∈ v' := by
    rcases List.append_eq_append_iff.mp heq with ⟨a, -, ha⟩ | ⟨a, -, ha⟩
    · cases a with
      | nil => exact absurd (List.cons.inj ha).1 (by simp)
      | cons x a =>
        -- what comes after the last one has none
        have hsub : v' <:+ v := by
          rw [(List.cons.inj ha).2]
          exact (List.suffix_cons _ v').trans (List.suffix_append a _)
        have hle : v'.countP Stmt.isCons ≤ v.countP Stmt.isCons := hsub.sublist.countP_le
        omega
    · cases a with
      | nil => exact absurd (List.cons.inj ha).1 (by simp)
      | cons x a =>
        rw [(List.cons.inj ha).2]
        simp
  exact hdiff r r hmem rfl

/-- What follows the last call is determined. -/
theorem after_last_call {u' v' : List Stmt} {call call' : Stmt}
    (h : u ++ call :: v = u' ++ call' :: v') (hcall : call.isCall = true)
    (hcall' : call'.isCall = true) (hv : ∀ x ∈ v, x.isCall = false)
    (hv' : ∀ x ∈ v', x.isCall = false) : v = v' := by
  rcases List.append_eq_append_iff.mp h with ⟨a, -, heq⟩ | ⟨a, -, heq⟩
  · cases a with
    | nil => exact (List.cons.inj heq).2
    | cons x a =>
      have hmem : call' ∈ v := by
        rw [(List.cons.inj heq).2]
        simp
      exact absurd hcall' (by simp [hv _ hmem])
  · cases a with
    | nil => exact ((List.cons.inj heq).2).symm
    | cons x a =>
      have hmem : call ∈ v' := by
        rw [(List.cons.inj heq).2]
        simp
      exact absurd hcall (by simp [hv' _ hmem])

theorem CallResult.append_left (h : CallResult t w) (w₀ : List Stmt) : CallResult t (w₀ ++ w) := by
  obtain ⟨u, call, v, rfl, hcall, hv, hresult⟩ := h
  exact ⟨w₀ ++ u, call, v, by simp, hcall, hv, hresult⟩

theorem CallResult.stays {call : Stmt} (ht : t = .val) (hcall : call.isCall = true)
    (hv : ∀ x ∈ v, x.isCall = false ∧ t ∉ x.sets) : CallResult t (u ++ call :: v) := by
  refine ⟨u, call, v, rfl, hcall, fun x hx => (hv x hx).1, ?_⟩
  rw [if_pos ht]
  exact fun x hx => (hv x hx).2

theorem CallResult.moved {call : Stmt} (ht : t ≠ .val) (hcall : call.isCall = true)
    (hv : ∀ x ∈ v, x.isCall = false ∧ t ∉ x.sets) :
    CallResult t (u ++ call :: .mov t .val :: v) := by
  refine ⟨u, call, .mov t .val :: v, rfl, hcall, fun x hx => ?_, ?_⟩
  · rcases List.mem_cons.mp hx with rfl | hmem
    · rfl
    · exact (hv x hmem).1
  · rw [if_neg ht]
    exact ⟨v, rfl, fun x hx => (hv x hx).2⟩

/-- The result of a call gets into `val`, and into another target if a lambda form is called. -/
theorem callResult_callPaths {operator : Expr} {st : CompilerState}
    (h : t = .val ∨ operator.isLambda = true) :
    ∀ w ∈ callPaths operator t st, CallResult t w := by
  have hlambda : operator.isLambda = true → operator.isFundamental = false := by
    intro h
    cases operator <;> simp [Expr.isLambda, Expr.isFundamental] at h ⊢
  intro w hw
  rw [callPaths] at hw
  split at hw
  · next hfund =>
    have ht : t = .val := h.elim id fun h => absurd hfund (by simp [hlambda h])
    obtain rfl := List.mem_singleton.mp hw
    exact .stays (u := []) ht rfl (by simp)
  · split at hw <;> split at hw
    · next ht =>
      obtain rfl := List.mem_singleton.mp hw
      exact .stays (u := [_, _]) ht rfl (by simp)
    · next ht =>
      obtain rfl := List.mem_singleton.mp hw
      exact .moved (u := [_, _]) ht rfl (by simp [Stmt.isCall, Stmt.sets, Stmt.writes])
    · next ht =>
      rcases List.mem_pair.mp hw with rfl | rfl
      · exact .stays (u := [_, _, _, _]) ht rfl (by simp)
      · exact .stays (u := [_]) ht rfl (by simp [Stmt.isCall, Stmt.sets, Stmt.writes])
    · next hnot ht => exact absurd (h.resolve_left ht) hnot

theorem not_callResult_callPaths {operator : Expr} {st : CompilerState} (ht : t ≠ .val)
    (hlambda : operator.isLambda = false) :
    ∃ w ∈ callPaths operator t st, ∀ w₀, ¬CallResult t (w₀ ++ w) := by
  have hlabel : ∀ (w₀ v₀ : List Stmt), (∀ x ∈ v₀, x.isCall = false) → .mov t .val ∉ v₀ →
      ¬CallResult t (w₀ ++ .callf :: v₀) := by
    intro w₀ v₀ hv₀ hmov h
    obtain ⟨u, call, v, heq, hcall, hv, hresult⟩ := h
    have hvv := after_last_call heq rfl hcall hv₀ hv
    rw [if_neg ht] at hresult
    obtain ⟨v', hv', -⟩ := hresult
    rw [hvv, hv'] at hmov
    exact hmov List.mem_cons_self
  rw [callPaths]
  split
  · exact ⟨_, List.mem_cons_self, fun w₀ => hlabel w₀ [] (by simp) (by simp)⟩
  · have hnot : ¬operator.isLambda = true := by simp [hlambda]
    rw [if_neg hnot]
    refine ⟨_, List.mem_cons_of_mem _ List.mem_cons_self, fun w₀ => ?_⟩
    rw [← List.singleton_append, ← List.append_assoc]
    exact hlabel _ _ (by simp [Stmt.isCall]) (by simp)

end

theorem path_let {bindings : Bindings} {body : Expr} {t : Reg} {st : CompilerState}
    (ht : t ∈ allRegs) {w : List Stmt} :
    Path ((Expr.letIn bindings body).compile (.next t) st).1.statements w ↔
      ∃ u v, Path (appendInstrSeqs (bindings.compile st).1).statements u ∧
        Path (body.compile (.next t) (bindings.compile st).2).1.statements v ∧ w = u ++ v := by
  rw [Expr.compile]
  exact path_append (bindings.uses st).closed (body.uses t _ ht).closed

/-- Every path of an application ends with one of its call. -/
theorem path_app {operator : Expr} {operands : Exprs} {t : Reg} {st : CompilerState}
    (ht : t ∈ allRegs) : ∃ st', (∀ w, Path ((Expr.app operator operands).compile (.next t)
        st).1.statements w → ∃ u v, v ∈ callPaths operator t st' ∧ w = u ++ v) ∧
      ∀ v ∈ callPaths operator t st', ∃ u, Path ((Expr.app operator operands).compile (.next t)
        st).1.statements (u ++ v) := by
  have huproc := uses_operatorCode operator st ((operator.uses .proc st (by decide)).mono
    (fun r hr => hr) fun r hr => ⟨hr, Or.inr hr⟩)
  have huargs := uses_constructArglist (operands.uses
    (operatorCode operator (operator.compile (.next .proc) st) st).2)
  have hucall := uses_callCode operator ht (operands.compile
    (operatorCode operator (operator.compile (.next .proc) st) st).2).2
  obtain ⟨saved₂, -, hrest⟩ := path_preserving huargs.closed hucall.closed [.proc, .cont]
  obtain ⟨saved₁, -, hall⟩ := path_preserving huproc.closed
    (huargs.closed.preserving hucall.closed [.proc, .cont]) [.env, .cont]
  rw [Expr.compile]
  refine ⟨(operands.compile (operatorCode operator (operator.compile (.next .proc) st) st).2).2,
    fun w hw => ?_, fun v hv => ?_⟩
  · obtain ⟨u, x, -, hx, rfl⟩ := (hall w).mp hw
    obtain ⟨y, v, -, hv, rfl⟩ := (hrest x).mp hx
    exact ⟨wrap saved₁ u ++ wrap saved₂ y, v, ((paths_callCode operator t _).2 v).mp hv,
      by rw [List.append_assoc]⟩
  · obtain ⟨u, hu⟩ := huproc.runs
    obtain ⟨y, hy⟩ := huargs.runs
    have hcall := ((paths_callCode operator t _).2 v).mpr hv
    refine ⟨wrap saved₁ u ++ wrap saved₂ y, ?_⟩
    rw [List.append_assoc]
    exact (hall _).mpr ⟨u, _, hu, (hrest _).mpr ⟨y, v, hy, hcall, rfl⟩, rfl⟩

theorem path_progn {e : Expr} {rest : Body} {t : Reg} {st : CompilerState} (ht : t ∈ allRegs) :
    (∀ w, Path ((Body.cons e rest).compile (.next t) st).1.statements w → ∃ u v,
      Path (rest.compile (.next t) (e.compile (.next t) st).2).1.statements v ∧ w = u ++ v) ∧
    ∀ v, Path (rest.compile (.next t) (e.compile (.next t) st).2).1.statements v → ∃ u,
      Path ((Body.cons e rest).compile (.next t) st).1.statements (u ++ v) := by
  have hue := e.uses t st ht
  have hur := rest.uses t (e.compile (.next t) st).2 ht
  obtain ⟨saved, -, hpath⟩ := path_preserving hue.closed hur.closed [.env, .continue']
  rw [Body.compile]
  constructor
  · intro w hw
    obtain ⟨u, v, -, hv, rfl⟩ := (hpath w).mp hw
    exact ⟨_, v, hv, rfl⟩
  · intro v hv
    obtain ⟨u, hu⟩ := hue.runs
    exact ⟨_, (hpath _).mpr ⟨u, v, hu, hv, rfl⟩⟩

mutual

/-- Whatever was executed before, a path of the code leaves the result in its target. -/
theorem Expr.resultIn : ∀ (e : Expr) (t : Reg) (st : CompilerState), t ∈ allRegs →
    e.delivered t = true → ∀ w, Path (e.compile (.next t) st).1.statements w →
      ∀ w₀, e.ResultIn t st (w₀ ++ w)
  | .const e _, t, st, _, _, w, hw, w₀ => by
    have hstraight : (Stmt.movimm t (.datum e)).Straight := .of_isPlain rfl (by simp)
    rw [Expr.compile, compileSelfEvaluating, Dest.linkage, Dest.target, statements_endWithNext,
      path_straight (by simpa using hstraight)] at hw
    rw [Expr.ResultIn, hw]
    exact .last (by simp [Stmt.sets, Stmt.writes])
  | .sym s _, t, st, _, _, w, hw, w₀ => by
    have hstraight : ∀ i, (Stmt.lookup t i).Straight := fun i => .of_isPlain rfl (by simp)
    rw [Expr.compile] at hw
    simp only [compileSymbol, Dest.linkage, statements_endWithNext, Dest.target] at hw
    rw [path_straight (by simpa using hstraight _)] at hw
    rw [Expr.ResultIn, hw]
    exact .last (by simp [Stmt.sets, Stmt.writes])
  | .quote (.atom d hd), t, st, _, _, w, hw, w₀ => by
    rw [Expr.compile, Dest.linkage, Dest.target, statements_endWithNext,
      path_straight (Data.straight t (.atom d hd))] at hw
    rw [Expr.ResultIn, hw]
    exact .last (by simp [Stmt.sets, Stmt.writes])
  | .quote (.list first rest), t, st, _, hd, w, hw, w₀ => by
    rw [Expr.delivered] at hd
    rw [Expr.compile, Dest.linkage, Dest.target, statements_endWithNext,
      path_straight (Data.straight t (.list first rest))] at hw
    have ht : t ≠ .argl := by simpa using hd
    rw [Expr.ResultIn, hw]
    exact ⟨(Data.builds_list ht first rest).append_left w₀,
      (Data.lastSet_list t first rest).append_left w₀⟩
  | .define var e, t, st, _, _, w, hw, w₀ => by
    have hu := e.uses .val (newIndirection var st).2 (by decide)
    rw [Expr.compile] at hw
    simp only [Dest.linkage, statements_endWithNext] at hw
    have hclosed := (uses_setglbval t (newIndirection var st).1).closed
    obtain ⟨u, v, -, hv, rfl⟩ := (path_append hu.closed hclosed).mp hw
    have hstraight : ∀ stm ∈ ([.setglbval (newIndirection var st).1,
        .movimm t (.indirection (newIndirection var st).1)] : List Stmt), stm.Straight := by
      intro stm hstm
      rcases List.mem_pair.mp hstm with rfl | rfl <;> exact .of_isPlain rfl (by simp)
    obtain rfl := (path_straight hstraight).mp hv
    rw [Expr.ResultIn, ← List.append_assoc]
    exact LastSet.append_left ⟨by simp [Stmt.sets, Stmt.writes], [_], [], rfl, by simp⟩ _
  | .lambda formals body, t, st, _, hd, w, hw, w₀ => by
    rw [Expr.delivered] at hd
    have hmake := ((paths_lambdaCode formals body t st).2 w).mp hw
    rw [makeLambda_next, List.mem_singleton] at hmake
    have henv : t ≠ .env := by simpa using hd
    rw [Expr.ResultIn, hmake]
    refine ⟨Builds.append_left ⟨[], _, rfl, rfl, ?_⟩ w₀, LastSet.append_left
      ⟨by simp [Stmt.sets, Stmt.writes], [_, _, _], [_], rfl, by simp [Stmt.sets, Stmt.writes]⟩ w₀⟩
    intro r s hmem
    obtain ⟨rfl, rfl⟩ : r = t ∧ s = .env := by simpa using hmem
    exact henv
  | .letIn bindings body, t, st, ht, hd, w, hw, w₀ => by
    rw [Expr.delivered] at hd
    obtain ⟨u, v, -, hv, rfl⟩ := (path_let ht).mp hw
    rw [Expr.ResultIn, ← List.append_assoc]
    exact body.resultIn t _ ht hd v hv _
  | .progn body, t, st, ht, hd, w, hw, w₀ => by
    rw [Expr.delivered] at hd
    rw [Expr.compile] at hw
    rw [Expr.ResultIn]
    exact body.resultIn t st ht hd w hw w₀
  | .app operator operands, t, st, ht, hd, w, hw, w₀ => by
    rw [Expr.delivered, Bool.or_eq_true, beq_iff_eq] at hd
    obtain ⟨st', hends, -⟩ := @path_app operator operands _ st ht
    obtain ⟨u, v, hv, rfl⟩ := hends w hw
    rw [Expr.ResultIn, ← List.append_assoc]
    exact (callResult_callPaths hd v hv).append_left _

theorem Body.resultIn : ∀ (b : Body) (t : Reg) (st : CompilerState), t ∈ allRegs →
    b.delivered t = true → ∀ w, Path (b.compile (.next t) st).1.statements w →
      ∀ w₀, b.ResultIn t st (w₀ ++ w)
  | .last e, t, st, ht, hd, w, hw, w₀ => by
    rw [Body.delivered] at hd
    rw [Body.compile] at hw
    rw [Body.ResultIn]
    exact e.resultIn t st ht hd w hw w₀
  | .cons e rest, t, st, ht, hd, w, hw, w₀ => by
    rw [Body.delivered] at hd
    obtain ⟨u, v, hv, rfl⟩ := (path_progn ht).1 w hw
    rw [Body.ResultIn, ← List.append_assoc]
    exact rest.resultIn t _ ht hd v hv _

end

mutual

/-- Otherwise some path does not leave it there. -/
theorem Expr.not_resultIn : ∀ (e : Expr) (t : Reg) (st : CompilerState), t ∈ allRegs →
    e.delivered t = false → ∃ w, Path (e.compile (.next t) st).1.statements w ∧
      ∀ w₀, ¬e.ResultIn t st (w₀ ++ w)
  | .const _ _, _, _, _, hd => by simp [Expr.delivered] at hd
  | .sym _ _, _, _, _, hd => by simp [Expr.delivered] at hd
  | .define _ _, _, _, _, hd => by simp [Expr.delivered] at hd
  | .quote (.atom _ _), _, _, _, hd => by simp [Expr.delivered] at hd
  | .quote (.list first rest), t, st, ht, hd => by
    rw [Expr.delivered] at hd
    obtain rfl : t = .argl := by simpa using hd
    obtain ⟨w, hw⟩ := (Expr.uses (.quote (.list first rest)) .argl st ht).runs
    refine ⟨w, hw, fun w₀ h => ?_⟩
    rw [Expr.compile, Dest.linkage, Dest.target, statements_endWithNext,
      path_straight (Data.straight .argl (.list first rest))] at hw
    obtain ⟨u, hu⟩ := Data.ends_list .argl first rest
    rw [Expr.ResultIn, hw, hu, ← List.append_assoc, Data.elements, ← Nat.add_assoc] at h
    exact not_builds_of_last rfl h.1
  | .lambda formals body, t, st, ht, hd => by
    rw [Expr.delivered] at hd
    obtain rfl : t = .env := by simpa using hd
    obtain ⟨w, hw⟩ := (Expr.uses (.lambda formals body) .env st ht).runs
    refine ⟨w, hw, fun w₀ h => ?_⟩
    have hmake := ((paths_lambdaCode formals body .env st).2 w).mp hw
    rw [makeLambda_next, List.mem_singleton] at hmake
    rw [Expr.ResultIn, hmake] at h
    have hbuilds := h.1
    rw [List.append_cons] at hbuilds
    exact not_builds_of_last rfl hbuilds
  | .letIn bindings body, t, st, ht, hd => by
    rw [Expr.delivered] at hd
    obtain ⟨u, hu⟩ := (bindings.uses st).runs
    obtain ⟨v, hv, hnot⟩ := body.not_resultIn t (bindings.compile st).2 ht hd
    refine ⟨u ++ v, (path_let ht).mpr ⟨u, v, hu, hv, rfl⟩, fun w₀ h => ?_⟩
    rw [Expr.ResultIn, ← List.append_assoc] at h
    exact hnot _ h
  | .progn body, t, st, ht, hd => by
    rw [Expr.delivered] at hd
    obtain ⟨w, hw, hnot⟩ := body.not_resultIn t st ht hd
    rw [Expr.compile]
    refine ⟨w, hw, fun w₀ h => ?_⟩
    rw [Expr.ResultIn] at h
    exact hnot w₀ h
  | .app operator operands, t, st, ht, hd => by
    rw [Expr.delivered, Bool.or_eq_false_iff, beq_eq_false_iff_ne] at hd
    obtain ⟨st', -, hall⟩ := @path_app operator operands _ st ht
    obtain ⟨v, hv, hnot⟩ := @not_callResult_callPaths _ _ st' hd.1 hd.2
    obtain ⟨u, hu⟩ := hall v hv
    refine ⟨u ++ v, hu, fun w₀ h => ?_⟩
    rw [Expr.ResultIn, ← List.append_assoc] at h
    exact hnot _ h

theorem Body.not_resultIn : ∀ (b : Body) (t : Reg) (st : CompilerState), t ∈ allRegs →
    b.delivered t = false → ∃ w, Path (b.compile (.next t) st).1.statements w ∧
      ∀ w₀, ¬b.ResultIn t st (w₀ ++ w)
  | .last e, t, st, ht, hd => by
    rw [Body.delivered] at hd
    obtain ⟨w, hw, hnot⟩ := e.not_resultIn t st ht hd
    rw [Body.compile]
    refine ⟨w, hw, fun w₀ h => ?_⟩
    rw [Body.ResultIn] at h
    exact hnot w₀ h
  | .cons e rest, t, st, ht, hd => by
    rw [Body.delivered] at hd
    obtain ⟨v, hv, hnot⟩ := rest.not_resultIn t (e.compile (.next t) st).2 ht hd
    obtain ⟨u, hu⟩ := (path_progn ht).2 v hv
    refine ⟨u ++ v, hu, fun w₀ h => ?_⟩
    rw [Body.ResultIn, ← List.append_assoc] at h
    exact hnot _ h

end

/-! ## The register lists -/

theorem needed_iff (e : Expr) {t : Reg} (ht : t ∈ allRegs) (st : CompilerState) :
    (∀ w, Path (e.compile (.next t) st).1.statements w → ∀ r ∈ readFirst w,
      r ∈ (e.compile (.next t) st).1.regsNeeded) ↔ (e.readsEnv t = true → e.needsEnv = true) := by
  have huse := e.envUse t st ht
  constructor
  · intro h hreads
    obtain ⟨w, hw, hr⟩ := huse.reads.mpr hreads
    exact huse.needs.mp (h w hw .env hr)
  · intro h w hw r hr
    obtain rfl := (e.uses t st ht).reads w hw r hr
    exact huse.needs.mpr (h (huse.reads.mp ⟨w, hw, hr⟩))

theorem modified_iff (e : Expr) {t : Reg} (ht : t ∈ allRegs) (st : CompilerState) :
    (∀ w, Path (e.compile (.next t) st).1.statements w → ∀ r ∈ unrestored [] w,
      r ∈ (e.compile (.next t) st).1.regsModified) ↔
        (e.writesVal t = true → e.listsVal t = true) := by
  have huse := e.valUse t st ht
  constructor
  · intro h hwrites
    obtain ⟨w, hw, hr⟩ := huse.writes.mpr hwrites
    exact huse.lists.mp (h w hw .val hr)
  · intro h w hw r hr
    by_cases hval : r = .val
    · subst hval
      exact huse.lists.mpr (h (huse.writes.mp ⟨w, hw, hr⟩))
    · exact (e.uses t st ht).lists w hw r hr hval

theorem result_iff (e : Expr) {t : Reg} (ht : t ∈ allRegs) (st : CompilerState) :
    (∀ w, Path (e.compile (.next t) st).1.statements w → e.ResultIn t st w) ↔
      e.delivered t = true := by
  constructor
  · intro h
    by_contra hd
    obtain ⟨w, hw, hnot⟩ := e.not_resultIn t st ht (Bool.eq_false_iff.mpr hd)
    exact hnot [] (h w hw)
  · exact fun hd w hw => e.resultIn t st ht hd w hw []

/-- The code of an expression with linkage `next` and its register lists agree exactly if nothing in
it uses an environment, a `val` or a target that the lists are silent about. -/
theorem annotationsSound_iff (e : Expr) (t : Reg) (st : CompilerState) (fuel : Nat)
    (ht : t ∈ allRegs) (hwf : e.Wf) (hfuel : e.size ≤ fuel) :
    ∃ seq st', compileInstrList fuel e.toSexp t .next st = some (seq, st') ∧
      (AnnotationsSound e t st seq ↔ e.soundFor t = true) := by
  refine ⟨(e.compile (.next t) st).1, (e.compile (.next t) st).2,
    compileInstrList_toSexp e (.next t) st fuel hwf hfuel, ?_⟩
  have hsound : e.soundFor t = true ↔ (e.readsEnv t = true → e.needsEnv = true) ∧
      (e.writesVal t = true → e.listsVal t = true) ∧ e.delivered t = true := by
    simp only [Expr.soundFor, Bool.and_eq_true, Bool.or_eq_true, Bool.not_eq_true',
      ← Bool.not_eq_true, imp_iff_not_or, and_assoc]
  rw [hsound, ← needed_iff e ht st, ← modified_iff e ht st, ← result_iff e ht st]
  exact ⟨fun h => ⟨h.needed, h.modified, h.result⟩, fun h => ⟨h.1, h.2.1, h.2.2⟩⟩

/-- `(f x)`. -/
def callOfF : Expr := .app symF (.cons symX .nil)

/-- `(let ((x 1)) 2)`. -/
def letOfX : Expr :=
  .letIn (.cons (.name (cstring "x")) (.const (.atom (encI 1)) (by decide)) .nil)
    (.const (.atom (encI 2)) (by decide))

theorem annotationsSound_callOfF : ∃ seq st',
    compileInstrList 5 callOfF.toSexp .val .next .initial = some (seq, st') ∧
      AnnotationsSound callOfF .val .initial seq := by
  have hf : symF.toSexp ∉ keywords := by decide
  have hwf : callOfF.Wf := by
    simp [callOfF, Expr.Wf, Exprs.Wf, symX, hf]
    simp [symF, Expr.Wf]
  obtain ⟨seq, st', hcompile, hiff⟩ :=
    annotationsSound_iff callOfF .val .initial 5 (by decide) hwf (by decide)
  exact ⟨seq, st', hcompile, hiff.mpr (by decide)⟩

/-- The binding extends the environment it finds in `env`, which is not listed as needed. -/
theorem not_annotationsSound_letOfX : ∃ seq st',
    compileInstrList 5 letOfX.toSexp .val .next .initial = some (seq, st') ∧
      ¬AnnotationsSound letOfX .val .initial seq := by
  refine ⟨_, _, rfl, fun h => ?_⟩
  have hread := h.needed _ ⟨⟨none, none⟩, List.mem_singleton.mpr rfl⟩ .env (by decide)
  exact absurd hread (by decide)

end Compiler

end LispBM
