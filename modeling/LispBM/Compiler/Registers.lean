import LispBM.Compiler.Syntax

/-!
# LispBM — the register lists of instruction sequences

What `append`, `preserving` and the compilation of each form say about the registers a sequence
needs and modifies. Code with linkage `next` needs at most the environment, and lists its target as
modified.
-/

namespace LispBM

namespace Compiler

/-! ## Registers of an instruction -/

/-- The registers an instruction reads, as the list of instructions has it. -/
def Stmt.reads : Stmt → List Reg
  | .jmpcnt => [.cont]
  | .jmpval | .setglbval _ => [.val]
  | .lookup _ _ => [.env]
  | .push r | .consimm r _ => [r]
  | .bpf _ => [.proc]
  | .exenvargl _ => [.env, .argl]
  | .exenvval _ => [.env, .val]
  | .mov _ s | .cadr _ s | .caddr _ s => [s]
  | .cons r s => [r, s]
  | .callf => [.proc, .argl]
  | _ => []

/-- The registers an instruction overwrites. -/
def Stmt.writes : Stmt → List Reg
  | .movimm r _ | .mov r _ | .lookup r _ | .pop r | .cons r _ | .consimm r _ | .cadr r _
  | .caddr r _ => [r]
  | .exenvargl _ => [.env, .argl]
  | .exenvval _ => [.env]
  | .callf => [.val]
  | _ => []

/-! ## Lists of registers -/

section

variable {r : Reg} {a b : List Reg}

@[simp] theorem mem_listUnion : r ∈ listUnion a b ↔ r ∈ a ∨ r ∈ b := by
  induction a with
  | nil => simp [listUnion]
  | cons x a ih =>
    rw [listUnion]
    split
    · next hx =>
      rw [ih, List.mem_cons]
      constructor
      · rintro (h | h)
        · exact Or.inl (Or.inr h)
        · exact Or.inr h
      · rintro ((rfl | h) | h)
        · exact Or.inr hx
        · exact Or.inl h
        · exact Or.inr h
    · rw [List.mem_cons, ih, List.mem_cons, or_assoc]

@[simp] theorem mem_listDiff : r ∈ listDiff a b ↔ r ∈ a ∧ r ∉ b := by
  induction a with
  | nil => simp [listDiff]
  | cons x a ih =>
    rw [listDiff]
    split
    · next hx =>
      rw [ih, List.mem_cons]
      constructor
      · exact fun h => ⟨Or.inr h.1, h.2⟩
      · rintro ⟨rfl | h, hb⟩
        · exact absurd hx hb
        · exact ⟨h, hb⟩
    · next hx =>
      rw [List.mem_cons, ih, List.mem_cons]
      constructor
      · rintro (rfl | h)
        · exact ⟨Or.inl rfl, hx⟩
        · exact ⟨Or.inr h.1, h.2⟩
      · rintro ⟨rfl | h, hb⟩
        · exact Or.inl rfl
        · exact Or.inr ⟨h, hb⟩

end

/-! ## The parts of `preserving` -/

section

variable {r : Reg} {regs : List Reg} {s₁ s₂ : InstrSeq}

@[simp] theorem mem_needed_appendTwo : r ∈ (appendTwoInstrSeqs s₁ s₂).regsNeeded ↔
    r ∈ s₁.regsNeeded ∨ r ∈ s₂.regsNeeded ∧ r ∉ s₁.regsModified := by
  simp [appendTwoInstrSeqs]

@[simp] theorem mem_modified_appendTwo : r ∈ (appendTwoInstrSeqs s₁ s₂).regsModified ↔
    r ∈ s₁.regsModified ∨ r ∈ s₂.regsModified := by
  simp [appendTwoInstrSeqs]

theorem mem_modified_saving {s : Reg} : r ∈ (saving s s₁).regsModified ↔
    r ∈ s₁.regsModified ∧ r ≠ s := by
  simp [saving]

/-- What `s₂` needs is needed unless `s₁` provides it, and then too if it is preserved. -/
theorem mem_needed_preserving : r ∈ (preserving regs s₁ s₂).regsNeeded ↔
    r ∈ s₁.regsNeeded ∨ r ∈ s₂.regsNeeded ∧ (r ∉ s₁.regsModified ∨ r ∈ regs) := by
  induction regs generalizing s₁ with
  | nil => simp [preserving, appendInstrSeqs, emptyInstrSeq]
  | cons x regs ih =>
    rw [preserving]
    split
    · next h =>
      rw [ih, mem_modified_saving, saving, mem_listUnion, List.mem_singleton, List.mem_cons]
      by_cases hr : r = x
      · subst hr
        simp [h.1]
      · simp [hr]
    · next h =>
      rw [ih, List.mem_cons]
      by_cases hr : r = x
      · subst hr
        by_cases hn : r ∈ s₂.regsNeeded
        · have hm : r ∉ s₁.regsModified := fun hm => h ⟨hn, hm⟩
          simp [hn, hm]
        · simp [hn]
      · simp [hr]

theorem mem_modified_preserving : r ∈ (preserving regs s₁ s₂).regsModified ↔
    r ∈ s₁.regsModified ∧ ¬(r ∈ regs ∧ r ∈ s₂.regsNeeded) ∨ r ∈ s₂.regsModified := by
  induction regs generalizing s₁ with
  | nil => simp [preserving, appendInstrSeqs, emptyInstrSeq]
  | cons x regs ih =>
    rw [preserving]
    split
    · next h =>
      rw [ih, mem_modified_saving, List.mem_cons]
      by_cases hr : r = x
      · subst hr
        simp [h.1]
      · simp [hr]
    · next h =>
      rw [ih, List.mem_cons]
      by_cases hr : r = x
      · subst hr
        by_cases hm : r ∈ s₁.regsModified
        · have hn : r ∉ s₂.regsNeeded := fun hn => h ⟨hn, hm⟩
          simp [hn, hm]
        · simp [hm]
      · simp [hr]

/-- `c` between the instructions that save and restore the registers. -/
def wrap : List Reg → List Stmt → List Stmt
  | [], c => c
  | r :: regs, c => wrap regs ([.push r] ++ (c ++ [.pop r]))

/-- `preserving` saves the registers that `s₂` needs and `s₁` modifies. -/
theorem statements_preserving (regs : List Reg) (s₁ s₂ : InstrSeq) : ∃ saved : List Reg,
    (∀ r, r ∈ saved ↔ r ∈ regs ∧ r ∈ s₂.regsNeeded ∧ r ∈ s₁.regsModified) ∧
    (preserving regs s₁ s₂).statements = wrap saved s₁.statements ++ s₂.statements := by
  induction regs generalizing s₁ with
  | nil =>
    refine ⟨[], by simp, ?_⟩
    show s₁.statements ++ (s₂.statements ++ []) = s₁.statements ++ s₂.statements
    rw [List.append_nil]
  | cons x regs ih =>
    rw [preserving]
    split
    · next h =>
      obtain ⟨saved, hsaved, hstatements⟩ := ih (saving x s₁)
      refine ⟨x :: saved, fun r => ?_, hstatements⟩
      rw [List.mem_cons, hsaved, mem_modified_saving, List.mem_cons]
      by_cases hr : r = x
      · subst hr
        simp [h]
      · simp [hr]
    · next h =>
      obtain ⟨saved, hsaved, hstatements⟩ := ih s₁
      refine ⟨saved, fun r => ?_, hstatements⟩
      rw [hsaved, List.mem_cons]
      by_cases hr : r = x
      · subst hr
        exact ⟨fun h => ⟨Or.inl rfl, h.2⟩, fun h' => absurd h'.2 h⟩
      · simp [hr]

theorem needed_preserving_le {P : Reg → Prop} (h₁ : ∀ r ∈ s₁.regsNeeded, P r)
    (h₂ : ∀ r ∈ s₂.regsNeeded, r ∉ s₁.regsModified ∨ r ∈ regs → P r) :
    ∀ r ∈ (preserving regs s₁ s₂).regsNeeded, P r := by
  intro r hr
  rcases mem_needed_preserving.mp hr with h | h
  · exact h₁ r h
  · exact h₂ r h.1 h.2

end

/-! ## Code with linkage `next` -/

/-- It needs at most `env`, and its target is among the registers it modifies. -/
structure InstrSeq.Delivers (t : Reg) (s : InstrSeq) : Prop where
  needs : ∀ r ∈ s.regsNeeded, r = .env
  target : t ∈ s.regsModified

section

variable {t r : Reg} {s s₁ s₂ : InstrSeq}

theorem endWithLinkage_next : endWithLinkage .next s = appendTwoInstrSeqs s emptyInstrSeq := by
  rw [endWithLinkage, preserving, if_neg (by simp [compileLinkage, emptyInstrSeq])]
  rfl

theorem InstrSeq.Delivers.endWithLinkage (h : s.Delivers t) :
    (endWithLinkage .next s).Delivers t := by
  rw [endWithLinkage_next]
  constructor
  · intro r hr
    simp only [mem_needed_appendTwo, emptyInstrSeq, List.not_mem_nil, false_and, or_false] at hr
    exact h.needs r hr
  · simp [h.target]

theorem mem_needed_appendInstrSeqs {seqs : List InstrSeq}
    (h : r ∈ (appendInstrSeqs seqs).regsNeeded) : ∃ s ∈ seqs, r ∈ s.regsNeeded := by
  induction seqs with
  | nil => exact absurd h (by simp [appendInstrSeqs, emptyInstrSeq])
  | cons s seqs ih =>
    rw [appendInstrSeqs, mem_needed_appendTwo] at h
    rcases h with h | h
    · exact ⟨s, List.mem_cons_self, h⟩
    · obtain ⟨s', hs', hr⟩ := ih h.1
      exact ⟨s', List.mem_cons_of_mem _ hs', hr⟩

end

/-! ### Quoted data -/

section

variable {t r : Reg}

mutual

/-- The list of a quotation is built in its target. -/
theorem Data.needs_compileNest : ∀ q : Data, r ∈ (q.compileNest t).regsNeeded → r = t
  | .atom q _, hr => by
    rw [Data.compileNest] at hr
    simp [compileDataPrim] at hr
  | .list first rest, hr => by
    rw [Data.compileNest] at hr
    simp only [mem_needed_appendTwo, List.mem_singleton, List.not_mem_nil, not_false_eq_true,
      and_true] at hr
    rcases hr with h | h | h
    · exact h
    · obtain ⟨s, hs, hr⟩ := mem_needed_appendInstrSeqs h
      rcases List.mem_cons.mp (List.mem_reverse.mp hs) with rfl | hmem
      · exact first.needs_compileNest hr
      · exact Data.needs_compileNests rest s hmem hr
    · exact h.1

theorem Data.needs_compileNests :
    ∀ qs : List Data, ∀ s ∈ Data.compileNests t qs, r ∈ s.regsNeeded → r = t
  | [], s, hs, _ => by
    rw [Data.compileNests] at hs
    exact absurd hs (by simp)
  | q :: qs, s, hs, hr => by
    rw [Data.compileNests] at hs
    rcases List.mem_cons.mp hs with rfl | hmem
    · exact q.needs_compileNest hr
    · exact Data.needs_compileNests qs s hmem hr

end

theorem Data.delivers (t : Reg) (q : Data) : (q.compile t).Delivers t := by
  cases q with
  | atom q hq =>
    exact ⟨by simp [Data.compile, compileDataPrim], by simp [Data.compile, compileDataPrim]⟩
  | list first rest =>
    rw [Data.compile]
    refine ⟨fun r hr => ?_, by simp⟩
    simp only [mem_needed_appendTwo, List.not_mem_nil, false_or, List.mem_singleton] at hr
    obtain ⟨s, hs, hneeded⟩ := mem_needed_appendInstrSeqs hr.1
    exact absurd (Data.needs_compileNests (first :: rest) s (List.mem_reverse.mp hs) hneeded) hr.2

end

/-! ### Calls -/

section

variable {t r : Reg}

theorem delivers_addFstArgument {s : InstrSeq} (h : s.Delivers .val) :
    (addFstArgument s).Delivers .argl := by
  constructor
  · intro r hr
    simp only [addFstArgument, mem_needed_appendTwo, List.mem_singleton] at hr
    rcases hr with hr | ⟨rfl, hval⟩
    · exact h.needs r hr
    · exact absurd h.target hval
  · simp [addFstArgument]

theorem needs_codeForNextArg {s : InstrSeq} (h : s.Delivers .val) :
    ∀ r ∈ (codeForNextArg s).regsNeeded, r = .env ∨ r = .argl := by
  apply needed_preserving_le
  · exact fun r hr => Or.inl (h.needs r hr)
  · intro r hr hout
    simp only [List.mem_cons, List.not_mem_nil, or_false] at hr hout
    rcases hr with rfl | rfl
    · rcases hout with hval | hval
      · exact absurd h.target hval
      · exact absurd hval (by decide)
    · exact Or.inr rfl

theorem argl_modified_codeForNextArg (s : InstrSeq) :
    .argl ∈ (codeForNextArg s).regsModified :=
  mem_modified_preserving.mpr (Or.inr (by simp))

theorem getRestArgs_registers (rest : List InstrSeq) : ∀ s : InstrSeq,
    (∀ x ∈ s :: rest, x.Delivers .val) →
      (∀ r ∈ (getRestArgs s rest).regsNeeded, r = .env ∨ r = .argl) ∧
        .argl ∈ (getRestArgs s rest).regsModified := by
  induction rest with
  | nil =>
    intro s h
    exact ⟨needs_codeForNextArg (h s List.mem_cons_self), argl_modified_codeForNextArg s⟩
  | cons u rest ih =>
    intro s h
    obtain ⟨hneeds, hargl⟩ := ih u fun x hx => h x (List.mem_cons_of_mem _ hx)
    exact ⟨needed_preserving_le (needs_codeForNextArg (h s List.mem_cons_self))
      (fun r hr _ => hneeds r hr), mem_modified_preserving.mpr (Or.inr hargl)⟩

theorem delivers_constructArglist {codes : List InstrSeq} (h : ∀ s ∈ codes, s.Delivers .val) :
    (constructArglist codes).Delivers .argl := by
  have hrev : ∀ s ∈ codes.reverse, s.Delivers .val := fun s hs => h s (List.mem_reverse.mp hs)
  rw [constructArglist]
  cases hcodes : codes.reverse with
  | nil => exact ⟨by simp, by simp⟩
  | cons s rest =>
    rw [hcodes] at hrev
    have hfst := delivers_addFstArgument (hrev s List.mem_cons_self)
    cases rest with
    | nil => exact hfst
    | cons u rest =>
      obtain ⟨hneeds, hargl⟩ := getRestArgs_registers rest u
        fun x hx => hrev x (List.mem_cons_of_mem _ hx)
      refine ⟨needed_preserving_le hfst.needs ?_, mem_modified_preserving.mpr (Or.inr hargl)⟩
      intro r hr hout
      rcases hneeds r hr with rfl | rfl
      · rfl
      · rcases hout with hmod | hmem
        · exact absurd hfst.target hmod
        · exact absurd hmem (by decide)

/-- A procedure may overwrite every register. -/
theorem modified_callCode {operator : Expr} (hfund : operator.isFundamental = false)
    (hr : r ∈ allRegs) (d : Dest) (st : CompilerState) :
    r ∈ (callCode operator d st).1.regsModified := by
  have happl : ∀ (l : Label) (st : CompilerState),
      (procAppl d l st).1.regsModified = allRegs := by
    intro l st
    cases d with
    | next t =>
      rw [procAppl]
      split <;> rfl
    | ret => rfl
  rw [callCode, hfund]
  simp only [Bool.false_eq_true, if_false]
  split
  · simp only [lambdaProcCall, mem_modified_appendTwo, happl]
    exact Or.inl hr
  · simp only [procCall, appendInstrSeqs, parallelInstrSeqs, mem_modified_appendTwo,
      mem_listUnion, happl]
    exact Or.inr (Or.inl (Or.inl (Or.inr hr)))

/-- A call with linkage `next` needs the operator and the operands. -/
theorem needs_callCode_next (operator : Expr) (t : Reg) (st : CompilerState) :
    ∀ r ∈ (callCode operator (.next t) st).1.regsNeeded, r = .proc ∨ r = .argl := by
  have hcallf : compileFundamentalProcCall t .next
      = appendTwoInstrSeqs ⟨[.proc, .argl], [t], [.callf]⟩ emptyInstrSeq := endWithLinkage_next
  have happl : ∀ (l : Label) (st : CompilerState),
      (procAppl (.next t) l st).1.regsNeeded = [.proc] := by
    intro l st
    rw [procAppl]
    split <;> rfl
  rw [callCode]
  split
  · show ∀ r ∈ (compileFundamentalProcCall t .next).regsNeeded, _
    rw [hcallf]
    simp [emptyInstrSeq]
  · split
    · simp [lambdaProcCall, happl, Label.seq]
    · simp [procCall, appendInstrSeqs, parallelInstrSeqs, happl, Label.seq, Dest.target,
        Dest.linkage, hcallf, emptyInstrSeq]

theorem target_callCode_next (operator : Expr) (ht : t ∈ allRegs) (st : CompilerState) :
    t ∈ (callCode operator (.next t) st).1.regsModified := by
  by_cases hfund : operator.isFundamental = true
  · rw [callCode, if_pos hfund]
    show t ∈ (endWithLinkage .next ⟨[.proc, .argl], [t], [.callf]⟩).regsModified
    rw [endWithLinkage_next]
    simp
  · exact modified_callCode (Bool.eq_false_iff.mpr hfund) ht _ st

/-- The operands provide their list. -/
theorem needs_argsCall {args call : InstrSeq} (hargs : args.Delivers .argl)
    (hcall : ∀ r ∈ call.regsNeeded, r = .proc ∨ r = .argl) :
    ∀ r ∈ (preserving [.proc, .cont] args call).regsNeeded, r = .env ∨ r = .proc := by
  apply needed_preserving_le
  · exact fun r hr => Or.inl (hargs.needs r hr)
  · intro r hr hout
    rcases hcall r hr with rfl | rfl
    · exact Or.inr rfl
    · rcases hout with hmod | hmem
      · exact absurd hargs.target hmod
      · exact absurd hmem (by decide)

/-- An operator is in `proc`, and the operands do not need it. -/
theorem delivers_app {procCode args call : InstrSeq} (hproc : procCode.Delivers .proc)
    (hargs : args.Delivers .argl) (hcall : ∀ r ∈ call.regsNeeded, r = .proc ∨ r = .argl)
    (ht : t ∈ call.regsModified) :
    (preserving [.env, .cont] procCode (preserving [.proc, .cont] args call)).Delivers t := by
  refine ⟨needed_preserving_le hproc.needs ?_,
    mem_modified_preserving.mpr (Or.inr (mem_modified_preserving.mpr (Or.inr ht)))⟩
  intro r hr hout
  rcases needs_argsCall hargs hcall r hr with rfl | rfl
  · rfl
  · rcases hout with hmod | hmem
    · exact absurd hproc.target hmod
    · exact absurd hmem (by decide)

theorem delivers_operatorCode (operator : Expr) {code : InstrSeq × CompilerState}
    (st : CompilerState) (h : code.1.Delivers .proc) :
    (operatorCode operator code st).1.Delivers .proc := by
  rw [operatorCode]
  split
  · exact ⟨by simp, by simp⟩
  · exact h

theorem delivers_makeLambda (t : Reg) (procEntry afterLambda : Label) :
    (makeLambda (.next t) procEntry afterLambda).Delivers t := by
  constructor
  · intro r hr
    simpa [makeLambda, endWithLinkage, preserving, compiledLinkage, Dest.linkage, compileLinkage,
      appendInstrSeqs, emptyInstrSeq] using hr
  · exact mem_modified_preserving.mpr (Or.inl ⟨List.mem_singleton.mpr rfl,
      fun h => absurd h.2 (by simp [compiledLinkage, Dest.linkage, compileLinkage])⟩)

end

mutual

theorem Expr.delivers : ∀ (e : Expr) (t : Reg) (st : CompilerState), t ∈ allRegs →
    (e.compile (.next t) st).1.Delivers t
  | .const e _, t, st, _ => by
    rw [Expr.compile]
    exact .endWithLinkage ⟨by simp, List.mem_singleton.mpr rfl⟩
  | .sym s _, t, st, _ => by
    rw [Expr.compile]
    exact .endWithLinkage ⟨by simp, List.mem_singleton.mpr rfl⟩
  | .quote q, t, st, _ => by
    rw [Expr.compile]
    exact .endWithLinkage (q.delivers t)
  | .define var e, t, st, _ => by
    have he := e.delivers .val (newIndirection var st).2 (by decide)
    rw [Expr.compile]
    apply InstrSeq.Delivers.endWithLinkage
    refine ⟨fun r hr => ?_, by simp [Dest.target]⟩
    simp only [mem_needed_appendTwo, List.mem_singleton] at hr
    rcases hr with hr | ⟨rfl, hval⟩
    · exact he.needs r hr
    · exact absurd he.target hval
  | .lambda formals body, t, st, _ => by
    have hmake := delivers_makeLambda t ⟨.entry, st.labelCounter + 1⟩
      ⟨.afterLambda, st.labelCounter + 2⟩
    rw [Expr.compile]
    refine ⟨fun r hr => ?_, ?_⟩
    · rw [mem_needed_appendTwo] at hr
      rcases hr with hr | hr
      · exact hmake.needs r hr
      · exact absurd hr.1 (by simp [Label.seq])
    · exact mem_modified_appendTwo.mpr (Or.inl hmake.target)
  | .letIn bindings body, t, st, ht => by
    have hbs := bindings.delivers st
    have he := body.delivers t (bindings.compile st).2 ht
    rw [Expr.compile]
    refine ⟨fun r hr => ?_, mem_modified_appendTwo.mpr (Or.inr he.target)⟩
    rcases mem_needed_appendTwo.mp hr with hr | hr
    · obtain ⟨s, hs, hneeded⟩ := mem_needed_appendInstrSeqs hr
      exact hbs s hs r hneeded
    · exact he.needs r hr.1
  | .progn body, t, st, ht => by
    rw [Expr.compile]
    exact body.delivers t st ht
  | .app operator operands, t, st, ht => by
    have hproc := delivers_operatorCode operator st (operator.delivers .proc st (by decide))
    have hargs := delivers_constructArglist (operands.delivers
      (operatorCode operator (operator.compile (.next .proc) st) st).2)
    rw [Expr.compile]
    exact delivers_app hproc hargs (needs_callCode_next operator t _)
      (target_callCode_next operator ht _)

theorem Exprs.delivers : ∀ (es : Exprs) (st : CompilerState),
    ∀ s ∈ (es.compile st).1, s.Delivers .val
  | .nil, st, s, hs => by
    rw [Exprs.compile] at hs
    exact absurd hs (by simp)
  | .cons e es, st, s, hs => by
    rw [Exprs.compile] at hs
    rcases List.mem_cons.mp hs with rfl | hmem
    · exact e.delivers .val st (by decide)
    · exact es.delivers _ s hmem

theorem Bindings.delivers : ∀ (bs : Bindings) (st : CompilerState),
    ∀ s ∈ (bs.compile st).1, ∀ r ∈ s.regsNeeded, r = .env
  | .nil, st, s, hs => by
    rw [Bindings.compile] at hs
    exact absurd hs (by simp)
  | .cons key e bs, st, s, hs => by
    have he := e.delivers .val st (by decide)
    rw [Bindings.compile] at hs
    rcases List.mem_cons.mp hs with rfl | hmem
    · intro r hr
      simp only [mem_needed_appendTwo, List.mem_singleton] at hr
      rcases hr with hr | ⟨rfl, hval⟩
      · exact he.needs r hr
      · exact absurd he.target hval
    · exact bs.delivers _ s hmem

theorem Body.delivers : ∀ (b : Body) (t : Reg) (st : CompilerState), t ∈ allRegs →
    (b.compile (.next t) st).1.Delivers t
  | .last e, t, st, ht => by
    rw [Body.compile]
    exact e.delivers t st ht
  | .cons e rest, t, st, ht => by
    have he := e.delivers t st ht
    have hrest := rest.delivers t (e.compile (.next t) st).2 ht
    rw [Body.compile]
    exact ⟨needed_preserving_le he.needs fun r hr _ => hrest.needs r hr,
      mem_modified_preserving.mpr (Or.inr hrest.target)⟩

end

end Compiler

end LispBM
