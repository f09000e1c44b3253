import LispBM.Compiler.RegisterUse

/-!
# LispBM — when the register lists are right

The lists promise three things of a sequence with linkage `next`: what it reads first is listed as
needed, what it writes and does not restore is listed as modified, and its target is written last by
the statement that gives the result. Each of them fails for some expressions: `exenvval` reads an
`env` that is not listed, `callf` leaves its result in `val` whatever the target, and values that
are built in `env` or `argl` lose what they are built from.
-/

namespace LispBM

namespace Compiler

open Tokpar (Sexp)

/-! ## The result of an expression -/

/-- The registers that are set; a procedure that was called comes back with its result in `val`. -/
def Stmt.sets : Stmt → List Reg
  | .jmpval => [.val]
  | stm => stm.writes

def Stmt.isCall : Stmt → Bool
  | .jmpval | .callf => true
  | _ => false

/-- `stm` is the last statement of the path that sets `t`. -/
def LastSet (t : Reg) (w : List Stmt) (stm : Stmt) : Prop :=
  t ∈ stm.sets ∧ ∃ u v, w = u ++ stm :: v ∧ ∀ x ∈ v, t ∉ x.sets

mutual

/-- The elements of quoted data, on all levels. -/
def Data.elements : Data → Nat
  | .atom _ _ => 0
  | .list first rest => Data.elementsOf rest + (first.elements + 1)

def Data.elementsOf : List Data → Nat
  | [] => 0
  | d :: ds => Data.elementsOf ds + (d.elements + 1)

end

def Stmt.isCons : Stmt → Bool
  | .cons _ _ => true
  | _ => false

/-- `t` is set to `nil`, and after that the content of a register is consed onto the list in another
one, `n` times. -/
def Builds (t : Reg) (n : Nat) (w : List Stmt) : Prop :=
  ∃ u v, w = u ++ .movimm t (.datum Sexp.nil) :: v ∧ v.countP Stmt.isCons = n ∧
    ∀ r s, .cons r s ∈ v → r ≠ s

/-- The result of the last call is in `t` at the end: it stays in `val`, or is moved at once. -/
def CallResult (t : Reg) (w : List Stmt) : Prop :=
  ∃ u call v, w = u ++ call :: v ∧ call.isCall = true ∧ (∀ x ∈ v, x.isCall = false) ∧
    if t = .val then ∀ x ∈ v, t ∉ x.sets
    else ∃ v', v = .mov t .val :: v' ∧ ∀ x ∈ v', t ∉ x.sets

mutual

/-- What a path of the code sets `t` to last is the result of the expression, which is compiled in
the given state. Lists and procedures are built on the path, from what other registers hold. -/
def Expr.ResultIn (t : Reg) : Expr → CompilerState → List Stmt → Prop
  | .const d _, _, w => LastSet t w (.movimm t (.datum d))
  | .sym s _, st, w => LastSet t w (.lookup t (newIndirection s st).1)
  | .quote (.atom d _), _, w => LastSet t w (.movimm t (.datum d))
  | .quote (.list first rest), _, w =>
      Builds t (Data.list first rest).elements w ∧ LastSet t w (.cons t .argl)
  | .define var _, st, w => LastSet t w (.movimm t (.indirection (newIndirection var st).1))
  | .lambda _ _, _, w => Builds t 1 w ∧ LastSet t w (.consimm t procSymbol)
  | .letIn bindings body, st, w => body.ResultIn t (bindings.compile st).2 w
  | .progn body, st, w => body.ResultIn t st w
  | .app _ _, _, w => CallResult t w

def Body.ResultIn (t : Reg) : Body → CompilerState → List Stmt → Prop
  | .last e, st, w => e.ResultIn t st w
  | .cons e rest, st, w => rest.ResultIn t (e.compile (.next t) st).2 w

end

/-- The lists of the code of `e` with target `t` and linkage `next` are right, on every path. -/
structure AnnotationsSound (e : Expr) (t : Reg) (st : CompilerState) (s : InstrSeq) : Prop where
  needed : ∀ w, Path s.statements w → ∀ r ∈ readFirst w, r ∈ s.regsNeeded
  modified : ∀ w, Path s.statements w → ∀ r ∈ unrestored [] w, r ∈ s.regsModified
  result : ∀ w, Path s.statements w → e.ResultIn t st w

/-! ## Which expressions have right lists -/

mutual

/-- `env` is listed as needed: there is a symbol or a lambda outside lambda bodies, bodies of `let`
and bindings behind a first one. -/
def Expr.needsEnv : Expr → Bool
  | .const _ _ | .quote _ => false
  | .sym _ _ | .lambda _ _ => true
  | .define _ e => e.needsEnv
  | .letIn .nil body => body.needsEnv
  | .letIn (.cons _ e _) _ => e.needsEnv
  | .progn body => body.needsEnv
  | .app operator operands => !operator.isFundamental && operator.needsEnv || operands.needsEnv

def Exprs.needsEnv : Exprs → Bool
  | .nil => false
  | .cons e es => e.needsEnv || es.needsEnv

def Body.needsEnv : Body → Bool
  | .last e => e.needsEnv
  | .cons e rest => e.needsEnv || rest.needsEnv

end

mutual

/-- Neither is the environment used nor is `env` the target, on some path. -/
def Expr.passesEnv (t : Reg) : Expr → Bool
  | .const _ _ | .quote _ => t != .env
  | .sym _ _ | .lambda _ _ => false
  | .define _ e => e.passesEnv .val && t != .env
  | .letIn .nil body => body.passesEnv t
  | .letIn (.cons _ _ _) _ => false
  | .progn body => body.passesEnv t
  | .app operator operands =>
      (operator.isFundamental || operator.passesEnv .proc) && operands.passesEnv

def Exprs.passesEnv : Exprs → Bool
  | .nil => true
  | .cons e es => e.passesEnv .val && es.passesEnv

def Body.passesEnv (t : Reg) : Body → Bool
  | .last e => e.passesEnv t
  | .cons e rest => e.passesEnv t && rest.passesEnv t

end

mutual

/-- The environment is used before it is overwritten: by a symbol, a lambda that is not made in
`env` itself, or a binding of a `let`. -/
def Expr.readsEnv (t : Reg) : Expr → Bool
  | .const _ _ | .quote _ => false
  | .sym _ _ => true
  | .lambda _ _ => t != .env
  | .define _ e => e.readsEnv .val
  | .letIn .nil body => body.readsEnv t
  | .letIn (.cons _ _ _) _ => true
  | .progn body => body.readsEnv t
  | .app operator operands =>
      !operator.isFundamental && operator.readsEnv .proc || operands.readsEnv

def Exprs.readsEnv : Exprs → Bool
  | .nil => false
  | .cons e es => e.readsEnv .val || es.readsEnv

def Body.readsEnv (t : Reg) : Body → Bool
  | .last e => e.readsEnv t
  | .cons e rest => e.readsEnv t || rest.needsEnv || e.passesEnv t && rest.readsEnv t

end

def Exprs.isNil : Exprs → Bool
  | .nil => true
  | .cons _ _ => false

mutual

/-- `val` is listed as modified. A call of a fundamental operation lists its target and what the
operands modify. -/
def Expr.listsVal (t : Reg) : Expr → Bool
  | .const _ _ | .quote _ | .sym _ _ | .lambda _ _ => t == .val
  | .define _ _ => true
  | .letIn .nil body => body.listsVal t
  | .letIn (.cons _ _ _) _ => true
  | .progn body => body.listsVal t
  | .app operator operands => !operator.isFundamental || t == .val || !operands.isNil

def Body.listsVal (t : Reg) : Body → Bool
  | .last e => e.listsVal t
  | .cons e rest => e.listsVal t || rest.listsVal t

end

mutual

def Expr.writesVal (t : Reg) : Expr → Bool
  | .const _ _ | .quote _ | .sym _ _ | .lambda _ _ => t == .val
  | .define _ _ => true
  | .letIn .nil body => body.writesVal t
  | .letIn (.cons _ _ _) _ => true
  | .progn body => body.writesVal t
  | .app _ _ => true

def Body.writesVal (t : Reg) : Body → Bool
  | .last e => e.writesVal t
  | .cons e rest => e.writesVal t || rest.writesVal t

end

mutual

/-- The result gets into the target: `callf` has it in `val`, a list is built with the help of
`argl`, a procedure from `env`. -/
def Expr.delivered (t : Reg) : Expr → Bool
  | .const _ _ | .sym _ _ | .define _ _ | .quote (.atom _ _) => true
  | .quote (.list _ _) => t != .argl
  | .lambda _ _ => t != .env
  | .letIn _ body => body.delivered t
  | .progn body => body.delivered t
  | .app operator _ => t == .val || operator.isLambda

def Body.delivered (t : Reg) : Body → Bool
  | .last e => e.delivered t
  | .cons _ rest => rest.delivered t

end

/-- The lists of the code are right. -/
def Expr.soundFor (t : Reg) (e : Expr) : Bool :=
  (!e.readsEnv t || e.needsEnv) && (!e.writesVal t || e.listsVal t) && e.delivered t

/-! ## The environment -/

/-- The environment is read first on some path; it passes some path untouched; it is listed as
needed. -/
structure InstrSeq.EnvUse (reads passes needs : Prop) (s : InstrSeq) : Prop where
  reads : (∃ w, Path s.statements w ∧ .env ∈ readFirst w) ↔ reads
  passes : (∃ w, Path s.statements w ∧ .env ∉ readFirst w ∧ .env ∉ overwritten w) ↔ passes
  needs : .env ∈ s.regsNeeded ↔ needs

section

variable {reads reads₁ reads₂ passes passes₁ passes₂ needs needs₁ needs₂ : Prop}
  {n n₁ n₂ m m₁ m₂ : Reg → Prop} {s s₁ s₂ : InstrSeq} {regs : List Reg}

theorem InstrSeq.EnvUse.congr (h : s.EnvUse reads₁ passes₁ needs₁) (hreads : reads₁ ↔ reads)
    (hpasses : passes₁ ↔ passes) (hneeds : needs₁ ↔ needs) : s.EnvUse reads passes needs :=
  ⟨h.reads.trans hreads, h.passes.trans hpasses, h.needs.trans hneeds⟩

/-- `preserving` reads the environment to save it. -/
theorem InstrSeq.EnvUse.preserving (u₁ : s₁.Uses n₁ m₁) (u₂ : s₂.Uses n₂ m₂)
    (h₁ : s₁.EnvUse reads₁ passes₁ needs₁) (h₂ : s₂.EnvUse reads₂ passes₂ needs₂)
    (regs : List Reg) : (preserving regs s₁ s₂).EnvUse
      (.env ∈ regs ∧ needs₂ ∧ .env ∈ s₁.regsModified ∨ reads₁ ∨ passes₁ ∧ reads₂)
      (¬(.env ∈ regs ∧ needs₂ ∧ .env ∈ s₁.regsModified) ∧ passes₁ ∧ passes₂)
      (needs₁ ∨ needs₂ ∧ (.env ∉ s₁.regsModified ∨ .env ∈ regs)) := by
  obtain ⟨saved, hsaved, hpath⟩ := path_preserving u₁.closed u₂.closed regs
  have hsave : .env ∈ saved ↔ .env ∈ regs ∧ needs₂ ∧ .env ∈ s₁.regsModified := by
    rw [hsaved, h₂.needs]
  rw [← hsave]
  obtain ⟨u₀, hu₀⟩ := u₁.runs
  obtain ⟨v₀, hv₀⟩ := u₂.runs
  refine ⟨?_, ?_, ?_⟩
  · rw [← h₁.reads, ← h₁.passes, ← h₂.reads]
    constructor
    · intro h
      obtain ⟨w, hw, hr⟩ := h
      obtain ⟨u, v, hu, hv, rfl⟩ := (hpath w).mp hw
      rw [mem_readFirst_append, mem_readFirst_wrap, mem_overwritten_wrap] at hr
      by_cases hfirst : .env ∈ readFirst u
      · exact Or.inr (Or.inl ⟨u, hu, hfirst⟩)
      · rcases hr with (h | h) | ⟨hout, hr⟩
        · exact Or.inl h
        · exact absurd h hfirst
        · exact Or.inr (Or.inr ⟨⟨u, hu, hfirst, fun h => hout (Or.inr h)⟩, v, hv, hr⟩)
    · intro h
      rcases h with h | ⟨u, hu, hr⟩ | ⟨⟨u, hu, -, hout⟩, v, hv, hr⟩
      · refine ⟨_, (hpath _).mpr ⟨u₀, v₀, hu₀, hv₀, rfl⟩, ?_⟩
        rw [mem_readFirst_append, mem_readFirst_wrap]
        exact Or.inl (Or.inl h)
      · refine ⟨_, (hpath _).mpr ⟨u, v₀, hu, hv₀, rfl⟩, ?_⟩
        rw [mem_readFirst_append, mem_readFirst_wrap]
        exact Or.inl (Or.inr hr)
      · refine ⟨_, (hpath _).mpr ⟨u, v, hu, hv, rfl⟩, ?_⟩
        rw [mem_readFirst_append, mem_readFirst_wrap, mem_overwritten_wrap]
        by_cases h : .env ∈ saved
        · exact Or.inl (Or.inl h)
        · exact Or.inr ⟨fun hw => hw.elim h hout, hr⟩
  · rw [← h₁.passes, ← h₂.passes]
    constructor
    · intro h
      obtain ⟨w, hw, hr, hout⟩ := h
      obtain ⟨u, v, hu, hv, rfl⟩ := (hpath w).mp hw
      rw [mem_readFirst_append, mem_readFirst_wrap, mem_overwritten_wrap] at hr
      rw [mem_overwritten_append, mem_overwritten_wrap] at hout
      refine ⟨fun h => hout (Or.inl (Or.inl h)), ⟨u, hu, ?_, ?_⟩, v, hv, ?_, ?_⟩ <;> grind
    · intro h
      obtain ⟨hnot, ⟨u, hu, hr₁, hout₁⟩, v, hv, hr₂, hout₂⟩ := h
      refine ⟨_, (hpath _).mpr ⟨u, v, hu, hv, rfl⟩, ?_, ?_⟩
      · rw [mem_readFirst_append, mem_readFirst_wrap]
        grind
      · rw [mem_overwritten_append, mem_overwritten_wrap]
        grind
  · rw [mem_needed_preserving, h₁.needs, h₂.needs]

theorem InstrSeq.EnvUse.ofCode {s' : InstrSeq} (h : s.EnvUse reads passes needs)
    (hstatements : s'.statements = s.statements)
    (hneeds : .env ∈ s'.regsNeeded ↔ .env ∈ s.regsNeeded) : s'.EnvUse reads passes needs := by
  obtain ⟨hreads, hpasses, hn⟩ := h
  rw [← hstatements] at hreads hpasses
  exact ⟨hreads, hpasses, hneeds.trans hn⟩

theorem InstrSeq.EnvUse.appendTwo (u₁ : s₁.Uses n₁ m₁) (u₂ : s₂.Uses n₂ m₂)
    (h₁ : s₁.EnvUse reads₁ passes₁ needs₁) (h₂ : s₂.EnvUse reads₂ passes₂ needs₂) :
    (appendTwoInstrSeqs s₁ s₂).EnvUse (reads₁ ∨ passes₁ ∧ reads₂) (passes₁ ∧ passes₂)
      (needs₁ ∨ needs₂ ∧ .env ∉ s₁.regsModified) := by
  have hcode : (appendTwoInstrSeqs s₁ s₂).statements
      = (Compiler.preserving [] s₁ s₂).statements := by
    simp [Compiler.preserving, appendInstrSeqs, appendTwoInstrSeqs, emptyInstrSeq]
  have hneeds : .env ∈ (appendTwoInstrSeqs s₁ s₂).regsNeeded ↔
      .env ∈ (Compiler.preserving [] s₁ s₂).regsNeeded := by
    rw [mem_needed_appendTwo, mem_needed_preserving]
    simp
  exact ((InstrSeq.EnvUse.preserving u₁ u₂ h₁ h₂ []).ofCode hcode hneeds).congr (by simp) (by simp)
    (by simp)

/-- Code on which the environment is read or passes, and is not needed where it passes. -/
def Regular (reads passes needs : Prop) : Prop :=
  (needs → reads) ∧ (reads ∨ passes) ∧ (passes → ¬needs)

/-- `preserving` that names `env`, of regular code. -/
theorem InstrSeq.EnvUse.both (u₁ : s₁.Uses n₁ m₁) (u₂ : s₂.Uses n₂ m₂)
    (h₁ : s₁.EnvUse reads₁ passes₁ needs₁) (h₂ : s₂.EnvUse reads₂ passes₂ needs₂)
    (hr₁ : Regular reads₁ passes₁ needs₁) (hr₂ : Regular reads₂ passes₂ needs₂)
    (hregs : .env ∈ regs) : (Compiler.preserving regs s₁ s₂).EnvUse (reads₁ ∨ reads₂)
      (passes₁ ∧ passes₂) (needs₁ ∨ needs₂) := by
  obtain ⟨-, hor, -⟩ := hr₁
  obtain ⟨hnr, -, hpn⟩ := hr₂
  apply (InstrSeq.EnvUse.preserving u₁ u₂ h₁ h₂ regs).congr
  · grind
  · grind
  · grind

theorem Regular.or (hr₁ : Regular reads₁ passes₁ needs₁) (hr₂ : Regular reads₂ passes₂ needs₂) :
    Regular (reads₁ ∨ reads₂) (passes₁ ∧ passes₂) (needs₁ ∨ needs₂) := by
  obtain ⟨hnr₁, hor₁, hpn₁⟩ := hr₁
  obtain ⟨hnr₂, hor₂, hpn₂⟩ := hr₂
  refine ⟨?_, ?_, ?_⟩ <;> grind

theorem Regular.congr (h : Regular reads₁ passes₁ needs₁) (hreads : reads₁ ↔ reads)
    (hpasses : passes₁ ↔ passes) (hneeds : needs₁ ↔ needs) : Regular reads passes needs := by
  rw [Regular, ← hreads, ← hpasses, ← hneeds]
  exact h

/-- A straight sequence, from its statements. -/
theorem envUse_straight {needed modified : List Reg} {c : List Stmt}
    (h : ∀ stm ∈ c, stm.Straight) : InstrSeq.EnvUse (.env ∈ readFirst c)
      (.env ∉ readFirst c ∧ .env ∉ overwritten c) (.env ∈ needed) ⟨needed, modified, c⟩ := by
  have hpath : ∀ w, Path c w ↔ w = c := fun w => path_straight h
  refine ⟨?_, ?_, Iff.rfl⟩
  · simp [hpath]
  · simp [hpath]

theorem InstrSeq.EnvUse.ofPaths {ps : List (List Stmt)}
    (h : ∀ w, Path s.statements w ↔ w ∈ ps) : s.EnvUse (∃ w ∈ ps, .env ∈ readFirst w)
      (∃ w ∈ ps, .env ∉ readFirst w ∧ .env ∉ overwritten w) (.env ∈ s.regsNeeded) :=
  ⟨by simp [h], by simp [h], Iff.rfl⟩

theorem envUse_empty : emptyInstrSeq.EnvUse False True False :=
  (envUse_straight (by simp)).congr (by simp [readFirst]) (by simp [readFirst, overwritten])
    (by simp)

theorem InstrSeq.EnvUse.endWithNext (u : s.Uses n m) (h : s.EnvUse reads passes needs) :
    (endWithLinkage .next s).EnvUse reads passes needs := by
  rw [endWithLinkage_next]
  exact (h.appendTwo u uses_empty envUse_empty).congr (by simp) (by simp) (by simp)

end

/-! ### Calls -/

theorem envUse_callCode (operator : Expr) {t : Reg} (st : CompilerState) :
    (callCode operator (.next t) st).1.EnvUse False
      (¬(t = .env ∧ operator.isLambda = true)) False := by
  have hneeds : .env ∉ (callCode operator (.next t) st).1.regsNeeded :=
    fun hmem => absurd (needs_callCode_next operator t st _ hmem) (by decide)
  have huse := InstrSeq.EnvUse.ofPaths (paths_callCode operator t st).2
  rw [callPaths] at huse
  by_cases hfund : operator.isFundamental = true
  · have hlambda : operator.isLambda = false := by
      cases operator <;> first | rfl | exact absurd hfund (by simp [Expr.isFundamental])
    rw [if_pos hfund] at huse
    exact huse.congr (by simp [readFirst, Stmt.reads, listDiff])
      (by simp [readFirst, Stmt.reads, listDiff, overwritten, Stmt.writes, hlambda])
      (iff_false_intro hneeds)
  · rw [if_neg hfund] at huse
    apply huse.congr _ _ (iff_false_intro hneeds)
    · split <;> split <;> simp [readFirst, Stmt.reads, Stmt.writes, listDiff]
    · split
      · next hlambda =>
        split
        · next htarget =>
          simp [readFirst, Stmt.reads, Stmt.writes, listDiff, overwritten, htarget]
        · simp [readFirst, Stmt.reads, Stmt.writes, listDiff, overwritten, hlambda, eq_comm]
      · next hlambda =>
        split <;>
          simp [readFirst, Stmt.reads, Stmt.writes, listDiff, overwritten, hlambda]

/-! ### Operands -/

/-- The code of an operand and what it does with the environment. -/
structure EnvOperand where
  code : InstrSeq
  reads : Bool
  passes : Bool
  needs : Bool

structure EnvOperand.Ok (x : EnvOperand) : Prop where
  uses : x.code.Uses (fun r => r = .env) (fun r => r = .val)
  envUse : x.code.EnvUse (x.reads = true) (x.passes = true) (x.needs = true)
  regular : Regular (x.reads = true) (x.passes = true) (x.needs = true)

section

variable {x : EnvOperand}

theorem envUse_addFstArgument (h : x.Ok) : (addFstArgument x.code).EnvUse (x.reads = true)
    (x.passes = true) (x.needs = true) := by
  have hstraight : ∀ stm ∈ ([.movimm .argl (.datum Sexp.nil), .cons .argl .val] : List Stmt),
      stm.Straight := by
    intro stm hstm
    rcases List.mem_pair.mp hstm with rfl | rfl <;> exact .of_isPlain rfl (by simp)
  have hcons : InstrSeq.EnvUse False True False
      ⟨[.val], [.argl], [.movimm .argl (.datum Sexp.nil), .cons .argl .val]⟩ :=
    (envUse_straight hstraight).congr (by simp [readFirst, Stmt.reads, Stmt.writes, listDiff])
      (by simp [readFirst, Stmt.reads, Stmt.writes, listDiff, overwritten]) (by simp)
  exact (h.envUse.appendTwo h.uses uses_consFirst hcons).congr (by simp) (by simp) (by simp)

theorem envUse_codeForNextArg (h : x.Ok) : (codeForNextArg x.code).EnvUse (x.reads = true)
    (x.passes = true) (x.needs = true) := by
  have hstraight : (Stmt.cons .argl .val).Straight := .of_isPlain rfl (by simp)
  have hcons : InstrSeq.EnvUse False True False ⟨[.val, .argl], [.argl], [.cons .argl .val]⟩ :=
    (envUse_straight (by simpa using hstraight)).congr (by simp [readFirst, Stmt.reads, listDiff])
      (by simp [readFirst, Stmt.reads, listDiff, overwritten, Stmt.writes]) (by simp)
  apply (h.envUse.preserving h.uses (uses_cons .argl .val _) hcons _).congr
  · simp
  · simp
  · simp

theorem envUse_getRestArgs (rest : List EnvOperand) : ∀ x : EnvOperand, (∀ y ∈ x :: rest, y.Ok) →
    (getRestArgs x.code (rest.map EnvOperand.code)).EnvUse
      ((x :: rest).any EnvOperand.reads = true) ((x :: rest).all EnvOperand.passes = true)
      ((x :: rest).any EnvOperand.needs = true) ∧
    Regular ((x :: rest).any EnvOperand.reads = true) ((x :: rest).all EnvOperand.passes = true)
      ((x :: rest).any EnvOperand.needs = true) := by
  induction rest with
  | nil =>
    intro x h
    have hx := h x List.mem_cons_self
    simp only [List.any_cons, List.any_nil, Bool.or_false, List.all_cons, List.all_nil,
      Bool.and_true]
    exact ⟨envUse_codeForNextArg hx, hx.regular⟩
  | cons y rest ih =>
    intro x h
    have hx := h x List.mem_cons_self
    have hy : ∀ z ∈ y :: rest, z.Ok := fun z hz => h z (List.mem_cons_of_mem _ hz)
    obtain ⟨huse, hregular⟩ := ih y hy
    have hrest := uses_getRestArgs (rest.map EnvOperand.code) y.code (by
      intro s hs
      rcases List.mem_cons.mp hs with rfl | hmem
      · exact (hy y List.mem_cons_self).uses
      · obtain ⟨z, hz, rfl⟩ := List.mem_map.mp hmem
        exact (hy z (List.mem_cons_of_mem _ hz)).uses)
    have hall := (envUse_codeForNextArg hx).both (uses_codeForNextArg hx.uses) hrest huse
      hx.regular hregular (show .env ∈ [Reg.env] by simp)
    exact ⟨hall.congr (by simp) (by simp) (by simp),
      (hx.regular.or hregular).congr (by simp) (by simp) (by simp)⟩

theorem envUse_constructArglist {operands : List EnvOperand} (h : ∀ x ∈ operands, x.Ok) :
    (constructArglist (operands.map EnvOperand.code)).EnvUse
      (operands.any EnvOperand.reads = true) (operands.all EnvOperand.passes = true)
      (operands.any EnvOperand.needs = true) := by
  have hrev : ∀ x ∈ operands.reverse, x.Ok := fun x hx => h x (List.mem_reverse.mp hx)
  rw [constructArglist, ← List.map_reverse, ← List.any_reverse, ← List.all_reverse,
    ← List.any_reverse (f := EnvOperand.needs)]
  cases hcases : operands.reverse with
  | nil =>
    have hstraight : (Stmt.movimm .argl (.datum Sexp.nil)).Straight := .of_isPlain rfl (by simp)
    exact (envUse_straight (by simpa using hstraight)).congr
      (by simp [readFirst, Stmt.reads, listDiff])
      (by simp [readFirst, Stmt.reads, listDiff, overwritten, Stmt.writes]) (by simp)
  | cons x rest =>
    rw [hcases] at hrev
    have hx := hrev x List.mem_cons_self
    have hfst := envUse_addFstArgument hx
    cases rest with
    | nil => exact hfst.congr (by simp) (by simp) (by simp)
    | cons y rest =>
      have hy : ∀ z ∈ y :: rest, z.Ok := fun z hz => hrev z (List.mem_cons_of_mem _ hz)
      obtain ⟨huse, hregular⟩ := envUse_getRestArgs rest y hy
      have hrest := uses_getRestArgs (rest.map EnvOperand.code) y.code (by
        intro s hs
        rcases List.mem_cons.mp hs with rfl | hmem
        · exact (hy y List.mem_cons_self).uses
        · obtain ⟨z, hz, rfl⟩ := List.mem_map.mp hmem
          exact (hy z (List.mem_cons_of_mem _ hz)).uses)
      have hall := hfst.both (uses_addFstArgument hx.uses) hrest huse hx.regular hregular
        (show .env ∈ [Reg.env] by simp)
      exact hall.congr (by simp) (by simp) (by simp)

end

/-! ### Every form -/

mutual

theorem Expr.not_needsEnv (t : Reg) : ∀ e : Expr, e.passesEnv t = true → e.needsEnv = false
  | .const _ _, _ => by rw [Expr.needsEnv]
  | .quote _, _ => by rw [Expr.needsEnv]
  | .sym _ _, h => by simp [Expr.passesEnv] at h
  | .lambda _ _, h => by simp [Expr.passesEnv] at h
  | .define _ e, h => by
    rw [Expr.passesEnv, Bool.and_eq_true] at h
    rw [Expr.needsEnv]
    exact e.not_needsEnv .val h.1
  | .letIn .nil body, h => by
    rw [Expr.passesEnv] at h
    rw [Expr.needsEnv]
    exact body.not_needsEnv t h
  | .letIn (.cons _ _ _) _, h => by simp [Expr.passesEnv] at h
  | .progn body, h => by
    rw [Expr.passesEnv] at h
    rw [Expr.needsEnv]
    exact body.not_needsEnv t h
  | .app operator operands, h => by
    rw [Expr.passesEnv, Bool.and_eq_true, Bool.or_eq_true] at h
    rw [Expr.needsEnv, operands.not_needsEnv h.2]
    rcases h.1 with hfund | hop
    · simp [hfund]
    · simp [operator.not_needsEnv .proc hop]

theorem Exprs.not_needsEnv : ∀ es : Exprs, es.passesEnv = true → es.needsEnv = false
  | .nil, _ => by rw [Exprs.needsEnv]
  | .cons e es, h => by
    rw [Exprs.passesEnv, Bool.and_eq_true] at h
    rw [Exprs.needsEnv, e.not_needsEnv .val h.1, es.not_needsEnv h.2]
    rfl

theorem Body.not_needsEnv (t : Reg) : ∀ b : Body, b.passesEnv t = true → b.needsEnv = false
  | .last e, h => by
    rw [Body.passesEnv] at h
    rw [Body.needsEnv]
    exact e.not_needsEnv t h
  | .cons e rest, h => by
    rw [Body.passesEnv, Bool.and_eq_true] at h
    rw [Body.needsEnv, e.not_needsEnv t h.1, rest.not_needsEnv t h.2]
    rfl

end

/-- A need is a read, and what is not read passes. -/
def ReadOrPass (reads passes needs : Bool) : Prop :=
  (needs = true → reads = true) ∧ (reads = true ∨ passes = true)

mutual

theorem Expr.readOrPass (t : Reg) (ht : t ≠ .env) : ∀ e : Expr,
    ReadOrPass (e.readsEnv t) (e.passesEnv t) e.needsEnv
  | .const _ _ => by simp [ReadOrPass, Expr.readsEnv, Expr.passesEnv, Expr.needsEnv, ht]
  | .quote _ => by simp [ReadOrPass, Expr.readsEnv, Expr.passesEnv, Expr.needsEnv, ht]
  | .sym _ _ => by simp [ReadOrPass, Expr.readsEnv]
  | .lambda _ _ => by simp [ReadOrPass, Expr.readsEnv, ht]
  | .define _ e => by
    have he := e.readOrPass .val (by decide)
    simpa [ReadOrPass, Expr.readsEnv, Expr.passesEnv, Expr.needsEnv, ht] using he
  | .letIn .nil body => by
    have hbody := body.readOrPass t ht
    simpa [ReadOrPass, Expr.readsEnv, Expr.passesEnv, Expr.needsEnv] using hbody
  | .letIn (.cons _ _ _) _ => by simp [ReadOrPass, Expr.readsEnv]
  | .progn body => by
    have hbody := body.readOrPass t ht
    simpa [ReadOrPass, Expr.readsEnv, Expr.passesEnv, Expr.needsEnv] using hbody
  | .app operator operands => by
    have hop := operator.readOrPass .proc (by decide)
    have hargs := operands.readOrPass
    simp only [ReadOrPass, Expr.readsEnv, Expr.passesEnv, Expr.needsEnv, Bool.or_eq_true,
      Bool.and_eq_true] at hop hargs ⊢
    cases operator.isFundamental <;> simp <;> grind

theorem Exprs.readOrPass : ∀ es : Exprs, ReadOrPass es.readsEnv es.passesEnv es.needsEnv
  | .nil => by simp [ReadOrPass, Exprs.readsEnv, Exprs.passesEnv, Exprs.needsEnv]
  | .cons e es => by
    have he := e.readOrPass .val (by decide)
    have hes := es.readOrPass
    simp only [ReadOrPass, Exprs.readsEnv, Exprs.passesEnv, Exprs.needsEnv, Bool.or_eq_true,
      Bool.and_eq_true] at he hes ⊢
    grind

theorem Body.readOrPass (t : Reg) (ht : t ≠ .env) : ∀ b : Body,
    ReadOrPass (b.readsEnv t) (b.passesEnv t) b.needsEnv
  | .last e => by
    have he := e.readOrPass t ht
    simpa [ReadOrPass, Body.readsEnv, Body.passesEnv, Body.needsEnv] using he
  | .cons e rest => by
    have he := e.readOrPass t ht
    have hrest := rest.readOrPass t ht
    simp only [ReadOrPass, Body.readsEnv, Body.passesEnv, Body.needsEnv, Bool.or_eq_true,
      Bool.and_eq_true] at he hrest ⊢
    grind

end

theorem Expr.regular {t : Reg} (ht : t ≠ .env) (e : Expr) : Regular (e.readsEnv t = true)
    (e.passesEnv t = true) (e.needsEnv = true) :=
  ⟨(e.readOrPass t ht).1, (e.readOrPass t ht).2, fun h => by simp [e.not_needsEnv t h]⟩

theorem Exprs.regular (es : Exprs) : Regular (es.readsEnv = true) (es.passesEnv = true)
    (es.needsEnv = true) :=
  ⟨es.readOrPass.1, es.readOrPass.2, fun h => by simp [es.not_needsEnv h]⟩

theorem registers_appendInstrSeqs {P : Reg → Prop} {seqs : List InstrSeq}
    (h : ∀ s ∈ seqs, ∀ r, r ∈ overwritten s.statements ∨ r ∈ s.regsModified → P r) :
    ∀ r, r ∈ overwritten (appendInstrSeqs seqs).statements ∨
      r ∈ (appendInstrSeqs seqs).regsModified → P r := by
  induction seqs with
  | nil => simp [appendInstrSeqs, emptyInstrSeq, overwritten]
  | cons s seqs ih =>
    have hseqs := ih fun x hx => h x (List.mem_cons_of_mem _ hx)
    have hs := h s List.mem_cons_self
    intro r hr
    rw [appendInstrSeqs, mem_modified_appendTwo] at hr
    rcases hr with hr | hr | hr
    · rcases mem_overwritten_append.mp hr with hr | hr
      · exact hs r (Or.inl hr)
      · exact hseqs r (Or.inl hr)
    · exact hs r (Or.inr hr)
    · exact hseqs r (Or.inr hr)

mutual

/-- The code of a quotation writes its target and `argl`. -/
theorem Data.registers_compileNest (t : Reg) : ∀ (q : Data) (r : Reg),
    r ∈ overwritten (q.compileNest t).statements ∨ r ∈ (q.compileNest t).regsModified →
      r = t ∨ r = .argl
  | .atom q _, r, hr => by
    rw [Data.compileNest] at hr
    simp [appendTwoInstrSeqs, compileDataPrim, overwritten, Stmt.writes] at hr
    grind
  | .list first rest, r, hr => by
    have hparts : ∀ s ∈ (first.compileNest t :: Data.compileNests t rest).reverse,
        ∀ r, r ∈ overwritten s.statements ∨ r ∈ s.regsModified → r = t ∨ r = .argl := by
      intro s hs r hr
      rcases List.mem_cons.mp (List.mem_reverse.mp hs) with rfl | hmem
      · exact first.registers_compileNest t r hr
      · exact Data.registers_compileNests t rest s hmem r hr
    have hparts := registers_appendInstrSeqs hparts
    rw [Data.compileNest] at hr
    have hr' := hparts r
    simp only [appendTwoInstrSeqs, overwritten, List.flatMap_append, List.flatMap_cons,
      List.flatMap_nil, Stmt.writes, List.mem_append, List.mem_cons, List.not_mem_nil,
      mem_listUnion] at hr hr'
    grind

theorem Data.registers_compileNests (t : Reg) : ∀ (qs : List Data),
    ∀ s ∈ Data.compileNests t qs, ∀ r, r ∈ overwritten s.statements ∨ r ∈ s.regsModified →
      r = t ∨ r = .argl
  | [], s, hs, r, hr => by
    rw [Data.compileNests] at hs
    exact absurd hs (by simp)
  | q :: qs, s, hs, r, hr => by
    rw [Data.compileNests] at hs
    rcases List.mem_cons.mp hs with rfl | hmem
    · exact q.registers_compileNest t r hr
    · exact Data.registers_compileNests t qs s hmem r hr

end

theorem Data.registers_compile (t : Reg) (q : Data) (r : Reg)
    (hr : r ∈ overwritten (q.compile t).statements ∨ r ∈ (q.compile t).regsModified) :
    r = t ∨ r = .argl := by
  cases q with
  | atom q hq =>
    simp [Data.compile, compileDataPrim, overwritten, Stmt.writes] at hr
    exact Or.inl hr
  | list first rest =>
    have hparts : ∀ s ∈ (Data.compileNests t (first :: rest)).reverse,
        ∀ r, r ∈ overwritten s.statements ∨ r ∈ s.regsModified → r = t ∨ r = .argl :=
      fun s hs r hr => Data.registers_compileNests t (first :: rest) s (List.mem_reverse.mp hs) r hr
    have hparts := registers_appendInstrSeqs hparts
    rw [Data.compile] at hr
    have hr' := hparts r
    simp only [appendTwoInstrSeqs, overwritten, List.flatMap_append, List.flatMap_cons,
      List.flatMap_nil, Stmt.writes, List.mem_append, List.mem_cons, List.not_mem_nil,
      mem_listUnion] at hr hr'
    grind

theorem Data.envUse (t : Reg) (q : Data) :
    (q.compile t).EnvUse False (t ≠ .env) False := by
  have huses := q.uses t
  have hpath : ∀ w, Path (q.compile t).statements w ↔ w = (q.compile t).statements :=
    fun w => path_straight (q.straight t)
  have hreads : .env ∉ readFirst (q.compile t).statements :=
    huses.reads _ ((hpath _).mpr rfl) .env
  refine ⟨by simp [hpath, hreads], ?_, ?_⟩
  · simp only [hpath, exists_eq_left, hreads, not_false_eq_true, true_and]
    constructor
    · intro hout heq
      exact hout (huses.writes _ ((hpath _).mpr rfl) .env heq.symm)
    · intro hne hmem
      rcases q.registers_compile t .env (Or.inl hmem) with h | h
      · exact hne h.symm
      · exact absurd h (by decide)
  · rw [iff_false]
    intro hmem
    cases q with
    | atom q hq => simp [Data.compile, compileDataPrim] at hmem
    | list first rest =>
      rw [Data.compile] at hmem
      simp only [mem_needed_appendTwo, List.not_mem_nil, false_or, List.mem_singleton] at hmem
      obtain ⟨s, hs, hr⟩ := mem_needed_appendInstrSeqs hmem.1
      exact hmem.2 (Data.needs_compileNests (first :: rest) s (List.mem_reverse.mp hs) hr)

theorem envUse_movimm (t : Reg) (x : Imm) (hx : ∀ l, x ≠ .label l) :
    InstrSeq.EnvUse False (t ≠ .env) False ⟨[], [t], [.movimm t x]⟩ := by
  have hstraight : (Stmt.movimm t x).Straight := by
    apply Stmt.Straight.of_isPlain _ (by simp)
    cases x with
    | label l => exact absurd rfl (hx l)
    | _ => rfl
  exact (envUse_straight (by simpa using hstraight)).congr
    (by simp [readFirst, Stmt.reads, listDiff])
    (by simp [readFirst, Stmt.reads, listDiff, overwritten, Stmt.writes, eq_comm]) (by simp)

theorem envUse_lookup (t : Reg) (i : Nat) :
    InstrSeq.EnvUse True False True ⟨[.env], [t], [.lookup t i]⟩ := by
  have hstraight : (Stmt.lookup t i).Straight := .of_isPlain rfl (by simp)
  exact (envUse_straight (by simpa using hstraight)).congr (by simp [readFirst, Stmt.reads])
    (by simp [readFirst, Stmt.reads]) (by simp)

theorem envUse_setglbval (t : Reg) (i : Nat) : InstrSeq.EnvUse False (t ≠ .env) False
    ⟨[.val], [t], [.setglbval i, .movimm t (.indirection i)]⟩ := by
  have hstraight : ∀ stm ∈ ([.setglbval i, .movimm t (.indirection i)] : List Stmt),
      stm.Straight := by
    intro stm hstm
    rcases List.mem_pair.mp hstm with rfl | rfl <;> exact .of_isPlain rfl (by simp)
  exact (envUse_straight hstraight).congr (by simp [readFirst, Stmt.reads, Stmt.writes, listDiff])
    (by simp [readFirst, Stmt.reads, listDiff, overwritten, Stmt.writes, eq_comm]) (by simp)

theorem envUse_exenvval (i : Nat) :
    InstrSeq.EnvUse True False False ⟨[.val], [.env], [.exenvval i]⟩ := by
  have hstraight : (Stmt.exenvval i).Straight := .of_isPlain rfl (by simp)
  exact (envUse_straight (by simpa using hstraight)).congr (by simp [readFirst, Stmt.reads])
    (by simp [readFirst, Stmt.reads]) (by simp)

theorem envUse_lambda (formals : List Sexp) (body : Expr) (t : Reg) (st : CompilerState) :
    ((Expr.lambda formals body).compile (.next t) st).1.EnvUse (t ≠ .env) False True := by
  have hneeds : .env ∈ ((Expr.lambda formals body).compile (.next t) st).1.regsNeeded := by
    rw [Expr.compile]
    refine mem_needed_appendTwo.mpr (Or.inl ?_)
    show .env ∈ (endWithLinkage _ _).regsNeeded
    exact mem_needed_preserving.mpr (Or.inl (by simp))
  apply (InstrSeq.EnvUse.ofPaths (paths_lambdaCode formals body t st).2).congr _ _
    (iff_true_intro hneeds)
  · rw [makeLambda_next]
    simp [readFirst, Stmt.reads, Stmt.writes, listDiff, eq_comm]
  · rw [makeLambda_next]
    simp [readFirst, Stmt.reads, Stmt.writes, listDiff, overwritten, eq_comm]

/-- An operator is in `proc`, a fundamental one is loaded there. -/
theorem envUse_operatorCode (operator : Expr) {code : InstrSeq × CompilerState}
    (st : CompilerState) {reads passes needs : Prop} (h : code.1.EnvUse reads passes needs) :
    (operatorCode operator code st).1.EnvUse (operator.isFundamental = false ∧ reads)
      (operator.isFundamental = true ∨ passes) (operator.isFundamental = false ∧ needs) := by
  rw [operatorCode]
  split
  · next hfund =>
    exact (envUse_movimm .proc _ (by simp)).congr (by simp [hfund]) (by simp [hfund])
      (by simp [hfund])
  · next hfund =>
    exact h.congr (by simp [hfund]) (by simp [hfund]) (by simp [hfund])

mutual

theorem Expr.envUse : ∀ (e : Expr) (t : Reg) (st : CompilerState), t ∈ allRegs →
    (e.compile (.next t) st).1.EnvUse (e.readsEnv t = true) (e.passesEnv t = true)
      (e.needsEnv = true)
  | .const e _, t, st, _ => by
    rw [Expr.compile, Expr.readsEnv, Expr.passesEnv, Expr.needsEnv]
    exact ((envUse_movimm t (.datum e) (by simp)).endWithNext
      (uses_movimm t (.datum e) [] (by simp))).congr (by simp) (by simp) (by simp)
  | .sym s _, t, st, _ => by
    rw [Expr.compile, Expr.readsEnv, Expr.passesEnv, Expr.needsEnv]
    exact ((envUse_lookup t _).endWithNext (uses_lookup t _)).congr (by simp) (by simp) (by simp)
  | .quote q, t, st, _ => by
    rw [Expr.compile, Expr.readsEnv, Expr.passesEnv, Expr.needsEnv]
    exact ((q.envUse t).endWithNext (q.uses t)).congr (by simp) (by simp) (by simp)
  | .define var e, t, st, _ => by
    have he := e.envUse .val (newIndirection var st).2 (by decide)
    have hu := e.uses .val (newIndirection var st).2 (by decide)
    rw [Expr.compile, Expr.readsEnv, Expr.passesEnv, Expr.needsEnv]
    exact ((he.appendTwo hu (uses_setglbval t _) (envUse_setglbval t _)).endWithNext
      (hu.appendTwo (uses_setglbval t _))).congr (by simp) (by simp) (by simp)
  | .lambda formals body, t, st, _ => by
    rw [Expr.readsEnv, Expr.passesEnv, Expr.needsEnv]
    exact (envUse_lambda formals body t st).congr (by simp) (by simp) (by simp)
  | .letIn .nil body, t, st, ht => by
    have he := body.envUse t st ht
    have hu := body.uses t st ht
    rw [Expr.compile, Bindings.compile, Expr.readsEnv, Expr.passesEnv, Expr.needsEnv]
    exact (envUse_empty.appendTwo uses_empty hu he).congr (by simp) (by simp)
      (by simp [emptyInstrSeq])
  | .letIn (.cons key e bs) body, t, st, ht => by
    have he := e.envUse .val st (by decide)
    have hue := e.uses .val st (by decide)
    have hbs := bs.uses (newIndirection key (e.compile (.next .val) st).2).2
    have hbody := body.uses t (bs.compile (newIndirection key (e.compile (.next .val) st).2).2).2 ht
    have hregular := e.regular (t := .val) (by decide)
    have hfst := he.appendTwo hue (uses_exenvval (newIndirection key
      (e.compile (.next .val) st).2).1) (envUse_exenvval _)
    have hall := (hfst.appendTwo (hue.appendTwo (uses_exenvval _)) hbs
      ⟨Iff.rfl, Iff.rfl, Iff.rfl⟩).appendTwo ((hue.appendTwo (uses_exenvval _)).appendTwo hbs) hbody
        ⟨Iff.rfl, Iff.rfl, Iff.rfl⟩
    rw [Expr.compile, Bindings.compile, Expr.readsEnv, Expr.passesEnv, Expr.needsEnv]
    apply hall.congr
    · have hor := hregular.2.1
      grind
    · simp
    · simp
  | .progn body, t, st, ht => by
    rw [Expr.compile, Expr.readsEnv, Expr.passesEnv, Expr.needsEnv]
    exact body.envUse t st ht
  | .app operator operands, t, st, ht => by
    have huop := operator.uses .proc st (by decide)
    have huproc := uses_operatorCode operator st (huop.mono (fun r hr => hr)
      fun r hr => ⟨hr, Or.inr hr⟩)
    have hproc := envUse_operatorCode operator st (operator.envUse .proc st (by decide))
    obtain ⟨args, hcodes, hok, hreads, hpasses, hneeds⟩ := operands.envOperands
      (operatorCode operator (operator.compile (.next .proc) st) st).2
    have hargs := envUse_constructArglist hok
    rw [← hcodes, hreads, hpasses, hneeds] at hargs
    have huargs := uses_constructArglist (operands.uses
      (operatorCode operator (operator.compile (.next .proc) st) st).2)
    have hrop := operator.regular (t := .proc) (by decide)
    have hrargs := operands.regular
    have hucall := uses_callCode operator ht (operands.compile
      (operatorCode operator (operator.compile (.next .proc) st) st).2).2
    have hcall := envUse_callCode operator (t := t) (operands.compile
      (operatorCode operator (operator.compile (.next .proc) st) st).2).2
    have hlambda : operator.isLambda = true →
        operator.isFundamental = false ∧ operator.passesEnv .proc = false := by
      intro h
      cases operator <;> simp [Expr.isLambda, Expr.isFundamental, Expr.passesEnv] at h ⊢
    rw [Expr.compile, Expr.readsEnv, Expr.passesEnv, Expr.needsEnv]
    apply ((hproc.preserving huproc (huargs.preserving hucall _)
      (hargs.preserving huargs hucall hcall _)) _).congr
    · obtain ⟨-, hor, -⟩ := hrop
      obtain ⟨hnr, -, -⟩ := hrargs
      simp only [List.mem_cons, List.not_mem_nil, or_false, Bool.or_eq_true, Bool.and_eq_true,
        Bool.not_eq_true', reduceCtorEq, false_and, and_false, false_or, true_and]
      cases operator.isFundamental <;> simp <;> grind
    · obtain ⟨-, -, hpn⟩ := hrargs
      simp only [List.mem_cons, List.not_mem_nil, or_false, Bool.or_eq_true, Bool.and_eq_true,
        reduceCtorEq, false_and, not_false_eq_true, true_and]
      cases hcase : operator.isLambda with
      | true =>
        obtain ⟨hfund, hpasses⟩ := hlambda hcase
        simp [hfund, hpasses]
      | false =>
        simp
        grind
    · simp

theorem Exprs.envOperands : ∀ (es : Exprs) (st : CompilerState), ∃ operands : List EnvOperand,
    (es.compile st).1 = operands.map EnvOperand.code ∧ (∀ x ∈ operands, x.Ok) ∧
      operands.any EnvOperand.reads = es.readsEnv ∧ operands.all EnvOperand.passes = es.passesEnv ∧
      operands.any EnvOperand.needs = es.needsEnv
  | .nil, st => by
    rw [Exprs.compile]
    exact ⟨[], rfl, by simp, rfl, rfl, rfl⟩
  | .cons e es, st => by
    have he := e.envUse .val st (by decide)
    have hu := e.uses .val st (by decide)
    obtain ⟨operands, hcodes, hok, hreads, hpasses, hneeds⟩ :=
      es.envOperands (e.compile (.next .val) st).2
    rw [Exprs.compile, Exprs.readsEnv, Exprs.passesEnv, Exprs.needsEnv]
    refine ⟨⟨(e.compile (.next .val) st).1, e.readsEnv .val, e.passesEnv .val, e.needsEnv⟩
      :: operands, ?_, ?_, ?_, ?_, ?_⟩
    · simp [hcodes]
    · intro x hx
      rcases List.mem_cons.mp hx with rfl | hmem
      · exact ⟨hu.mono (fun r hr => hr) fun r hr => ⟨hr, Or.inl hr⟩, he, e.regular (by decide)⟩
      · exact hok x hmem
    · simp [hreads]
    · simp [hpasses]
    · simp [hneeds]

theorem Body.envUse : ∀ (b : Body) (t : Reg) (st : CompilerState), t ∈ allRegs →
    (b.compile (.next t) st).1.EnvUse (b.readsEnv t = true) (b.passesEnv t = true)
      (b.needsEnv = true)
  | .last e, t, st, ht => by
    rw [Body.compile, Body.readsEnv, Body.passesEnv, Body.needsEnv]
    exact e.envUse t st ht
  | .cons e rest, t, st, ht => by
    have he := e.envUse t st ht
    have hue := e.uses t st ht
    have hrest := rest.envUse t (e.compile (.next t) st).2 ht
    have hur := rest.uses t (e.compile (.next t) st).2 ht
    have htarget := (e.delivers t st ht).target
    have hor := fun hne => (e.readOrPass t hne).2
    have hnr := fun hne => (rest.readOrPass t hne).1
    have hpn := rest.not_needsEnv t
    rw [Body.compile, Body.readsEnv, Body.passesEnv, Body.needsEnv]
    simp only [Bool.or_eq_true, Bool.and_eq_true]
    apply (he.preserving hue hur hrest _).congr
    · by_cases hne : t = .env
      · subst hne
        simp [htarget]
        grind
      · have hor := hor hne
        have hnr := hnr hne
        simp
        grind
    · have hpn' : rest.passesEnv t = true → ¬rest.needsEnv = true := by
        intro h
        simp [hpn h]
      grind
    · simp

end

end Compiler

end LispBM
