import LispBM.Compiler.Registers
import LispBM.Compiler.Structure

/-!
# LispBM — where compiled code keeps the return address

Code with linkage `return` goes back to the address in `cont`. A call in another position writes
`cont`, and it is saved only by those `preserving` that name it: around the operator and the
operands of an application, and around a sequence that ends with `jmpcnt`. The elements of a
`progn`, the bindings of a `let` and, where the jump is annotated with the name `continue`, the
operands of a call of a lambda form run unprotected.
-/

namespace LispBM

namespace Compiler

open Tokpar (Sexp)

/-! ## What it means to keep `cont` -/

/-- From `s` on, `cont` is overwritten only between a `push` and a `pop` of it. In a lambda body the
`push` is in the body. -/
def Guarded : Saves → List Stmt → Prop
  | _, [] => True
  | s, stm :: c =>
      (.cont ∈ stm.writes → .cont ∈ s.saved) ∧ ∃ s', s.step stm = some s' ∧ Guarded s' c

instance decidableGuarded : ∀ (s : Saves) (c : List Stmt), Decidable (Guarded s c)
  | _, [] => .isTrue trivial
  | s, stm :: c =>
      match hstep : s.step stm with
      | none => .isFalse fun h => by
          obtain ⟨-, s', hs', -⟩ := h
          exact absurd (hstep.symm.trans hs') (by simp)
      | some s' =>
          have := decidableGuarded s' c
          decidable_of_iff ((.cont ∈ stm.writes → .cont ∈ s.saved) ∧ Guarded s' c) <| by
            rw [Guarded, hstep]
            simp

/-- The sequence keeps `cont`: it overwrites it only where it is saved, each `push` has its `pop`,
and `jmpcnt` finds nothing saved. -/
structure KeepsCont (s : Saves) (c : List Stmt) : Prop where
  guarded : Guarded s c
  restored : ∃ ps, scan s c = some (ps, s) ∧ Matched ps

/-- What is saved around a sequence. One with linkage `next` may overwrite `cont`, it is left to the
code around it to save it; its lambda bodies may not. -/
def Dest.around : Dest → Saves
  | .next _ => ⟨[.cont], []⟩
  | .ret => .start

/-! ## Which expressions do -/

mutual

/-- There is a call of a procedure outside the lambda bodies. -/
def Expr.calls : Expr → Bool
  | .const _ _ | .sym _ _ | .quote _ | .lambda _ _ => false
  | .define _ e => e.calls
  | .letIn bindings body => bindings.calls || body.calls
  | .progn body => body.calls
  | .app operator operands => !operator.isFundamental || operands.calls

def Exprs.calls : Exprs → Bool
  | .nil => false
  | .cons e es => e.calls || es.calls

def Bindings.calls : Bindings → Bool
  | .nil => false
  | .cons _ e bs => e.calls || bs.calls

def Body.calls : Body → Bool
  | .last e => e.calls
  | .cons e rest => e.calls || rest.calls

end

mutual

/-- In tail position nothing is called before the last element of a `progn`, in a binding of a
`let`, or in an operand of a call of a lambda form. Lambda bodies are in tail position. -/
def Expr.keepsReturn (tail : Bool) : Expr → Bool
  | .const _ _ | .sym _ _ | .quote _ => true
  | .define _ e => e.keepsReturn false
  | .lambda _ body => body.keepsReturn true
  | .letIn bindings body =>
      bindings.keepsReturn && !(tail && bindings.calls) && body.keepsReturn tail
  | .progn body => body.keepsReturn tail
  | .app operator operands =>
      operator.keepsReturn false && operands.keepsReturn
        && !(tail && operator.isLambda && operands.calls)

def Exprs.keepsReturn : Exprs → Bool
  | .nil => true
  | .cons e es => e.keepsReturn false && es.keepsReturn

def Bindings.keepsReturn : Bindings → Bool
  | .nil => true
  | .cons _ e bs => e.keepsReturn false && bs.keepsReturn

def Body.keepsReturn (tail : Bool) : Body → Bool
  | .last e => e.keepsReturn tail
  | .cons e rest => e.keepsReturn false && !(tail && e.calls) && rest.keepsReturn tail

end

/-! ## Code that exposes `cont` -/

section

variable {tail : Prop} {s s₁ : Saves} {a b c : List Stmt} {p p₁ p₂ q q₁ q₂ : Prop}

theorem guarded_append {ps : List (Stmt × Saves)} (ha : scan s a = some (ps, s₁)) :
    Guarded s (a ++ b) ↔ Guarded s a ∧ Guarded s₁ b := by
  induction a generalizing s ps with
  | nil =>
    obtain ⟨-, rfl⟩ := Prod.mk.inj (Option.some.inj ha)
    exact ⟨fun h => ⟨trivial, h⟩, fun h => h.2⟩
  | cons stm a ih =>
    rw [scan] at ha
    obtain ⟨s', hstep, ha⟩ := Option.bind_eq_some_iff.mp ha
    obtain ⟨⟨ps', final⟩, hscan, ha⟩ := Option.bind_eq_some_iff.mp ha
    obtain ⟨-, rfl⟩ := Prod.mk.inj (Option.some.inj ha)
    have hih := ih hscan
    constructor
    · intro h
      obtain ⟨hw, s'', hs'', hrest⟩ := h
      obtain rfl := Option.some.inj (hstep.symm.trans hs'')
      have hparts := hih.mp hrest
      exact ⟨⟨hw, s', hstep, hparts.1⟩, hparts.2⟩
    · intro h
      obtain ⟨⟨hw, s'', hs'', hrest⟩, hb⟩ := h
      obtain rfl := Option.some.inj (hstep.symm.trans hs'')
      exact ⟨hw, s', hstep, hih.mpr ⟨hrest, hb⟩⟩

/-- The code overwrites an unsaved `cont` if `p`, and its lambda bodies keep theirs if `q`. -/
def Exposes (tail p q : Prop) (c : List Stmt) : Prop :=
  ∀ s : Saves, (tail → s.saved = []) → (Guarded s c ↔ (p → .cont ∈ s.saved) ∧ q)

theorem Exposes.congr (h : Exposes tail p q c) (hp : p ↔ p₁) (hq : q ↔ q₁) :
    Exposes tail p₁ q₁ c := by
  intro s hs
  rw [h s hs, hp, hq]

/-- Statements that save nothing and are no ends of a lambda body. -/
theorem Exposes.still (h : ∀ stm ∈ c, ∀ s : Saves, s.step stm = some s) :
    Exposes tail (∃ stm ∈ c, .cont ∈ stm.writes) True c := by
  intro s _
  simp only [and_true]
  induction c with
  | nil => simp [Guarded]
  | cons stm c ih =>
    have hih := ih fun x hx => h x (List.mem_cons_of_mem _ hx)
    rw [Guarded, h stm List.mem_cons_self s]
    constructor
    · intro hg
      obtain ⟨hw, s', hs', hrest⟩ := hg
      obtain rfl := Option.some.inj hs'
      intro hex
      obtain ⟨x, hx, hxw⟩ := hex
      rcases List.mem_cons.mp hx with rfl | hmem
      · exact hw hxw
      · exact hih.mp hrest ⟨x, hmem, hxw⟩
    · intro hall
      refine ⟨fun hw => hall ⟨stm, List.mem_cons_self, hw⟩, s, rfl, hih.mpr fun hex => ?_⟩
      obtain ⟨x, hx, hxw⟩ := hex
      exact hall ⟨x, List.mem_cons_of_mem _ hx, hxw⟩

/-- A statement that leaves `cont` and the saved registers alone. -/
theorem Exposes.silent (h : ∀ stm ∈ c, (∀ s : Saves, s.step stm = some s) ∧ .cont ∉ stm.writes) :
    Exposes tail False True c := by
  apply (Exposes.still fun stm hstm => (h stm hstm).1).congr _ Iff.rfl
  simp only [iff_false, not_exists, not_and]
  exact fun stm hstm => (h stm hstm).2

theorem Exposes.append (hpiece : Piece False a) (ha : Exposes False p₁ q₁ a)
    (hb : Exposes tail p₂ q₂ b) : Exposes tail (p₁ ∨ p₂) (q₁ ∧ q₂) (a ++ b) := by
  intro s hs
  obtain ⟨ps, hscan, -⟩ := hpiece.balanced s (by simp)
  rw [guarded_append hscan, ha s (by simp), hb s hs]
  grind

/-- In tail position nothing is saved. -/
theorem Exposes.bare (h : Exposes True p q c) : Exposes True False (q ∧ ¬p) c := by
  intro s hs
  rw [h s hs, hs trivial]
  simp only [List.not_mem_nil, imp_false, not_false_eq_true, true_and]
  exact and_comm

theorem Exposes.saving (r : Reg) (hpiece : Piece False c) (h : Exposes False p q c) :
    Exposes False (p ∧ r ≠ .cont) q ([.push r] ++ (c ++ [.pop r])) := by
  intro s _
  obtain ⟨ps, hscan, -⟩ := hpiece.balanced { s with saved := r :: s.saved } (by simp)
  have hpop : Guarded { s with saved := r :: s.saved } [.pop r] := by
    refine ⟨fun hw => ?_, s, by simp [Saves.step], trivial⟩
    exact List.mem_singleton.mp hw ▸ List.mem_cons_self
  have hin := h { s with saved := r :: s.saved } (by simp)
  have hpush : Guarded s ([.push r] ++ (c ++ [.pop r])) ↔
      Guarded { s with saved := r :: s.saved } c := by
    rw [guarded_append (show scan s [.push r] = some ([(.push r, s)], _) from rfl),
      guarded_append hscan]
    constructor
    · exact fun hg => hg.2.1
    · exact fun hg => ⟨⟨by simp [Stmt.writes], _, rfl, trivial⟩, hg, hpop⟩
  rw [hpush, hin, List.mem_cons]
  by_cases hr : r = .cont
  · subst hr
    simp
  · have hr' : .cont ≠ r := fun h => hr h.symm
    simp [hr, hr']

theorem Piece.wrap (regs : List Reg) : ∀ {c : List Stmt}, Piece False c →
    Piece False (wrap regs c) := by
  induction regs with
  | nil => exact fun hc => hc
  | cons r regs ih => exact fun hc => ih (hc.saving r)

theorem Exposes.wrap (regs : List Reg) : ∀ {c : List Stmt} {p : Prop}, Piece False c →
    Exposes False p q c → Exposes False (p ∧ .cont ∉ regs) q (wrap regs c) := by
  induction regs with
  | nil => exact fun _ h => h.congr (by simp) Iff.rfl
  | cons r regs ih =>
    intro c p hc h
    apply (ih (hc.saving r) (h.saving r hc)).congr _ Iff.rfl
    rw [List.mem_cons, not_or, and_assoc, ne_comm]

/-! ## Sequences with linkage `next` -/

/-- A sequence that lists `cont` if it overwrites it. -/
structure InstrSeq.Covers (p q : Prop) (s : InstrSeq) : Prop where
  piece : Piece False s.statements
  exposes : Exposes False p q s.statements
  modified : p → .cont ∈ s.regsModified

variable {seq seq₁ seq₂ : InstrSeq}

theorem InstrSeq.Covers.congr (h : seq.Covers p q) (hp : p ↔ p₁) (hq : q ↔ q₁) :
    seq.Covers p₁ q₁ :=
  ⟨h.piece, h.exposes.congr hp hq, fun hp₁ => h.modified (hp.mpr hp₁)⟩

theorem InstrSeq.Covers.appendTwo (h₁ : seq₁.Covers p₁ q₁) (h₂ : seq₂.Covers p₂ q₂) :
    (appendTwoInstrSeqs seq₁ seq₂).Covers (p₁ ∨ p₂) (q₁ ∧ q₂) := by
  refine ⟨h₁.piece.append h₂.piece, h₁.exposes.append h₁.piece h₂.exposes, fun hp => ?_⟩
  rw [mem_modified_appendTwo]
  exact hp.imp h₁.modified h₂.modified

/-- `preserving` protects `cont` where it is asked to and `s₂` needs it. -/
theorem Exposes.preserving {regs : List Reg} (h₁ : seq₁.Covers p₁ q₁)
    (h₂ : Exposes tail p₂ q₂ seq₂.statements) :
    Exposes tail (p₁ ∧ ¬(.cont ∈ regs ∧ .cont ∈ seq₂.regsNeeded) ∨ p₂) (q₁ ∧ q₂)
      (preserving regs seq₁ seq₂).statements := by
  obtain ⟨saved, hsaved, hstatements⟩ := statements_preserving regs seq₁ seq₂
  rw [hstatements]
  apply (Exposes.append (h₁.piece.wrap saved) (h₁.exposes.wrap saved h₁.piece) h₂).congr _ Iff.rfl
  rw [hsaved]
  have hmod := h₁.modified
  grind

theorem InstrSeq.Covers.preserving {regs : List Reg} (h₁ : seq₁.Covers p₁ q₁)
    (h₂ : seq₂.Covers p₂ q₂) (hcont : ¬(.cont ∈ regs ∧ .cont ∈ seq₂.regsNeeded)) :
    (preserving regs seq₁ seq₂).Covers (p₁ ∨ p₂) (q₁ ∧ q₂) := by
  refine ⟨.preserving h₂.piece regs h₁.piece,
    (Exposes.preserving h₁ h₂.exposes).congr (by grind) Iff.rfl, fun hp => ?_⟩
  rw [mem_modified_preserving]
  exact hp.imp (fun hp => ⟨h₁.modified hp, hcont⟩) h₂.modified

theorem covers_plain {needs mods : List Reg} (h : ∀ stm ∈ c, stm.isPlain = true)
    (hmods : (∃ stm ∈ c, .cont ∈ stm.writes) → .cont ∈ mods) :
    InstrSeq.Covers (∃ stm ∈ c, .cont ∈ stm.writes) True ⟨needs, mods, c⟩ :=
  ⟨Piece.plains h, Exposes.still fun stm hstm s => Saves.step_plain (h stm hstm) s, hmods⟩

theorem covers_empty : emptyInstrSeq.Covers False True :=
  ⟨Piece.nil, Exposes.silent (by simp [emptyInstrSeq]), False.elim⟩

theorem InstrSeq.Covers.endWithNext (h : seq.Covers p q) :
    (endWithLinkage .next seq).Covers p q := by
  rw [endWithLinkage_next]
  exact (h.appendTwo covers_empty).congr (by simp) (by simp)

/-- A sequence that ends with `jmpcnt` saves `cont` around what overwrites it. -/
theorem InstrSeq.Covers.endWithReturn (h : seq.Covers p q) :
    Exposes True False q (endWithLinkage .return' seq).statements := by
  have hjmp : Exposes True False True (compileLinkage .return').statements :=
    Exposes.silent (by simp [compileLinkage, Stmt.writes, Saves.step])
  apply (Exposes.preserving h hjmp).congr
  · simp [compileLinkage]
  · simp

theorem covers_appendInstrSeqs {seqs : List InstrSeq} (h : ∀ s ∈ seqs, s.Covers p True) :
    ∃ p', (p' → p) ∧ (appendInstrSeqs seqs).Covers p' True := by
  induction seqs with
  | nil => exact ⟨False, False.elim, covers_empty⟩
  | cons s seqs ih =>
    obtain ⟨p', hp', hseqs⟩ := ih fun x hx => h x (List.mem_cons_of_mem _ hx)
    exact ⟨p ∨ p', fun hp => hp.elim id hp',
      ((h s List.mem_cons_self).appendTwo hseqs).congr Iff.rfl (by simp)⟩

end

/-! ### Quoted data -/

section

variable {t : Reg}

theorem covers_movimm (d : Sexp) (needs : List Reg) :
    InstrSeq.Covers (t = .cont) True ⟨needs, [t], [.movimm t (.datum d)]⟩ := by
  apply (covers_plain (by simp [Stmt.isPlain]) (by simp [Stmt.writes])).congr _ Iff.rfl
  simp [Stmt.writes, eq_comm]

theorem covers_cons (s : Reg) (needs : List Reg) :
    InstrSeq.Covers (t = .cont) True ⟨needs, [t], [.cons t s]⟩ := by
  apply (covers_plain (by simp [Stmt.isPlain]) (by simp [Stmt.writes])).congr _ Iff.rfl
  simp [Stmt.writes, eq_comm]

mutual

theorem Data.covers_compileNest : ∀ q : Data, (q.compileNest t).Covers (t = .cont) True
  | .atom q _ => by
    rw [Data.compileNest]
    exact ((covers_movimm q []).appendTwo (covers_cons .argl [.argl])).congr (by simp) (by simp)
  | .list first rest => by
    rw [Data.compileNest]
    have hparts : ∀ s ∈ (first.compileNest t :: Data.compileNests t rest).reverse,
        s.Covers (t = .cont) True := by
      intro s hs
      rcases List.mem_cons.mp (List.mem_reverse.mp hs) with rfl | hmem
      · exact first.covers_compileNest
      · exact Data.covers_compileNests rest s hmem
    obtain ⟨p, hp, hseqs⟩ := covers_appendInstrSeqs hparts
    have hmovimm := covers_movimm (t := t) Sexp.nil []
    have hmov : Exposes False False True [.mov .argl t] :=
      Exposes.silent (by simp [Saves.step, Stmt.writes])
    have hcons := covers_cons (t := t) .argl [.argl]
    -- the elements are consed onto a fresh list while the target is saved
    have hmovPiece : Piece False [.mov .argl t] := .plain rfl .nil
    have hpiece := hmovimm.piece.append (hseqs.piece.append hmovPiece)
    have hbuild := (hmovimm.exposes.append hmovimm.piece
      (hseqs.exposes.append hseqs.piece hmov)).saving t hpiece
    have hall := hbuild.append (hpiece.saving t) hcons.exposes
    refine ⟨by simpa [Data.compileNest] using Data.piece_compileNest t (.list first rest), ?_,
      fun ht => by simp [ht]⟩
    have hexposes : Exposes False (t = .cont) True _ := hall.congr (by grind) (by simp)
    simpa [appendTwoInstrSeqs] using hexposes

theorem Data.covers_compileNests :
    ∀ qs : List Data, ∀ s ∈ Data.compileNests t qs, s.Covers (t = .cont) True
  | [], s, hs => by
    rw [Data.compileNests] at hs
    exact absurd hs (by simp)
  | q :: qs, s, hs => by
    rw [Data.compileNests] at hs
    rcases List.mem_cons.mp hs with rfl | hmem
    · exact q.covers_compileNest
    · exact Data.covers_compileNests qs s hmem

end

theorem Data.covers (q : Data) : (q.compile t).Covers (t = .cont) True := by
  cases q with
  | atom q hq => exact covers_movimm q []
  | list first rest =>
    rw [Data.compile]
    have hparts : ∀ s ∈ (Data.compileNests t (first :: rest)).reverse,
        s.Covers (t = .cont) True := by
      intro s hs
      exact Data.covers_compileNests (first :: rest) s (List.mem_reverse.mp hs)
    obtain ⟨p, hp, hseqs⟩ := covers_appendInstrSeqs hparts
    exact ((covers_movimm Sexp.nil []).appendTwo hseqs).congr (by grind) (by simp)

end

/-! ### Calls and procedures -/

theorem covers_callCode (operator : Expr) (t : Reg) (st : CompilerState) :
    (callCode operator (.next t) st).1.Covers (¬operator.isFundamental = true) True := by
  have hpiece : Piece False (callCode operator (.next t) st).1.statements :=
    (piece_callCode operator (.next t) st).ofNext
  by_cases hfund : operator.isFundamental = true
  · have hcallf : InstrSeq.Covers False True ⟨[.proc, .argl], [t], [.callf]⟩ :=
      ⟨.plain rfl .nil, Exposes.silent (by simp [Saves.step, Stmt.writes]), False.elim⟩
    rw [callCode, if_pos hfund]
    exact hcallf.endWithNext.congr (by simp [hfund]) Iff.rfl
  · rw [callCode, if_neg hfund] at hpiece ⊢
    by_cases hlambda : operator.isLambda = true
    · rw [if_pos hlambda] at hpiece ⊢
      refine ⟨hpiece, ?_, fun _ => ?_⟩
      · by_cases htarget : t = .val
        · subst htarget
          rw [lambdaProcCall_val]
          exact (Exposes.still (by simp [Saves.step])).congr (by simp [Stmt.writes, hfund]) Iff.rfl
        · rw [lambdaProcCall_next htarget]
          exact (Exposes.still (by simp [Saves.step])).congr (by simp [Stmt.writes, hfund]) Iff.rfl
      · simpa [callCode, hfund, hlambda] using
          modified_callCode (Bool.eq_false_iff.mpr hfund) (show .cont ∈ allRegs by decide) _ st
    · rw [if_neg hlambda] at hpiece ⊢
      refine ⟨hpiece, ?_, fun _ => ?_⟩
      · by_cases htarget : t = .val
        · subst htarget
          rw [procCall_val]
          exact (Exposes.still (by simp [Saves.step])).congr (by simp [Stmt.writes, hfund]) Iff.rfl
        · rw [procCall_next htarget]
          exact (Exposes.still (by simp [Saves.step])).congr (by simp [Stmt.writes, hfund]) Iff.rfl
      · simpa [callCode, hfund, hlambda] using
          modified_callCode (Bool.eq_false_iff.mpr hfund) (show .cont ∈ allRegs by decide) _ st

/-- Only the jump of a call of a lambda form does not say that it needs `cont`. -/
theorem needs_callCode_ret (operator : Expr) (st : CompilerState) :
    .cont ∈ (callCode operator .ret st).1.regsNeeded ↔ operator.isLambda = false := by
  have hcallf : .cont ∈ (compileFundamentalProcCall .val .return').regsNeeded := by decide
  rw [callCode]
  split
  · next hfund =>
    cases operator <;> simp [Expr.isFundamental, Expr.isLambda, Dest.target, Dest.linkage, hcallf]
      at hfund ⊢
  · split
    · next hlambda =>
      rw [hlambda]
      simp [lambdaProcCall, procAppl, Label.seq]
    · next hlambda =>
      rw [Bool.eq_false_iff.mpr hlambda]
      simp [procCall, procAppl, appendInstrSeqs, parallelInstrSeqs, Label.seq, Dest.target,
        Dest.linkage, hcallf]

theorem exposes_callCode_ret (operator : Expr) (st : CompilerState) :
    Exposes True False True (callCode operator .ret st).1.statements := by
  rw [callCode]
  split
  · have hcallf : InstrSeq.Covers False True ⟨[.proc, .argl], [.val], [.callf]⟩ :=
      ⟨.plain rfl .nil, Exposes.silent (by simp [Saves.step, Stmt.writes]), False.elim⟩
    exact hcallf.endWithReturn
  · split
    · rw [lambdaProcCall_ret]
      exact Exposes.silent (by simp [Saves.step, Stmt.writes])
    · rw [procCall_ret]
      exact Exposes.silent (by simp [Saves.step, Stmt.writes])

theorem exposes_exenvargl {tail : Prop} (formals : List Sexp) :
    Exposes tail False True (appendInstrSeqs
      (formals.map fun p => ⟨[.argl], [.env], [.exenvargl p]⟩)).statements := by
  apply Exposes.silent
  induction formals with
  | nil => simp [appendInstrSeqs, emptyInstrSeq]
  | cons p formals ih =>
    intro stm hstm
    rcases List.mem_cons.mp hstm with rfl | hmem
    · simp [Saves.step, Stmt.writes]
    · exact ih stm hmem

theorem Exposes.lambda {d : Dest} {n : Nat} {body : List Stmt} {q : Prop} (hpiece : Piece True body)
    (h : Exposes True False q body) :
    Exposes (d = .ret) (d.target = .cont) q ((makeLambda d ⟨.entry, n⟩
      ⟨.afterLambda, n + 1⟩).statements ++ (.label ⟨.entry, n⟩ :: body)
        ++ [.label ⟨.afterLambda, n + 1⟩]) := by
  have hmake : Exposes (d = .ret) (d.target = .cont) True
      (makeLambda d ⟨.entry, n⟩ ⟨.afterLambda, n + 1⟩).statements := by
    cases d with
    | next t =>
      rw [makeLambda_next]
      exact (Exposes.still (by simp [Saves.step])).congr
        (by simp [Stmt.writes, Dest.target, eq_comm]) Iff.rfl
    | ret =>
      rw [makeLambda_ret]
      exact (Exposes.still (by simp [Saves.step])).congr
        (by simp [Stmt.writes, Dest.target]) Iff.rfl
  intro s hs
  have hbalanced : ∃ qs, scan s (makeLambda d ⟨.entry, n⟩ ⟨.afterLambda, n + 1⟩).statements
      = some (qs, s) := by
    cases d <;> exact ⟨_, rfl⟩
  obtain ⟨qs, hqs⟩ := hbalanced
  obtain ⟨ps, hps, -⟩ := hpiece.balanced ⟨[], (n, s.saved) :: s.outer⟩ fun _ => rfl
  have hentry : scan s [.label ⟨.entry, n⟩]
      = some ([(.label ⟨.entry, n⟩, ⟨[], (n, s.saved) :: s.outer⟩)],
        ⟨[], (n, s.saved) :: s.outer⟩) := rfl
  have hafter : Guarded ⟨[], (n, s.saved) :: s.outer⟩ [.label ⟨.afterLambda, n + 1⟩] := by
    simp [Guarded, Saves.step, Stmt.writes]
  have hlabel : Guarded s [.label ⟨.entry, n⟩] := by
    simp [Guarded, Saves.step, Stmt.writes]
  have hbody := h ⟨[], (n, s.saved) :: s.outer⟩ fun _ => rfl
  show Guarded s ((makeLambda d ⟨.entry, n⟩ ⟨.afterLambda, n + 1⟩).statements
    ++ ([.label ⟨.entry, n⟩] ++ body) ++ [.label ⟨.afterLambda, n + 1⟩]) ↔ _
  rw [guarded_append (scan_append hqs (scan_append hentry hps)), guarded_append hqs, hmake s hs,
    guarded_append hentry, hbody]
  simp [hlabel, hafter]

/-! ### Operands -/

/-- The code of an operand, whether it calls procedures and whether its lambda bodies keep
`cont`. -/
structure Operand where
  code : InstrSeq
  calls : Bool
  keeps : Bool

/-- What is known of the code of an operand. -/
structure Operand.Ok (x : Operand) : Prop where
  covers : x.code.Covers (x.calls = true) (x.keeps = true)
  delivers : x.code.Delivers .val

section

variable {x : Operand}

theorem covers_addFstArgument (h : x.Ok) :
    (addFstArgument x.code).Covers (x.calls = true) (x.keeps = true) := by
  have hcons : InstrSeq.Covers False True
      ⟨[.val], [.argl], [.movimm .argl (.datum Sexp.nil), .cons .argl .val]⟩ :=
    ⟨.plain rfl (.plain rfl .nil), Exposes.silent (by simp [Saves.step, Stmt.writes]), False.elim⟩
  exact (h.covers.appendTwo hcons).congr (by simp) (by simp)

theorem covers_codeForNextArg (h : x.Ok) :
    (codeForNextArg x.code).Covers (x.calls = true) (x.keeps = true) := by
  have hcons : InstrSeq.Covers False True ⟨[.val, .argl], [.argl], [.cons .argl .val]⟩ :=
    ⟨.plain rfl .nil, Exposes.silent (by simp [Saves.step, Stmt.writes]), False.elim⟩
  exact (h.covers.preserving hcons (by simp)).congr (by simp) (by simp)

theorem covers_getRestArgs (rest : List Operand) : ∀ x : Operand, (∀ y ∈ x :: rest, y.Ok) →
    (getRestArgs x.code (rest.map Operand.code)).Covers
      ((x :: rest).any Operand.calls = true) ((x :: rest).all Operand.keeps = true) := by
  induction rest with
  | nil =>
    intro x h
    exact (covers_codeForNextArg (h x List.mem_cons_self)).congr (by simp) (by simp)
  | cons y rest ih =>
    intro x h
    have hrest := ih y fun z hz => h z (List.mem_cons_of_mem _ hz)
    exact ((covers_codeForNextArg (h x List.mem_cons_self)).preserving hrest (by simp)).congr
      (by simp) (by simp)

theorem covers_constructArglist {operands : List Operand} (h : ∀ x ∈ operands, x.Ok) :
    (constructArglist (operands.map Operand.code)).Covers
      (operands.any Operand.calls = true) (operands.all Operand.keeps = true) := by
  have hrev : ∀ x ∈ operands.reverse, x.Ok := fun x hx => h x (List.mem_reverse.mp hx)
  rw [constructArglist, ← List.map_reverse, ← List.any_reverse, ← List.all_reverse]
  cases hcases : operands.reverse with
  | nil =>
    exact ⟨.plain rfl .nil, (Exposes.silent (by simp [Saves.step, Stmt.writes])).congr (by simp)
      (by simp), by simp⟩
  | cons x rest =>
    rw [hcases] at hrev
    have hfst := covers_addFstArgument (hrev x List.mem_cons_self)
    cases rest with
    | nil => exact hfst.congr (by simp) (by simp)
    | cons y rest =>
      have hrest := covers_getRestArgs rest y fun z hz => hrev z (List.mem_cons_of_mem _ hz)
      exact (hfst.preserving hrest (by simp)).congr (by simp) (by simp)

end

/-! ### Every form -/

/-- The code of an expression with linkage `next`: unless its target is `cont`, it overwrites `cont`
if it calls procedures. -/
def CoversExpr (calls keeps : Bool) (t : Reg) (s : InstrSeq) : Prop :=
  ∃ p, (t ≠ .cont → (p ↔ calls = true)) ∧ s.Covers p (keeps = true)

theorem CoversExpr.covers {calls keeps : Bool} {t : Reg} {s : InstrSeq}
    (h : CoversExpr calls keeps t s) (ht : t ≠ .cont) :
    s.Covers (calls = true) (keeps = true) := by
  obtain ⟨p, hp, hcovers⟩ := h
  exact hcovers.congr (hp ht) Iff.rfl

/-- Forms that write their target and nothing else. -/
theorem CoversExpr.leaf {t : Reg} {s : InstrSeq} (h : s.Covers (t = .cont) True) :
    CoversExpr false true t (endWithLinkage .next s) :=
  ⟨t = .cont, fun ht => by simp [ht], h.endWithNext.congr Iff.rfl (by simp)⟩

theorem Exposes.leaf_ret {s : InstrSeq} (h : s.Covers (Reg.val = .cont) True) :
    Exposes True False (true = true) (endWithLinkage .return' s).statements :=
  h.endWithReturn.congr Iff.rfl (by simp)

theorem covers_lookup (t : Reg) (i : Nat) :
    InstrSeq.Covers (t = .cont) True ⟨[.env], [t], [.lookup t i]⟩ := by
  apply (covers_plain (by simp [Stmt.isPlain]) (by simp [Stmt.writes])).congr _ Iff.rfl
  simp [Stmt.writes, eq_comm]

theorem covers_setglbval (t : Reg) (i : Nat) : InstrSeq.Covers (t = .cont) True
    ⟨[.val], [t], [.setglbval i, .movimm t (.indirection i)]⟩ := by
  apply (covers_plain (by simp [Stmt.isPlain]) (by simp [Stmt.writes])).congr _ Iff.rfl
  simp [Stmt.writes, eq_comm]

theorem covers_exenvval (i : Nat) :
    InstrSeq.Covers False True ⟨[.val], [.env], [.exenvval i]⟩ :=
  ⟨.plain rfl .nil, Exposes.silent (by simp [Saves.step, Stmt.writes]), False.elim⟩

theorem calls_of_fundamental {e : Expr} (h : e.isFundamental = true) : e.calls = false := by
  cases e with
  | sym s hs => rw [Expr.calls]
  | _ => exact absurd h (by simp [Expr.isFundamental])

theorem calls_of_isLambda {e : Expr} (h : e.isLambda = true) : e.calls = false := by
  cases e with
  | lambda formals body => rw [Expr.calls]
  | _ => exact absurd h (by simp [Expr.isLambda])

theorem covers_operatorCode {operator : Expr} {code : InstrSeq × CompilerState}
    (st : CompilerState)
    (h : code.1.Covers (operator.calls = true) (operator.keepsReturn false = true)) :
    (operatorCode operator code st).1.Covers (operator.calls = true)
      (operator.keepsReturn false = true) := by
  rw [operatorCode]
  split
  · next hfund =>
    have hload : InstrSeq.Covers False True
        ⟨[], [.proc], [.movimm .proc (.datum operator.toSexp)]⟩ :=
      ⟨.plain rfl .nil, Exposes.silent (by simp [Saves.step, Stmt.writes]), False.elim⟩
    cases operator with
    | sym s hs => exact hload.congr (by simp [Expr.calls]) (by simp [Expr.keepsReturn])
    | _ => exact absurd hfund (by simp [Expr.isFundamental])
  · exact h

/-- The code of a lambda body behind its label. -/
theorem exposes_procedure {c : List Stmt} {q : Prop} (formals : List Sexp)
    (h : Exposes True False q c) : Exposes True False q (.caddr .env .proc :: (appendInstrSeqs
      (formals.map fun p => ⟨[.argl], [.env], [.exenvargl p]⟩)).statements ++ c) := by
  have hcaddr : Exposes False False True [.caddr .env .proc] :=
    Exposes.silent (by simp [Saves.step, Stmt.writes])
  have hbind := Exposes.append (piece_exenvargl formals) (exposes_exenvargl formals) h
  exact (hcaddr.append (.plain rfl .nil) hbind).congr (by simp) (by simp)

theorem piece_procedure {c : List Stmt} (formals : List Sexp) (h : Piece True c) :
    Piece True (.caddr .env .proc :: (appendInstrSeqs
      (formals.map fun p => ⟨[.argl], [.env], [.exenvargl p]⟩)).statements ++ c) :=
  .append (.plain rfl (piece_exenvargl formals)) h

theorem Expr.piece_ret (e : Expr) (st : CompilerState) :
    Piece True (e.compile .ret st).1.statements :=
  ⟨(e.piece .ret st).placed, fun s hs => (e.piece .ret st).balanced s fun _ => hs trivial⟩

mutual

theorem Expr.covers_next : ∀ (e : Expr) (t : Reg) (st : CompilerState),
    CoversExpr e.calls (e.keepsReturn false) t (e.compile (.next t) st).1
  | .const e _, t, st => by
    rw [Expr.compile, Expr.calls, Expr.keepsReturn]
    exact .leaf (covers_movimm e [])
  | .sym s _, t, st => by
    rw [Expr.compile, Expr.calls, Expr.keepsReturn]
    exact .leaf (covers_lookup t _)
  | .quote q, t, st => by
    rw [Expr.compile, Expr.calls, Expr.keepsReturn]
    exact .leaf q.covers
  | .define var e, t, st => by
    have he := (e.covers_next .val (newIndirection var st).2).covers (by decide)
    rw [Expr.compile, Expr.calls, Expr.keepsReturn]
    exact ⟨e.calls = true ∨ t = .cont, fun ht => by simp [ht],
      ((he.appendTwo (covers_setglbval t _)).congr Iff.rfl (by simp)).endWithNext⟩
  | .lambda formals body, t, st => by
    have hpiece := (Expr.piece (.lambda formals body) (.next t) st).ofNext
    have hbody := body.exposes_ret (mkLabel .afterLambda (mkLabel .entry st).2).2
    rw [Expr.compile, Expr.calls, Expr.keepsReturn] at *
    have hall := Exposes.lambda (d := .next t) (n := st.labelCounter + 1)
      (piece_procedure formals (body.piece_ret _)) (exposes_procedure formals hbody)
    refine ⟨t = .cont, fun ht => by simp [ht], hpiece, fun s _ => ?_, fun ht => ?_⟩
    · exact hall s fun hret => (next_ne_ret hret).elim
    · subst ht
      exact mem_modified_appendTwo.mpr (Or.inl (delivers_makeLambda .cont
        ⟨.entry, st.labelCounter + 1⟩ ⟨.afterLambda, st.labelCounter + 2⟩).target)
  | .letIn bindings body, t, st => by
    have hbs := bindings.covers_next st
    obtain ⟨p, hp, hbody⟩ := body.covers_next t (bindings.compile st).2
    rw [Expr.compile, Expr.calls, Expr.keepsReturn]
    refine ⟨bindings.calls = true ∨ p, fun ht => by simp [hp ht], ?_⟩
    exact (hbs.appendTwo hbody).congr Iff.rfl (by simp)
  | .progn body, t, st => by
    rw [Expr.compile, Expr.calls, Expr.keepsReturn]
    exact body.covers_next t st
  | .app operator operands, t, st => by
    have hproc := covers_operatorCode st ((operator.covers_next .proc st).covers (by decide))
    obtain ⟨args, hcodes, hok, hcalls, hkeeps⟩ := operands.covers
      (operatorCode operator (operator.compile (.next .proc) st) st).2
    have hargs := covers_constructArglist hok
    have hdelivers := delivers_constructArglist (operands.delivers
      (operatorCode operator (operator.compile (.next .proc) st) st).2)
    rw [← hcodes, hcalls, hkeeps] at hargs
    rw [Expr.compile, Expr.calls, Expr.keepsReturn]
    have hneeds : ∀ st, .cont ∉ (callCode operator (.next t) st).1.regsNeeded :=
      fun st hmem => absurd (needs_callCode_next operator t st _ hmem) (by decide)
    have hrestNeeds : ∀ st', .cont ∉ (preserving [.proc, .cont] (constructArglist (operands.compile
        (operatorCode operator (operator.compile (.next .proc) st) st).2).1)
          (callCode operator (.next t) st').1).regsNeeded :=
      fun st' hmem => absurd (needs_argsCall hdelivers (needs_callCode_next operator t st') _ hmem)
        (by decide)
    refine ⟨operator.calls = true ∨ operands.calls = true ∨ ¬operator.isFundamental = true,
      fun _ => ?_, ?_⟩
    · by_cases hfund : operator.isFundamental = true
      · simp [hfund, calls_of_fundamental hfund]
      · simp [hfund]
    · exact (hproc.preserving (hargs.preserving (covers_callCode operator t _)
        fun h => hneeds _ h.2) fun h => hrestNeeds _ h.2).congr Iff.rfl (by simp)

theorem Expr.exposes_ret : ∀ (e : Expr) (st : CompilerState),
    Exposes True False (e.keepsReturn true = true) (e.compile .ret st).1.statements
  | .const e _, st => by
    rw [Expr.compile, Expr.keepsReturn]
    exact .leaf_ret (covers_movimm e [])
  | .sym s _, st => by
    rw [Expr.compile, Expr.keepsReturn]
    exact .leaf_ret (covers_lookup .val _)
  | .quote q, st => by
    rw [Expr.compile, Expr.keepsReturn]
    exact .leaf_ret q.covers
  | .define var e, st => by
    have he := (e.covers_next .val (newIndirection var st).2).covers (by decide)
    rw [Expr.compile, Expr.keepsReturn]
    exact (he.appendTwo (covers_setglbval .val _)).endWithReturn.congr Iff.rfl (by simp)
  | .lambda formals body, st => by
    have hbody := body.exposes_ret (mkLabel .afterLambda (mkLabel .entry st).2).2
    rw [Expr.compile, Expr.keepsReturn]
    have hall := Exposes.lambda (d := .ret) (n := st.labelCounter + 1)
      (piece_procedure formals (body.piece_ret _)) (exposes_procedure formals hbody)
    exact fun s hs => (hall s fun _ => hs trivial).trans (by simp [Dest.target])
  | .letIn bindings body, st => by
    have hbs := bindings.covers_next st
    have hbody := body.exposes_ret (bindings.compile st).2
    rw [Expr.compile, Expr.keepsReturn]
    exact (hbs.exposes.append hbs.piece hbody).bare.congr Iff.rfl (by simp; grind)
  | .progn body, st => by
    rw [Expr.compile, Expr.keepsReturn]
    exact body.exposes_ret st
  | .app operator operands, st => by
    have hproc := covers_operatorCode st ((operator.covers_next .proc st).covers (by decide))
    obtain ⟨args, hcodes, hok, hcalls, hkeeps⟩ := operands.covers
      (operatorCode operator (operator.compile (.next .proc) st) st).2
    have hargs := covers_constructArglist hok
    rw [← hcodes, hcalls, hkeeps] at hargs
    have hneeds := needs_callCode_ret operator (operands.compile
      (operatorCode operator (operator.compile (.next .proc) st) st).2).2
    have hcall := exposes_callCode_ret operator (operands.compile
      (operatorCode operator (operator.compile (.next .proc) st) st).2).2
    rw [Expr.compile, Expr.keepsReturn]
    apply (Exposes.preserving hproc (Exposes.preserving hargs hcall)).bare.congr Iff.rfl
    by_cases hlambda : operator.isLambda = true
    · -- the jump does not say that it needs `cont`
      simp only [hneeds, hlambda, calls_of_isLambda hlambda]
      simp
    · have hcont := hneeds.mpr (Bool.eq_false_iff.mpr hlambda)
      simp [mem_needed_preserving, hcont, hlambda]

theorem Exprs.covers : ∀ (es : Exprs) (st : CompilerState), ∃ operands : List Operand,
    (es.compile st).1 = operands.map Operand.code ∧ (∀ x ∈ operands, x.Ok) ∧
      operands.any Operand.calls = es.calls ∧ operands.all Operand.keeps = es.keepsReturn
  | .nil, st => by
    rw [Exprs.compile]
    exact ⟨[], rfl, by simp, rfl, rfl⟩
  | .cons e es, st => by
    have he := (e.covers_next .val st).covers (by decide)
    obtain ⟨operands, hcodes, hok, hcalls, hkeeps⟩ := es.covers (e.compile (.next .val) st).2
    rw [Exprs.compile, Exprs.calls, Exprs.keepsReturn]
    refine ⟨⟨(e.compile (.next .val) st).1, e.calls, e.keepsReturn false⟩ :: operands, ?_, ?_,
      ?_, ?_⟩
    · simp [hcodes]
    · intro x hx
      rcases List.mem_cons.mp hx with rfl | hmem
      · exact ⟨he, e.delivers .val st (by decide)⟩
      · exact hok x hmem
    · simp [hcalls]
    · simp [hkeeps]

theorem Bindings.covers_next : ∀ (bs : Bindings) (st : CompilerState),
    (appendInstrSeqs (bs.compile st).1).Covers (bs.calls = true) (bs.keepsReturn = true)
  | .nil, st => by
    rw [Bindings.compile, Bindings.calls, Bindings.keepsReturn]
    exact covers_empty.congr (by simp) (by simp)
  | .cons key e bs, st => by
    have he := (e.covers_next .val st).covers (by decide)
    have hbs := bs.covers_next (newIndirection key (e.compile (.next .val) st).2).2
    rw [Bindings.compile, Bindings.calls, Bindings.keepsReturn]
    exact ((he.appendTwo (covers_exenvval _)).appendTwo hbs).congr (by simp) (by simp)

theorem Body.covers_next : ∀ (b : Body) (t : Reg) (st : CompilerState),
    CoversExpr b.calls (b.keepsReturn false) t (b.compile (.next t) st).1
  | .last e, t, st => by
    rw [Body.compile, Body.calls, Body.keepsReturn]
    exact e.covers_next t st
  | .cons e rest, t, st => by
    obtain ⟨p₁, hp₁, he⟩ := e.covers_next t st
    obtain ⟨p₂, hp₂, hrest⟩ := rest.covers_next t (e.compile (.next t) st).2
    rw [Body.compile, Body.calls, Body.keepsReturn]
    refine ⟨p₁ ∨ p₂, fun ht => by simp [hp₁ ht, hp₂ ht], ?_⟩
    exact (he.preserving hrest (by simp)).congr Iff.rfl (by simp)

theorem Body.exposes_ret : ∀ (b : Body) (st : CompilerState),
    Exposes True False (b.keepsReturn true = true) (b.compile .ret st).1.statements
  | .last e, st => by
    rw [Body.compile, Body.keepsReturn]
    exact e.exposes_ret st
  | .cons e rest, st => by
    have he := (e.covers_next .val st).covers (by decide)
    have hrest := rest.exposes_ret (e.compile (.next .val) st).2
    rw [Body.compile, Body.keepsReturn]
    exact (Exposes.preserving he hrest).bare.congr Iff.rfl (by simp; grind)

end

/-! ## The return address -/

/-- Compiled code, and every lambda body in it, keeps the return address exactly if no call stands
where `cont` is not saved. -/
theorem guarded_iff_keepsReturn (e : Expr) (d : Dest) (st : CompilerState) (fuel : Nat)
    (hwf : e.Wf) (hfuel : e.size ≤ fuel) :
    ∃ seq st', compileInstrList fuel e.toSexp d.target d.linkage st = some (seq, st') ∧
      (KeepsCont d.around seq.statements ↔ e.keepsReturn (decide (d = .ret)) = true) := by
  refine ⟨(e.compile d st).1, (e.compile d st).2, compileInstrList_toSexp e d st fuel hwf hfuel, ?_⟩
  have hguarded : Guarded d.around (e.compile d st).1.statements
      ↔ e.keepsReturn (decide (d = .ret)) = true := by
    cases d with
    | next t =>
      obtain ⟨p, -, hcovers⟩ := e.covers_next t st
      have hguarded := hcovers.exposes ⟨[.cont], []⟩ (by simp)
      show Guarded ⟨[.cont], []⟩ _ ↔ _
      simpa using hguarded
    | ret =>
      have hguarded := e.exposes_ret st .start fun _ => rfl
      show Guarded .start _ ↔ _
      simpa using hguarded
  -- the pushes of the compiler always have their pops
  have hrestored := (e.piece d st).balanced d.around fun hd => by rw [hd]; rfl
  rw [← hguarded]
  exact ⟨KeepsCont.guarded, fun h => ⟨h, hrestored⟩⟩

/-- `(lambda (x) (progn (f x) x))`. -/
def callBeforeLast : Expr :=
  .lambda [.name (cstring "x")] (.progn (.cons (.app symF (.cons symX .nil)) (.last symX)))

/-- `(lambda (x) (progn x (f x)))`. -/
def callLast : Expr :=
  .lambda [.name (cstring "x")] (.progn (.cons symX (.last (.app symF (.cons symX .nil)))))

theorem guarded_callLast : ∃ seq st',
    compileInstrList 10 callLast.toSexp .val .return' .initial = some (seq, st') ∧
      KeepsCont .start seq.statements := by
  have hf : symF.toSexp ∉ keywords := by decide
  have hwf : callLast.Wf := by
    simp [callLast, Expr.Wf, Body.Wf, Exprs.Wf, symX, hf]
    simp [symF, Expr.Wf]
  obtain ⟨seq, st', hcompile, hiff⟩ :=
    guarded_iff_keepsReturn callLast .ret .initial 10 hwf (by decide)
  exact ⟨seq, st', hcompile, hiff.mpr (by decide)⟩

/-- The call of `f` leaves its own return address in `cont`, where the body's one was. -/
theorem not_guarded_callBeforeLast : ∃ seq st',
    compileInstrList 10 callBeforeLast.toSexp .val .return' .initial = some (seq, st') ∧
      ¬KeepsCont .start seq.statements := by
  have hnot : ∃ seq st', compileInstrList 10 callBeforeLast.toSexp .val .return' .initial
      = some (seq, st') ∧ ¬Guarded .start seq.statements := ⟨_, _, rfl, by decide⟩
  obtain ⟨seq, st', hcompile, hnot⟩ := hnot
  exact ⟨seq, st', hcompile, fun h => hnot h.guarded⟩

end Compiler

end LispBM
