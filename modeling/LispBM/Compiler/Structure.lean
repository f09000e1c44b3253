import LispBM.Compiler.Syntax

/-!
# LispBM — the structure of compiled code

Labels come from one counter, so that no label is placed twice. The code of a lambda body stands
in the middle of the code around it, between its `entry` label and the `after-lambda` label with the
next number: `scan` follows the saved registers from the start of the enclosing body. A `Piece` is
code that gives back what it saves and jumps only to labels of its own, at the depth of the jump.
-/

namespace LispBM

namespace Compiler

open Tokpar (Sexp)

/-! ## Labels and saved registers -/

/-- The labels that are placed. -/
def labels : List Stmt → List Label
  | [] => []
  | .label l :: c => l :: labels c
  | _ :: c => labels c

/-- The label a statement refers to. -/
def Stmt.refersTo : Stmt → Option Label
  | .jmpimm l | .bpf l | .movimm _ (.label l) | .consimm _ (.label l) => some l
  | _ => none

/-- The label where a jump goes, or where a call comes back. -/
def Stmt.jumpsTo : Stmt → Option Label
  | .jmpimm l | .bpf l | .movimm .cont (.label l) => some l
  | _ => none

/-- The registers on the stack since the start of the lambda body, last first, and the same for the
bodies around it, with the numbers of their entry labels. -/
structure Saves where
  saved : List Reg
  outer : List (Nat × List Reg)
  deriving DecidableEq

def Saves.start : Saves := ⟨[], []⟩

/-- The saved registers after a statement; `none` if a `pop` does not match, or a body ends with
registers saved. -/
def Saves.step (s : Saves) : Stmt → Option Saves
  | .push r => some { s with saved := r :: s.saved }
  | .pop r =>
      match s.saved with
      | r' :: saved => if r' = r then some { s with saved := saved } else none
      | [] => none
  | .label ⟨.entry, n⟩ => some ⟨[], (n, s.saved) :: s.outer⟩
  | .label ⟨.afterLambda, n⟩ =>
      match s.saved, s.outer with
      | [], (k, saved) :: outer => if n = k + 1 then some ⟨saved, outer⟩ else none
      | _, _ => none
  | _ => some s

def Stmt.isLabel : Stmt → Bool
  | .label _ => true
  | _ => false

/-- Each statement with the registers that are saved there; for a label those behind it. -/
def scan : Saves → List Stmt → Option (List (Stmt × Saves) × Saves)
  | s, [] => some ([], s)
  | s, stm :: c => do
      let s' ← s.step stm
      let (ps, final) ← scan s' c
      some ((stm, if stm.isLabel then s' else s) :: ps, final)

/-- Every jump finds its label with the same registers saved, and `jmpcnt` finds none. -/
def Matched (ps : List (Stmt × Saves)) : Prop :=
  ∀ p ∈ ps, (∀ l, p.1.jumpsTo = some l → (.label l, p.2) ∈ ps) ∧ (p.1 = .jmpcnt → p.2.saved = [])

/-- Labels are placed once and all that are referred to are placed; pushes and pops are nested; and
jumps stay at their depth. -/
structure WellStructured (c : List Stmt) : Prop where
  nodup : (labels c).Nodup
  placed : ∀ stm ∈ c, ∀ l, stm.refersTo = some l → l ∈ labels c
  nested : ∃ ps, scan .start c = some (ps, .start) ∧ Matched ps

/-! ## Pieces of code -/

@[simp] theorem labels_append (a b : List Stmt) : labels (a ++ b) = labels a ++ labels b := by
  induction a with
  | nil => rfl
  | cons stm a ih =>
    cases stm with
    | label l => simp [labels, ih]
    | _ => simpa [labels] using ih

theorem scan_append {s s₁ s₂ : Saves} {a b : List Stmt} {ps qs : List (Stmt × Saves)}
    (ha : scan s a = some (ps, s₁)) (hb : scan s₁ b = some (qs, s₂)) :
    scan s (a ++ b) = some (ps ++ qs, s₂) := by
  induction a generalizing s ps with
  | nil =>
    obtain ⟨rfl, rfl⟩ := Prod.mk.inj (Option.some.inj ha)
    exact hb
  | cons stm a ih =>
    rw [scan] at ha
    obtain ⟨s', hstep, ha⟩ := Option.bind_eq_some_iff.mp ha
    obtain ⟨⟨ps', final⟩, hscan, ha⟩ := Option.bind_eq_some_iff.mp ha
    obtain ⟨rfl, rfl⟩ := Prod.mk.inj (Option.some.inj ha)
    rw [List.cons_append, scan, hstep]
    simp only [Option.bind_eq_bind, Option.bind_some, ih hscan]
    rfl

theorem Matched.append {ps qs : List (Stmt × Saves)} (hp : Matched ps) (hq : Matched qs) :
    Matched (ps ++ qs) := by
  intro p hmem
  rcases List.mem_append.mp hmem with h | h
  · exact ⟨fun l hl => List.mem_append_left _ ((hp p h).1 l hl), (hp p h).2⟩
  · exact ⟨fun l hl => List.mem_append_right _ ((hq p h).1 l hl), (hq p h).2⟩

/-- Code that gives back what it saves and jumps inside itself. In tail position it may end with
`jmpcnt`, and nothing is saved around it. -/
structure Piece (tail : Prop) (c : List Stmt) : Prop where
  placed : ∀ stm ∈ c, ∀ l, stm.refersTo = some l → l ∈ labels c
  balanced : ∀ s : Saves, (tail → s.saved = []) →
    ∃ ps, scan s c = some (ps, s) ∧ Matched ps

section

variable {tail : Prop} {c c₁ c₂ : List Stmt} {r : Reg}

theorem Piece.nil : Piece tail [] :=
  ⟨by simp, fun s _ => ⟨[], rfl, by simp [Matched]⟩⟩

theorem Piece.append (h₁ : Piece False c₁) (h₂ : Piece tail c₂) : Piece tail (c₁ ++ c₂) := by
  refine ⟨fun stm hstm l hl => ?_, fun s hs => ?_⟩
  · rw [labels_append, List.mem_append]
    rcases List.mem_append.mp hstm with h | h
    · exact Or.inl (h₁.placed stm h l hl)
    · exact Or.inr (h₂.placed stm h l hl)
  · obtain ⟨ps, hscan₁, hps⟩ := h₁.balanced s (by simp)
    obtain ⟨qs, hscan₂, hqs⟩ := h₂.balanced s hs
    exact ⟨ps ++ qs, scan_append hscan₁ hscan₂, hps.append hqs⟩

/-- A statement without a label, a save or a jump. -/
def Stmt.isPlain : Stmt → Bool
  | .label _ | .jmpcnt | .jmpimm _ | .push _ | .pop _ | .bpf _ => false
  | .movimm _ (.label _) | .consimm _ (.label _) => false
  | _ => true

theorem Saves.step_plain {stm : Stmt} (h : stm.isPlain = true) (s : Saves) :
    s.step stm = some s := by
  cases stm with
  | label l => exact absurd h (by simp [Stmt.isPlain])
  | push r => exact absurd h (by simp [Stmt.isPlain])
  | pop r => exact absurd h (by simp [Stmt.isPlain])
  | _ => rfl

theorem Piece.plain {stm : Stmt} (h : stm.isPlain = true) (hc : Piece tail c) :
    Piece tail (stm :: c) := by
  have hrefers : stm.refersTo = none := by
    cases stm with
    | movimm r x => cases x <;> first | rfl | exact absurd h (by simp [Stmt.isPlain])
    | consimm r x => cases x <;> first | rfl | exact absurd h (by simp [Stmt.isPlain])
    | _ => first | rfl | exact absurd h (by simp [Stmt.isPlain])
  have hjumps : stm.jumpsTo = none := by
    cases stm with
    | movimm r x => cases x <;> cases r <;> first | rfl | exact absurd h (by simp [Stmt.isPlain])
    | _ => first | rfl | exact absurd h (by simp [Stmt.isPlain])
  have hne : stm ≠ .jmpcnt := by
    rintro rfl
    exact absurd h (by simp [Stmt.isPlain])
  have hlabels : labels (stm :: c) = labels c := by
    cases stm with
    | label l => exact absurd h (by simp [Stmt.isPlain])
    | _ => rfl
  have hlabel : stm.isLabel = false := by
    cases stm with
    | label l => exact absurd h (by simp [Stmt.isPlain])
    | _ => rfl
  refine ⟨fun stm' hstm l hl => ?_, fun s hs => ?_⟩
  · rw [hlabels]
    rcases List.mem_cons.mp hstm with rfl | hmem
    · rw [hrefers] at hl
      exact absurd hl (by simp)
    · exact hc.placed stm' hmem l hl
  · obtain ⟨ps, hscan, hps⟩ := hc.balanced s hs
    refine ⟨(stm, s) :: ps, ?_, ?_⟩
    · rw [scan, Saves.step_plain h, Option.bind_eq_bind, Option.bind_some, hscan, hlabel]
      rfl
    · intro p hp
      rcases List.mem_cons.mp hp with rfl | hmem
      · refine ⟨fun l hl => ?_, fun hj => absurd hj hne⟩
        rw [hjumps] at hl
        exact absurd hl (by simp)
      · exact ⟨fun l hl => List.mem_cons_of_mem _ ((hps p hmem).1 l hl), (hps p hmem).2⟩

theorem Piece.plains (h : ∀ stm ∈ c, stm.isPlain = true) : Piece tail c := by
  induction c with
  | nil => exact Piece.nil
  | cons stm c ih =>
    exact .plain (h stm List.mem_cons_self) (ih fun x hx => h x (List.mem_cons_of_mem _ hx))

theorem Piece.saving (r : Reg) (h : Piece False c) : Piece tail ([.push r] ++ (c ++ [.pop r])) := by
  refine ⟨fun stm hstm l hl => ?_, fun s _ => ?_⟩
  · have hmem : stm ∈ c := by
      simp only [List.mem_append, List.mem_singleton] at hstm
      rcases hstm with rfl | h | rfl
      · exact absurd hl (by simp [Stmt.refersTo])
      · exact h
      · exact absurd hl (by simp [Stmt.refersTo])
    have hlabel := h.placed stm hmem l hl
    simp [labels, hlabel]
  · obtain ⟨ps, hscan, hps⟩ := h.balanced { s with saved := r :: s.saved } (by simp)
    have hpush : scan s [.push r] = some ([(.push r, s)], { s with saved := r :: s.saved }) := rfl
    have hpop : scan { s with saved := r :: s.saved } [.pop r]
        = some ([(.pop r, { s with saved := r :: s.saved })], s) := by
      simp [scan, Saves.step, Stmt.isLabel]
    refine ⟨_, scan_append hpush (scan_append hscan hpop), ?_⟩
    have hsingle : ∀ (stm : Stmt) (s : Saves), stm.jumpsTo = none → stm ≠ .jmpcnt →
        Matched [(stm, s)] := by
      intro stm s hj hne p hp
      obtain rfl := List.mem_singleton.mp hp
      refine ⟨fun l hl => ?_, fun h => absurd h hne⟩
      rw [hj] at hl
      exact absurd hl (by simp)
    exact (hsingle _ _ rfl (by simp)).append (hps.append (hsingle _ _ rfl (by simp)))

theorem Piece.jmpcnt : Piece True [.jmpcnt] := by
  refine ⟨by simp [Stmt.refersTo], fun s hs => ⟨[(.jmpcnt, s)], rfl, ?_⟩⟩
  intro p hp
  obtain rfl := List.mem_singleton.mp hp
  exact ⟨by simp [Stmt.jumpsTo], fun _ => hs trivial⟩

end

/-! ## The parts of compiled code are pieces -/

section

variable {tail : Prop} {s₁ s₂ : InstrSeq} {d : Dest}

theorem Piece.preserving (h₂ : Piece tail s₂.statements) (regs : List Reg) :
    ∀ {s₁ : InstrSeq}, Piece False s₁.statements →
      Piece tail (preserving regs s₁ s₂).statements := by
  induction regs with
  | nil =>
    intro s₁ h₁
    show Piece tail (s₁.statements ++ (s₂.statements ++ []))
    rw [List.append_nil]
    exact h₁.append h₂
  | cons r regs ih =>
    intro s₁ h₁
    rw [Compiler.preserving]
    split
    · exact ih (h₁.saving r)
    · exact ih h₁

theorem Piece.endWithLinkage (h : Piece False s₁.statements) :
    Piece (d = .ret) (endWithLinkage d.linkage s₁).statements := by
  apply Piece.preserving _ _ h
  cases d with
  | next target => exact Piece.nil
  | ret => exact ⟨Piece.jmpcnt.placed, fun s hs => Piece.jmpcnt.balanced s fun _ => hs rfl⟩

theorem Piece.appendInstrSeqs {seqs : List InstrSeq} (h : ∀ s ∈ seqs, Piece False s.statements) :
    Piece False (appendInstrSeqs seqs).statements := by
  induction seqs with
  | nil => exact Piece.nil
  | cons s seqs ih =>
    exact (h s List.mem_cons_self).append (ih fun s hs => h s (List.mem_cons_of_mem _ hs))

end

/-! ### Quoted data -/

mutual

theorem Data.piece_compileNest (target : Reg) :
    ∀ q : Data, Piece False (q.compileNest target).statements
  | .atom q _ => by
    rw [Data.compileNest]
    exact .plain rfl (.plain rfl .nil)
  | .list first rest => by
    rw [Data.compileNest]
    have hparts : Piece False (appendInstrSeqs
        (first.compileNest target :: Data.compileNests target rest).reverse).statements := by
      apply Piece.appendInstrSeqs
      intro s hs
      rcases List.mem_cons.mp (List.mem_reverse.mp hs) with rfl | hmem
      · exact first.piece_compileNest target
      · exact Data.piece_compileNests target rest s hmem
    -- the elements are consed onto a fresh list while `target` is saved
    have hsaved : Piece False ([.push target] ++ ((.movimm target (.datum Sexp.nil) ::
        ((appendInstrSeqs (first.compileNest target :: Data.compileNests target
          rest).reverse).statements ++ [.mov .argl target])) ++ [.pop target])) :=
      .saving target (.plain rfl (hparts.append (.plain rfl .nil)))
    have hcons : Piece False [.cons target .argl] := .plain rfl .nil
    have hall := hsaved.append hcons
    simpa [appendTwoInstrSeqs] using hall

theorem Data.piece_compileNests (target : Reg) :
    ∀ (qs : List Data), ∀ s ∈ Data.compileNests target qs, Piece False s.statements
  | [], s, hs => by
    rw [Data.compileNests] at hs
    exact absurd hs (by simp)
  | q :: qs, s, hs => by
    rw [Data.compileNests] at hs
    rcases List.mem_cons.mp hs with rfl | hmem
    · exact q.piece_compileNest target
    · exact Data.piece_compileNests target qs s hmem

end

theorem Data.piece_compile (target : Reg) (q : Data) :
    Piece False (q.compile target).statements := by
  cases q with
  | atom q hq => exact .plain rfl .nil
  | list first rest =>
    rw [Data.compile]
    show Piece False (.movimm target (.datum Sexp.nil) ::
      (appendInstrSeqs (Data.compileNests target (first :: rest)).reverse).statements)
    apply Piece.plain rfl
    apply Piece.appendInstrSeqs
    intro s hs
    exact Data.piece_compileNests target (first :: rest) s (List.mem_reverse.mp hs)

/-! ### Calls -/

theorem piece_constructArglist {codes : List InstrSeq}
    (h : ∀ s ∈ codes, Piece False s.statements) :
    Piece False (constructArglist codes).statements := by
  have hfst : ∀ s ∈ codes, Piece False (addFstArgument s).statements := fun s hs =>
    (h s hs).append (.plain rfl (.plain rfl .nil))
  have hnext : ∀ s ∈ codes, Piece False (codeForNextArg s).statements := fun s hs =>
    Piece.preserving (.plain rfl .nil) _ (h s hs)
  have hrest : ∀ (rest : List InstrSeq) (s : InstrSeq), (∀ x ∈ s :: rest, x ∈ codes) →
      Piece False (getRestArgs s rest).statements := by
    intro rest
    induction rest with
    | nil => exact fun s hmem => hnext s (hmem s List.mem_cons_self)
    | cons t rest ih =>
      intro s hmem
      exact Piece.preserving (ih t fun x hx => hmem x (List.mem_cons_of_mem _ hx)) _
        (hnext s (hmem s List.mem_cons_self))
  have hrev : ∀ x ∈ codes.reverse, x ∈ codes := fun x hx => List.mem_reverse.mp hx
  rw [constructArglist]
  cases hcases : codes.reverse with
  | nil => exact .plain rfl .nil
  | cons s rest =>
    rw [hcases] at hrev
    cases rest with
    | nil => exact hfst s (hrev s List.mem_cons_self)
    | cons t rest =>
      exact Piece.preserving (hrest rest t fun x hx => hrev x (List.mem_cons_of_mem _ hx)) _
        (hfst s (hrev s List.mem_cons_self))

theorem piece_fundamentalProcCall (d : Dest) :
    Piece (d = .ret) (compileFundamentalProcCall d.target d.linkage).statements :=
  Piece.endWithLinkage (.plain rfl .nil)

theorem lambdaProcCall_ret (st : CompilerState) : (lambdaProcCall .ret st).1.statements
    = [.cadr .val .proc, .jmpval, .label ⟨.afterCall, st.labelCounter + 1⟩] := rfl

theorem lambdaProcCall_val (st : CompilerState) : (lambdaProcCall (.next .val) st).1.statements
    = [.movimm .cont (.label ⟨.afterCall, st.labelCounter + 1⟩), .cadr .val .proc, .jmpval,
        .label ⟨.afterCall, st.labelCounter + 1⟩] := rfl

theorem lambdaProcCall_next {target : Reg} (h : target ≠ .val) (st : CompilerState) :
    (lambdaProcCall (.next target) st).1.statements
      = [.movimm .cont (.label ⟨.procReturn, st.labelCounter + 2⟩), .cadr .val .proc, .jmpval,
          .label ⟨.procReturn, st.labelCounter + 2⟩, .mov target .val,
          .jmpimm ⟨.afterCall, st.labelCounter + 1⟩,
          .label ⟨.afterCall, st.labelCounter + 1⟩] := by
  simp only [lambdaProcCall, procAppl, if_neg h]
  rfl

theorem procCall_ret (st : CompilerState) : (procCall .ret st).1.statements
    = [.bpf ⟨.fundBranch, st.labelCounter + 1⟩, .label ⟨.compBranch, st.labelCounter + 2⟩,
        .cadr .val .proc, .jmpval, .label ⟨.fundBranch, st.labelCounter + 1⟩, .callf, .jmpcnt,
        .label ⟨.afterCall, st.labelCounter + 3⟩] := rfl

theorem procCall_val (st : CompilerState) : (procCall (.next .val) st).1.statements
    = [.bpf ⟨.fundBranch, st.labelCounter + 1⟩, .label ⟨.compBranch, st.labelCounter + 2⟩,
        .movimm .cont (.label ⟨.afterCall, st.labelCounter + 3⟩), .cadr .val .proc, .jmpval,
        .label ⟨.fundBranch, st.labelCounter + 1⟩, .callf,
        .label ⟨.afterCall, st.labelCounter + 3⟩] := rfl

theorem procCall_next {target : Reg} (h : target ≠ .val) (st : CompilerState) :
    (procCall (.next target) st).1.statements
      = [.bpf ⟨.fundBranch, st.labelCounter + 1⟩, .label ⟨.compBranch, st.labelCounter + 2⟩,
          .movimm .cont (.label ⟨.procReturn, st.labelCounter + 4⟩), .cadr .val .proc, .jmpval,
          .label ⟨.procReturn, st.labelCounter + 4⟩, .mov target .val,
          .jmpimm ⟨.afterCall, st.labelCounter + 3⟩,
          .label ⟨.fundBranch, st.labelCounter + 1⟩, .callf,
          .label ⟨.afterCall, st.labelCounter + 3⟩] := by
  simp only [procCall, procAppl, if_neg h]
  rfl

theorem piece_lambdaProcCall (d : Dest) (st : CompilerState) :
    Piece (d = .ret) (lambdaProcCall d st).1.statements := by
  cases d with
  | ret =>
    rw [lambdaProcCall_ret]
    exact ⟨by simp [Stmt.refersTo], fun s _ => ⟨_, rfl, by simp [Matched, Stmt.jumpsTo]⟩⟩
  | next target =>
    by_cases htarget : target = .val
    · subst htarget
      rw [lambdaProcCall_val]
      refine ⟨by simp [Stmt.refersTo, labels], fun s _ => ⟨_, rfl, ?_⟩⟩
      simp [Matched, Stmt.jumpsTo, Stmt.isLabel]
    · rw [lambdaProcCall_next htarget]
      refine ⟨by simp [Stmt.refersTo, labels], fun s _ => ⟨_, rfl, ?_⟩⟩
      simp [Matched, Stmt.jumpsTo, Stmt.isLabel]

theorem piece_procCall (d : Dest) (st : CompilerState) :
    Piece (d = .ret) (procCall d st).1.statements := by
  cases d with
  | ret =>
    rw [procCall_ret]
    refine ⟨by simp [Stmt.refersTo, labels], fun s hs => ⟨_, rfl, ?_⟩⟩
    simp [Matched, Stmt.jumpsTo, Stmt.isLabel, hs]
  | next target =>
    by_cases htarget : target = .val
    · subst htarget
      rw [procCall_val]
      refine ⟨by simp [Stmt.refersTo, labels], fun s _ => ⟨_, rfl, ?_⟩⟩
      simp [Matched, Stmt.jumpsTo, Stmt.isLabel]
    · rw [procCall_next htarget]
      refine ⟨by simp [Stmt.refersTo, labels], fun s _ => ⟨_, rfl, ?_⟩⟩
      simp [Matched, Stmt.jumpsTo, Stmt.isLabel]

theorem piece_callCode (operator : Expr) (d : Dest) (st : CompilerState) :
    Piece (d = .ret) (callCode operator d st).1.statements := by
  rw [callCode]
  split
  · exact piece_fundamentalProcCall d
  · split
    · exact piece_lambdaProcCall d st
    · exact piece_procCall d st

/-! ### Procedures -/

theorem piece_exenvargl (formals : List Sexp) : Piece False (appendInstrSeqs
    (formals.map fun p => ⟨[.argl], [.env], [.exenvargl p]⟩)).statements := by
  apply Piece.appendInstrSeqs
  intro s hs
  obtain ⟨p, -, rfl⟩ := List.mem_map.mp hs
  exact .plain rfl .nil

/-- The code that makes a procedure goes on behind its body. -/
theorem makeLambda_next (target : Reg) (procEntry afterLambda : Label) :
    (makeLambda (.next target) procEntry afterLambda).statements
      = [.movimm target (.datum Sexp.nil), .cons target .env, .consimm target (.label procEntry),
          .consimm target procSymbol, .jmpimm afterLambda] := rfl

theorem makeLambda_ret (procEntry afterLambda : Label) :
    (makeLambda .ret procEntry afterLambda).statements
      = [.movimm .val (.datum Sexp.nil), .cons .val .env, .consimm .val (.label procEntry),
          .consimm .val procSymbol, .jmpcnt] := rfl

/-- The body of a procedure stands behind the jump over it, with nothing saved. -/
theorem Piece.lambda {d : Dest} {n : Nat} {body : List Stmt} (hbody : Piece True body) :
    Piece (d = .ret) ((makeLambda d ⟨.entry, n⟩ ⟨.afterLambda, n + 1⟩).statements
      ++ (.label ⟨.entry, n⟩ :: body) ++ [.label ⟨.afterLambda, n + 1⟩]) := by
  have hlabels : labels ((makeLambda d ⟨.entry, n⟩ ⟨.afterLambda, n + 1⟩).statements
      ++ (.label ⟨.entry, n⟩ :: body) ++ [.label ⟨.afterLambda, n + 1⟩])
      = ⟨.entry, n⟩ :: (labels body ++ [⟨.afterLambda, n + 1⟩]) := by
    cases d <;> simp [makeLambda_next, makeLambda_ret, labels]
  refine ⟨fun stm hstm l hl => ?_, fun s hs => ?_⟩
  · rw [hlabels]
    simp only [List.mem_append, List.mem_cons, List.not_mem_nil, or_false] at hstm ⊢
    rcases hstm with (hmake | rfl | hmem) | rfl
    · cases d with
      | next target =>
        rw [makeLambda_next] at hmake
        simp only [List.mem_cons, List.not_mem_nil, or_false] at hmake
        rcases hmake with rfl | rfl | rfl | rfl | rfl <;>
          simp [Stmt.refersTo, procSymbol] at hl <;> simp [← hl]
      | ret =>
        rw [makeLambda_ret] at hmake
        simp only [List.mem_cons, List.not_mem_nil, or_false] at hmake
        rcases hmake with rfl | rfl | rfl | rfl | rfl <;> simp [Stmt.refersTo, procSymbol] at hl
        simp [← hl]
    · exact absurd hl (by simp [Stmt.refersTo])
    · exact Or.inr (Or.inl (hbody.placed stm hmem l hl))
    · exact absurd hl (by simp [Stmt.refersTo])
  · obtain ⟨ps, hscan, hps⟩ := hbody.balanced ⟨[], (n, s.saved) :: s.outer⟩ (fun _ => rfl)
    have hentry : scan s [.label ⟨.entry, n⟩]
        = some ([(.label ⟨.entry, n⟩, ⟨[], (n, s.saved) :: s.outer⟩)],
          ⟨[], (n, s.saved) :: s.outer⟩) := rfl
    have hafter : scan ⟨[], (n, s.saved) :: s.outer⟩ [.label ⟨.afterLambda, n + 1⟩]
        = some ([(.label ⟨.afterLambda, n + 1⟩, s)], s) := by
      simp [scan, Saves.step, Stmt.isLabel]
    have hmake : ∃ qs, scan s (makeLambda d ⟨.entry, n⟩ ⟨.afterLambda, n + 1⟩).statements
        = some (qs, s) ∧ ∀ p ∈ qs, (∀ l, p.1.jumpsTo = some l → (.label l, p.2)
          = ((.label ⟨.afterLambda, n + 1⟩, s) : Stmt × Saves))
          ∧ (p.1 = .jmpcnt → p.2.saved = []) := by
      cases d with
      | next target =>
        refine ⟨_, rfl, ?_⟩
        simp [Stmt.jumpsTo, procSymbol, Stmt.isLabel]
      | ret =>
        refine ⟨_, rfl, ?_⟩
        simp [Stmt.jumpsTo, procSymbol, Stmt.isLabel, hs]
    obtain ⟨qs, hqscan, hqs⟩ := hmake
    have hall := scan_append (scan_append hqscan (scan_append hentry hscan)) hafter
    refine ⟨_, hall, fun p hp => ?_⟩
    simp only [List.mem_append, List.mem_singleton] at hp ⊢
    rcases hp with (hq | rfl | hp) | rfl
    · exact ⟨fun l hl => Or.inr ((hqs p hq).1 l hl), (hqs p hq).2⟩
    · simp [Stmt.jumpsTo]
    · exact ⟨fun l hl => Or.inl (Or.inr (Or.inr ((hps p hp).1 l hl))), (hps p hp).2⟩
    · simp [Stmt.jumpsTo]

/-! ### Every form -/

theorem piece_operatorCode (operator : Expr) {code : InstrSeq × CompilerState} (st : CompilerState)
    (h : Piece False code.1.statements) :
    Piece False (operatorCode operator code st).1.statements := by
  rw [operatorCode]
  split
  · exact .plain rfl .nil
  · exact h

theorem next_ne_ret {target : Reg} (h : Dest.next target = .ret) : False := by
  cases h

theorem Piece.ofNext {target : Reg} {c : List Stmt} (h : Piece (Dest.next target = .ret) c) :
    Piece False c :=
  ⟨h.placed, fun s _ => h.balanced s fun hret => (next_ne_ret hret).elim⟩

mutual

theorem Expr.piece : ∀ (e : Expr) (d : Dest) (st : CompilerState),
    Piece (d = .ret) (e.compile d st).1.statements
  | .const e _, d, st => by
    rw [Expr.compile]
    exact Piece.endWithLinkage (.plain rfl .nil)
  | .sym s _, d, st => by
    rw [Expr.compile]
    exact Piece.endWithLinkage (.plain rfl .nil)
  | .quote q, d, st => by
    rw [Expr.compile]
    exact Piece.endWithLinkage (q.piece_compile d.target)
  | .define var e, d, st => by
    rw [Expr.compile]
    exact Piece.endWithLinkage ((e.piece (.next .val) _).ofNext.append
      (.plain rfl (.plain rfl .nil)))
  | .lambda formals body, d, st => by
    rw [Expr.compile]
    have hbody : Piece True (.caddr .env .proc :: (appendInstrSeqs
        (formals.map fun p => ⟨[.argl], [.env], [.exenvargl p]⟩)).statements
        ++ (body.compile .ret (mkLabel .afterLambda (mkLabel .entry st).2).2).1.statements) := by
      have hret := body.piece .ret (mkLabel .afterLambda (mkLabel .entry st).2).2
      exact .append (.plain rfl (piece_exenvargl formals))
        ⟨hret.placed, fun s hs => hret.balanced s fun _ => hs trivial⟩
    exact Piece.lambda hbody
  | .letIn bindings body, d, st => by
    rw [Expr.compile]
    exact (Piece.appendInstrSeqs (bindings.piece st)).append (body.piece d _)
  | .progn body, d, st => by
    rw [Expr.compile]
    exact body.piece d st
  | .app operator operands, d, st => by
    rw [Expr.compile]
    have hargs := piece_constructArglist (operands.piece
      (operatorCode operator (operator.compile (.next .proc) st) st).2)
    exact .preserving (.preserving (piece_callCode operator d _) _ hargs) _
      (piece_operatorCode operator st (operator.piece (.next .proc) st).ofNext)

theorem Exprs.piece : ∀ (es : Exprs) (st : CompilerState),
    ∀ s ∈ (es.compile st).1, Piece False s.statements
  | .nil, st, s, hs => by
    rw [Exprs.compile] at hs
    exact absurd hs (by simp)
  | .cons e es, st, s, hs => by
    rw [Exprs.compile] at hs
    rcases List.mem_cons.mp hs with rfl | hmem
    · exact (e.piece (.next .val) st).ofNext
    · exact es.piece _ s hmem

theorem Bindings.piece : ∀ (bs : Bindings) (st : CompilerState),
    ∀ s ∈ (bs.compile st).1, Piece False s.statements
  | .nil, st, s, hs => by
    rw [Bindings.compile] at hs
    exact absurd hs (by simp)
  | .cons key e bs, st, s, hs => by
    rw [Bindings.compile] at hs
    rcases List.mem_cons.mp hs with rfl | hmem
    · exact (e.piece (.next .val) st).ofNext.append (.plain rfl .nil)
    · exact bs.piece _ s hmem

theorem Body.piece : ∀ (b : Body) (d : Dest) (st : CompilerState),
    Piece (d = .ret) (b.compile d st).1.statements
  | .last e, d, st => by
    rw [Body.compile]
    exact e.piece d st
  | .cons e rest, d, st => by
    rw [Body.compile]
    exact .preserving (rest.piece d _) _ (e.piece (.next d.target) st).ofNext

end

/-! ## Labels -/

/-- Distinct labels with numbers above `lo` and up to `hi`. -/
structure Fresh (lo hi : Nat) (ls : List Label) : Prop where
  le : lo ≤ hi
  nodup : ls.Nodup
  above : ∀ l ∈ ls, lo < l.number
  upTo : ∀ l ∈ ls, l.number ≤ hi

section

variable {lo mid hi : Nat} {ls ks : List Label}

theorem Fresh.nil (n : Nat) : Fresh n n [] :=
  ⟨Nat.le_refl n, List.nodup_nil, by simp, by simp⟩

theorem Fresh.append (h₁ : Fresh lo mid ls) (h₂ : Fresh mid hi ks) : Fresh lo hi (ls ++ ks) := by
  refine ⟨Nat.le_trans h₁.le h₂.le, List.nodup_append.mpr ⟨h₁.nodup, h₂.nodup, ?_⟩, ?_, ?_⟩
  · intro l hl k hk heq
    have hbelow := h₁.upTo l hl
    have habove := h₂.above k hk
    rw [heq] at hbelow
    omega
  · intro l hl
    rcases List.mem_append.mp hl with h | h
    · exact h₁.above l h
    · exact Nat.lt_of_le_of_lt h₁.le (h₂.above l h)
  · intro l hl
    rcases List.mem_append.mp hl with h | h
    · exact Nat.le_trans (h₁.upTo l h) h₂.le
    · exact h₂.upTo l h

theorem Fresh.perm (h : Fresh lo hi ls) (hp : ls.Perm ks) : Fresh lo hi ks :=
  ⟨h.le, hp.nodup_iff.mp h.nodup, fun l hl => h.above l (hp.mem_iff.mpr hl),
    fun l hl => h.upTo l (hp.mem_iff.mpr hl)⟩

end

/-- The labels of several sequences, in order. -/
def labelsOf (seqs : List InstrSeq) : List Label := seqs.flatMap fun s => labels s.statements

theorem labels_preserving (regs : List Reg) (s₁ s₂ : InstrSeq) :
    labels (preserving regs s₁ s₂).statements
      = labels s₁.statements ++ labels s₂.statements := by
  induction regs generalizing s₁ with
  | nil => simp [preserving, appendInstrSeqs, appendTwoInstrSeqs, emptyInstrSeq]
  | cons r regs ih =>
    rw [preserving]
    split
    · rw [ih]
      simp [saving, labels]
    · exact ih s₁

theorem labels_appendInstrSeqs (seqs : List InstrSeq) :
    labels (appendInstrSeqs seqs).statements = labelsOf seqs := by
  induction seqs with
  | nil => rfl
  | cons s seqs ih =>
    show labels (s.statements ++ (appendInstrSeqs seqs).statements) = _
    rw [labels_append, ih]
    rfl

theorem labels_endWithLinkage (d : Dest) (s : InstrSeq) :
    labels (endWithLinkage d.linkage s).statements = labels s.statements := by
  rw [endWithLinkage, labels_preserving]
  cases d <;> exact List.append_nil _

theorem labels_getRestArgs (rest : List InstrSeq) (s : InstrSeq) :
    labels (getRestArgs s rest).statements = labelsOf (s :: rest) := by
  have hnext : ∀ s : InstrSeq, labels (codeForNextArg s).statements = labels s.statements := by
    intro s
    rw [codeForNextArg, labels_preserving]
    exact List.append_nil _
  induction rest generalizing s with
  | nil => simp [getRestArgs, hnext, labelsOf]
  | cons t rest ih =>
    rw [getRestArgs, labels_preserving, hnext, ih]
    rfl

/-- The operands are evaluated from the last to the first. -/
theorem labels_constructArglist (codes : List InstrSeq) :
    labels (constructArglist codes).statements = labelsOf codes.reverse := by
  have hfst : ∀ s : InstrSeq, labels (addFstArgument s).statements = labels s.statements := by
    intro s
    simp [addFstArgument, appendTwoInstrSeqs, labels]
  rw [constructArglist]
  cases codes.reverse with
  | nil => rfl
  | cons s rest =>
    cases rest with
    | nil => simp [hfst, labelsOf]
    | cons t rest =>
      show labels (preserving _ (addFstArgument s) (getRestArgs t rest)).statements = _
      rw [labels_preserving, hfst, labels_getRestArgs]
      rfl

theorem labels_constructArglist_perm (codes : List InstrSeq) :
    (labelsOf codes).Perm (labels (constructArglist codes).statements) := by
  rw [labels_constructArglist]
  exact (List.reverse_perm codes).symm.flatMap_right _

mutual

theorem Data.labels_compileNest (target : Reg) :
    ∀ q : Data, labels (q.compileNest target).statements = []
  | .atom q _ => by
    rw [Data.compileNest]
    rfl
  | .list first rest => by
    rw [Data.compileNest]
    show labels ([.push target, .movimm target (.datum Sexp.nil)] ++ ((appendInstrSeqs
      (first.compileNest target :: Data.compileNests target rest).reverse).statements ++
      [.mov .argl target, .pop target, .cons target .argl])) = []
    have hparts : labelsOf
        (first.compileNest target :: Data.compileNests target rest).reverse = [] := by
      rw [labelsOf, List.flatMap_eq_nil_iff]
      intro s hs
      rcases List.mem_cons.mp (List.mem_reverse.mp hs) with rfl | hmem
      · exact first.labels_compileNest target
      · exact Data.labels_compileNests target rest s hmem
    rw [labels_append, labels_append, labels_appendInstrSeqs, hparts]
    rfl

theorem Data.labels_compileNests (target : Reg) :
    ∀ (qs : List Data), ∀ s ∈ Data.compileNests target qs, labels s.statements = []
  | [], s, hs => by
    rw [Data.compileNests] at hs
    exact absurd hs (by simp)
  | q :: qs, s, hs => by
    rw [Data.compileNests] at hs
    rcases List.mem_cons.mp hs with rfl | hmem
    · exact q.labels_compileNest target
    · exact Data.labels_compileNests target qs s hmem

end

theorem Data.labels_compile (target : Reg) (q : Data) :
    labels (q.compile target).statements = [] := by
  cases q with
  | atom q hq => rfl
  | list first rest =>
    rw [Data.compile]
    show labels ([.movimm target (.datum Sexp.nil)] ++
      (appendInstrSeqs (Data.compileNests target (first :: rest)).reverse).statements) = []
    have hparts : labelsOf (Data.compileNests target (first :: rest)).reverse = [] := by
      rw [labelsOf, List.flatMap_eq_nil_iff]
      intro s hs
      exact Data.labels_compileNests target (first :: rest) s (List.mem_reverse.mp hs)
    rw [labels_append, labels_appendInstrSeqs, hparts]
    rfl

theorem fresh_lambdaProcCall (d : Dest) (st : CompilerState) :
    Fresh st.labelCounter (lambdaProcCall d st).2.labelCounter
      (labels (lambdaProcCall d st).1.statements) := by
  cases d with
  | ret =>
    show Fresh _ (st.labelCounter + 1) _
    rw [lambdaProcCall_ret]
    constructor <;> simp [labels]
  | next target =>
    by_cases htarget : target = .val
    · subst htarget
      show Fresh _ (st.labelCounter + 1) _
      rw [lambdaProcCall_val]
      constructor <;> simp [labels]
    · have hcount : (lambdaProcCall (.next target) st).2.labelCounter = st.labelCounter + 2 := by
        simp only [lambdaProcCall, procAppl, if_neg htarget]
        rfl
      rw [lambdaProcCall_next htarget, hcount]
      constructor <;> simp [labels]

theorem fresh_procCall (d : Dest) (st : CompilerState) :
    Fresh st.labelCounter (procCall d st).2.labelCounter (labels (procCall d st).1.statements) := by
  cases d with
  | ret =>
    show Fresh _ (st.labelCounter + 3) _
    rw [procCall_ret]
    constructor <;> simp [labels]
  | next target =>
    by_cases htarget : target = .val
    · subst htarget
      show Fresh _ (st.labelCounter + 3) _
      rw [procCall_val]
      constructor <;> simp [labels]
    · have hcount : (procCall (.next target) st).2.labelCounter = st.labelCounter + 4 := by
        simp only [procCall, procAppl, if_neg htarget]
        rfl
      rw [procCall_next htarget, hcount]
      constructor <;> simp [labels]

theorem fresh_callCode (operator : Expr) (d : Dest) (st : CompilerState) :
    Fresh st.labelCounter (callCode operator d st).2.labelCounter
      (labels (callCode operator d st).1.statements) := by
  rw [callCode]
  split
  · rw [compileFundamentalProcCall, labels_endWithLinkage]
    exact Fresh.nil _
  · split
    · exact fresh_lambdaProcCall d st
    · exact fresh_procCall d st

theorem labelCounter_newIndirection (sym : Sexp) (st : CompilerState) :
    (newIndirection sym st).2.labelCounter = st.labelCounter := by
  rw [newIndirection]
  split <;> rfl

theorem fresh_operatorCode (operator : Expr) {code : InstrSeq × CompilerState} {st : CompilerState}
    (h : Fresh st.labelCounter code.2.labelCounter (labels code.1.statements)) :
    Fresh st.labelCounter (operatorCode operator code st).2.labelCounter
      (labels (operatorCode operator code st).1.statements) := by
  rw [operatorCode]
  split
  · exact Fresh.nil _
  · exact h

mutual

theorem Expr.fresh : ∀ (e : Expr) (d : Dest) (st : CompilerState),
    Fresh st.labelCounter (e.compile d st).2.labelCounter (labels (e.compile d st).1.statements)
  | .const e _, d, st => by
    rw [Expr.compile, compileSelfEvaluating, labels_endWithLinkage]
    exact Fresh.nil _
  | .sym s _, d, st => by
    rw [Expr.compile, compileSymbol]
    simp only [labels_endWithLinkage, labelCounter_newIndirection]
    exact Fresh.nil _
  | .quote q, d, st => by
    rw [Expr.compile, labels_endWithLinkage, q.labels_compile]
    exact Fresh.nil _
  | .define var e, d, st => by
    have he := e.fresh (.next .val) (newIndirection var st).2
    rw [labelCounter_newIndirection] at he
    rw [Expr.compile]
    simp only [labels_endWithLinkage, appendTwoInstrSeqs, labels_append]
    simpa [labels] using he
  | .lambda formals body, d, st => by
    have hbody := body.fresh .ret (mkLabel .afterLambda (mkLabel .entry st).2).2
    have hformals : labelsOf (formals.map fun p => ⟨[.argl], [.env], [.exenvargl p]⟩) = [] := by
      simp [labelsOf, labels]
    have hown : Fresh st.labelCounter (st.labelCounter + 2)
        [⟨.entry, st.labelCounter + 1⟩, ⟨.afterLambda, st.labelCounter + 2⟩] := by
      constructor <;> simp
    have hmake : labels (makeLambda d ⟨.entry, st.labelCounter + 1⟩
        ⟨.afterLambda, st.labelCounter + 2⟩).statements = [] := by
      cases d <;> rfl
    rw [Expr.compile]
    show Fresh _ _ (labels ((makeLambda d ⟨.entry, st.labelCounter + 1⟩
      ⟨.afterLambda, st.labelCounter + 2⟩).statements ++ ([.label ⟨.entry, st.labelCounter + 1⟩,
        .caddr .env .proc] ++ (appendInstrSeqs (formals.map fun p =>
          ⟨[.argl], [.env], [.exenvargl p]⟩)).statements ++ (body.compile .ret
            (mkLabel .afterLambda (mkLabel .entry st).2).2).1.statements)
        ++ [.label ⟨.afterLambda, st.labelCounter + 2⟩]))
    simp only [labels_append, hmake, labels_appendInstrSeqs, hformals, List.nil_append,
      List.append_nil]
    -- the label behind the body has the second number
    apply (hown.append hbody).perm
    exact List.Perm.cons _ List.perm_append_comm
  | .letIn bindings body, d, st => by
    have hbs := bindings.fresh st
    have he := body.fresh d (bindings.compile st).2
    rw [Expr.compile]
    simp only [appendTwoInstrSeqs, labels_append, labels_appendInstrSeqs]
    exact hbs.append he
  | .progn body, d, st => by
    rw [Expr.compile]
    exact body.fresh d st
  | .app operator operands, d, st => by
    have hop := fresh_operatorCode operator (operator.fresh (.next .proc) st)
    have hargs := operands.fresh (operatorCode operator (operator.compile (.next .proc) st) st).2
    have hcall := fresh_callCode operator d (operands.compile
      (operatorCode operator (operator.compile (.next .proc) st) st).2).2
    rw [Expr.compile]
    simp only [labels_preserving]
    exact hop.append ((hargs.perm (labels_constructArglist_perm _)).append hcall)

theorem Exprs.fresh : ∀ (es : Exprs) (st : CompilerState),
    Fresh st.labelCounter (es.compile st).2.labelCounter (labelsOf (es.compile st).1)
  | .nil, st => by
    rw [Exprs.compile]
    exact Fresh.nil _
  | .cons e es, st => by
    have he := e.fresh (.next .val) st
    have hes := es.fresh (e.compile (.next .val) st).2
    rw [Exprs.compile]
    exact he.append hes

theorem Bindings.fresh : ∀ (bs : Bindings) (st : CompilerState),
    Fresh st.labelCounter (bs.compile st).2.labelCounter (labelsOf (bs.compile st).1)
  | .nil, st => by
    rw [Bindings.compile]
    exact Fresh.nil _
  | .cons key e bs, st => by
    have he := e.fresh (.next .val) st
    have hbs := bs.fresh (newIndirection key (e.compile (.next .val) st).2).2
    rw [labelCounter_newIndirection] at hbs
    rw [Bindings.compile]
    have hall := he.append hbs
    simpa [labelsOf, appendTwoInstrSeqs, labels] using hall

theorem Body.fresh : ∀ (b : Body) (d : Dest) (st : CompilerState),
    Fresh st.labelCounter (b.compile d st).2.labelCounter (labels (b.compile d st).1.statements)
  | .last e, d, st => by
    rw [Body.compile]
    exact e.fresh d st
  | .cons e rest, d, st => by
    have he := e.fresh (.next d.target) st
    have hrest := rest.fresh d (e.compile (.next d.target) st).2
    rw [Body.compile]
    simp only [labels_preserving]
    exact he.append hrest

end

/-! ## Programs -/

theorem Piece.wellStructured {c : List Stmt} (h : Piece False c) (hnodup : (labels c).Nodup) :
    WellStructured c :=
  ⟨hnodup, h.placed, h.balanced .start (by simp)⟩

/-- The compiler emits well structured code for every program of the grammar. -/
theorem compileProgram_wellStructured (program : Body) (st : CompilerState) (fuel : Nat)
    (hwf : program.Wf) (hfuel : program.size ≤ fuel) :
    ∃ seq st', compileProgram fuel (Sexp.list program.toSexps) st = some (seq, st') ∧
      WellStructured seq.statements := by
  have hcompile := compileProgn_toSexps program (.next .val) st fuel hwf hfuel
  have hpiece : Piece False ((program.compile (.next .val) st).1.statements ++ [.done]) :=
    (program.piece (.next .val) st).ofNext.append (.plain rfl .nil)
  have hlabels : labels ((program.compile (.next .val) st).1.statements ++ [.done])
      = labels (program.compile (.next .val) st).1.statements := by
    rw [labels_append]
    exact List.append_nil _
  refine ⟨appendTwoInstrSeqs (program.compile (.next .val) st).1 ⟨[], [], [.done]⟩,
    (program.compile (.next .val) st).2, ?_, ?_⟩
  · rw [compileProgram]
    show (compileProgn (compileInstrList fuel) (Sexp.list program.toSexps) .val .next st).bind _ = _
    rw [show compileProgn (compileInstrList fuel) _ .val .next st = _ from hcompile,
      Option.bind_some]
  · apply hpiece.wellStructured
    rw [hlabels]
    exact (program.fresh (.next .val) st).nodup

def symF : Expr := .sym (.name (cstring "f")) rfl

def symX : Expr := .sym (.name (cstring "x")) rfl

/-- `(define f (lambda (x) (progn (f x) x)))` and `(f 'x)`. -/
def callsInLambda : Body :=
  .cons (.define (.name (cstring "f")) (.lambda [.name (cstring "x")]
      (.progn (.cons (.app symF (.cons symX .nil)) (.last symX)))))
    (.last (.app symF (.cons (.quote (.atom (.name (cstring "x")) rfl)) .nil)))

theorem wellStructured_callsInLambda :
    ∃ seq st', compileProgram 20 (Sexp.list callsInLambda.toSexps) .initial = some (seq, st') ∧
      WellStructured seq.statements := by
  have hf : symF.toSexp ∉ keywords := by decide
  apply compileProgram_wellStructured callsInLambda .initial 20
  · simp [callsInLambda, Body.Wf, Expr.Wf, Exprs.Wf, symX, hf]
    simp [symF, Expr.Wf]
  · decide

end Compiler

end LispBM
