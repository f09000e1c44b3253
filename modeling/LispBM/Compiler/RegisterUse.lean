import LispBM.Compiler.Paths

/-!
# LispBM — what the register lists promise

A sequence with linkage `next` is read along its paths: the registers it reads before it writes
them, those it writes and does not restore, and the statement that writes its target last.
-/

namespace LispBM

namespace Compiler

open Tokpar (Sexp)

/-! ## Registers along a path -/

def readFirst : List Stmt → List Reg
  | [] => []
  | stm :: w => stm.reads ++ listDiff (readFirst w) stm.writes

def overwritten (w : List Stmt) : List Reg := w.flatMap Stmt.writes

/-- The registers that are written while they are not saved. -/
def unrestored : List Reg → List Stmt → List Reg
  | _, [] => []
  | saved, .push r :: w => unrestored (r :: saved) w
  | saved, .pop _ :: w => unrestored saved.tail w
  | saved, stm :: w => listDiff stm.writes saved ++ unrestored saved w

def stackAfter : List Reg → List Stmt → List Reg
  | saved, [] => saved
  | saved, .push r :: w => stackAfter (r :: saved) w
  | saved, .pop _ :: w => stackAfter saved.tail w
  | saved, _ :: w => stackAfter saved w

section

variable {u v w : List Stmt} {r : Reg} {saved regs : List Reg}

theorem mem_readFirst_append : r ∈ readFirst (u ++ v) ↔
    r ∈ readFirst u ∨ r ∉ overwritten u ∧ r ∈ readFirst v := by
  induction u with
  | nil => simp [readFirst, overwritten]
  | cons stm u ih =>
    simp only [List.cons_append, readFirst, List.mem_append, mem_listDiff, ih, overwritten,
      List.flatMap_cons, not_or]
    grind

theorem mem_overwritten_append : r ∈ overwritten (u ++ v) ↔
    r ∈ overwritten u ∨ r ∈ overwritten v := by
  simp [overwritten]

/-- A path that gives back what it saves. -/
def Calm (w : List Stmt) : Prop :=
  ∀ saved, stackAfter saved w = saved ∧
    ∀ r, r ∈ unrestored saved w ↔ r ∈ unrestored [] w ∧ r ∉ saved

theorem stackAfter_append : stackAfter saved (u ++ v) = stackAfter (stackAfter saved u) v := by
  induction u generalizing saved with
  | nil => rfl
  | cons stm u ih => cases stm <;> exact ih

theorem unrestored_append :
    unrestored saved (u ++ v) = unrestored saved u ++ unrestored (stackAfter saved u) v := by
  induction u generalizing saved with
  | nil => rfl
  | cons stm u ih =>
    cases stm with
    | push r => exact ih
    | pop r => exact ih
    | _ => simp only [List.cons_append, unrestored, stackAfter, ih, List.append_assoc]

theorem Calm.nil : Calm [] := by
  intro saved
  simp [stackAfter, unrestored]

theorem mem_unrestored_append (hu : Calm u) : r ∈ unrestored saved (u ++ v) ↔
    r ∈ unrestored saved u ∨ r ∈ unrestored saved v := by
  rw [unrestored_append, (hu saved).1, List.mem_append]

theorem Calm.append (hu : Calm u) (hv : Calm v) : Calm (u ++ v) := by
  intro saved
  constructor
  · rw [stackAfter_append, (hu saved).1, (hv saved).1]
  · intro r
    rw [mem_unrestored_append hu, mem_unrestored_append hu, (hu saved).2 r, (hv saved).2 r,
      ← or_and_right]

/-- Neither `push` nor `pop`. -/
def Stmt.IsLevel (stm : Stmt) : Prop :=
  (∀ r, stm ≠ .push r) ∧ ∀ r, stm ≠ .pop r

theorem Calm.cons {stm : Stmt} (h : stm.IsLevel) (hw : Calm w) : Calm (stm :: w) := by
  have hstack : ∀ saved, stackAfter saved (stm :: w) = stackAfter saved w := by
    intro saved
    cases stm with
    | push r => exact absurd rfl (h.1 r)
    | pop r => exact absurd rfl (h.2 r)
    | _ => rfl
  have hunrestored : ∀ saved, unrestored saved (stm :: w)
      = listDiff stm.writes saved ++ unrestored saved w := by
    intro saved
    cases stm with
    | push r => exact absurd rfl (h.1 r)
    | pop r => exact absurd rfl (h.2 r)
    | _ => rfl
  intro saved
  refine ⟨(hstack saved).trans (hw saved).1, fun r => ?_⟩
  rw [hunrestored, hunrestored, List.mem_append, List.mem_append, mem_listDiff, mem_listDiff,
    (hw saved).2 r]
  simp only [List.not_mem_nil, not_false_eq_true, and_true]
  grind

theorem Calm.saving (r : Reg) (hw : Calm w) : Calm ([.push r] ++ (w ++ [.pop r])) ∧
    ∀ x, x ∈ unrestored [] ([.push r] ++ (w ++ [.pop r])) ↔ x ∈ unrestored [] w ∧ x ≠ r := by
  have hunrestored : ∀ saved, unrestored saved ([.push r] ++ (w ++ [.pop r]))
      = unrestored (r :: saved) w := by
    intro saved
    show unrestored (r :: saved) (w ++ [.pop r]) = _
    rw [unrestored_append, (hw (r :: saved)).1]
    exact List.append_nil _
  refine ⟨fun saved => ⟨?_, fun x => ?_⟩, fun x => ?_⟩
  · show stackAfter (r :: saved) (w ++ [.pop r]) = saved
    rw [stackAfter_append, (hw (r :: saved)).1]
    rfl
  · rw [hunrestored, hunrestored, (hw (r :: saved)).2 x, (hw [r]).2 x, List.mem_cons,
      List.mem_singleton]
    grind
  · rw [hunrestored, (hw [r]).2 x, List.mem_singleton]

theorem Calm.wrap (regs : List Reg) : ∀ {w : List Stmt}, Calm w → Calm (wrap regs w) := by
  induction regs with
  | nil => exact fun h => h
  | cons r regs ih => exact fun h => ih (h.saving r).1

theorem mem_unrestored_wrap (regs : List Reg) : ∀ {w : List Stmt}, Calm w →
    (r ∈ unrestored [] (wrap regs w) ↔ r ∈ unrestored [] w ∧ r ∉ regs) := by
  induction regs with
  | nil =>
    intro w _
    simp [wrap]
  | cons x regs ih =>
    intro w h
    rw [wrap, ih (h.saving x).1, (h.saving x).2, List.mem_cons, not_or, and_assoc]

theorem mem_overwritten_wrap (regs : List Reg) : ∀ {w : List Stmt},
    r ∈ overwritten (wrap regs w) ↔ r ∈ regs ∨ r ∈ overwritten w := by
  induction regs with
  | nil =>
    intro w
    simp [wrap]
  | cons x regs ih =>
    intro w
    rw [wrap, ih]
    simp only [overwritten, List.flatMap_append, List.flatMap_cons, List.flatMap_nil, Stmt.writes,
      List.mem_append, List.mem_cons, List.not_mem_nil, or_false, false_or]
    grind

theorem mem_readFirst_wrap (regs : List Reg) : ∀ {w : List Stmt},
    r ∈ readFirst (wrap regs w) ↔ r ∈ regs ∨ r ∈ readFirst w := by
  induction regs with
  | nil =>
    intro w
    simp [wrap]
  | cons x regs ih =>
    intro w
    rw [wrap, ih, mem_readFirst_append, mem_readFirst_append]
    simp only [readFirst, overwritten, List.flatMap_cons, List.flatMap_nil, Stmt.writes, Stmt.reads,
      List.mem_append, List.mem_cons, List.not_mem_nil, mem_listDiff]
    grind

end

/-! ## Sequences and their lists -/

/-- A sequence with its paths: it reads first at most the registers of `needs`, overwrites those of
`sets`, and lists what it modifies, `val` apart. -/
structure InstrSeq.Uses (needs sets : Reg → Prop) (s : InstrSeq) : Prop where
  closed : Closed s.statements
  runs : ∃ w, Path s.statements w
  calm : ∀ w, Path s.statements w → Calm w
  reads : ∀ w, Path s.statements w → ∀ r ∈ readFirst w, needs r
  writes : ∀ w, Path s.statements w → ∀ r, sets r → r ∈ overwritten w
  lists : ∀ w, Path s.statements w → ∀ r ∈ unrestored [] w, r ≠ .val → r ∈ s.regsModified

section

variable {needs needs₁ needs₂ sets sets₁ sets₂ : Reg → Prop} {s s₁ s₂ : InstrSeq}

theorem InstrSeq.Uses.mono (h : s.Uses needs₁ sets₁) (hneeds : ∀ r, needs₁ r → needs r)
    (hsets : ∀ r, sets r → sets₁ r) : s.Uses needs sets :=
  ⟨h.closed, h.runs, h.calm, fun w hw r hr => hneeds r (h.reads w hw r hr),
    fun w hw r hr => h.writes w hw r (hsets r hr), h.lists⟩

theorem InstrSeq.Uses.appendTwo (h₁ : s₁.Uses needs₁ sets₁) (h₂ : s₂.Uses needs₂ sets₂) :
    (appendTwoInstrSeqs s₁ s₂).Uses (fun r => needs₁ r ∨ needs₂ r ∧ ¬sets₁ r)
      (fun r => sets₁ r ∨ sets₂ r) := by
  have hpath : ∀ w, Path (appendTwoInstrSeqs s₁ s₂).statements w ↔
      ∃ u v, Path s₁.statements u ∧ Path s₂.statements v ∧ w = u ++ v :=
    fun w => path_append h₁.closed h₂.closed
  constructor
  · exact h₁.closed.append h₂.closed
  · obtain ⟨u, hu⟩ := h₁.runs
    obtain ⟨v, hv⟩ := h₂.runs
    exact ⟨u ++ v, (hpath _).mpr ⟨u, v, hu, hv, rfl⟩⟩
  all_goals
    intro w hw
    obtain ⟨u, v, hu, hv, rfl⟩ := (hpath w).mp hw
  · exact (h₁.calm u hu).append (h₂.calm v hv)
  · intro r hr
    rcases mem_readFirst_append.mp hr with h | h
    · exact Or.inl (h₁.reads u hu r h)
    · exact Or.inr ⟨h₂.reads v hv r h.2, fun hs => h.1 (h₁.writes u hu r hs)⟩
  · intro r hr
    exact mem_overwritten_append.mpr (hr.imp (h₁.writes u hu r) (h₂.writes v hv r))
  · intro r hr hne
    rw [mem_modified_appendTwo]
    rcases (mem_unrestored_append (h₁.calm u hu)).mp hr with h | h
    · exact Or.inl (h₁.lists u hu r h hne)
    · exact Or.inr (h₂.lists v hv r h hne)

theorem InstrSeq.Uses.preserving (h₁ : s₁.Uses needs₁ sets₁) (h₂ : s₂.Uses needs₂ sets₂)
    (regs : List Reg) : (preserving regs s₁ s₂).Uses
      (fun r => needs₁ r ∨ needs₂ r ∧ ¬sets₁ r ∨ r ∈ regs ∧ r ∈ s₂.regsNeeded)
      (fun r => sets₁ r ∨ sets₂ r) := by
  obtain ⟨saved, hsaved, hpath⟩ := path_preserving h₁.closed h₂.closed regs
  constructor
  · exact h₁.closed.preserving h₂.closed regs
  · obtain ⟨u, hu⟩ := h₁.runs
    obtain ⟨v, hv⟩ := h₂.runs
    exact ⟨_, (hpath _).mpr ⟨u, v, hu, hv, rfl⟩⟩
  all_goals
    intro w hw
    obtain ⟨u, v, hu, hv, rfl⟩ := (hpath w).mp hw
  · exact ((h₁.calm u hu).wrap saved).append (h₂.calm v hv)
  · intro r hr
    rcases mem_readFirst_append.mp hr with h | h
    · rcases (mem_readFirst_wrap saved).mp h with h | h
      · have hmem := (hsaved r).mp h
        exact Or.inr (Or.inr ⟨hmem.1, hmem.2.1⟩)
      · exact Or.inl (h₁.reads u hu r h)
    · refine Or.inr (Or.inl ⟨h₂.reads v hv r h.2, fun hs => h.1 ?_⟩)
      exact (mem_overwritten_wrap saved).mpr (Or.inr (h₁.writes u hu r hs))
  · intro r hr
    rw [mem_overwritten_append, mem_overwritten_wrap]
    exact hr.imp (fun h => Or.inr (h₁.writes u hu r h)) (h₂.writes v hv r)
  · intro r hr hne
    rw [mem_modified_preserving]
    rcases (mem_unrestored_append ((h₁.calm u hu).wrap saved)).mp hr with h | h
    · obtain ⟨hin, hout⟩ := (mem_unrestored_wrap saved (h₁.calm u hu)).mp h
      have hmod := h₁.lists u hu r hin hne
      exact Or.inl ⟨hmod, fun hboth => hout ((hsaved r).mpr ⟨hboth.1, hboth.2, hmod⟩)⟩
    · exact Or.inr (h₂.lists v hv r h hne)

/-- A sequence without jumps that saves nothing. -/
theorem InstrSeq.Uses.straight {needed modified : List Reg} {c : List Stmt}
    (hstraight : ∀ stm ∈ c, stm.Straight) (hcalm : Calm c) (hreads : ∀ r ∈ readFirst c, needs r)
    (hwrites : ∀ r, sets r → r ∈ overwritten c)
    (hlists : ∀ r ∈ unrestored [] c, r ≠ .val → r ∈ modified) :
    InstrSeq.Uses needs sets ⟨needed, modified, c⟩ := by
  have hpath : ∀ w, Path c w ↔ w = c := fun w => path_straight hstraight
  constructor
  · exact .straight hstraight
  · exact ⟨c, (hpath c).mpr rfl⟩
  all_goals
    intro w hw
    obtain rfl := (hpath w).mp hw
  · exact hcalm
  · exact hreads
  · exact hwrites
  · exact hlists

theorem uses_empty : emptyInstrSeq.Uses (fun _ => False) (fun _ => False) :=
  .straight (by simp) .nil (by simp [readFirst]) (by simp) (by simp [unrestored])

theorem InstrSeq.Uses.endWithNext (h : s.Uses needs sets) :
    (endWithLinkage .next s).Uses needs sets := by
  rw [endWithLinkage_next]
  exact (h.appendTwo uses_empty).mono (by simp) (by simp)

theorem uses_appendInstrSeqs {seqs : List InstrSeq}
    (h : ∀ s ∈ seqs, s.Uses needs (fun _ => False)) :
    (appendInstrSeqs seqs).Uses needs (fun _ => False) := by
  induction seqs with
  | nil => exact uses_empty.mono (by simp) (by simp)
  | cons s seqs ih =>
    have hseqs := ih fun x hx => h x (List.mem_cons_of_mem _ hx)
    exact ((h s List.mem_cons_self).appendTwo hseqs).mono (by simp) (by simp)

theorem InstrSeq.Uses.congr {s' : InstrSeq} (h : s.Uses needs sets)
    (hstatements : s'.statements = s.statements)
    (hmodified : ∀ r ∈ s.regsModified, r ∈ s'.regsModified) : s'.Uses needs sets := by
  obtain ⟨hclosed, hruns, hcalm, hreads, hwrites, hlists⟩ := h
  rw [← hstatements] at hclosed hruns hcalm hreads hwrites hlists
  exact ⟨hclosed, hruns, hcalm, hreads, hwrites,
    fun w hw r hr hne => hmodified r (hlists w hw r hr hne)⟩

theorem InstrSeq.Uses.saving (h : s.Uses needs sets) (r : Reg) :
    (Compiler.saving r s).Uses (fun x => x = r ∨ needs x) sets := by
  have hpath : ∀ w, Path (Compiler.saving r s).statements w ↔
      ∃ u, Path s.statements u ∧ w = [.push r] ++ (u ++ [.pop r]) :=
    fun w => path_wrap [r] h.closed
  constructor
  · exact h.closed.wrap [r]
  · obtain ⟨u, hu⟩ := h.runs
    exact ⟨_, (hpath _).mpr ⟨u, hu, rfl⟩⟩
  all_goals
    intro w hw
    obtain ⟨u, hu, rfl⟩ := (hpath w).mp hw
  · exact ((h.calm u hu).saving r).1
  · intro x hx
    exact ((mem_readFirst_wrap [r]).mp hx).imp List.mem_singleton.mp (h.reads u hu x)
  · intro x hx
    exact (mem_overwritten_wrap [r]).mpr (Or.inr (h.writes u hu x hx))
  · intro x hx hne
    obtain ⟨hin, hout⟩ := (mem_unrestored_wrap [r] (h.calm u hu)).mp hx
    exact mem_modified_saving.mpr ⟨h.lists u hu x hin hne, fun heq => hout (by simp [heq])⟩

end

/-! ### Quoted data -/

theorem uses_movimm (t : Reg) (x : Imm) (needed : List Reg) (hx : ∀ l, x ≠ .label l) :
    InstrSeq.Uses (fun _ => False) (fun r => r = t) ⟨needed, [t], [.movimm t x]⟩ := by
  have hstraight : (Stmt.movimm t x).Straight := by
    apply Stmt.Straight.of_isPlain _ (by simp)
    cases x with
    | label l => exact absurd rfl (hx l)
    | _ => rfl
  apply InstrSeq.Uses.straight (by simpa using hstraight) (.cons (by simp [Stmt.IsLevel]) .nil)
  · simp [readFirst, Stmt.reads, listDiff]
  · simp [overwritten, Stmt.writes]
  · simp [unrestored, Stmt.writes]

theorem uses_cons (t s : Reg) (needed : List Reg) :
    InstrSeq.Uses (fun r => r = t ∨ r = s) (fun r => r = t) ⟨needed, [t], [.cons t s]⟩ := by
  have hstraight : (Stmt.cons t s).Straight := Stmt.Straight.of_isPlain rfl (by simp)
  apply InstrSeq.Uses.straight (by simpa using hstraight) (.cons (by simp [Stmt.IsLevel]) .nil)
  · simp [readFirst, Stmt.reads, listDiff]
  · simp [overwritten, Stmt.writes]
  · simp [unrestored, Stmt.writes]

theorem uses_mov (t s : Reg) (needed : List Reg) :
    InstrSeq.Uses (fun r => r = s) (fun r => r = t) ⟨needed, [t], [.mov t s]⟩ := by
  have hstraight : (Stmt.mov t s).Straight := Stmt.Straight.of_isPlain rfl (by simp)
  apply InstrSeq.Uses.straight (by simpa using hstraight) (.cons (by simp [Stmt.IsLevel]) .nil)
  · simp [readFirst, Stmt.reads, listDiff]
  · simp [overwritten, Stmt.writes]
  · simp [unrestored, Stmt.writes]

mutual

theorem Data.uses_compileNest (t : Reg) :
    ∀ q : Data, (q.compileNest t).Uses (fun r => r = t) (fun _ => False)
  | .atom q _ => by
    rw [Data.compileNest]
    exact ((uses_movimm .argl (.datum q) [] (by simp)).appendTwo (uses_cons t .argl [.argl])).mono
      (by simp) (by simp)
  | .list first rest => by
    rw [Data.compileNest]
    have hparts : (appendInstrSeqs
        (first.compileNest t :: Data.compileNests t rest).reverse).Uses (fun r => r = t)
          (fun _ => False) := by
      apply uses_appendInstrSeqs
      intro s hs
      rcases List.mem_cons.mp (List.mem_reverse.mp hs) with rfl | hmem
      · exact first.uses_compileNest t
      · exact Data.uses_compileNests t rest s hmem
    -- the elements are consed onto a fresh list while the target is saved
    have hbuild := ((uses_movimm t (.datum Sexp.nil) [] (by simp)).appendTwo
      (hparts.appendTwo (uses_mov .argl t []))).saving t
    have hall : InstrSeq.Uses (fun r => r = t) (fun _ => False) _ :=
      (hbuild.appendTwo (uses_cons t .argl [])).mono (by simp) (by simp)
    refine hall.congr (by simp [appendTwoInstrSeqs, saving]) fun r hr => ?_
    simp only [mem_modified_appendTwo, mem_modified_saving, List.mem_cons,
      List.not_mem_nil, or_false, false_or] at hr ⊢
    grind

theorem Data.uses_compileNests (t : Reg) : ∀ (qs : List Data),
    ∀ s ∈ Data.compileNests t qs, s.Uses (fun r => r = t) (fun _ => False)
  | [], s, hs => by
    rw [Data.compileNests] at hs
    exact absurd hs (by simp)
  | q :: qs, s, hs => by
    rw [Data.compileNests] at hs
    rcases List.mem_cons.mp hs with rfl | hmem
    · exact q.uses_compileNest t
    · exact Data.uses_compileNests t qs s hmem

end

theorem Data.uses (t : Reg) (q : Data) :
    (q.compile t).Uses (fun _ => False) (fun r => r = t) := by
  cases q with
  | atom q hq => exact uses_movimm t (.datum q) [] (by simp)
  | list first rest =>
    rw [Data.compile]
    have hparts : (appendInstrSeqs (Data.compileNests t (first :: rest)).reverse).Uses
        (fun r => r = t) (fun _ => False) := by
      apply uses_appendInstrSeqs
      intro s hs
      exact Data.uses_compileNests t (first :: rest) s (List.mem_reverse.mp hs)
    exact ((uses_movimm t (.datum Sexp.nil) [] (by simp)).appendTwo hparts).mono
      (by simp) (by simp)

/-! ### Calls -/

section

variable {needs sets : Reg → Prop} {t : Reg}

theorem calm_of_level {w : List Stmt} (h : ∀ stm ∈ w, stm.IsLevel) : Calm w := by
  induction w with
  | nil => exact Calm.nil
  | cons stm w ih =>
    exact .cons (h stm List.mem_cons_self) (ih fun x hx => h x (List.mem_cons_of_mem _ hx))

/-- A sequence whose paths are known one by one. -/
theorem InstrSeq.Uses.ofPaths {s : InstrSeq} {ps : List (List Stmt)}
    (h : Closed s.statements ∧ ∀ w, Path s.statements w ↔ w ∈ ps) (hne : ps ≠ [])
    (hps : ∀ w ∈ ps, (∀ stm ∈ w, stm.IsLevel) ∧ (∀ r ∈ readFirst w, needs r) ∧
      (∀ r, sets r → r ∈ overwritten w) ∧ ∀ r ∈ unrestored [] w, r ≠ .val → r ∈ s.regsModified) :
    s.Uses needs sets := by
  obtain ⟨p, hp⟩ := List.exists_mem_of_ne_nil ps hne
  exact ⟨h.1, ⟨p, (h.2 p).mpr hp⟩, fun w hw => calm_of_level (hps w ((h.2 w).mp hw)).1,
    fun w hw => (hps w ((h.2 w).mp hw)).2.1, fun w hw => (hps w ((h.2 w).mp hw)).2.2.1,
    fun w hw => (hps w ((h.2 w).mp hw)).2.2.2⟩

theorem uses_callCode (operator : Expr) (ht : t ∈ allRegs) (st : CompilerState) :
    (callCode operator (.next t) st).1.Uses (fun r => r = .proc ∨ r = .argl)
      (fun r => r = .val) := by
  apply InstrSeq.Uses.ofPaths (paths_callCode operator t st) (callPaths_ne_nil operator t st)
  have hmodt := target_callCode_next operator ht st
  rw [callPaths]
  split
  · simp [readFirst, Stmt.reads, listDiff, overwritten, Stmt.writes, unrestored, Stmt.IsLevel]
  · next hfund =>
    have hcont : .cont ∈ (callCode operator (.next t) st).1.regsModified :=
      modified_callCode (Bool.eq_false_iff.mpr hfund) (by decide) _ st
    split <;> split <;>
      simp [readFirst, Stmt.reads, listDiff, overwritten, Stmt.writes, unrestored, Stmt.IsLevel,
        hcont, hmodt]

end

/-! ### Operands -/

section

variable {s : InstrSeq}

theorem uses_consFirst : InstrSeq.Uses (fun r => r = .val) (fun r => r = .argl)
    ⟨[.val], [.argl], [.movimm .argl (.datum Sexp.nil), .cons .argl .val]⟩ := by
  have hstraight : ∀ stm ∈ ([.movimm .argl (.datum Sexp.nil), .cons .argl .val] : List Stmt),
      stm.Straight := by
    intro stm hstm
    rcases List.mem_pair.mp hstm with rfl | rfl <;> exact .of_isPlain rfl (by simp)
  apply InstrSeq.Uses.straight hstraight (calm_of_level (by simp [Stmt.IsLevel]))
  · simp [readFirst, Stmt.reads, Stmt.writes, listDiff]
  · simp [overwritten, Stmt.writes]
  · simp [unrestored, Stmt.writes]

theorem uses_addFstArgument (h : s.Uses (fun r => r = .env) (fun r => r = .val)) :
    (addFstArgument s).Uses (fun r => r = .env) (fun r => r = .argl) :=
  (h.appendTwo uses_consFirst).mono (by simp) (by simp)

theorem uses_codeForNextArg (h : s.Uses (fun r => r = .env) (fun r => r = .val)) :
    (codeForNextArg s).Uses (fun r => r = .env ∨ r = .argl) (fun r => r = .argl) := by
  have hcons : InstrSeq.Uses (fun r => r = .argl ∨ r = .val) (fun r => r = .argl)
      ⟨[.val, .argl], [.argl], [.cons .argl .val]⟩ :=
    (uses_cons .argl .val [.val, .argl]).congr rfl fun r hr => hr
  apply (h.preserving hcons [.argl]).mono
  · intro r hr
    simp only [List.mem_singleton] at hr
    grind
  · simp

theorem uses_getRestArgs (rest : List InstrSeq) : ∀ s : InstrSeq,
    (∀ x ∈ s :: rest, x.Uses (fun r => r = .env) (fun r => r = .val)) →
      (getRestArgs s rest).Uses (fun r => r = .env ∨ r = .argl) (fun r => r = .argl) := by
  induction rest with
  | nil => exact fun s h => uses_codeForNextArg (h s List.mem_cons_self)
  | cons y rest ih =>
    intro s h
    have hrest := ih y fun x hx => h x (List.mem_cons_of_mem _ hx)
    apply ((uses_codeForNextArg (h s List.mem_cons_self)).preserving hrest [.env]).mono
    · intro r hr
      simp only [List.mem_singleton] at hr
      grind
    · simp

theorem uses_constructArglist {codes : List InstrSeq}
    (h : ∀ s ∈ codes, s.Uses (fun r => r = .env) (fun r => r = .val)) :
    (constructArglist codes).Uses (fun r => r = .env) (fun r => r = .argl) := by
  have hrev : ∀ s ∈ codes.reverse, s.Uses (fun r => r = .env) (fun r => r = .val) :=
    fun s hs => h s (List.mem_reverse.mp hs)
  rw [constructArglist]
  cases hcases : codes.reverse with
  | nil => exact (uses_movimm .argl (.datum Sexp.nil) [] (by simp)).mono (by simp) (by simp)
  | cons s rest =>
    rw [hcases] at hrev
    have hfst := uses_addFstArgument (hrev s List.mem_cons_self)
    cases rest with
    | nil => exact hfst
    | cons y rest =>
      have hrest := uses_getRestArgs rest y fun x hx => hrev x (List.mem_cons_of_mem _ hx)
      apply (hfst.preserving hrest [.env]).mono
      · intro r hr
        simp only [List.mem_singleton] at hr
        grind
      · simp

end

/-! ### Every form -/

theorem uses_app {procCode args call : InstrSeq} (hargsDelivers : args.Delivers .argl)
    (hproc : procCode.Uses (fun r => r = .env) (fun r => r = .proc))
    (hargs : args.Uses (fun r => r = .env) (fun r => r = .argl))
    (hcall : call.Uses (fun r => r = .proc ∨ r = .argl) (fun r => r = .val))
    (hneeds : ∀ r ∈ call.regsNeeded, r = .proc ∨ r = .argl) :
    (preserving [.env, .cont] procCode (preserving [.proc, .cont] args call)).Uses
      (fun r => r = .env) (fun r => r = .val ∨ r = .proc) := by
  have hrest : (preserving [.proc, .cont] args call).Uses (fun r => r = .env ∨ r = .proc)
      (fun r => r = .val) := by
    apply (hargs.preserving hcall _).mono
    · intro r hr
      have hcontNeeds := hneeds r
      simp only [List.mem_cons, List.not_mem_nil, or_false] at hr
      have hne : Reg.cont ≠ .proc ∧ Reg.cont ≠ .argl := by decide
      rcases hr with h | h | h
      · exact Or.inl h
      · grind
      · rcases hcontNeeds h.2 with rfl | rfl
        · exact Or.inr rfl
        · exact absurd h.1 (by decide)
    · simp
  apply (hproc.preserving hrest _).mono
  · intro r hr
    rcases hr with h | h | h
    · exact h
    · grind
    · rcases needs_argsCall hargsDelivers hneeds r h.2 with rfl | rfl
      · rfl
      · exact absurd h.1 (by decide)
  · intro r hr
    exact hr.symm

theorem uses_operatorCode (operator : Expr) {code : InstrSeq × CompilerState}
    (st : CompilerState) (h : code.1.Uses (fun r => r = .env) (fun r => r = .proc)) :
    (operatorCode operator code st).1.Uses (fun r => r = .env) (fun r => r = .proc) := by
  rw [operatorCode]
  split
  · exact (uses_movimm .proc (.datum operator.toSexp) [] (by simp)).mono (by simp) (by simp)
  · exact h

theorem uses_lookup (t : Reg) (i : Nat) :
    InstrSeq.Uses (fun r => r = .env) (fun r => r = t) ⟨[.env], [t], [.lookup t i]⟩ := by
  have hstraight : (Stmt.lookup t i).Straight := Stmt.Straight.of_isPlain rfl (by simp)
  apply InstrSeq.Uses.straight (by simpa using hstraight) (calm_of_level (by simp [Stmt.IsLevel]))
  · simp [readFirst, Stmt.reads, listDiff]
  · simp [overwritten, Stmt.writes]
  · simp [unrestored, Stmt.writes]

theorem uses_setglbval (t : Reg) (i : Nat) : InstrSeq.Uses (fun r => r = .val) (fun r => r = t)
    ⟨[.val], [t], [.setglbval i, .movimm t (.indirection i)]⟩ := by
  have hstraight : ∀ stm ∈ ([.setglbval i, .movimm t (.indirection i)] : List Stmt),
      stm.Straight := by
    intro stm hstm
    rcases List.mem_pair.mp hstm with rfl | rfl <;> exact .of_isPlain rfl (by simp)
  apply InstrSeq.Uses.straight hstraight (calm_of_level (by simp [Stmt.IsLevel]))
  · simp [readFirst, Stmt.reads, Stmt.writes, listDiff]
  · simp [overwritten, Stmt.writes]
  · simp [unrestored, Stmt.writes]

/-- The environment is extended with what is in `val`; the source lists `val` alone as needed. -/
theorem uses_exenvval (i : Nat) : InstrSeq.Uses (fun r => r = .env ∨ r = .val)
    (fun r => r = .env) ⟨[.val], [.env], [.exenvval i]⟩ := by
  have hstraight : (Stmt.exenvval i).Straight := Stmt.Straight.of_isPlain rfl (by simp)
  apply InstrSeq.Uses.straight (by simpa using hstraight) (calm_of_level (by simp [Stmt.IsLevel]))
  · simp [readFirst, Stmt.reads, listDiff]
  · simp [overwritten, Stmt.writes]
  · simp [unrestored, Stmt.writes]

/-- The label behind a procedure is not one of the labels in it. -/
theorem afterLambda_not_mem (formals : List Sexp) (body : Expr) (st : CompilerState) :
    ⟨.afterLambda, st.labelCounter + 2⟩ ∉ labels (.caddr .env .proc :: (appendInstrSeqs
      (formals.map fun p => ⟨[.argl], [.env], [.exenvargl p]⟩)).statements
        ++ (body.compile .ret (mkLabel .afterLambda (mkLabel .entry st).2).2).1.statements) := by
  have hformals : labelsOf (formals.map fun p => ⟨[.argl], [.env], [.exenvargl p]⟩) = [] := by
    simp [labelsOf, labels]
  intro hmem
  rw [labels_append] at hmem
  simp only [labels, labels_appendInstrSeqs, hformals, List.nil_append] at hmem
  have habove := (body.fresh .ret (mkLabel .afterLambda (mkLabel .entry st).2).2).above _ hmem
  exact absurd habove (Nat.lt_irrefl _)

theorem paths_lambdaCode (formals : List Sexp) (body : Expr) (t : Reg) (st : CompilerState) :
    Closed ((Expr.lambda formals body).compile (.next t) st).1.statements ∧
    ∀ w, Path ((Expr.lambda formals body).compile (.next t) st).1.statements w ↔
      w ∈ [(makeLambda (.next t) ⟨.entry, st.labelCounter + 1⟩
        ⟨.afterLambda, st.labelCounter + 2⟩).statements] := by
  rw [Expr.compile]
  exact paths_lambda (afterLambda_not_mem formals body st)

theorem uses_lambda (formals : List Sexp) (body : Expr) (t : Reg) (st : CompilerState) :
    ((Expr.lambda formals body).compile (.next t) st).1.Uses (fun r => r = .env)
      (fun r => r = t) := by
  have hmod : t ∈ ((Expr.lambda formals body).compile (.next t) st).1.regsModified := by
    rw [Expr.compile]
    exact mem_modified_appendTwo.mpr (Or.inl (delivers_makeLambda t
      ⟨.entry, st.labelCounter + 1⟩ ⟨.afterLambda, st.labelCounter + 2⟩).target)
  apply InstrSeq.Uses.ofPaths (paths_lambdaCode formals body t st) (by simp)
  rw [makeLambda_next]
  simp [readFirst, Stmt.reads, listDiff, overwritten, Stmt.writes, unrestored, Stmt.IsLevel, hmod]

mutual

theorem Expr.uses : ∀ (e : Expr) (t : Reg) (st : CompilerState), t ∈ allRegs →
    (e.compile (.next t) st).1.Uses (fun r => r = .env) (fun r => r = t ∧ (r = .val ∨ r = .proc))
  | .const e _, t, st, _ => by
    rw [Expr.compile]
    exact (uses_movimm t (.datum e) [] (by simp)).endWithNext.mono (by simp) fun r hr => hr.1
  | .sym s _, t, st, _ => by
    rw [Expr.compile]
    exact (uses_lookup t _).endWithNext.mono (by simp) fun r hr => hr.1
  | .quote q, t, st, _ => by
    rw [Expr.compile]
    exact (q.uses t).endWithNext.mono (by simp) fun r hr => hr.1
  | .define var e, t, st, _ => by
    have he := e.uses .val (newIndirection var st).2 (by decide)
    rw [Expr.compile]
    apply (he.appendTwo (uses_setglbval t _)).endWithNext.mono
    · intro r hr
      grind
    · exact fun r hr => Or.inr hr.1
  | .lambda formals body, t, st, _ =>
    (uses_lambda formals body t st).mono (fun r hr => hr) fun r hr => hr.1
  | .letIn bindings body, t, st, ht => by
    have hbs := bindings.uses st
    have he := body.uses t (bindings.compile st).2 ht
    rw [Expr.compile]
    exact (hbs.appendTwo he).mono (by simp) fun r hr => Or.inr hr
  | .progn body, t, st, ht => by
    rw [Expr.compile]
    exact body.uses t st ht
  | .app operator operands, t, st, ht => by
    have hproc := uses_operatorCode operator st ((operator.uses .proc st (by decide)).mono
      (fun r hr => hr) fun r hr => ⟨hr, Or.inr hr⟩)
    have hargs := uses_constructArglist (operands.uses
      (operatorCode operator (operator.compile (.next .proc) st) st).2)
    have hdelivers := delivers_constructArglist (operands.delivers
      (operatorCode operator (operator.compile (.next .proc) st) st).2)
    rw [Expr.compile]
    exact (uses_app hdelivers hproc hargs (uses_callCode operator ht _)
      (needs_callCode_next operator t _)).mono (fun r hr => hr) fun r hr => hr.2

theorem Exprs.uses : ∀ (es : Exprs) (st : CompilerState),
    ∀ s ∈ (es.compile st).1, s.Uses (fun r => r = .env) (fun r => r = .val)
  | .nil, st, s, hs => by
    rw [Exprs.compile] at hs
    exact absurd hs (by simp)
  | .cons e es, st, s, hs => by
    rw [Exprs.compile] at hs
    rcases List.mem_cons.mp hs with rfl | hmem
    · exact (e.uses .val st (by decide)).mono (fun r hr => hr) fun r hr => ⟨hr, Or.inl hr⟩
    · exact es.uses _ s hmem

theorem Bindings.uses : ∀ (bs : Bindings) (st : CompilerState),
    (appendInstrSeqs (bs.compile st).1).Uses (fun r => r = .env) (fun _ => False)
  | .nil, st => by
    rw [Bindings.compile]
    exact uses_empty.mono (by simp) (by simp)
  | .cons key e bs, st => by
    have he := e.uses .val st (by decide)
    have hbs := bs.uses (newIndirection key (e.compile (.next .val) st).2).2
    rw [Bindings.compile]
    apply ((he.appendTwo (uses_exenvval _)).appendTwo hbs).mono
    · intro r hr
      grind
    · simp

theorem Body.uses : ∀ (b : Body) (t : Reg) (st : CompilerState), t ∈ allRegs →
    (b.compile (.next t) st).1.Uses (fun r => r = .env) (fun r => r = t ∧ (r = .val ∨ r = .proc))
  | .last e, t, st, ht => by
    rw [Body.compile]
    exact e.uses t st ht
  | .cons e rest, t, st, ht => by
    have he := e.uses t st ht
    have hrest := rest.uses t (e.compile (.next t) st).2 ht
    have hneeds := (rest.delivers t (e.compile (.next t) st).2 ht).needs
    rw [Body.compile]
    apply (he.preserving hrest _).mono
    · intro r hr
      rcases hr with h | h | h
      · exact h
      · exact h.1
      · exact hneeds r h.2
    · exact fun r hr => Or.inr hr

end

end Compiler

end LispBM
