import LispBM.Compiler

/-!
# LispBM — the expressions the compiler is for

`Expr` is the grammar of the compiler: constants, symbols, quoted data, `define`, `lambda`, `let`,
`progn` of at least one expression, and applications. `Expr.compile` is the compiler by recursion on
it, with one of the two destinations the compiler asks for: a target register with linkage `next`,
or `val` with linkage `return`. `compileInstrList_toSexp` says that the compiler of the source does
the same on the expression the reader makes.
-/

namespace LispBM

namespace Compiler

open Tokpar (Sexp)

/-- Quoted data: atoms and proper lists. -/
inductive Data where
  | atom (d : Sexp) (hd : isList d = false)
  | list (first : Data) (rest : List Data)

mutual

inductive Expr where
  | const (d : Sexp) (hd : isSelfEvaluating d = true)
  | sym (s : Sexp) (hs : isSymbol s = true)
  | quote (d : Data)
  | define (var : Sexp) (e : Expr)
  | lambda (formals : List Sexp) (body : Expr)
  | letIn (bindings : Bindings) (body : Expr)
  | progn (body : Body)
  | app (operator : Expr) (operands : Exprs)

inductive Exprs where
  | nil
  | cons (e : Expr) (es : Exprs)

inductive Bindings where
  | nil
  | cons (key : Sexp) (e : Expr) (bs : Bindings)

/-- One expression or more, in sequence. -/
inductive Body where
  | last (e : Expr)
  | cons (e : Expr) (rest : Body)

end

/-! ## What the reader makes of them -/

mutual

def Data.toSexp : Data → Sexp
  | .atom d _ => d
  | .list first rest => .pair first.toSexp (Sexp.list (Data.toSexps rest))

def Data.toSexps : List Data → List Sexp
  | [] => []
  | d :: ds => d.toSexp :: Data.toSexps ds

end

def form (keyword : UINT) (es : List Sexp) : Sexp := .pair (Sexp.sym keyword) (Sexp.list es)

mutual

def Expr.toSexp : Expr → Sexp
  | .const d _ => d
  | .sym s _ => s
  | .quote d => form symreprQuote [d.toSexp]
  | .define var e => form symreprDefine [var, e.toSexp]
  | .lambda formals body => form symreprLambda [Sexp.list formals, body.toSexp]
  | .letIn bindings body => form symreprLet [Sexp.list bindings.toSexps, body.toSexp]
  | .progn body => form symreprProgn body.toSexps
  | .app operator operands => .pair operator.toSexp (Sexp.list operands.toSexps)

def Exprs.toSexps : Exprs → List Sexp
  | .nil => []
  | .cons e es => e.toSexp :: es.toSexps

def Bindings.toSexps : Bindings → List Sexp
  | .nil => []
  | .cons key e bs => Sexp.list [key, e.toSexp] :: bs.toSexps

def Body.toSexps : Body → List Sexp
  | .last e => [e.toSexp]
  | .cons e rest => e.toSexp :: rest.toSexps

end

/-- The symbols that make a list another form than an application. -/
def keywords : List Sexp :=
  [Sexp.sym symreprQuote, Sexp.sym symreprDefine, Sexp.sym symreprLambda, Sexp.sym symreprProgn,
    Sexp.sym symreprLet]

mutual

/-- The operator of an application is not one of the keywords. -/
def Expr.Wf : Expr → Prop
  | .const _ _ | .sym _ _ | .quote _ => True
  | .define _ e => e.Wf
  | .lambda _ body => body.Wf
  | .letIn bindings body => bindings.Wf ∧ body.Wf
  | .progn body => body.Wf
  | .app operator operands => operator.toSexp ∉ keywords ∧ operator.Wf ∧ operands.Wf

def Exprs.Wf : Exprs → Prop
  | .nil => True
  | .cons e es => e.Wf ∧ es.Wf

def Bindings.Wf : Bindings → Prop
  | .nil => True
  | .cons _ e bs => e.Wf ∧ bs.Wf

def Body.Wf : Body → Prop
  | .last e => e.Wf
  | .cons e rest => e.Wf ∧ rest.Wf

end

/-! ## The compiler by recursion -/

/-- Where the result goes and what happens next. -/
inductive Dest where
  | next (target : Reg)
  | ret
  deriving DecidableEq

def Dest.target : Dest → Reg
  | next target => target
  | ret => .val

def Dest.linkage : Dest → Linkage
  | next _ => .next
  | ret => .return'

mutual

def Data.compileNest (target : Reg) : Data → InstrSeq
  | .atom d _ =>
      appendTwoInstrSeqs (compileDataPrim d .argl) ⟨[.argl], [target], [.cons target .argl]⟩
  | .list first rest =>
      appendTwoInstrSeqs
        ⟨[target], [], [.push target, .movimm target (.datum Sexp.nil)]⟩
        (appendTwoInstrSeqs
          (appendInstrSeqs (first.compileNest target :: Data.compileNests target rest).reverse)
          ⟨[target], [target, .argl], [.mov .argl target, .pop target, .cons target .argl]⟩)

def Data.compileNests (target : Reg) : List Data → List InstrSeq
  | [] => []
  | d :: ds => d.compileNest target :: Data.compileNests target ds

end

def Data.compile (target : Reg) : Data → InstrSeq
  | .atom d _ => compileDataPrim d target
  | .list first rest =>
      appendTwoInstrSeqs ⟨[], [target], [.movimm target (.datum Sexp.nil)]⟩
        (appendInstrSeqs (Data.compileNests target (first :: rest)).reverse)

/-- The jump to a procedure; `after` is the label behind the call. -/
def procAppl (d : Dest) (after : Label) (st : CompilerState) : InstrSeq × CompilerState :=
  match d with
  | .ret => (⟨[.proc, .continue'], allRegs, [.cadr .val .proc, .jmpval]⟩, st)
  | .next target =>
      if target = .val then
        (⟨[.proc], allRegs, [.movimm .cont (.label after), .cadr .val .proc, .jmpval]⟩, st)
      else
        let (procReturn, st) := mkLabel .procReturn st
        (⟨[.proc], allRegs,
          [.movimm .cont (.label procReturn), .cadr .val .proc, .jmpval, .label procReturn,
            .mov target .val, .jmpimm after]⟩, st)

def lambdaProcCall (d : Dest) (st : CompilerState) : InstrSeq × CompilerState :=
  let (afterCall, st) := mkLabel .afterCall st
  let (appl, st) := procAppl d afterCall st
  (appendTwoInstrSeqs appl afterCall.seq, st)

def procCall (d : Dest) (st : CompilerState) : InstrSeq × CompilerState :=
  let (fundBranch, st) := mkLabel .fundBranch st
  let (compiledBranch, st) := mkLabel .compBranch st
  let (afterCall, st) := mkLabel .afterCall st
  let (appl, st) := procAppl d afterCall st
  (appendInstrSeqs
    [⟨[.proc], [], [.bpf fundBranch]⟩,
      parallelInstrSeqs (appendTwoInstrSeqs compiledBranch.seq appl)
        (appendTwoInstrSeqs fundBranch.seq (compileFundamentalProcCall d.target d.linkage)),
      afterCall.seq], st)

def Expr.isFundamental : Expr → Bool
  | .sym s _ => Compiler.isFundamental s
  | _ => false

def Expr.isLambda : Expr → Bool
  | .lambda _ _ => true
  | _ => false

/-- The code in front of the body of a procedure. -/
def lambdaEntry (formals : List Sexp) (procEntry : Label) : InstrSeq :=
  appendTwoInstrSeqs
    ⟨[.env, .proc, .argl], [.env], [.label procEntry, .caddr .env .proc]⟩
    (appendInstrSeqs (formals.map fun p => ⟨[.argl], [.env], [.exenvargl p]⟩))

/-- The code that makes a procedure with the entry `procEntry`. -/
def makeLambda (d : Dest) (procEntry afterLambda : Label) : InstrSeq :=
  endWithLinkage (compiledLinkage d.linkage afterLambda)
    ⟨[.env], [d.target], [.movimm d.target (.datum Sexp.nil), .cons d.target .env,
      .consimm d.target (.label procEntry), .consimm d.target procSymbol]⟩

/-- The code for the operator of an application is compiled with the target `proc`, a fundamental
operation is loaded. -/
def operatorCode (operator : Expr) (code : InstrSeq × CompilerState) (st : CompilerState) :
    InstrSeq × CompilerState :=
  if operator.isFundamental then (⟨[], [.proc], [.movimm .proc (.datum operator.toSexp)]⟩, st)
  else code

/-- The call of what the operator made. -/
def callCode (operator : Expr) (d : Dest) (st : CompilerState) : InstrSeq × CompilerState :=
  if operator.isFundamental then (compileFundamentalProcCall d.target d.linkage, st)
  else if operator.isLambda then lambdaProcCall d st
  else procCall d st

mutual

def Expr.compile : Expr → Dest → CompilerState → InstrSeq × CompilerState
  | .const e _, d, st => (compileSelfEvaluating e d.target d.linkage, st)
  | .sym s _, d, st => compileSymbol s d.target d.linkage st
  | .quote q, d, st => (endWithLinkage d.linkage (q.compile d.target), st)
  | .define var e, d, st =>
      let (i, st) := newIndirection var st
      let (getValueCode, st) := e.compile (.next .val) st
      (endWithLinkage d.linkage (appendTwoInstrSeqs getValueCode
        ⟨[.val], [d.target], [.setglbval i, .movimm d.target (.indirection i)]⟩), st)
  | .lambda formals body, d, st =>
      let (procEntry, st) := mkLabel .entry st
      let (afterLambda, st) := mkLabel .afterLambda st
      let (code, st) := body.compile .ret st
      (appendTwoInstrSeqs
        (tackOnInstrSeq (makeLambda d procEntry afterLambda)
          (appendTwoInstrSeqs (lambdaEntry formals procEntry) code))
        afterLambda.seq, st)
  | .letIn bindings body, d, st =>
      let (codes, st) := bindings.compile st
      let (code, st) := body.compile d st
      (appendTwoInstrSeqs (appendInstrSeqs codes) code, st)
  | .progn body, d, st => body.compile d st
  | .app operator operands, d, st =>
      let (procCode, st) := operatorCode operator (operator.compile (.next .proc) st) st
      let (codes, st) := operands.compile st
      let (call, st) := callCode operator d st
      (preserving [.env, .cont] procCode
        (preserving [.proc, .cont] (constructArglist codes) call), st)

def Exprs.compile : Exprs → CompilerState → List InstrSeq × CompilerState
  | .nil, st => ([], st)
  | .cons e es, st =>
      let (s, st) := e.compile (.next .val) st
      let (seqs, st) := es.compile st
      (s :: seqs, st)

def Bindings.compile : Bindings → CompilerState → List InstrSeq × CompilerState
  | .nil, st => ([], st)
  | .cons key e bs, st =>
      let (getValueCode, st) := e.compile (.next .val) st
      let (i, st) := newIndirection key st
      let (seqs, st) := bs.compile st
      (appendTwoInstrSeqs getValueCode ⟨[.val], [.env], [.exenvval i]⟩ :: seqs, st)

def Body.compile : Body → Dest → CompilerState → InstrSeq × CompilerState
  | .last e, d, st => e.compile d st
  | .cons e rest, d, st =>
      let (s₁, st) := e.compile (.next d.target) st
      let (s₂, st) := rest.compile d st
      (preserving [.env, .continue'] s₁ s₂, st)

end

/-! ## The compiler of the source does the same -/

mutual

def Data.size : Data → Nat
  | .atom _ _ => 1
  | .list first rest => first.size + Data.sizes rest + 1

def Data.sizes : List Data → Nat
  | [] => 0
  | d :: ds => d.size + Data.sizes ds

end

mutual

/-- Fuel that is enough. -/
def Expr.size : Expr → Nat
  | .const _ _ | .sym _ _ => 1
  | .quote d => d.size + 1
  | .define _ e => e.size + 1
  | .lambda _ body => body.size + 1
  | .letIn bindings body => bindings.size + body.size + 1
  | .progn body => body.size + 1
  | .app operator operands => operator.size + operands.size + 1

def Exprs.size : Exprs → Nat
  | .nil => 0
  | .cons e es => e.size + es.size

def Bindings.size : Bindings → Nat
  | .nil => 0
  | .cons _ e bs => e.size + bs.size

def Body.size : Body → Nat
  | .last e => e.size
  | .cons e rest => e.size + rest.size

end

@[simp] theorem properList_list (es : List Sexp) : properList (Sexp.list es) = some es := by
  induction es with
  | nil => rfl
  | cons e es ih =>
    show (properList (Sexp.list es)).map (e :: ·) = some (e :: es)
    rw [ih]
    rfl

theorem mapM_of_forall₂ {α β : Type} {f : α → Option β} {xs : List α} {ys : List β}
    (h : List.Forall₂ (fun x y => f x = some y) xs ys) : xs.mapM f = some ys := by
  induction h with
  | nil => rfl
  | cons hx _ ih => rw [List.mapM_cons, hx, ih]; rfl

mutual

theorem compileDataNest_toSexp (target : Reg) : ∀ (d : Data) (fuel : Nat), d.size ≤ fuel →
    compileDataNest fuel d.toSexp target = some (d.compileNest target)
  | .atom d hd, fuel, hfuel => by
    rw [Data.size] at hfuel
    obtain ⟨fuel, rfl⟩ : ∃ k, fuel = k + 1 := ⟨fuel - 1, by omega⟩
    rw [compileDataNest, Data.toSexp, hd, Data.compileNest]
    rfl
  | .list first rest, fuel, hfuel => by
    rw [Data.size] at hfuel
    obtain ⟨fuel, rfl⟩ : ∃ k, fuel = k + 1 := ⟨fuel - 1, by omega⟩
    have hall : List.Forall₂ (fun d s => compileDataNest fuel d target = some s)
        (first.toSexp :: Data.toSexps rest)
        (first.compileNest target :: Data.compileNests target rest) :=
      .cons (compileDataNest_toSexp target first fuel (by omega))
        (forall₂_compileDataNest target rest fuel (by omega))
    have hmap := mapM_of_forall₂ (List.rel_reverse hall)
    have hlist : properList (Data.list first rest).toSexp
        = some (first.toSexp :: Data.toSexps rest) := by
      rw [Data.toSexp]
      exact properList_list (_ :: _)
    have hpair : isList (Data.list first rest).toSexp = true := by
      rw [Data.toSexp]
      rfl
    rw [compileDataNest, if_pos hpair, hlist, Data.compileNest]
    simp only [Option.bind_eq_bind, Option.bind_some, hmap]

theorem forall₂_compileDataNest (target : Reg) : ∀ (ds : List Data) (fuel : Nat),
    Data.sizes ds ≤ fuel →
      List.Forall₂ (fun d s => compileDataNest fuel d target = some s) (Data.toSexps ds)
        (Data.compileNests target ds)
  | [], _, _ => by
    rw [Data.toSexps, Data.compileNests]
    exact .nil
  | d :: ds, fuel, hfuel => by
    rw [Data.sizes] at hfuel
    rw [Data.toSexps, Data.compileNests]
    exact .cons (compileDataNest_toSexp target d fuel (by omega))
      (forall₂_compileDataNest target ds fuel (by omega))

end

theorem compileData_toSexp (target : Reg) (d : Data) {fuel : Nat} (hfuel : d.size ≤ fuel) :
    compileData fuel d.toSexp target = some (d.compile target) := by
  cases d with
  | atom d hd =>
    rw [compileData, Data.toSexp, hd]
    rfl
  | list first rest =>
    rw [Data.size] at hfuel
    have hall := forall₂_compileDataNest target (first :: rest) fuel (by rw [Data.sizes]; omega)
    have hmap := mapM_of_forall₂ (List.rel_reverse hall)
    have hlist : properList (Data.list first rest).toSexp
        = some (Data.toSexps (first :: rest)) := by
      rw [Data.toSexp, Data.toSexps]
      exact properList_list (_ :: _)
    have hpair : isList (Data.list first rest).toSexp = true := by
      rw [Data.toSexp]
      rfl
    rw [compileData, if_pos hpair, hlist]
    simp only [Option.bind_eq_bind, Option.bind_some, compileDataList, hmap, Option.map_some,
      Data.compile]

theorem compileProcAppl_eq (d : Dest) (after : Label) (st : CompilerState) :
    compileProcAppl d.target (compiledLinkage d.linkage after) st = some (procAppl d after st) := by
  cases d with
  | ret => rfl
  | next target =>
    show (if target = .val then _ else _) = some (if target = .val then _ else _)
    split <;> rfl

theorem compileLambdaProcCall_eq (d : Dest) (st : CompilerState) :
    compileLambdaProcCall d.target d.linkage st = some (lambdaProcCall d st) := by
  simp only [compileLambdaProcCall, compileProcAppl_eq, Option.bind_eq_bind, Option.bind_some]
  rfl

theorem compileProcCall_eq (d : Dest) (st : CompilerState) :
    compileProcCall d.target d.linkage st = some (procCall d st) := by
  simp only [compileProcCall, compileProcAppl_eq, Option.bind_eq_bind, Option.bind_some]
  rfl

/-! ### Telling the forms apart -/

theorem isForm_pair (keyword : UINT) (a d : Sexp) :
    isForm keyword (.pair a d) = (a == Sexp.sym keyword) := rfl

/-- The tests on a list, in the order of `compile-instr-list`. -/
theorem compileInstrList_pair (fuel : Nat) (a d : Sexp) (target : Reg) (linkage : Linkage)
    (st : CompilerState) :
    compileInstrList (fuel + 1) (.pair a d) target linkage st =
      if a = Sexp.sym symreprQuote then
        (compileQuoted fuel (.pair a d) target linkage).map (·, st)
      else if a = Sexp.sym symreprDefine then
        compileDef (compileInstrList fuel) (.pair a d) target linkage st
      else if a = Sexp.sym symreprLambda then
        compileLambda (compileInstrList fuel) (.pair a d) target linkage st
      else if a = Sexp.sym symreprProgn then
        compileProgn (compileInstrList fuel) d target linkage st
      else if a = Sexp.sym symreprLet then
        compileLet (compileInstrList fuel) (.pair a d) target linkage st
      else compileApplication (compileInstrList fuel) (.pair a d) target linkage st := by
  rw [compileInstrList]
  simp only [isSelfEvaluating, isNumber, isArray, isSymbol, isList, isQuoted, isDef, isLambda,
    isProgn, isLet, isForm_pair, beq_iff_eq, Bool.or_self, Bool.false_eq_true, if_false, if_true,
    cdr]

theorem car_of_not_list {d : Sexp} (hd : isList d = false) :
    car d = Sexp.nil ∨ car d = Sexp.sym symreprTerror := by
  cases d with
  | pair a d => exact absurd hd (by simp [isList])
  | atom v =>
    show (if _ then _ else _) = _ ∨ (if _ then _ else _) = _
    split
    · next h => exact Or.inl h
    · exact Or.inr rfl
  | name text => exact Or.inr rfl
  | boxed k x => exact Or.inr rfl
  | string text => exact Or.inr rfl

/-- What is not a list is none of the forms. -/
theorem isForm_of_not_list {d : Sexp} (hd : isList d = false) {keyword : UINT}
    (hk : Sexp.sym keyword ∈ keywords) : isForm keyword d = false := by
  have hne : ∀ k ∈ keywords, k ≠ Sexp.nil ∧ k ≠ Sexp.sym symreprTerror := by decide
  obtain ⟨hnil, hterror⟩ := hne _ hk
  rw [isForm, beq_eq_false_iff_ne]
  rcases car_of_not_list hd with heq | heq <;> rw [heq]
  · exact hnil.symm
  · exact hterror.symm

theorem isList_of_isSymbol {s : Sexp} (hs : isSymbol s = true) : isList s = false := by
  cases s with
  | pair a d => exact absurd hs (by simp [isSymbol])
  | atom v => rfl
  | name text => rfl
  | boxed k x => rfl
  | string text => rfl

theorem isSelfEvaluating_of_isSymbol {s : Sexp} (hs : isSymbol s = true) :
    isSelfEvaluating s = false := by
  cases s with
  | atom v =>
    have hty : typeOf v = valTypeSymbol := by simpa [isSymbol] using hs
    simp only [isSelfEvaluating, isNumber, isArray, hty]
    decide
  | name text => rfl
  | boxed k x => exact absurd hs (by simp [isSymbol])
  | string text => exact absurd hs (by simp [isSymbol])
  | pair a d => exact absurd hs (by simp [isSymbol])

theorem isFundamental_toSexp (e : Expr) : Compiler.isFundamental e.toSexp = e.isFundamental := by
  cases e with
  | const d hd =>
    rw [Expr.toSexp]
    show Compiler.isFundamental d = false
    cases d with
    | atom v =>
      have hty : typeOf v = valTypeI ∨ typeOf v = valTypeU := by
        simpa [isSelfEvaluating, isNumber, isArray] using hd
      show LispBM.isFundamental v = false
      rcases hty with hty | hty <;> rw [LispBM.isFundamental, hty] <;> rfl
    | name text => rfl
    | boxed k x => rfl
    | string text => rfl
    | pair a d => rfl
  | sym s hs => rw [Expr.toSexp, Expr.isFundamental]
  | quote d => rw [Expr.toSexp]; rfl
  | define var e => rw [Expr.toSexp]; rfl
  | lambda formals body => rw [Expr.toSexp]; rfl
  | letIn bindings body => rw [Expr.toSexp]; rfl
  | progn body => rw [Expr.toSexp]; rfl
  | app operator operands => rw [Expr.toSexp]; rfl

theorem isLambda_toSexp {e : Expr} (he : e.Wf) : Compiler.isLambda e.toSexp = e.isLambda := by
  have hkey : Sexp.sym symreprLambda ∈ keywords := by decide
  cases e with
  | const d hd =>
    rw [Expr.toSexp]
    cases d with
    | pair a d => exact absurd hd (by simp [isSelfEvaluating, isNumber, isArray])
    | atom v => exact isForm_of_not_list rfl hkey
    | name text => exact isForm_of_not_list rfl hkey
    | boxed k x => exact isForm_of_not_list rfl hkey
    | string text => exact isForm_of_not_list rfl hkey
  | sym s hs =>
    rw [Expr.toSexp]
    exact isForm_of_not_list (isList_of_isSymbol hs) hkey
  | quote d => rw [Expr.toSexp]; rfl
  | define var e => rw [Expr.toSexp]; rfl
  | lambda formals body => rw [Expr.toSexp]; rfl
  | letIn bindings body => rw [Expr.toSexp]; rfl
  | progn body => rw [Expr.toSexp]; rfl
  | app operator operands =>
    rw [Expr.Wf] at he
    rw [Expr.toSexp]
    show (operator.toSexp == Sexp.sym symreprLambda) = false
    rw [beq_eq_false_iff_ne]
    intro heq
    exact he.1 (heq ▸ hkey)

/-! ### The simulation -/

mutual

theorem compileInstrList_toSexp : ∀ (e : Expr) (d : Dest) (st : CompilerState) (fuel : Nat), e.Wf →
    e.size ≤ fuel → compileInstrList fuel e.toSexp d.target d.linkage st = some (e.compile d st)
  | .const e he, d, st, fuel, _, hfuel => by
    rw [Expr.size] at hfuel
    obtain ⟨fuel, rfl⟩ : ∃ k, fuel = k + 1 := ⟨fuel - 1, by omega⟩
    rw [Expr.toSexp, compileInstrList, he, Expr.compile]
    rfl
  | .sym s hs, d, st, fuel, _, hfuel => by
    rw [Expr.size] at hfuel
    obtain ⟨fuel, rfl⟩ : ∃ k, fuel = k + 1 := ⟨fuel - 1, by omega⟩
    have hquote : isQuoted s = false := isForm_of_not_list (isList_of_isSymbol hs) (by decide)
    rw [Expr.toSexp, compileInstrList, isSelfEvaluating_of_isSymbol hs, hquote, hs, Expr.compile]
    rfl
  | .quote q, d, st, fuel, _, hfuel => by
    rw [Expr.size] at hfuel
    obtain ⟨fuel, rfl⟩ : ∃ k, fuel = k + 1 := ⟨fuel - 1, by omega⟩
    have hdata := compileData_toSexp d.target q (show q.size ≤ fuel by omega)
    rw [Expr.toSexp, form, compileInstrList_pair, if_pos rfl, compileQuoted, Expr.compile]
    show ((compileData fuel q.toSexp d.target).map _).map _ = _
    rw [hdata]
    rfl
  | .define var e, d, st, fuel, hwf, hfuel => by
    rw [Expr.size] at hfuel
    rw [Expr.Wf] at hwf
    obtain ⟨fuel, rfl⟩ : ∃ k, fuel = k + 1 := ⟨fuel - 1, by omega⟩
    have he := compileInstrList_toSexp e (.next .val) (newIndirection var st).2 fuel hwf (by omega)
    rw [Expr.toSexp, form, compileInstrList_pair, if_neg (by decide), if_pos rfl, compileDef,
      Expr.compile]
    show (compileInstrList fuel e.toSexp .val .next (newIndirection var st).2).bind _ = _
    rw [show compileInstrList fuel e.toSexp .val .next (newIndirection var st).2 = _ from he]
    rfl
  | .lambda formals body, d, st, fuel, hwf, hfuel => by
    rw [Expr.size] at hfuel
    rw [Expr.Wf] at hwf
    obtain ⟨fuel, rfl⟩ : ∃ k, fuel = k + 1 := ⟨fuel - 1, by omega⟩
    have he := compileInstrList_toSexp body .ret
      (mkLabel .afterLambda (mkLabel .entry st).2).2 fuel hwf (by omega)
    rw [Expr.toSexp, form, compileInstrList_pair, if_neg (by decide), if_neg (by decide),
      if_pos rfl, compileLambda, Expr.compile]
    show (compileLambdaBody (compileInstrList fuel) (form symreprLambda [Sexp.list formals,
      body.toSexp]) _ _).bind _ = _
    rw [compileLambdaBody]
    show ((properList (Sexp.list formals)).bind fun formals =>
      (compileInstrList fuel body.toSexp .val .return'
        (mkLabel .afterLambda (mkLabel .entry st).2).2).bind _).bind _ = _
    rw [properList_list, Option.bind_some,
      show compileInstrList fuel body.toSexp .val .return' _ = _ from he]
    rfl
  | .letIn bindings body, d, st, fuel, hwf, hfuel => by
    rw [Expr.size] at hfuel
    rw [Expr.Wf] at hwf
    obtain ⟨fuel, rfl⟩ : ∃ k, fuel = k + 1 := ⟨fuel - 1, by omega⟩
    have hbs := mapList_bindings bindings st fuel hwf.1 (by omega)
    have he := compileInstrList_toSexp body d (bindings.compile st).2 fuel hwf.2 (by omega)
    rw [Expr.toSexp, form, compileInstrList_pair, if_neg (by decide), if_neg (by decide),
      if_neg (by decide), if_neg (by decide), if_pos rfl, compileLet, Expr.compile]
    show ((properList (Sexp.list bindings.toSexps)).bind fun bindings =>
      (mapList _ bindings st).bind _) = _
    rw [properList_list, Option.bind_some, hbs, Option.bind_some]
    show (compileInstrList fuel body.toSexp d.target d.linkage (bindings.compile st).2).bind _ = _
    rw [he]
    rfl
  | .progn body, d, st, fuel, hwf, hfuel => by
    rw [Expr.size] at hfuel
    rw [Expr.Wf] at hwf
    obtain ⟨fuel, rfl⟩ : ∃ k, fuel = k + 1 := ⟨fuel - 1, by omega⟩
    rw [Expr.toSexp, form, compileInstrList_pair, if_neg (by decide), if_neg (by decide),
      if_neg (by decide), if_pos rfl, Expr.compile]
    exact compileProgn_toSexps body d st fuel hwf (by omega)
  | .app operator operands, d, st, fuel, hwf, hfuel => by
    rw [Expr.size] at hfuel
    rw [Expr.Wf] at hwf
    obtain ⟨hkey, hop, hargs⟩ := hwf
    obtain ⟨fuel, rfl⟩ : ∃ k, fuel = k + 1 := ⟨fuel - 1, by omega⟩
    simp only [keywords, List.mem_cons, List.not_mem_nil, or_false, not_or] at hkey
    have hproc : compileOperator (compileInstrList fuel) operator.toSexp st
        = some (operatorCode operator (operator.compile (.next .proc) st) st) := by
      rw [compileOperator, operatorCode, isFundamental_toSexp]
      split
      · rfl
      · exact compileInstrList_toSexp operator (.next .proc) st fuel hop (by omega)
    have hcall : ∀ st, compileCall operator.toSexp d.target d.linkage st
        = some (callCode operator d st) := by
      intro st
      rw [compileCall, callCode, isFundamental_toSexp, isLambda_toSexp hop,
        compileLambdaProcCall_eq, compileProcCall_eq]
      split
      · rfl
      · split <;> rfl
    rw [Expr.toSexp, compileInstrList_pair, if_neg hkey.1, if_neg hkey.2.1, if_neg hkey.2.2.1,
      if_neg hkey.2.2.2.1, if_neg hkey.2.2.2.2, compileApplication, Expr.compile]
    simp only [car, cdr, hproc, properList_list, Option.bind_eq_bind, Option.bind_some,
      mapList_toSexps operands _ fuel hargs (show operands.size ≤ fuel by omega), hcall]

theorem mapList_toSexps : ∀ (es : Exprs) (st : CompilerState) (fuel : Nat), es.Wf →
    es.size ≤ fuel →
    mapList (fun o => compileInstrList fuel o .val .next) es.toSexps st = some (es.compile st)
  | .nil, st, fuel, _, _ => by
    rw [Exprs.toSexps, Exprs.compile]
    rfl
  | .cons e es, st, fuel, hwf, hfuel => by
    rw [Exprs.size] at hfuel
    rw [Exprs.Wf] at hwf
    have he : compileInstrList fuel e.toSexp .val .next st = _ :=
      compileInstrList_toSexp e (.next .val) st fuel hwf.1 (by omega)
    have hes := mapList_toSexps es (e.compile (.next .val) st).2 fuel hwf.2 (by omega)
    rw [Exprs.toSexps, mapList, he, Exprs.compile]
    simp only [Option.bind_eq_bind, Option.bind_some, hes]

theorem mapList_bindings : ∀ (bs : Bindings) (st : CompilerState) (fuel : Nat), bs.Wf →
    bs.size ≤ fuel →
    mapList (compileBinding (compileInstrList fuel)) bs.toSexps st = some (bs.compile st)
  | .nil, st, fuel, _, _ => by
    rw [Bindings.toSexps, Bindings.compile]
    rfl
  | .cons key e bs, st, fuel, hwf, hfuel => by
    rw [Bindings.size] at hfuel
    rw [Bindings.Wf] at hwf
    have he : compileInstrList fuel e.toSexp .val .next st = _ :=
      compileInstrList_toSexp e (.next .val) st fuel hwf.1 (by omega)
    have hbs := mapList_bindings bs (newIndirection key (e.compile (.next .val) st).2).2 fuel hwf.2
      (by omega)
    have hkeyval : compileBinding (compileInstrList fuel) (Sexp.list [key, e.toSexp]) st
        = some (appendTwoInstrSeqs (e.compile (.next .val) st).1
            ⟨[.val], [.env], [.exenvval (newIndirection key (e.compile (.next .val) st).2).1]⟩,
          (newIndirection key (e.compile (.next .val) st).2).2) := by
      rw [compileBinding]
      show (compileInstrList fuel e.toSexp .val .next st).bind _ = _
      rw [he]
      rfl
    rw [Bindings.toSexps, mapList, hkeyval, Bindings.compile]
    simp only [Option.bind_eq_bind, Option.bind_some, hbs]

theorem compileProgn_toSexps : ∀ (b : Body) (d : Dest) (st : CompilerState) (fuel : Nat), b.Wf →
    b.size ≤ fuel → compileProgn (compileInstrList fuel) (Sexp.list b.toSexps) d.target d.linkage st
      = some (b.compile d st)
  | .last e, d, st, fuel, hwf, hfuel => by
    rw [Body.size] at hfuel
    rw [Body.Wf] at hwf
    rw [Body.toSexps, Body.compile]
    exact compileInstrList_toSexp e d st fuel hwf hfuel
  | .cons e rest, d, st, fuel, hwf, hfuel => by
    rw [Body.size] at hfuel
    rw [Body.Wf] at hwf
    have he : compileInstrList fuel e.toSexp d.target .next st = _ :=
      compileInstrList_toSexp e (.next d.target) st fuel hwf.1 (by omega)
    have hrest := compileProgn_toSexps rest d (e.compile (.next d.target) st).2 fuel hwf.2
      (by omega)
    have hmore : isLastElement (Sexp.list (e.toSexp :: rest.toSexps)) = false := by
      cases rest with
      | last e' => rw [Body.toSexps]; rfl
      | cons e' rest' => rw [Body.toSexps]; rfl
    rw [Body.toSexps, Body.compile]
    show compileProgn _ (.pair e.toSexp (Sexp.list rest.toSexps)) _ _ _ = _
    rw [compileProgn]
    show (if isLastElement (Sexp.list (e.toSexp :: rest.toSexps)) = true then _ else _) = _
    rw [hmore, he]
    simp only [Bool.false_eq_true, if_false, Option.bind_eq_bind, Option.bind_some, hrest]

end

end Compiler

end LispBM
