import LispBM.Tokpar.Sexp

/-!
# LispBM — the bytecode compiler (`compiler/compile.lisp`)

The compiler is a Lisp program over the expressions the reader makes. It produces instruction
sequences with the registers they need and modify, and saves a register around a sequence only
where these annotations ask for it.

The label counter and the indirections are globals of the program and are passed along. `none`
stands for a call that does not return an instruction sequence: `compile-error`, an expression that
is "not recognized", a walk over a list without an end. Recursion is bounded by `fuel`. The label
counter is an `i28`; every label that was made is in a list of the heap, so that it does not come
back to a number it had.
-/

namespace LispBM

namespace Compiler

open Tokpar (Sexp)

/-! ## Registers, labels and instructions -/

/-- The names in the register lists. `continue'` is the name `continue`, which two of the lists use
and which is not a register of the machine. -/
inductive Reg where
  | env
  | proc
  | val
  | argl
  | cont
  | continue'
  deriving DecidableEq, Repr

def allRegs : List Reg := [.env, .proc, .val, .argl, .cont]

/-- The texts given to `mk-label`. -/
inductive LabelName where
  | entry
  | afterLambda
  | fundBranch
  | compBranch
  | afterCall
  | procReturn
  deriving DecidableEq, Repr

/-- `(label name n)`. -/
structure Label where
  name : LabelName
  number : Nat
  deriving DecidableEq, Repr

/-- The immediate operands: data of the program, addresses of code and symbol indirections. -/
inductive Imm where
  | datum (d : Sexp)
  | label (l : Label)
  | indirection (i : Nat)
  deriving DecidableEq, Repr

/-- The statements of the emitted code: the instructions of `all-instrs` and `instr-size` that the
compiler uses, and labels. -/
inductive Stmt where
  | label (l : Label)
  | jmpcnt
  | jmpimm (l : Label)
  | jmpval
  | movimm (r : Reg) (x : Imm)
  | mov (r s : Reg)
  | lookup (r : Reg) (i : Nat)
  | setglbval (i : Nat)
  | push (r : Reg)
  | pop (r : Reg)
  | bpf (l : Label)
  | exenvargl (p : Sexp)
  | exenvval (i : Nat)
  | cons (r s : Reg)
  | consimm (r : Reg) (x : Imm)
  | cadr (r s : Reg)
  | caddr (r s : Reg)
  | callf
  | done
  deriving DecidableEq, Repr

/-! ## Tests on expressions -/

/-- `car`. The forms are told apart after the numbers and arrays, whose cells it would look into. -/
def car : Sexp → Sexp
  | .pair a _ => a
  | d => if d = Sexp.nil then d else Sexp.sym symreprTerror

def cdr : Sexp → Sexp
  | .pair _ d => d
  | d => if d = Sexp.nil then d else Sexp.sym symreprTerror

def isSymbol : Sexp → Bool
  | .atom v => typeOf v == valTypeSymbol
  | .name _ => true
  | _ => false

def isList : Sexp → Bool
  | .pair _ _ => true
  | _ => false

def isNumber : Sexp → Bool
  | .atom v => typeOf v == valTypeI || typeOf v == valTypeU
  | .boxed _ _ => true
  | _ => false

def isArray : Sexp → Bool
  | .string _ => true
  | _ => false

def isSelfEvaluating (exp : Sexp) : Bool := isNumber exp || isArray exp

def isNil (exp : Sexp) : Bool := exp == Sexp.nil

def isForm (keyword : UINT) (exp : Sexp) : Bool := car exp == Sexp.sym keyword

def isDef : Sexp → Bool := isForm symreprDefine
def isQuoted : Sexp → Bool := isForm symreprQuote
def isLambda : Sexp → Bool := isForm symreprLambda
def isLet : Sexp → Bool := isForm symreprLet
def isProgn : Sexp → Bool := isForm symreprProgn

def isLastElement (exp : Sexp) : Bool := isList exp && isNil (cdr exp)

/-- `is-fundamental`. -/
def isFundamental : Sexp → Bool
  | .atom v => LispBM.isFundamental v
  | _ => false

/-- A proper list; the library functions do not come to an end on another one. -/
def properList : Sexp → Option (List Sexp)
  | .pair a d => (properList d).map (a :: ·)
  | d => if isNil d then some [] else none

/-! ## Instruction sequences -/

def listUnion : List Reg → List Reg → List Reg
  | [], s₂ => s₂
  | r :: s₁, s₂ => if r ∈ s₂ then listUnion s₁ s₂ else r :: listUnion s₁ s₂

def listDiff : List Reg → List Reg → List Reg
  | [], _ => []
  | r :: s₁, s₂ => if r ∈ s₂ then listDiff s₁ s₂ else r :: listDiff s₁ s₂

/-- `(mk-instr-seq needs mods stms)`, with `regs-needed`, `regs-modified` and `statements`. -/
structure InstrSeq where
  regsNeeded : List Reg
  regsModified : List Reg
  statements : List Stmt
  deriving DecidableEq, Repr

def emptyInstrSeq : InstrSeq := ⟨[], [], []⟩

/-- A label where a sequence is expected: it needs and modifies nothing. -/
def Label.seq (l : Label) : InstrSeq := ⟨[], [], [.label l]⟩

def appendTwoInstrSeqs (s₁ s₂ : InstrSeq) : InstrSeq :=
  ⟨listUnion s₁.regsNeeded (listDiff s₂.regsNeeded s₁.regsModified),
    listUnion s₁.regsModified s₂.regsModified, s₁.statements ++ s₂.statements⟩

def appendInstrSeqs : List InstrSeq → InstrSeq
  | [] => emptyInstrSeq
  | s :: seqs => appendTwoInstrSeqs s (appendInstrSeqs seqs)

def tackOnInstrSeq (s b : InstrSeq) : InstrSeq :=
  ⟨s.regsNeeded, s.regsModified, s.statements ++ b.statements⟩

/-- `s₁` between the instructions that save and restore `r`. -/
def saving (r : Reg) (s₁ : InstrSeq) : InstrSeq :=
  ⟨listUnion [r] s₁.regsNeeded, listDiff s₁.regsModified [r],
    [.push r] ++ (s₁.statements ++ [.pop r])⟩

def preserving : List Reg → InstrSeq → InstrSeq → InstrSeq
  | [], s₁, s₂ => appendInstrSeqs [s₁, s₂]
  | r :: regs, s₁, s₂ =>
      if r ∈ s₂.regsNeeded ∧ r ∈ s₁.regsModified then preserving regs (saving r s₁) s₂
      else preserving regs s₁ s₂

def parallelInstrSeqs (s₁ s₂ : InstrSeq) : InstrSeq :=
  ⟨listUnion s₁.regsNeeded s₂.regsNeeded, listUnion s₁.regsModified s₂.regsModified,
    s₁.statements ++ s₂.statements⟩

/-! ## The globals -/

/-- `label-counter`, `indirection-counter` and `symbol-indirections`. The text of the symbol that
the last one also keeps is for the output. -/
structure CompilerState where
  labelCounter : Nat
  indirectionCounter : Nat
  symbolIndirections : List (Sexp × Nat)
  deriving DecidableEq, Repr

/-- Before the first program. -/
def CompilerState.initial : CompilerState := ⟨0, 1, []⟩

def mkLabel (name : LabelName) (st : CompilerState) : Label × CompilerState :=
  let n := st.labelCounter + 1
  (⟨name, n⟩, { st with labelCounter := n })

def newIndirection (sym : Sexp) (st : CompilerState) : Nat × CompilerState :=
  match st.symbolIndirections.lookup sym with
  | some i => (i, st)
  | none =>
      (st.indirectionCounter,
        { st with indirectionCounter := st.indirectionCounter + 1,
                  symbolIndirections := (sym, st.indirectionCounter) :: st.symbolIndirections })

/-! ## Linkage -/

inductive Linkage where
  | next
  | return'
  | label (l : Label)
  deriving DecidableEq, Repr

def compileLinkage : Linkage → InstrSeq
  | .return' => ⟨[.cont], [], [.jmpcnt]⟩
  | .next => emptyInstrSeq
  | .label l => ⟨[], [], [.jmpimm l]⟩

def endWithLinkage (linkage : Linkage) (seq : InstrSeq) : InstrSeq :=
  preserving [.cont] seq (compileLinkage linkage)

/-! ## Constants, quoted data and symbols -/

def compileSelfEvaluating (exp : Sexp) (target : Reg) (linkage : Linkage) : InstrSeq :=
  endWithLinkage linkage ⟨[], [target], [.movimm target (.datum exp)]⟩

def compileDataPrim (exp : Sexp) (target : Reg) : InstrSeq :=
  ⟨[], [target], [.movimm target (.datum exp)]⟩

/-- `compile-data-nest` and, on a list, the `compile-data-list` of its elements. -/
def compileDataNest : Nat → Sexp → Reg → Option InstrSeq
  | 0, _, _ => none
  | fuel + 1, exp, target =>
      if isList exp then do
        let es ← properList exp
        let seqs ← es.reverse.mapM fun e => compileDataNest fuel e target
        some (appendTwoInstrSeqs
          ⟨[target], [], [.push target, .movimm target (.datum Sexp.nil)]⟩
          (appendTwoInstrSeqs (appendInstrSeqs seqs)
            ⟨[target], [target, .argl], [.mov .argl target, .pop target, .cons target .argl]⟩))
      else
        some (appendTwoInstrSeqs (compileDataPrim exp .argl)
          ⟨[.argl], [target], [.cons target .argl]⟩)

def compileDataList (fuel : Nat) (exps : List Sexp) (target : Reg) : Option InstrSeq :=
  (exps.mapM fun e => compileDataNest fuel e target).map appendInstrSeqs

def compileData (fuel : Nat) (exp : Sexp) (target : Reg) : Option InstrSeq :=
  if isList exp then do
    let es ← properList exp
    let seq ← compileDataList fuel es.reverse target
    some (appendTwoInstrSeqs ⟨[], [target], [.movimm target (.datum Sexp.nil)]⟩ seq)
  else some (compileDataPrim exp target)

def compileQuoted (fuel : Nat) (exp : Sexp) (target : Reg) (linkage : Linkage) : Option InstrSeq :=
  (compileData fuel (car (cdr exp)) target).map (endWithLinkage linkage)

def compileSymbol (exp : Sexp) (target : Reg) (linkage : Linkage) (st : CompilerState) :
    InstrSeq × CompilerState :=
  let (i, st) := newIndirection exp st
  (endWithLinkage linkage ⟨[.env], [target], [.lookup target i]⟩, st)

/-! ## Applications -/

def addFstArgument (argCode : InstrSeq) : InstrSeq :=
  appendTwoInstrSeqs argCode
    ⟨[.val], [.argl], [.movimm .argl (.datum Sexp.nil), .cons .argl .val]⟩

def codeForNextArg (argCode : InstrSeq) : InstrSeq :=
  preserving [.argl] argCode ⟨[.val, .argl], [.argl], [.cons .argl .val]⟩

def getRestArgs : InstrSeq → List InstrSeq → InstrSeq
  | code, [] => codeForNextArg code
  | code, next :: codes => preserving [.env] (codeForNextArg code) (getRestArgs next codes)

def constructArglist (codes : List InstrSeq) : InstrSeq :=
  match codes.reverse with
  | [] => ⟨[], [.argl], [.movimm .argl (.datum Sexp.nil)]⟩
  | [code] => addFstArgument code
  | code :: next :: codes => preserving [.env] (addFstArgument code) (getRestArgs next codes)

def compileFundamentalProcCall (target : Reg) (linkage : Linkage) : InstrSeq :=
  endWithLinkage linkage ⟨[.proc, .argl], [target], [.callf]⟩

def compileProcAppl (target : Reg) (linkage : Linkage) (st : CompilerState) :
    Option (InstrSeq × CompilerState) :=
  match linkage with
  | .return' =>
      if target = .val then
        some (⟨[.proc, .continue'], allRegs, [.cadr .val .proc, .jmpval]⟩, st)
      else none
  -- `next` is never passed on to here; as an operand it would be the symbol
  | .next => none
  | .label l =>
      if target = .val then
        some (⟨[.proc], allRegs, [.movimm .cont (.label l), .cadr .val .proc, .jmpval]⟩, st)
      else
        let (procReturn, st) := mkLabel .procReturn st
        some (⟨[.proc], allRegs,
          [.movimm .cont (.label procReturn), .cadr .val .proc, .jmpval, .label procReturn,
            .mov target .val, .jmpimm l]⟩, st)

/-- The linkage of the call inside a sequence that ends at `after`. -/
def compiledLinkage (linkage : Linkage) (after : Label) : Linkage :=
  if linkage = .next then .label after else linkage

def compileLambdaProcCall (target : Reg) (linkage : Linkage) (st : CompilerState) :
    Option (InstrSeq × CompilerState) := do
  let (afterCall, st) := mkLabel .afterCall st
  let (appl, st) ← compileProcAppl target (compiledLinkage linkage afterCall) st
  some (appendTwoInstrSeqs appl afterCall.seq, st)

def compileProcCall (target : Reg) (linkage : Linkage) (st : CompilerState) :
    Option (InstrSeq × CompilerState) := do
  let (fundBranch, st) := mkLabel .fundBranch st
  let (compiledBranch, st) := mkLabel .compBranch st
  let (afterCall, st) := mkLabel .afterCall st
  let (appl, st) ← compileProcAppl target (compiledLinkage linkage afterCall) st
  some (appendInstrSeqs
    [⟨[.proc], [], [.bpf fundBranch]⟩,
      parallelInstrSeqs (appendTwoInstrSeqs compiledBranch.seq appl)
        (appendTwoInstrSeqs fundBranch.seq
          (endWithLinkage linkage ⟨[.proc, .argl], [target], [.callf]⟩)),
      afterCall.seq], st)

/-! ## The forms that compile other expressions

They are given `compile-instr-list` as `compile`. -/

section Forms

variable (compile : Sexp → Reg → Linkage → CompilerState → Option (InstrSeq × CompilerState))

/-- `map` of a function that compiles, over a Lisp list. -/
def mapList (f : Sexp → CompilerState → Option (InstrSeq × CompilerState)) :
    List Sexp → CompilerState → Option (List InstrSeq × CompilerState)
  | [], st => some ([], st)
  | e :: es, st => do
      let (s, st) ← f e st
      let (seqs, st) ← mapList f es st
      some (s :: seqs, st)

def compileDef (exp : Sexp) (target : Reg) (linkage : Linkage) (st : CompilerState) :
    Option (InstrSeq × CompilerState) := do
  let (i, st) := newIndirection (car (cdr exp)) st
  let (getValueCode, st) ← compile (car (cdr (cdr exp))) .val .next st
  some (endWithLinkage linkage (appendTwoInstrSeqs getValueCode
    ⟨[.val], [target], [.setglbval i, .movimm target (.indirection i)]⟩), st)

def compileBinding (keyval : Sexp) (st : CompilerState) : Option (InstrSeq × CompilerState) := do
  let (getValueCode, st) ← compile (car (cdr keyval)) .val .next st
  let (i, st) := newIndirection (car keyval) st
  some (appendTwoInstrSeqs getValueCode ⟨[.val], [.env], [.exenvval i]⟩, st)

def compileLet (exp : Sexp) (target : Reg) (linkage : Linkage) (st : CompilerState) :
    Option (InstrSeq × CompilerState) := do
  let bindings ← properList (car (cdr exp))
  let (codes, st) ← mapList (compileBinding compile) bindings st
  let (body, st) ← compile (car (cdr (cdr exp))) target linkage st
  some (appendTwoInstrSeqs (appendInstrSeqs codes) body, st)

/-- On what is not a list with an end the recursion of the source does not end either. -/
def compileProgn : Sexp → Reg → Linkage → CompilerState → Option (InstrSeq × CompilerState)
  | .pair e rest, target, linkage, st =>
      if isLastElement (.pair e rest) then compile e target linkage st
      else do
        let (s₁, st) ← compile e target .next st
        let (s₂, st) ← compileProgn rest target linkage st
        some (preserving [.env, .continue'] s₁ s₂, st)
  | _, _, _, _ => none

def compileLambdaBody (exp : Sexp) (procEntry : Label) (st : CompilerState) :
    Option (InstrSeq × CompilerState) := do
  let formals ← properList (car (cdr exp))
  let (body, st) ← compile (car (cdr (cdr exp))) .val .return' st
  some (appendTwoInstrSeqs
    (appendTwoInstrSeqs
      ⟨[.env, .proc, .argl], [.env], [.label procEntry, .caddr .env .proc]⟩
      (appendInstrSeqs (formals.map fun p => ⟨[.argl], [.env], [.exenvargl p]⟩)))
    body, st)

/-- The immediate `proc` that marks a procedure. -/
def procSymbol : Imm := .datum (.name (cstring "proc"))

def compileLambda (exp : Sexp) (target : Reg) (linkage : Linkage) (st : CompilerState) :
    Option (InstrSeq × CompilerState) := do
  let (procEntry, st) := mkLabel .entry st
  let (afterLambda, st) := mkLabel .afterLambda st
  let lambdaLinkage := compiledLinkage linkage afterLambda
  let (body, st) ← compileLambdaBody compile exp procEntry st
  some (appendTwoInstrSeqs
    (tackOnInstrSeq
      (endWithLinkage lambdaLinkage
        ⟨[.env], [target], [.movimm target (.datum Sexp.nil), .cons target .env,
          .consimm target (.label procEntry), .consimm target procSymbol]⟩)
      body)
    afterLambda.seq, st)

/-- The code for the operator of an application. -/
def compileOperator (operator : Sexp) (st : CompilerState) : Option (InstrSeq × CompilerState) :=
  if isFundamental operator then
    some (⟨[], [.proc], [.movimm .proc (.datum operator)]⟩, st)
  else compile operator .proc .next st

/-- The call of what the operator made. -/
def compileCall (operator : Sexp) (target : Reg) (linkage : Linkage) (st : CompilerState) :
    Option (InstrSeq × CompilerState) :=
  if isFundamental operator then some (compileFundamentalProcCall target linkage, st)
  else if isLambda operator then compileLambdaProcCall target linkage st
  else compileProcCall target linkage st

def compileApplication (exp : Sexp) (target : Reg) (linkage : Linkage) (st : CompilerState) :
    Option (InstrSeq × CompilerState) := do
  let (procCode, st) ← compileOperator compile (car exp) st
  let operands ← properList (cdr exp)
  let (operandCodes, st) ← mapList (fun o => compile o .val .next) operands st
  let (call, st) ← compileCall (car exp) target linkage st
  some (preserving [.env, .cont] procCode
    (preserving [.proc, .cont] (constructArglist operandCodes) call), st)

end Forms

def compileInstrList : Nat → Sexp → Reg → Linkage → CompilerState →
    Option (InstrSeq × CompilerState)
  | 0, _, _, _, _ => none
  | fuel + 1, exp, target, linkage, st =>
      if isSelfEvaluating exp then some (compileSelfEvaluating exp target linkage, st)
      else if isQuoted exp then (compileQuoted fuel exp target linkage).map (·, st)
      else if isSymbol exp then some (compileSymbol exp target linkage st)
      else if isDef exp then compileDef (compileInstrList fuel) exp target linkage st
      else if isLambda exp then compileLambda (compileInstrList fuel) exp target linkage st
      else if isProgn exp then compileProgn (compileInstrList fuel) (cdr exp) target linkage st
      else if isLet exp then compileLet (compileInstrList fuel) exp target linkage st
      else if isList exp then compileApplication (compileInstrList fuel) exp target linkage st
      else none

/-- `compile-program`, on the list of the expressions of a program. -/
def compileProgram (fuel : Nat) (exp : Sexp) (st : CompilerState) :
    Option (InstrSeq × CompilerState) := do
  let (s, st) ← compileProgn (compileInstrList fuel) exp .val .next st
  some (appendTwoInstrSeqs s ⟨[], [], [.done]⟩, st)

end Compiler

end LispBM
