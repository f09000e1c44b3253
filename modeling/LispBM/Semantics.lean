import LispBM.Fundamental.Arguments

/-!
# LispBM — what programs mean

The language of the concurrent evaluator, apart from the machine: what an expression evaluates to,
in an environment and a memory, without cells, stacks or registers. An environment binds names to
locations, and the memory has their values, so that `define` and `let` assign to what closures have
captured.

An evaluation leaves an environment, the one in `curr_env` at its end. The last expression of a
`progn` and the branch of an `if` are evaluated in the environment that the expression before them
has left, and the next expression of a program also. A closure has the bindings of the environment
it was made in in the opposite order.

* `Eval` — an expression has a value, which takes a number of cells;
* `EvalRest`, `EvalBindings`, `EvalConnective`, `EvalArgs`, `Apply` — the parts of `progn`, `let`,
  `and` and `or`, and applications;
* `EvalProgram` — a program has a value.

Errors and extensions have no rules, nor have contexts and values in boxes and arrays.
-/

namespace LispBM

namespace Semantics

/-! ## Values, environments and memories -/

abbrev Loc := Nat

/-- The newest binding is the first one. -/
abbrev Env := List (VALUE × Loc)

/-- A value, which may also be an expression. -/
inductive Val where
  /-- a symbol, a number or a character -/
  | word (w : VALUE)
  | pair (a d : Val)
  | closure (params : List VALUE) (body : Val) (env : Env)
deriving DecidableEq

namespace Val

def sym (id : UINT) : Val := word (encSym id)

def nil : Val := word NIL

/-- The list of `vs` with the end `b`. -/
def listTo (vs : List Val) (b : Val) : Val := vs.foldr pair b

def list (vs : List Val) : Val := listTo vs nil

/-- The code tests symbols by their ids. -/
def isSymbol (id : UINT) : Val → Bool
  | word w => typeOf w == valTypeSymbol && decSym w == id
  | _ => false

def isNil : Val → Bool := isSymbol symreprNil

/-- A symbol that a form may have for its head. -/
def isFormHead (v : Val) : Bool :=
  [symreprQuote, symreprDefine, symreprProgn, symreprSpawn, symreprLambda, symreprIf, symreprLet,
    symreprAnd, symreprOr].any v.isSymbol

/-- What the concurrent evaluator takes for an operator wherever it gets it. -/
def isConnective (v : Val) : Bool := [symreprAnd, symreprOr].any v.isSymbol

/-- What the evaluators take for a failure of a fundamental operation. -/
def isFailure (v : Val) : Bool := [symreprEerror, symreprMerror].any v.isSymbol

end Val

/-- The values of the locations, and what is defined. A location has no value as long as the
expression of its binding has not been evaluated. -/
structure Memory where
  vals : List (Option Val)
  globals : Env

namespace Memory

/-- The location has the value `v`. -/
def Has (m : Memory) (l : Loc) (v : Val) : Prop := m.vals[l]? = some (some v)

def assign (m : Memory) (l : Loc) (v : Val) : Memory := { m with vals := m.vals.set l (some v) }

def allocate (m : Memory) (vs : List (Option Val)) : Memory := { m with vals := m.vals ++ vs }

def define (m : Memory) (x : VALUE) (v : Val) : Memory :=
  match m.globals.lookup x with
  | some l => m.assign l v
  | none => { vals := m.vals ++ [some v], globals := (x, m.vals.length) :: m.globals }

/-- A new binding takes two cells. -/
def defineCells (m : Memory) (x : VALUE) : Nat := if (m.globals.lookup x).isSome then 0 else 2

end Memory

/-- What a copy of the environment has: all bindings but those of names with the number of `nil`. -/
def Env.bound (E : Env) : Env := E.filter fun b => decSym b.1 != symreprNil

/-- New bindings for names, at the locations from `l` on. -/
def Env.extend : Env → List VALUE → Loc → Env
  | E, [], _ => E
  | E, x :: xs, l => Env.extend ((x, l) :: E) xs (l + 1)

/-! ## Fundamental operations -/

/-- What the target adds to the language. -/
structure Target where
  floats : FloatOps
  isExtension : UINT → Bool

def isImmediate (w : VALUE) : Bool := !isPtr w

/-- The functions that the evaluators do not leave to `fundamental_exec`. -/
def isControlSymbol (f : VALUE) : Bool :=
  [symreprEval, symreprYield, symreprWait].any (decSym f == ·)

/-- A fundamental operation on values, and the cells it takes. -/
inductive Primitive (T : Target) : VALUE → List Val → Nat → Val → Prop where
  | cons (a d : Val) : Primitive T (encSym symCons) [a, d] 1 (.pair a d)
  | car (a d : Val) : Primitive T (encSym symCar) [.pair a d] 0 a
  | cdr (a d : Val) : Primitive T (encSym symCdr) [.pair a d] 0 d
  | list (vs : List Val) : Primitive T (encSym symList) vs vs.length (.list vs)
  | append (vs : List Val) (b : Val) :
      Primitive T (encSym symAppend) [.list vs, b] vs.length (.listTo vs b)
  /-- An operation on words that does not need the heap. -/
  | immediate {f r : VALUE} {ws : List VALUE} (hf : isFundamental f = true)
      (hcontrol : isControlSymbol f = false) (hws : ∀ w ∈ ws, isImmediate w = true)
      (hr : isImmediate r = true) (hn : minArgs (decSym f) ≤ ws.length)
      (hexec : ∀ st h, fundamentalExec T.floats ws (BitVec.ofNat 32 ws.length) f st h
        = some (r, h, st)) :
      Primitive T f (ws.map .word) 0 (.word r)

/-! ## Evaluation -/

/-- A word that is its own value. -/
def isConstant (T : Target) (w : VALUE) : Bool :=
  typeOf w == valTypeI || typeOf w == valTypeU || typeOf w == valTypeChar
    || (typeOf w == valTypeSymbol && (isSpecial w || T.isExtension (decSym w)))

/-- The symbol of a variable. -/
def isVariable (T : Target) (w : VALUE) : Bool :=
  typeOf w == valTypeSymbol && !(isSpecial w || T.isExtension (decSym w))

/-- The location of a variable: a local one if there is one. -/
def Memory.locate (m : Memory) (E : Env) (x : VALUE) : Option Loc :=
  (E.lookup x).or (m.globals.lookup x)

/-- The bindings of a `let`. -/
def bindingList (bs : List (VALUE × Val)) : Val :=
  .list (bs.map fun b => .list [.word b.1, b.2])

inductive Connective where
  | and
  | or
deriving DecidableEq

namespace Connective

def symbol : Connective → UINT
  | and => symreprAnd
  | or => symreprOr

/-- A value that decides the form. -/
def stops : Connective → Val → Prop
  | and, v => v = .nil
  | or, v => v.isNil = false

/-- A value after which the next operand is evaluated. -/
def passes : Connective → Val → Prop
  | and, v => v.isNil = false
  | or, v => v = .nil

end Connective

mutual

/-- In the environment `E` and the memory `m` the expression `e` evaluates to `v` with `n` cells;
`m'` and `E'` are the memory and the environment after that. -/
inductive Eval (T : Target) :
    Memory → Env → Val → Nat → Memory → Val → Env → Prop where
  | constant {m : Memory} {E : Env} {w : VALUE} (hw : isConstant T w = true) :
      Eval T m E (.word w) 0 m (.word w) E
  | var {m : Memory} {E : Env} {x : VALUE} {l : Loc} {v : Val} (hx : isVariable T x = true)
      (hl : m.locate E x = some l) (hv : m.Has l v) (hfound : v.isSymbol symreprNotFound = false) :
      Eval T m E (.word x) 0 m v E
  | quote {m : Memory} {E : Env} {v rest : Val} :
      Eval T m E (.pair (.sym symreprQuote) (.pair v rest)) 0 m v E
  | define {m m' : Memory} {E E' : Env} {x : VALUE} {e rest v : Val} {n : Nat}
      (hx : typeOf x = valTypeSymbol) (hnil : x ≠ NIL) (he : Eval T m E e n m' v E') :
      Eval T m E (.pair (.sym symreprDefine) (.pair (.word x) (.pair e rest)))
        (n + m'.defineCells x) (m'.define x v) (.word x) E'
  | prognOne {m m' : Memory} {E E' : Env} {e v : Val} {n : Nat} (he : Eval T m E e n m' v E') :
      Eval T m E (.list [.sym symreprProgn, e]) n m' v E'
  | progn {m m₁ m' : Memory} {E E₁ E' : Env} {e v v₁ : Val} {es : List Val} {n₁ n : Nat}
      (he : Eval T m E e n₁ m₁ v₁ E₁) (hrest : EvalRest T E m₁ E₁ es n m' v E') :
      Eval T m E (.list (.sym symreprProgn :: e :: es)) (n₁ + n) m' v E'
  | lambda {m : Memory} {E : Env} {ps : List VALUE} {e rest : Val}
      (hps : ∀ p ∈ ps, typeOf p = valTypeSymbol) :
      Eval T m E (.pair (.sym symreprLambda) (.pair (.list (ps.map .word)) (.pair e rest)))
        (E.bound.length + 4) m (.closure ps e E.bound.reverse) E
  | ifThen {m m₁ m' : Memory} {E E₁ E' : Env} {e a b rest v₁ v : Val} {n₁ n : Nat}
      (he : Eval T m E e n₁ m₁ v₁ E₁) (hthen : v₁.isSymbol symreprTrue = true)
      (ha : Eval T m₁ E₁ a n m' v E') :
      Eval T m E (.pair (.sym symreprIf) (.pair e (.pair a (.pair b rest)))) (n₁ + n) m' v E'
  | ifElse {m m₁ m' : Memory} {E E₁ E' : Env} {e a b rest v₁ v : Val} {n₁ n : Nat}
      (he : Eval T m E e n₁ m₁ v₁ E₁) (helse : v₁.isSymbol symreprTrue = false)
      (hb : Eval T m₁ E₁ b n m' v E') :
      Eval T m E (.pair (.sym symreprIf) (.pair e (.pair a (.pair b rest)))) (n₁ + n) m' v E'
  | letrec {m m₁ m' : Memory} {E E₁ E' : Env} {bs : List (VALUE × Val)} {e rest v : Val}
      {n₁ n : Nat} (hnames : ∀ b ∈ bs, typeOf b.1 = valTypeSymbol)
      (hE₁ : E₁ = E.extend (bs.map Prod.fst) m.vals.length)
      (hbs : EvalBindings T (m.allocate (bs.map fun _ => none)) E₁ bs n₁ m₁)
      (he : Eval T m₁ E₁ e n m' v E') :
      Eval T m E (.pair (.sym symreprLet) (.pair (bindingList bs) (.pair e rest)))
        (2 * bs.length + n₁ + n) m' v E'
  | connective {m m' : Memory} {E E' : Env} {c : Connective} {es : List Val} {n : Nat} {v : Val}
      (hes : EvalConnective T c m E es n m' v E') :
      Eval T m E (.pair (.sym c.symbol) (.list es)) n m' v E'
  | application {m m₁ m₂ m' : Memory} {E E₁ E₂ E' : Env} {f g v : Val} {es vs : List Val}
      {n₁ n₂ n : Nat} (hf : f.isFormHead = false)
      (heval : Eval T m E f n₁ m₁ g E₁) (hg : g.isConnective = false)
      (hes : EvalArgs T E m₁ E₁ es n₂ m₂ vs E₂) (happly : Apply T m₂ E₂ g vs n m' v E') :
      Eval T m E (.pair f (.list es)) (n₁ + n₂ + n) m' v E'

/-- The expressions of a `progn` in `E` after the first one, which left `E₁`. -/
inductive EvalRest (T : Target) :
    Env → Memory → Env → List Val → Nat → Memory → Val → Env → Prop where
  | last {m m' : Memory} {E E₁ E' : Env} {e v : Val} {n : Nat} (he : Eval T m E₁ e n m' v E') :
      EvalRest T E m E₁ [e] n m' v E'
  | next {m m₁ m' : Memory} {E E₁ E₂ E' : Env} {e e' v v₁ : Val} {es : List Val} {n₁ n : Nat}
      (he : Eval T m E e n₁ m₁ v₁ E₂) (hrest : EvalRest T E m₁ E₂ (e' :: es) n m' v E') :
      EvalRest T E m E₁ (e :: e' :: es) (n₁ + n) m' v E'

/-- The expressions of the bindings of a `let` are evaluated and assigned one after another, in the
environment with all the bindings. -/
inductive EvalBindings (T : Target) :
    Memory → Env → List (VALUE × Val) → Nat → Memory → Prop where
  | nil {m : Memory} {E : Env} : EvalBindings T m E [] 0 m
  | cons {m m₁ m' : Memory} {E E₁ : Env} {x : VALUE} {e v : Val} {bs : List (VALUE × Val)}
      {n₁ n : Nat} {l : Loc} (he : Eval T m E e n₁ m₁ v E₁) (hl : E.lookup x = some l)
      (hbs : EvalBindings T (m₁.assign l v) E bs n m') :
      EvalBindings T m E ((x, e) :: bs) (n₁ + n) m'

/-- The operands of `and` and `or`, of which there is at least one. -/
inductive EvalConnective (T : Target) :
    Connective → Memory → Env → List Val → Nat → Memory → Val → Env → Prop where
  | decided {c : Connective} {m m' : Memory} {E E' : Env} {e v : Val} {es : List Val} {n : Nat}
      (he : Eval T m E e n m' v E') (hv : c.stops v) :
      EvalConnective T c m E (e :: es) n m' v E'
  | last {c : Connective} {m m' : Memory} {E E' : Env} {e v : Val} {n : Nat}
      (he : Eval T m E e n m' v E') (hv : c.passes v) :
      EvalConnective T c m E [e] n m' v E'
  | next {c : Connective} {m m₁ m' : Memory} {E E₁ E' : Env} {e e' v v₁ : Val} {es : List Val}
      {n₁ n : Nat} (he : Eval T m E e n₁ m₁ v₁ E₁) (hv : c.passes v₁)
      (hes : EvalConnective T c m₁ E (e' :: es) n m' v E') :
      EvalConnective T c m E (e :: e' :: es) (n₁ + n) m' v E'

/-- The arguments of a call in `E` are evaluated from left to right; `E₁` is the environment before
that. -/
inductive EvalArgs (T : Target) :
    Env → Memory → Env → List Val → Nat → Memory → List Val → Env → Prop where
  | nil {m : Memory} {E E₁ : Env} : EvalArgs T E m E₁ [] 0 m [] E₁
  | cons {m m₁ m' : Memory} {E E₁ E₂ E' : Env} {e v : Val} {es vs : List Val} {n₁ n : Nat}
      (he : Eval T m E e n₁ m₁ v E₂) (hv : v.isConnective = false)
      (hes : EvalArgs T E m₁ E₂ es n m' vs E') :
      EvalArgs T E m E₁ (e :: es) (n₁ + n) m' (v :: vs) E'

/-- The function `f` is applied to the values `vs`. -/
inductive Apply (T : Target) :
    Memory → Env → Val → List Val → Nat → Memory → Val → Env → Prop where
  | fundamental {m : Memory} {E : Env} {f : VALUE} {vs : List Val} {v : Val} {n : Nat}
      (hf : Primitive T f vs n v) (hv : v.isFailure = false) :
      Apply T m E (.word f) vs n m v E
  | closure {m m' : Memory} {E E₀ E' : Env} {ps : List VALUE} {e v : Val} {vs : List Val} {n : Nat}
      (hlen : ps.length = vs.length)
      (he : Eval T (m.allocate (vs.map some)) (E₀.extend ps m.vals.length) e n m' v E') :
      Apply T m E (.closure ps e E₀) vs (vs.length + 2 * ps.length + n) m' v E'
  | eval {m m' : Memory} {E E' : Env} {e v : Val} {vs : List Val} {n : Nat}
      (he : Eval T m E e n m' v E') :
      Apply T m E (.sym symreprEval) (e :: vs) n m' v E'

end

/-- The expressions of a program are evaluated one after another. -/
inductive EvalProgram (T : Target) :
    Memory → Env → List Val → Nat → Memory → Val → Env → Prop where
  | last {m m' : Memory} {E E' : Env} {e v : Val} {n : Nat} (he : Eval T m E e n m' v E') :
      EvalProgram T m E [e] n m' v E'
  | next {m m₁ m' : Memory} {E E₁ E' : Env} {e e' v v₁ : Val} {es : List Val} {n₁ n : Nat}
      (he : Eval T m E e n₁ m₁ v₁ E₁) (hes : EvalProgram T m₁ E₁ (e' :: es) n m' v E') :
      EvalProgram T m E (e :: e' :: es) (n₁ + n) m' v E'

end Semantics

end LispBM
