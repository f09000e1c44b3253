import LispBM.Heap

/-!
# LispBM — environments (`src/env.c`)

An environment is a list of (key . value) cells. The global one is kept in a static variable,
which the evaluators' state carries. A walk over a circular list that allocates nothing does not
return (`none`); a walk that allocates ends when the heap is used up.
-/

namespace LispBM

/-- Iterations of a walk that may allocate: between two allocations it is read-only. -/
def allocWalkFuel (h : HeapState) : Nat := walkFuel h * walkFuel h

def envCopyShallowLoop : Nat → VALUE → VALUE → HeapState → Option (VALUE × HeapState)
  | 0, _, _, _ => none
  | n + 1, curr, res, h =>
      if typeOf curr == ptrTypeCons then
        let key := car h (car h curr)
        if decSym key != symreprNil then
          let (res, h) := cons (car h curr) res h
          if typeOf res == valTypeSymbol && decSym res == symreprMerror then some (res, h)
          else envCopyShallowLoop n (cdr h curr) res h
        else envCopyShallowLoop n (cdr h curr) res h
      else some (res, h)

/-- `env_copy_shallow`: the skeleton is copied, in reverse; the bindings are shared. -/
def envCopyShallow (env : VALUE) (h : HeapState) : Option (VALUE × HeapState) :=
  envCopyShallowLoop (allocWalkFuel h) env (encSym symreprNil) h

def envLookupLoop (h : HeapState) (sym : VALUE) : Nat → VALUE → Option VALUE
  | 0, _ => none
  | n + 1, curr =>
      if typeOf curr == ptrTypeCons then
        if car h (car h curr) == sym then some (cdr h (car h curr))
        else envLookupLoop h sym n (cdr h curr)
      else some (encSym symreprNotFound)

def envLookup (h : HeapState) (sym env : VALUE) : Option VALUE :=
  if decSym sym == symreprNil then some sym else envLookupLoop h sym (walkFuel h) env

/-- The search loop of `env_set` and `env_modify_binding`: the heap with the first binding of
`key` overwritten, or `some none` when there is none. -/
def setBindingLoop (key val : VALUE) (h : HeapState) : Nat → VALUE → Option (Option HeapState)
  | 0, _ => none
  | n + 1, curr =>
      if typeOf curr == ptrTypeCons then
        if car h (car h curr) == key then some (some (setCdr h (car h curr) val))
        else setBindingLoop key val h n (cdr h curr)
      else some none

/-- `env_set`. When the second `cons` fails the code returns the first cell, `keyval`, and not an
error symbol. -/
def envSet (env key val : VALUE) (h : HeapState) : Option (VALUE × HeapState) :=
  match setBindingLoop key val h (walkFuel h) env with
  | none => none
  | some (some h) => some (env, h)
  | some none =>
      let (keyval, h) := cons key val h
      if typeOf keyval == valTypeSymbol then some (keyval, h)
      else
        let (newEnv, h) := cons keyval env h
        if typeOf newEnv == valTypeSymbol then some (keyval, h) else some (newEnv, h)

def envModifyBinding (env key val : VALUE) (h : HeapState) : Option (VALUE × HeapState) :=
  match setBindingLoop key val h (walkFuel h) env with
  | none => none
  | some (some h) => some (env, h)
  | some none => some (encSym symreprNotFound, h)

def envBuildParamsArgsLoop : Nat → VALUE → VALUE → VALUE → HeapState → Option (VALUE × HeapState)
  | 0, _, _, _, _ => none
  | n + 1, currParam, currArg, env, h =>
      if typeOf currParam == ptrTypeCons then
        let (entry, h) := cons (car h currParam) (car h currArg) h
        if typeOf entry == valTypeSymbol && decSym entry == symreprMerror then
          some (encSym symreprMerror, h)
        else
          let (env, h) := cons entry env h
          if typeOf env == valTypeSymbol && decSym env == symreprMerror then
            some (encSym symreprMerror, h)
          else envBuildParamsArgsLoop n (cdr h currParam) (cdr h currArg) env h
      else some (env, h)

def envBuildParamsArgs (params args env0 : VALUE) (h : HeapState) : Option (VALUE × HeapState) := do
  let np ← length h params
  let na ← length h args
  if np != na then some (encSym symreprFatalError, h)
  else envBuildParamsArgsLoop (walkFuel h) params args env0 h

end LispBM
