import LispBM.EcEval.Discipline
import LispBM.EvalCps.Pushes

/-!
# LispBM — stack overflow in the explicit-control evaluator

The stack of `ec_eval_program` has 256 words and does not grow. A push that finds it full does
nothing, and no transition looks at the result. `stackNeed` is what a transition needs above the
stack pointer; a push is lost exactly when there is less room (`pushLost_iff`). Where every
transition has room, no value is computed after a lost push, and only there
(`overflowReported_iff`).
-/

namespace LispBM

namespace EcEval

/-! ## Stacks that do not grow -/

/-- A stack of `size` words that does not grow. -/
structure FixedStack (size : Nat) (S : Stack) : Prop where
  growable : S.growable = false
  length : S.data.length = size

section

variable {m : Malloc} {size : Nat} {S S' : Stack} {v : UINT} {ws : List UINT}

theorem FixedStack.sp_le (h : FixedStack size S) : S.sp ≤ size := by
  rw [← h.length]
  exact S.sp_le

theorem FixedStack.pop (h : FixedStack size S) (hpop : popU32 S = some (v, S')) :
    FixedStack size S' ∧ S'.sp + 1 = S.sp := by
  refine ⟨⟨?_, ?_⟩, sp_popU32 hpop⟩
  · unfold popU32 at hpop
    split at hpop
    · cases hpop
      exact h.growable
    · cases hpop
  · rw [data_popU32 hpop, h.length]

theorem FixedStack.drop (h : FixedStack size S) (n : Nat) : FixedStack size (stackDrop S n) := by
  unfold stackDrop
  split
  · exact h
  · exact ⟨h.growable, h.length⟩

theorem FixedStack.clear (h : FixedStack size S) : FixedStack size (stackClear S) :=
  ⟨h.growable, h.length⟩

/-- A push onto a full stack does nothing. -/
theorem FixedStack.pushU32_eq (h : FixedStack size S) :
    (pushU32 m S v).1 = decide (S.sp < size) ∧ FixedStack size (pushU32 m S v).2
      ∧ (S.sp < size → (pushU32 m S v).2.sp = S.sp + 1)
      ∧ (¬S.sp < size → (pushU32 m S v).2 = S) := by
  have hgrow : stackGrow m S = none := by simp [stackGrow, h.growable]
  by_cases hlt : S.sp < size
  · have hroom : S.sp < S.data.length := by rw [h.length]; exact hlt
    rw [pushU32, dif_pos hroom]
    refine ⟨by simp [hlt], ⟨h.growable, ?_⟩, fun _ => rfl, fun hn => absurd hlt hn⟩
    rw [Stack.write, List.length_set, h.length]
  · have hfull : ¬S.sp < S.data.length := by rw [h.length]; exact hlt
    rw [pushU32, dif_neg hfull, hgrow]
    exact ⟨by simp [hlt], h, fun h => absurd h hlt, fun _ => rfl⟩

theorem FixedStack.pushAll_full (h : FixedStack size S) (hfull : S.sp = size) :
    (pushAll m S ws).2 = S := by
  induction ws with
  | nil => rfl
  | cons w ws ih =>
    show (pushAll m (pushU32 m S w).2 ws).2 = S
    rw [h.pushU32_eq.2.2.2 (by omega), ih]

/-- With room for one word, the first one goes onto the stack and the others are lost. -/
theorem FixedStack.contents_pushAll_last (h : FixedStack size S) (hroom : S.sp + 1 = size) :
    (pushAll m S (v :: ws)).2.contents = S.contents ++ [v] := by
  obtain ⟨hok, hfix, hsp, -⟩ := h.pushU32_eq (m := m) (v := v)
  have hpush : pushU32 m S v = (true, (pushU32 m S v).2) := by
    refine Prod.ext ?_ rfl
    rw [hok, decide_eq_true (show S.sp < size by omega)]
  show (pushAll m (pushU32 m S v).2 ws).2.contents = _
  rw [hfix.pushAll_full ((hsp (by omega)).trans hroom), contents_pushU32 hpush]

/-- The words go onto the stack if there is room for all of them. -/
theorem FixedStack.pushAll_eq (h : FixedStack size S) :
    (pushAll m S ws).1 = decide (S.sp + ws.length ≤ size) ∧ FixedStack size (pushAll m S ws).2
      ∧ (S.sp + ws.length ≤ size → (pushAll m S ws).2.sp = S.sp + ws.length) := by
  induction ws generalizing S with
  | nil =>
    have hle := h.sp_le
    exact ⟨by simp [pushAll, hle], h, fun _ => rfl⟩
  | cons w ws ih =>
    obtain ⟨hok, hfix, hsp, hfull⟩ := h.pushU32_eq (m := m) (v := w)
    obtain ⟨hoks, hfixs, hsps⟩ := ih hfix
    have hle := h.sp_le
    rw [List.length_cons]
    refine ⟨?_, hfixs, fun hroom => ?_⟩
    · show ((pushU32 m S w).1 && (pushAll m (pushU32 m S w).2 ws).1) = _
      rw [hok, hoks]
      by_cases hlt : S.sp < size
      · rw [hsp hlt]
        simp only [hlt, decide_true, Bool.true_and, decide_eq_decide]
        omega
      · simp only [hlt, decide_false, Bool.false_and]
        symm
        rw [decide_eq_false_iff_not]
        omega
    · have hlt : S.sp < size := by omega
      show (pushAll m (pushU32 m S w).2 ws).2.sp = _
      rw [hsps (by rw [hsp hlt]; omega), hsp hlt]
      omega

end

/-! ## What a transition needs -/

/-- The words that `eval_progn` needs: the continuation, the environment and, unless the first
expression is the last one, the expressions that are left. -/
def prognNeed (s : State) : Nat :=
  if lastOperand s.store.heap (cdr s.store.heap s.exp) then 2 else 3

/-- The state in which `eval_let` preallocates the bindings. -/
def letState (m : Malloc) (s : State) : State :=
  let h := s.store.heap
  let s := { s with unev := car h (cdr h (cdr h s.exp)) }
  let s := s.push m [s.cont, s.env, s.unev]
  { s with unev := car h (cdr h s.exp) }

/-- The words that `eval_let` needs: two more if there are bindings, and cells for them. -/
def letNeed (m : Malloc) (s : State) : Nat :=
  match preallocLoop (preallocFuel s.store.heap) (letState m s).unev (letState m s).env
      (letState m s) with
  | some (true, _) => if isSymbolNil (letState m s).unev then 3 else 5
  | _ => 3

/-- The words of the arguments that are pushed for `fundamental` and for an extension. -/
def argsNeed (s : State) : Nat :=
  ((argWords s.store.heap (walkFuel s.store.heap) s.argl).getD []).length

/-- The words of stack that the next transition needs above the stack pointer. A continuation
that pops its frame has room for the next one. -/
def stackNeed (pf : Platform) (m : Malloc) (s : State) : Nat :=
  match s.es with
  | .evalDispatch =>
      match expKindOf s.store.heap s.exp with
      | .expDefine => 2
      | .expNoArgs => 1
      | .expApplication | .expIf | .expAnd | .expOr => 3
      | .expProgn => prognNeed s
      | .expLet => letNeed m s
      | _ => 0
  | .evalContinuation =>
      match continuations.find? (·.toUINT == decU s.cont), popU32 s.S with
      | some .contEvalArgs, some (unev, _) => if lastOperand s.store.heap unev then 0 else 2
      | _, _ => 0
  | .evalApplyDispatch =>
      if isSymbolEval s.fun' then 0
      else if isFundamental s.fun' then argsNeed s
      else if isClosure s.store.heap s.fun' then 0
      else if isExtension pf s.fun' then argsNeed s
      else 0

/-- From `s` to `t` on a stack of `size` words, `need` words are needed above the stack pointer. -/
structure Spends (size need : Nat) (s t : State) : Prop where
  fixed : FixedStack size t.S
  lost : t.pushLost = (s.pushLost || decide (size < s.S.sp + need))

section

variable {pf : Platform} {m : Malloc} {size need : Nat} {s t : State} {ws : List UINT}

theorem spends_zero (hs : FixedStack size s.S) (ht : FixedStack size t.S)
    (hlost : t.pushLost = s.pushLost) : Spends size 0 s t := by
  refine ⟨ht, ?_⟩
  have hle := hs.sp_le
  have hroom : ¬size < s.S.sp + 0 := by omega
  rw [hlost, decide_eq_false hroom, Bool.or_false]

theorem push_lost (h : FixedStack size s.S) :
    (s.push m ws).pushLost = (s.pushLost || decide (size < s.S.sp + ws.length)) := by
  rw [State.push, h.pushAll_eq.1]
  by_cases hroom : s.S.sp + ws.length ≤ size
  · simp [hroom, Nat.not_lt.mpr hroom]
  · simp [hroom, Nat.not_le.mp hroom]

theorem push_fixed (h : FixedStack size s.S) : FixedStack size (s.push m ws).S := h.pushAll_eq.2.1

theorem push_sp (h : FixedStack size s.S) (hroom : s.S.sp + ws.length ≤ size) :
    (s.push m ws).S.sp = s.S.sp + ws.length := h.pushAll_eq.2.2 hroom

/-- Two parts of a transition. If the first one has the room it needs, the second one decides. -/
theorem Spends.trans {u : State} {a b : Nat} (h₁ : Spends size a s t) (h₂ : Spends size b t u)
    (hneed : s.S.sp + a ≤ size → (size < t.S.sp + b ↔ size < s.S.sp + need)) (ha : a ≤ need) :
    Spends size need s u := by
  refine ⟨h₂.fixed, ?_⟩
  rw [h₂.lost, h₁.lost, Bool.or_assoc]
  congr 1
  by_cases hroom : s.S.sp + a ≤ size
  · rw [decide_eq_false (Nat.not_lt.mpr hroom), Bool.false_or, decide_eq_decide]
    exact hneed hroom
  · rw [decide_eq_true (Nat.not_le.mp hroom), Bool.true_or]
    symm
    rw [decide_eq_true_iff]
    omega

/-! ## Expressions -/

theorem evalSequence_spends (hs : FixedStack size s.S) (h : evalSequence m s = some t) :
    Spends size (if lastOperand s.store.heap s.unev then 0 else 1) s t := by
  obtain ⟨⟨env, S₁⟩, hpop, h⟩ := Option.bind_eq_some_iff.mp h
  obtain ⟨hfix, hsp⟩ := hs.pop hpop
  simp only at h
  split at h
  · next hlast =>
    obtain ⟨⟨cont, S₂⟩, hpop₂, h⟩ := Option.bind_eq_some_iff.mp h
    cases h
    rw [if_pos (show lastOperand s.store.heap s.unev = true from hlast)]
    exact spends_zero hs (hfix.pop hpop₂).1 rfl
  · next hlast =>
    cases h
    rw [if_neg (show ¬lastOperand s.store.heap s.unev = true from hlast)]
    have hpopped : Spends size 0 s
        { s with exp := car s.store.heap s.unev, env := env, S := S₁ } := spends_zero hs hfix rfl
    refine hpopped.trans (b := 2) ⟨push_fixed hfix, push_lost hfix⟩ (fun _ => ?_) (Nat.zero_le _)
    show size < S₁.sp + 2 ↔ _
    omega

theorem evalProgn_spends (hs : FixedStack size s.S) (h : evalProgn m s = some t) :
    Spends size (prognNeed s) s t := by
  have hpush : Spends size 2 s
      { s.push m [s.cont, s.env] with unev := cdr s.store.heap s.exp } :=
    ⟨push_fixed hs, push_lost hs⟩
  have hsp : s.S.sp + 2 ≤ size → (s.push m [s.cont, s.env]).S.sp = s.S.sp + 2 :=
    fun hroom => push_sp hs hroom
  refine hpush.trans (evalSequence_spends hpush.fixed h) (fun hroom => ?_) ?_
  · show size < (s.push m [s.cont, s.env]).S.sp
        + (if lastOperand s.store.heap (cdr s.store.heap s.exp) then 0 else 1)
      ↔ size < s.S.sp + (if lastOperand s.store.heap (cdr s.store.heap s.exp) then 2 else 3)
    rw [hsp hroom]
    split <;> omega
  · unfold prognNeed
    split <;> omega

theorem evalLetLoop_spends (hs : FixedStack size s.S) (h : evalLetLoop m s = some t) :
    Spends size (if isSymbolNil s.unev then 0 else 2) s t := by
  unfold evalLetLoop at h
  split at h
  · next hnil =>
    obtain ⟨⟨exp, S⟩, hpop, h⟩ := Option.bind_eq_some_iff.mp h
    cases h
    rw [if_pos hnil]
    exact spends_zero hs (hs.pop hpop).1 rfl
  · next hnil =>
    cases h
    rw [if_neg hnil]
    exact ⟨push_fixed hs, push_lost hs⟩

theorem evalLet_spends (hs : FixedStack size s.S) (h : evalLet m s = some t) :
    Spends size (letNeed m s) s t := by
  have hpush : Spends size 3 s (letState m s) := ⟨push_fixed hs, push_lost hs⟩
  have hsp : s.S.sp + 3 ≤ size → (letState m s).S.sp = s.S.sp + 3 := fun hroom => push_sp hs hroom
  obtain ⟨⟨ok, newEnv, u⟩, hloop, h⟩ := Option.bind_eq_some_iff.mp h
  have hloop : preallocLoop (preallocFuel s.store.heap) (letState m s).unev (letState m s).env
      (letState m s) = some (ok, newEnv, u) := hloop
  obtain ⟨st, rfl⟩ := preallocLoop_eq hloop
  rw [letNeed, hloop]
  cases ok with
  | false =>
    cases h
    exact ⟨hpush.fixed, hpush.lost⟩
  | true =>
    have hloop : Spends size 3 s { letState m s with store := st, env := newEnv } :=
      ⟨hpush.fixed, hpush.lost⟩
    refine hloop.trans (evalLetLoop_spends hloop.fixed h) (fun hroom => ?_) ?_
    · show size < (letState m s).S.sp + (if isSymbolNil (letState m s).unev then 0 else 2)
        ↔ size < s.S.sp + (if isSymbolNil (letState m s).unev then 3 else 5)
      rw [hsp hroom]
      split <;> omega
    · show 3 ≤ if isSymbolNil (letState m s).unev then 3 else 5
      split <;> omega

/-- The arguments are pushed one by one, each with what is left of them. -/
theorem evalArgLoop_spends (hs : FixedStack size s.S) :
    Spends size (if lastOperand s.store.heap s.unev then 1 else 3) s (evalArgLoop m s) := by
  have hpush : Spends size 1 s
      { s.push m [s.argl] with exp := car s.store.heap s.unev } := ⟨push_fixed hs, push_lost hs⟩
  have hsp : s.S.sp + 1 ≤ size → (s.push m [s.argl]).S.sp = s.S.sp + 1 :=
    fun hroom => push_sp hs hroom
  by_cases hlast : lastOperand s.store.heap s.unev = true
  · have heq : evalArgLoop m s
        = evalLastArg { s.push m [s.argl] with exp := car s.store.heap s.unev } := if_pos hlast
    rw [if_pos hlast, heq]
    exact ⟨hpush.fixed, hpush.lost⟩
  · have heq : evalArgLoop m s
        = { ({ s.push m [s.argl] with exp := car s.store.heap s.unev } : State).push m
              [s.env, s.unev] with
            cont := Continuation.contAccumulateArg.enc, es := .evalDispatch } := if_neg hlast
    rw [if_neg hlast, heq]
    refine hpush.trans (b := 2) ⟨push_fixed hpush.fixed, push_lost hpush.fixed⟩ (fun hroom => ?_)
      (by omega)
    show size < (s.push m [s.argl]).S.sp + 2 ↔ _
    rw [hsp hroom]

theorem evalVariable_spends (hs : FixedStack size s.S) (h : evalVariable pf s = some t) :
    Spends size 0 s t := by
  obtain ⟨val, -, h⟩ := Option.bind_eq_some_iff.mp h
  obtain ⟨val', -, h⟩ := Option.bind_eq_some_iff.mp h
  cases h
  split <;> exact spends_zero hs hs rfl

theorem evalLambda_spends (hs : FixedStack size s.S) (h : evalLambda s = some t) :
    Spends size 0 s t := by
  obtain ⟨⟨closure, u⟩, halloc, h⟩ := Option.bind_eq_some_iff.mp h
  obtain ⟨st, rfl⟩ := allocWithGc_eq halloc
  simp only at h
  split at h
  all_goals
    cases h
    exact spends_zero hs hs rfl

theorem evalShortCircuit_spends {k : Continuation} {noOperands : VALUE} (hs : FixedStack size s.S) :
    Spends size 3 s (evalShortCircuit k noOperands m s) := by
  unfold evalShortCircuit
  simp only
  split <;> exact ⟨push_fixed hs, push_lost hs⟩

theorem dispatchSwitch_spends (hs : FixedStack size s.S) (hes : s.es = .evalDispatch)
    (h : dispatchSwitch pf m s = some t) : Spends size (stackNeed pf m s) s t := by
  rw [stackNeed, hes]
  unfold dispatchSwitch at h
  cases hkind : expKindOf s.store.heap s.exp <;> rw [hkind] at h <;> simp only at h ⊢
  case expVariable => exact evalVariable_spends hs h
  case expLambda => exact evalLambda_spends hs h
  case expProgn => exact evalProgn_spends hs h
  case expLet => exact evalLet_spends hs h
  case expSelfEvaluating | expQuoted | expKindError =>
    cases h
    exact spends_zero hs hs rfl
  case expAnd | expOr =>
    cases h
    exact evalShortCircuit_spends hs
  all_goals
    cases h
    exact ⟨push_fixed hs, push_lost hs⟩

/-! ## Continuations -/

theorem contDefineCase_spends (hs : FixedStack size s.S) (h : contDefineCase s = some t) :
    Spends size 0 s t := by
  obtain ⟨⟨cont, S₁⟩, hpop₁, h⟩ := Option.bind_eq_some_iff.mp h
  obtain ⟨⟨unev, S₂⟩, hpop₂, h⟩ := Option.bind_eq_some_iff.mp h
  obtain ⟨⟨newEnv, u⟩, halloc, h⟩ := Option.bind_eq_some_iff.mp h
  obtain ⟨st, rfl⟩ := allocWithGc_eq halloc
  have hfix := ((hs.pop hpop₁).1.pop hpop₂).1
  simp only at h
  split at h
  all_goals
    cases h
    exact spends_zero hs hfix rfl

/-- A transition that pops words, and then needs no more than these. -/
theorem spends_zero_of_popped {k b : Nat} {u : State} (hs : FixedStack size s.S)
    (hu : FixedStack size u.S) (h : Spends size b u t) (hlost : u.pushLost = s.pushLost)
    (hsp : u.S.sp + k = s.S.sp) (hb : b ≤ k) : Spends size 0 s t := by
  refine (spends_zero hs hu hlost).trans h (fun _ => ?_) (Nat.le_refl 0)
  have hle := hs.sp_le
  omega

theorem contEvalArgsCase_spends (hs : FixedStack size s.S) {unev : VALUE} {S₁ : Stack}
    (hpop₁ : popU32 s.S = some (unev, S₁)) (h : contEvalArgsCase m s = some t) :
    Spends size (if lastOperand s.store.heap unev then 0 else 2) s t := by
  obtain ⟨⟨unev', S₁'⟩, hpop, h⟩ := Option.bind_eq_some_iff.mp h
  rw [hpop₁] at hpop
  cases hpop
  obtain ⟨⟨env, S₂⟩, hpop₂, h⟩ := Option.bind_eq_some_iff.mp h
  obtain ⟨hfix₁, hsp₁⟩ := hs.pop hpop₁
  obtain ⟨hfix₂, hsp₂⟩ := hfix₁.pop hpop₂
  cases h
  have hsp : S₂.sp + 2 = s.S.sp := by omega
  have hle := hs.sp_le
  have hroom : S₂.sp + 1 ≤ size := by omega
  -- the function goes where the environment was
  have hone : Spends size 1 { s with unev := unev, env := env, S := S₂, fun' := s.val }
      (({ s with unev := unev, env := env, S := S₂, fun' := s.val } : State).push m [s.val]) :=
    ⟨push_fixed hfix₂, push_lost hfix₂⟩
  have hspent := spends_zero_of_popped hs hfix₂ hone rfl hsp (Nat.le_succ 1)
  have hpush : Spends size 0 s
      { ({ s with unev := unev, env := env, S := S₂, fun' := s.val } : State).push m [s.val] with
        argl := encSym symreprNil } := ⟨hspent.fixed, hspent.lost⟩
  have hsp' : (({ s with unev := unev, env := env, S := S₂, fun' := s.val } : State).push m
      [s.val]).S.sp = S₂.sp + 1 :=
    push_sp (s := { s with unev := unev, env := env, S := S₂, fun' := s.val }) hfix₂ hroom
  refine hpush.trans (evalArgLoop_spends hpush.fixed) (fun _ => ?_) (Nat.zero_le _)
  show size < (({ s with unev := unev, env := env, S := S₂, fun' := s.val } : State).push m
    [s.val]).S.sp + (if lastOperand s.store.heap unev then 1 else 3)
    ↔ size < s.S.sp + (if lastOperand s.store.heap unev then 0 else 2)
  rw [hsp']
  split <;> omega

theorem contAccumulateArgCase_spends (hs : FixedStack size s.S)
    (h : contAccumulateArgCase m s = some t) : Spends size 0 s t := by
  obtain ⟨⟨unev, S₁⟩, hpop₁, h⟩ := Option.bind_eq_some_iff.mp h
  obtain ⟨⟨env, S₂⟩, hpop₂, h⟩ := Option.bind_eq_some_iff.mp h
  obtain ⟨⟨argl, S₃⟩, hpop₃, h⟩ := Option.bind_eq_some_iff.mp h
  obtain ⟨⟨argl', u⟩, halloc, h⟩ := Option.bind_eq_some_iff.mp h
  obtain ⟨st, rfl⟩ := allocWithGc_eq halloc
  obtain ⟨hfix₁, hsp₁⟩ := hs.pop hpop₁
  obtain ⟨hfix₂, hsp₂⟩ := hfix₁.pop hpop₂
  obtain ⟨hfix₃, hsp₃⟩ := hfix₂.pop hpop₃
  have hsp : S₃.sp + 3 = s.S.sp := by omega
  simp only at h
  split at h
  · cases h
    exact spends_zero hs hfix₃ rfl
  · cases h
    have hloop := evalArgLoop_spends (m := m) (s := { s with
      unev := cdr st.heap unev, env := env, argl := argl', S := S₃, store := st }) hfix₃
    refine spends_zero_of_popped hs hfix₃ hloop rfl hsp ?_
    split <;> omega

theorem contAccumulateLastArgCase_spends (hs : FixedStack size s.S)
    (h : contAccumulateLastArgCase s = some t) : Spends size 0 s t := by
  obtain ⟨⟨argl, S₁⟩, hpop₁, h⟩ := Option.bind_eq_some_iff.mp h
  obtain ⟨⟨argl', u⟩, halloc, h⟩ := Option.bind_eq_some_iff.mp h
  obtain ⟨st, rfl⟩ := allocWithGc_eq halloc
  obtain ⟨hfix₁, -⟩ := hs.pop hpop₁
  simp only at h
  split at h
  · cases h
    exact spends_zero hs hfix₁ rfl
  · obtain ⟨⟨revArgs, w⟩, halloc', h⟩ := Option.bind_eq_some_iff.mp h
    obtain ⟨st', rfl⟩ := allocWithGc_eq halloc'
    simp only at h
    split at h
    all_goals
      obtain ⟨⟨f, S₂⟩, hpop₂, h⟩ := Option.bind_eq_some_iff.mp h
      cases h
      exact spends_zero hs (hfix₁.pop hpop₂).1 rfl

theorem contBranchCase_spends (hs : FixedStack size s.S) (h : contBranchCase s = some t) :
    Spends size 0 s t := by
  obtain ⟨⟨unev, S₁⟩, hpop₁, h⟩ := Option.bind_eq_some_iff.mp h
  obtain ⟨⟨env, S₂⟩, hpop₂, h⟩ := Option.bind_eq_some_iff.mp h
  obtain ⟨⟨cont, S₃⟩, hpop₃, h⟩ := Option.bind_eq_some_iff.mp h
  cases h
  exact spends_zero hs (((hs.pop hpop₁).1.pop hpop₂).1.pop hpop₃).1 rfl

theorem contBindVarCase_spends (hs : FixedStack size s.S) (h : contBindVarCase m s = some t) :
    Spends size 0 s t := by
  obtain ⟨⟨unev, S₁⟩, hpop₁, h⟩ := Option.bind_eq_some_iff.mp h
  obtain ⟨⟨env, S₂⟩, hpop₂, h⟩ := Option.bind_eq_some_iff.mp h
  obtain ⟨⟨res, heap⟩, -, h⟩ := Option.bind_eq_some_iff.mp h
  obtain ⟨hfix₁, hsp₁⟩ := hs.pop hpop₁
  obtain ⟨hfix₂, hsp₂⟩ := hfix₁.pop hpop₂
  have hsp : S₂.sp + 2 = s.S.sp := by omega
  have hloop := evalLetLoop_spends (s := { s with
    env := env, unev := cdr heap unev, S := S₂, store := { s.store with heap := heap } }) hfix₂ h
  refine spends_zero_of_popped hs hfix₂ hloop rfl hsp ?_
  split <;> omega

theorem contEndLetCase_spends (hs : FixedStack size s.S) (h : contEndLetCase s = some t) :
    Spends size 0 s t := by
  obtain ⟨⟨env, S₁⟩, hpop₁, h⟩ := Option.bind_eq_some_iff.mp h
  obtain ⟨⟨cont, S₂⟩, hpop₂, h⟩ := Option.bind_eq_some_iff.mp h
  cases h
  exact spends_zero hs ((hs.pop hpop₁).1.pop hpop₂).1 rfl

theorem contSequenceCase_spends (hs : FixedStack size s.S) (h : contSequenceCase m s = some t) :
    Spends size 0 s t := by
  obtain ⟨⟨unev, S₁⟩, hpop₁, h⟩ := Option.bind_eq_some_iff.mp h
  obtain ⟨hfix₁, hsp₁⟩ := hs.pop hpop₁
  have hseq := evalSequence_spends (s := { s with unev := cdr s.store.heap unev, S := S₁ }) hfix₁ h
  refine spends_zero_of_popped hs hfix₁ hseq rfl hsp₁ ?_
  split <;> omega

theorem contShortCircuitCase_spends {k : Continuation} {stops : VALUE → Bool}
    (hs : FixedStack size s.S) (h : contShortCircuitCase k stops m s = some t) :
    Spends size 0 s t := by
  obtain ⟨⟨unev, S₁⟩, hpop₁, h⟩ := Option.bind_eq_some_iff.mp h
  obtain ⟨⟨env, S₂⟩, hpop₂, h⟩ := Option.bind_eq_some_iff.mp h
  obtain ⟨hfix₁, hsp₁⟩ := hs.pop hpop₁
  obtain ⟨hfix₂, hsp₂⟩ := hfix₁.pop hpop₂
  have hsp : S₂.sp + 2 = s.S.sp := by omega
  simp only at h
  split at h
  · obtain ⟨⟨cont, S₃⟩, hpop₃, h⟩ := Option.bind_eq_some_iff.mp h
    cases h
    exact spends_zero hs (hfix₂.pop hpop₃).1 rfl
  · cases h
    have hpush : Spends size 2 { s with unev := unev, env := env, S := S₂ }
        (({ s with unev := cdr s.store.heap unev, env := env, S := S₂,
                   exp := car s.store.heap unev } : State).push m [env, cdr s.store.heap unev]) :=
      ⟨push_fixed hfix₂, push_lost hfix₂⟩
    have hspent := spends_zero_of_popped hs hfix₂ hpush rfl hsp (Nat.le_refl 2)
    exact ⟨hspent.fixed, hspent.lost⟩

theorem contDoneCase_spends (hs : FixedStack size s.S) : Spends size 0 s (contDoneCase s) := by
  unfold contDoneCase
  split
  · exact spends_zero hs hs rfl
  · exact spends_zero hs hs.clear rfl

theorem continuationSwitch_spends (hs : FixedStack size s.S) (hes : s.es = .evalContinuation)
    (h : continuationSwitch m s = some t) : Spends size (stackNeed pf m s) s t := by
  rw [stackNeed, hes]
  unfold continuationSwitch at h
  cases hcont : continuations.find? (·.toUINT == decU s.cont) with
  | none =>
    rw [hcont] at h
    cases h
    exact spends_zero hs hs rfl
  | some k =>
    rw [hcont] at h
    -- Every case pops its frame before it pushes, so only what it pushes on top counts.
    cases k with
    | contDone =>
      cases h
      exact contDoneCase_spends hs
    | contError =>
      cases h
      exact spends_zero hs hs.clear rfl
    | contDefine => exact contDefineCase_spends hs h
    | contSetupNoArgApply =>
      cases h
      exact spends_zero hs hs rfl
    | contEvalArgs =>
      obtain ⟨⟨unev, S₁⟩, hpop, -⟩ := Option.bind_eq_some_iff.mp h
      rw [hpop]
      exact contEvalArgsCase_spends hs hpop h
    | contAccumulateArg => exact contAccumulateArgCase_spends hs h
    | contAccumulateLastArg => exact contAccumulateLastArgCase_spends hs h
    | contBranch => exact contBranchCase_spends hs h
    | contBindVar => exact contBindVarCase_spends hs h
    | contEndLet => exact contEndLetCase_spends hs h
    | contSequence => exact contSequenceCase_spends hs h
    | contAnd => exact contShortCircuitCase_spends hs h
    | contOr =>
      have h : contShortCircuitCase .contOr (fun v => !isSymbolNil v) m s = some t := h
      exact contShortCircuitCase_spends hs h

/-! ## Applications -/

theorem evalApplyFundamental_spends (hs : FixedStack size s.S)
    (h : evalApplyFundamental pf m s = some t) : Spends size (argsNeed s) s t := by
  obtain ⟨args, hargs, h⟩ := Option.bind_eq_some_iff.mp h
  obtain ⟨base, -, h⟩ := Option.bind_eq_some_iff.mp h
  obtain ⟨⟨val, u⟩, halloc, h⟩ := Option.bind_eq_some_iff.mp h
  obtain ⟨st, rfl⟩ := allocWithGc_eq halloc
  -- The arguments are pushed one by one and dropped together; a lost push stays noted.
  have hfix : FixedStack size (s.push m args).S := push_fixed hs
  have hlost : (s.push m args).pushLost = (s.pushLost || decide (size < s.S.sp + args.length)) :=
    push_lost hs
  rw [argsNeed, hargs, Option.getD_some]
  simp only at h
  split at h
  · cases h
    exact ⟨hfix, hlost⟩
  · obtain ⟨⟨cont, S₁⟩, hpop, h⟩ := Option.bind_eq_some_iff.mp h
    cases h
    exact ⟨((hfix.drop _).pop hpop).1, hlost⟩

theorem evalApplyClosure_spends (hs : FixedStack size s.S) (h : evalApplyClosure s = some t) :
    Spends size 0 s t := by
  obtain ⟨⟨localEnv, u⟩, halloc, h⟩ := Option.bind_eq_some_iff.mp h
  obtain ⟨st, rfl⟩ := allocWithGc_eq halloc
  simp only at h
  split at h
  · cases h
    exact spends_zero hs hs rfl
  · obtain ⟨⟨cont, S₁⟩, hpop, h⟩ := Option.bind_eq_some_iff.mp h
    cases h
    exact spends_zero hs (hs.pop hpop).1 rfl

theorem evalApplyExtension_spends (hs : FixedStack size s.S) (hext : isExtension pf s.fun' = true)
    (h : evalApplyExtension pf m s = some t) : Spends size (argsNeed s) s t := by
  unfold evalApplyExtension at h
  simp only [isExtension, Bool.and_eq_true] at hext
  obtain ⟨f, hf⟩ := Option.isSome_iff_exists.mp hext.2
  rw [hf] at h
  obtain ⟨args, hargs, h⟩ := Option.bind_eq_some_iff.mp h
  obtain ⟨base, -, h⟩ := Option.bind_eq_some_iff.mp h
  obtain ⟨⟨cont, S₁⟩, hpop, h⟩ := Option.bind_eq_some_iff.mp h
  cases h
  have hfix : FixedStack size (s.push m args).S := push_fixed hs
  rw [argsNeed, hargs, Option.getD_some]
  exact ⟨((hfix.drop _).pop hpop).1, push_lost hs⟩

theorem evalApplyDispatch_spends (hs : FixedStack size s.S) (hes : s.es = .evalApplyDispatch)
    (h : evalApplyDispatch pf m s = some t) : Spends size (stackNeed pf m s) s t := by
  rw [stackNeed, hes]
  unfold evalApplyDispatch at h
  simp only
  -- The tests of the source in its order, beside those of `stackNeed`.
  split at h
  · next heval =>
    obtain ⟨⟨cont, S₁⟩, hpop, h⟩ := Option.bind_eq_some_iff.mp h
    cases h
    rw [if_pos heval]
    exact spends_zero hs (hs.pop hpop).1 rfl
  · next heval =>
    rw [if_neg heval]
    split at h
    · next hfund =>
      rw [if_pos hfund]
      exact evalApplyFundamental_spends hs h
    · next hfund =>
      rw [if_neg hfund]
      split at h
      · next hclo =>
        rw [if_pos hclo]
        exact evalApplyClosure_spends hs h
      · next hclo =>
        rw [if_neg hclo]
        split at h
        · next hext =>
          rw [if_pos hext]
          exact evalApplyExtension_spends hs hext h
        · next hext =>
          cases h
          rw [if_neg hext]
          exact spends_zero hs hs rfl

/-- **What one iteration needs.** -/
theorem ecEvalIteration_spends (hs : FixedStack size s.S) (h : ecEvalIteration pf m s = some t) :
    Spends size (stackNeed pf m s) s t := by
  unfold ecEvalIteration at h
  cases hes : s.es with
  | evalDispatch =>
    rw [hes] at h
    exact dispatchSwitch_spends hs hes h
  | evalContinuation =>
    rw [hes] at h
    exact continuationSwitch_spends hs hes h
  | evalApplyDispatch =>
    rw [hes] at h
    exact evalApplyDispatch_spends hs hes h

end

/-! ## Runs -/

/-- The state after `k` iterations; the loop of `ec_eval` stops when it is done. -/
def iterations (pf : Platform) (m : Malloc) (s : State) : Nat → Option State
  | 0 => some s
  | k + 1 => do
      let t ← iterations pf m s k
      if t.done then none else ecEvalIteration pf m t

/-- The stack has room for the next transition. -/
def Fits (pf : Platform) (m : Malloc) (s : State) : Prop :=
  s.S.sp + stackNeed pf m s ≤ s.S.data.length

/-- The stack has room for every transition of the run from `s`. -/
def AllFit (pf : Platform) (m : Malloc) (s : State) : Prop :=
  ∀ k t u, iterations pf m s k = some t → iterations pf m s (k + 1) = some u → Fits pf m t

/-- The symbols for errors that a program can return. -/
def isErrorSymbol (v : VALUE) : Bool :=
  isSymbol v && (symreprIsError (decSym v) || decSym v == symreprDivzero)

/-- Stack overflow is reported: once a push was lost the program returns, and what it returns is
an error symbol. -/
structure OverflowReported (pf : Platform) (m : Malloc) (s : State) : Prop where
  returns : ∀ k t, iterations pf m s k = some t → t.pushLost = true →
    ∃ n t', ecEval pf m n s = some t' ∧ isErrorSymbol t'.val = true
  never : ∀ n t, ecEval pf m n s = some t → t.pushLost = true → isErrorSymbol t.val = true

section

variable {pf : Platform} {m : Malloc} {size : Nat} {s t : State} {k n : Nat}

theorem iterations_succ_eq (h : iterations pf m s (k + 1) = some t) :
    ∃ u, iterations pf m s k = some u ∧ u.done = false ∧ ecEvalIteration pf m u = some t := by
  obtain ⟨u, hu, h⟩ := Option.bind_eq_some_iff.mp h
  split at h
  · cases h
  · next hdone => exact ⟨u, hu, by simpa using hdone, h⟩

theorem iterations_fixed (hs : FixedStack size s.S) (h : iterations pf m s k = some t) :
    FixedStack size t.S := by
  induction k generalizing t with
  | zero =>
    cases h
    exact hs
  | succ k ih =>
    obtain ⟨u, hu, -, hiter⟩ := iterations_succ_eq h
    exact (ecEvalIteration_spends (ih hu) hiter).fixed

/-- **A push is lost exactly when a transition has not enough room.** -/
theorem pushLost_iff (hs : FixedStack size s.S) (hlost : s.pushLost = false)
    (h : iterations pf m s k = some t) :
    t.pushLost = true ↔ ∃ j u v, j < k ∧ iterations pf m s j = some u
      ∧ iterations pf m s (j + 1) = some v ∧ ¬Fits pf m u := by
  induction k generalizing t with
  | zero =>
    cases h
    simp [hlost]
  | succ k ih =>
    obtain ⟨u, hu, -, hiter⟩ := iterations_succ_eq h
    have hfix := iterations_fixed hs hu
    have hfits : ¬Fits pf m u ↔ size < u.S.sp + stackNeed pf m u := by
      rw [Fits, hfix.length, Nat.not_le]
    rw [(ecEvalIteration_spends hfix hiter).lost, Bool.or_eq_true, ih hu,
      decide_eq_true_iff, ← hfits]
    constructor
    · intro hor
      rcases hor with ⟨j, v, w, hj, hv, hw, hnot⟩ | hnot
      · exact ⟨j, v, w, by omega, hv, hw, hnot⟩
      · exact ⟨k, u, t, by omega, hu, h, hnot⟩
    · intro hex
      obtain ⟨j, v, w, hj, hv, hw, hnot⟩ := hex
      rcases Nat.lt_succ_iff_lt_or_eq.mp hj with hlt | rfl
      · exact Or.inl ⟨j, v, w, hlt, hv, hw, hnot⟩
      · rw [hu] at hv
        cases hv
        exact Or.inr hnot

theorem AllFit.pushLost_eq (hfit : AllFit pf m s) (hs : FixedStack size s.S)
    (hlost : s.pushLost = false) (h : iterations pf m s k = some t) : t.pushLost = false := by
  by_contra hne
  obtain ⟨j, u, v, -, hu, hv, hnot⟩ := (pushLost_iff hs hlost h).mp (by simpa using hne)
  exact hnot (hfit j u v hu hv)

theorem iterations_succ_front : iterations pf m s (k + 1)
    = if s.done then none else (ecEvalIteration pf m s).bind fun u => iterations pf m u k := by
  induction k with
  | zero =>
    cases hdone : s.done with
    | false => cases hiter : ecEvalIteration pf m s <;> simp [iterations, hdone, hiter]
    | true => simp [iterations, hdone]
  | succ k ih =>
    rw [iterations, ih]
    cases s.done with
    | false => cases ecEvalIteration pf m s <;> rfl
    | true => rfl

theorem iterations_add (j : Nat) :
    iterations pf m s (k + j) = (iterations pf m s k).bind fun u => iterations pf m u j := by
  induction j with
  | zero => cases iterations pf m s k <;> rfl
  | succ j ih =>
    rw [← Nat.add_assoc, iterations, ih]
    cases iterations pf m s k <;> rfl

theorem iterations_of_ecEval (h : ecEval pf m n s = some t) :
    ∃ k, iterations pf m s k = some t := by
  induction n generalizing s with
  | zero =>
    unfold ecEval at h
    split at h
    · cases h
      exact ⟨0, rfl⟩
    · cases h
  | succ n ih =>
    unfold ecEval at h
    split at h
    · cases h
      exact ⟨0, rfl⟩
    · next hdone =>
      cases hiter : ecEvalIteration pf m s with
      | none => simp [hiter] at h
      | some u =>
        rw [hiter] at h
        obtain ⟨k, hk⟩ := ih h
        refine ⟨k + 1, ?_⟩
        rw [iterations_succ_front, if_neg hdone, hiter]
        exact hk

theorem ecEval_of_iterations (h : iterations pf m s k = some t) (hdone : t.done = true) :
    ecEval pf m k s = some t := by
  induction k generalizing s with
  | zero =>
    cases h
    rw [ecEval, if_pos hdone]
  | succ k ih =>
    rw [iterations_succ_front] at h
    split at h
    · cases h
    · next hs =>
      obtain ⟨u, hiter, hu⟩ := Option.bind_eq_some_iff.mp h
      rw [ecEval, if_neg hs, hiter]
      exact ih hu

theorem done_of_ecEval (h : ecEval pf m n s = some t) : t.done = true := by
  induction n generalizing s with
  | zero =>
    unfold ecEval at h
    split at h
    · next hdone =>
      cases h
      exact hdone
    · cases h
  | succ n ih =>
    unfold ecEval at h
    split at h
    · next hdone =>
      cases h
      exact hdone
    · cases hiter : ecEvalIteration pf m s with
      | none => simp [hiter] at h
      | some u =>
        rw [hiter] at h
        exact ih h

/-- **What a program returns** is what its run comes to. -/
theorem ecEvalProgram_iff {prg unev v : VALUE} {st st' : Store} :
    (∃ n, ecEvalProgram pf m n prg unev st = some (v, st'))
      ↔ ∃ s k t, startProgram m prg unev st = some s ∧ iterations pf m s k = some t
        ∧ t.done = true ∧ t.val = v ∧ t.store = st' := by
  constructor
  · rintro ⟨n, h⟩
    obtain ⟨s, hstart, h⟩ := Option.bind_eq_some_iff.mp h
    obtain ⟨t, heval, h⟩ := Option.bind_eq_some_iff.mp h
    obtain ⟨k, hk⟩ := iterations_of_ecEval heval
    cases h
    exact ⟨s, k, t, hstart, hk, done_of_ecEval heval, rfl, rfl⟩
  · rintro ⟨s, k, t, hstart, hk, hdone, rfl, rfl⟩
    refine ⟨k, ?_⟩
    rw [ecEvalProgram, hstart, Option.bind_eq_bind, Option.bind_some,
      ecEval_of_iterations hk hdone]
    rfl

theorem startProgram_fixed {prg unev : VALUE} {st : Store}
    (h : startProgram m prg unev st = some s) :
    FixedStack 256 s.S ∧ s.pushLost = false := by
  obtain ⟨S, hS, rfl⟩ := Option.map_eq_some_iff.mp h
  unfold stackAllocate at hS
  split at hS
  · cases hS
    exact ⟨⟨rfl, by simp⟩, rfl⟩
  · cases hS

theorem AllFit.overflowReported (hfit : AllFit pf m s) (hs : FixedStack size s.S)
    (hlost : s.pushLost = false) : OverflowReported pf m s := by
  refine ⟨?_, ?_⟩
  · intro k t ht hpush
    rw [hfit.pushLost_eq hs hlost ht] at hpush
    cases hpush
  · intro n t ht hpush
    obtain ⟨k, hk⟩ := iterations_of_ecEval ht
    rw [hfit.pushLost_eq hs hlost hk] at hpush
    cases hpush

/-- **Stack overflow of `ec_eval_program`.** It is reported if every transition has the room it
needs; and if the program returns no error symbol, only then. -/
theorem overflowReported_iff {prg unev : VALUE} {st : Store}
    (hstart : startProgram m prg unev st = some s) :
    (AllFit pf m s → OverflowReported pf m s)
      ∧ ((∀ n t, ecEval pf m n s = some t → isErrorSymbol t.val = false) →
        OverflowReported pf m s → AllFit pf m s) := by
  obtain ⟨hs, hlost⟩ := startProgram_fixed hstart
  refine ⟨fun hfit => hfit.overflowReported hs hlost, fun hnone hrep k t u ht hu => ?_⟩
  by_contra hnot
  have hpush : u.pushLost = true :=
    (pushLost_iff hs hlost hu).mpr ⟨k, t, u, Nat.lt_succ_self k, ht, hu, hnot⟩
  obtain ⟨n, v, hv, herror⟩ := hrep.returns (k + 1) u hu hpush
  rw [hnone n v hv] at herror
  cases herror

end

/-! ## Runs with enough room -/

/-- The transitions have room, and after at most `n` of them the loop is over. -/
def fitsUntilDone : Nat → State → Bool
  | 0, _ => false
  | n + 1, s =>
      s.done || decide (s.S.sp + stackNeed plainPlatform plainOutside.malloc s ≤ s.S.data.length)
        && match ecEvalIteration plainPlatform plainOutside.malloc s with
          | none => true
          | some t => fitsUntilDone n t

theorem allFit_of_fitsUntilDone : ∀ {n : Nat} {s : State}, fitsUntilDone n s = true →
    AllFit plainPlatform plainOutside.malloc s := by
  intro n
  induction n with
  | zero => exact fun h => absurd h (by simp [fitsUntilDone])
  | succ n ih =>
    intro s h k t u ht hu
    -- the run goes on from `s`, in its first transition or in a later one
    have hdone : s.done = false := by
      cases hs : s.done with
      | false => rfl
      | true =>
        rw [iterations_succ_front, hs, if_pos rfl] at hu
        cases hu
    rw [fitsUntilDone, hdone, Bool.false_or, Bool.and_eq_true, decide_eq_true_eq] at h
    cases k with
    | zero =>
      cases ht
      exact h.1
    | succ k =>
      rw [iterations_succ_front, hdone, if_neg (by decide)] at ht hu
      obtain ⟨s', hs', ht⟩ := Option.bind_eq_some_iff.mp ht
      rw [hs', Option.bind_some] at hu
      have hrest := h.2
      rw [hs'] at hrest
      exact ih hrest k t u ht hu

/-! ## Many `or`s -/

/-- The cells of `(if (or (or .. (or 1) ..)) 2 3)` with 85 times `or`. The last one is the
program. -/
def lostFrameCell (i : Nat) : ConsCell :=
  if i < 170 then
    if i % 2 = 0 then ⟨encSym symreprOr, cellPtr (i + 1)⟩
    else ⟨if i = 169 then encI 1#32 else cellPtr (i + 1), NIL⟩
  else if i = 170 then ⟨encSym symreprIf, cellPtr 171⟩
  else if i = 171 then ⟨cellPtr 0, cellPtr 172⟩
  else if i = 172 then ⟨encI 2#32, cellPtr 173⟩
  else if i = 173 then ⟨encI 3#32, NIL⟩
  else ⟨cellPtr 170, NIL⟩

def lostFrameStore : Store where
  heap := freshHeap ((List.range 175).map lostFrameCell) NIL 175#32
  envGlobal := NIL
  symbols := ⟨0#32, 0#32⟩
  ctxQueue := []
  ctxDone := []
  nextCtxId := 1#32

/-- The condition of the `if` is the second `or`, so that there are 84 of them. -/
def fullStackStore : Store :=
  { lostFrameStore with heap := lostFrameStore.heap.setCell 171 ⟨cellPtr 2, cellPtr 172⟩ }

/-- `(if (or (or .. (or 1) ..)) 2 3)` with 84 times `or` needs 255 of the 256 words. -/
theorem overflowReported_iff_if :
    ∃ s, startProgram plainOutside.malloc (cellPtr 174) NIL fullStackStore = some s
      ∧ AllFit plainPlatform plainOutside.malloc s
      ∧ OverflowReported plainPlatform plainOutside.malloc s := by
  have hrun : (startProgram plainOutside.malloc (cellPtr 174) NIL fullStackStore).map
      (fitsUntilDone 180) = some true := by decide +kernel
  obtain ⟨s, hs, hfits⟩ := Option.map_eq_some_iff.mp hrun
  have hfit := allFit_of_fitsUntilDone hfits
  exact ⟨s, hs, hfit, (overflowReported_iff hs).1 hfit⟩

/-! ## A lost frame -/

theorem cell_lostFrame {i : Nat} (hi : i < 175) :
    lostFrameStore.heap.cell i = lostFrameCell i := by
  simp [HeapState.cell, lostFrameStore, freshHeap, hi]

theorem car_lostFrame {i : Nat} (hi : i < 175) :
    car lostFrameStore.heap (cellPtr i) = (lostFrameCell i).car := by
  rw [car_of_isPtr (isPtr_cellPtr i), ptrIx_cellPtr (by omega), cell_lostFrame hi]

theorem cdr_lostFrame {i : Nat} (hi : i < 175) :
    cdr lostFrameStore.heap (cellPtr i) = (lostFrameCell i).cdr := by
  rw [cdr_of_isPtr (isPtr_cellPtr i), if_pos (typeOf_cellPtr (by omega)),
    ptrIx_cellPtr (by omega), cell_lostFrame hi]

/-- Before `or` number `j` (from 0) is dispatched: the frames of the others are on the stack. -/
structure AtOr (j : Nat) (t : State) : Prop where
  es : t.es = .evalDispatch
  done : t.done = false
  exp : t.exp = cellPtr (2 * j)
  env : t.env = NIL
  prg : t.prg = NIL
  store : t.store = lostFrameStore
  fixed : FixedStack 256 t.S
  sp : t.S.sp = 3 + 3 * j
  frame : j ≠ 0 → t.cont = Continuation.contOr.enc ∧ ∃ k, t.S.contents = k ++ [NIL, NIL]

/-- What `or` number `j` is, and what its operand is. -/
theorem or_lostFrame {j : Nat} (hj : j < 85) :
    expKindOf lostFrameStore.heap (cellPtr (2 * j)) = .expOr
      ∧ cdr lostFrameStore.heap (cellPtr (2 * j)) = cellPtr (2 * j + 1)
      ∧ cdr lostFrameStore.heap (cellPtr (2 * j + 1)) = NIL
      ∧ car lostFrameStore.heap (cellPtr (2 * j + 1))
        = if j = 84 then encI 1#32 else cellPtr (2 * (j + 1)) := by
  have heven : lostFrameCell (2 * j) = ⟨encSym symreprOr, cellPtr (2 * j + 1)⟩ := by
    rw [lostFrameCell, if_pos (by omega), if_pos (by omega)]
  have hodd : lostFrameCell (2 * j + 1)
      = ⟨if 2 * j + 1 = 169 then encI 1#32 else cellPtr (2 * j + 1 + 1), NIL⟩ := by
    rw [lostFrameCell, if_pos (by omega), if_neg (by omega)]
  have hcar := car_lostFrame (show 2 * j < 175 by omega)
  refine ⟨?_, ?_, ?_, ?_⟩
  · have hty : typeOf (cellPtr (2 * j)) = ptrTypeCons := typeOf_cellPtr (by omega)
    have hhead : car lostFrameStore.heap (cellPtr (2 * j)) = encSym symreprOr := by rw [hcar, heven]
    have hor : typeOf (encSym symreprOr) = valTypeSymbol := by decide
    simp +decide [expKindOf, expKindOfCons, hty, hhead, hor]
  · rw [cdr_lostFrame (by omega), heven]
  · rw [cdr_lostFrame (by omega), hodd]
  · rw [car_lostFrame (by omega), hodd]
    by_cases h84 : j = 84
    · rw [if_pos (by omega), if_pos h84]
    · rw [if_neg (by omega), if_neg h84]
      rfl

theorem evalOr_lostFrame {pf : Platform} {m : Malloc} {j : Nat} {t : State} (h : AtOr j t)
    (hj : j < 85) :
    ecEvalIteration pf m t = some { t with
      cont := Continuation.contOr.enc
      env := NIL
      unev := NIL
      exp := if j = 84 then encI 1#32 else cellPtr (2 * (j + 1))
      S := (pushAll m t.S [t.cont, NIL, NIL]).2
      es := .evalDispatch
      store := lostFrameStore
      pushLost := t.pushLost || !(pushAll m t.S [t.cont, NIL, NIL]).1 } := by
  obtain ⟨hkind, hcdr, hcddr, hcadr⟩ := or_lostFrame hj
  have hdispatch : ecEvalIteration pf m t = dispatchSwitch pf m t := by
    rw [ecEvalIteration, h.es]
  have hnil : isSymbolNil (cellPtr (2 * j + 1)) = false := by
    simp +decide [isSymbolNil, isSymbol, typeOf_cellPtr (show 2 * j + 1 < 2 ^ 23 by omega)]
  rw [hdispatch, dispatchSwitch, h.store, h.exp, hkind]
  show some (evalOr m t) = _
  unfold evalOr evalShortCircuit
  simp only [State.push, h.store, h.exp, hcdr, hcddr, hcadr, hnil, h.env, Bool.false_eq_true,
    if_false]

/-- An `or` whose frame fits. -/
theorem AtOr.next {pf : Platform} {m : Malloc} {j : Nat} {t : State} (h : AtOr j t) (hj : j < 84) :
    ∃ u, ecEvalIteration pf m t = some u ∧ AtOr (j + 1) u := by
  have hsp := h.sp
  obtain ⟨hok, hfix, hsp'⟩ := @FixedStack.pushAll_eq m _ _ [t.cont, NIL, NIL] h.fixed
  have hroom : t.S.sp + [t.cont, NIL, NIL].length ≤ 256 := by
    rw [List.length_cons, List.length_cons, List.length_cons, List.length_nil]
    omega
  have hcontents : (pushAll m t.S [t.cont, NIL, NIL]).2.contents
      = (t.S.contents ++ [t.cont]) ++ [NIL, NIL] := by
    have hpush : pushAll m t.S [t.cont, NIL, NIL]
        = (true, (pushAll m t.S [t.cont, NIL, NIL]).2) := by
      refine Prod.ext ?_ rfl
      rw [hok, decide_eq_true hroom]
    rw [contents_pushAll hpush, List.append_assoc]
    rfl
  refine ⟨_, evalOr_lostFrame h (by omega), rfl, h.done, ?_, rfl, h.prg, rfl, hfix, ?_, ?_⟩
  · exact if_neg (by omega)
  · show (pushAll m t.S [t.cont, NIL, NIL]).2.sp = _
    rw [hsp' hroom, hsp]
    rfl
  · exact fun _ => ⟨rfl, _, hcontents⟩

/-- The 85th `or` finds room for one of the three words of its frame. -/
theorem AtOr.overflow {pf : Platform} {m : Malloc} {t : State} (h : AtOr 84 t) :
    ∃ u k, ecEvalIteration pf m t = some u ∧ u.es = .evalDispatch ∧ u.done = false
      ∧ u.exp = encI 1#32 ∧ u.prg = NIL ∧ u.cont = Continuation.contOr.enc ∧ u.pushLost = true
      ∧ u.S.contents = k ++ [NIL, NIL, Continuation.contOr.enc] := by
  obtain ⟨hcont, k, hk⟩ := h.frame (by decide)
  have hroom : t.S.sp + 1 = 256 := by rw [h.sp]
  have hlost : (pushAll m t.S [t.cont, NIL, NIL]).1 = false := by
    rw [h.fixed.pushAll_eq.1, decide_eq_false]
    rw [List.length_cons, List.length_cons, List.length_cons, List.length_nil]
    omega
  have hcontents := @FixedStack.contents_pushAll_last m _ _ t.cont [NIL, NIL] h.fixed hroom
  refine ⟨_, k, evalOr_lostFrame h (by decide), rfl, h.done, rfl, h.prg, rfl, ?_, ?_⟩
  · rw [hlost]
    simp
  · show (pushAll m t.S [t.cont, NIL, NIL]).2.contents = _
    rw [hcontents, hk, hcont, List.append_assoc]
    rfl

/-- Its value goes to the continuation that is in the place of an environment, and that is
`DONE`. -/
theorem AtOr.last {pf : Platform} {m : Malloc} {t : State} (h : AtOr 84 t) :
    ∃ u, iterations pf m t 4 = some u ∧ u.done = true ∧ u.pushLost = true ∧ u.val = encI 1#32 := by
  obtain ⟨u, k, hiter, hes, hdone, hexp, hprg, hcont, hlost, hk⟩ := @AtOr.overflow pf m _ h
  -- the operand
  have hvalue : ecEvalIteration pf m u
      = some { u with val := encI 1#32, es := .evalContinuation } := by
    have hkind : expKindOf u.store.heap (encI 1#32) = .expSelfEvaluating := by
      simp +decide [expKindOf]
    rw [ecEvalIteration, hes]
    show dispatchSwitch pf m u = _
    rw [dispatchSwitch, hexp, hkind]
    show some (evalSelfEvaluating u) = _
    rw [evalSelfEvaluating, hexp]
  -- the frame of the `or`, one word of its own and two of the one before
  have hk₁ : u.S.contents = (k ++ [NIL, NIL]) ++ [Continuation.contOr.enc] := by
    rw [hk, List.append_assoc]
    rfl
  obtain ⟨S₁, hpop₁, hS₁, -⟩ := popU32_of_contents hk₁
  have hk₂ : S₁.contents = (k ++ [NIL]) ++ [NIL] := by
    rw [hS₁, List.append_assoc]
    rfl
  obtain ⟨S₂, hpop₂, hS₂, -⟩ := popU32_of_contents hk₂
  obtain ⟨S₃, hpop₃, -⟩ := popU32_of_contents hS₂
  have hor : ecEvalIteration pf m { u with val := encI 1#32, es := .evalContinuation }
      = some { u with
        val := encI 1#32
        es := .evalContinuation
        unev := Continuation.contOr.enc
        env := NIL
        cont := NIL
        S := S₃ } := by
    have hfind : continuations.find? (·.toUINT == decU Continuation.contOr.enc) = some .contOr := by
      decide
    show continuationSwitch m { u with val := encI 1#32, es := .evalContinuation } = _
    rw [continuationSwitch]
    simp only [hcont, hfind]
    show contShortCircuitCase .contOr (fun v => !isSymbolNil v) m
      { u with val := encI 1#32, es := .evalContinuation } = _
    have hstops : (!isSymbolNil (encI 1#32)) = true := by decide
    simp [contShortCircuitCase, hpop₁, hpop₂, hpop₃, hstops]
  have hend : ecEvalIteration pf m { u with
      val := encI 1#32
      es := .evalContinuation
      unev := Continuation.contOr.enc
      env := NIL
      cont := NIL
      S := S₃ }
      = some { u with
        val := encI 1#32
        es := .evalContinuation
        unev := Continuation.contOr.enc
        env := NIL
        cont := NIL
        S := S₃
        done := true } := by
    have hfind : continuations.find? (·.toUINT == decU NIL) = some .contDone := by decide
    show continuationSwitch m { u with
      val := encI 1#32
      es := .evalContinuation
      unev := Continuation.contOr.enc
      env := NIL
      cont := NIL
      S := S₃ } = _
    rw [continuationSwitch]
    simp only [hfind, continuationCase, contDoneCase, hprg]
    rw [if_pos (by decide)]
  refine ⟨{ u with
    val := encI 1#32
    es := .evalContinuation
    unev := Continuation.contOr.enc
    env := NIL
    cont := NIL
    S := S₃
    done := true }, ?_, rfl, hlost, rfl⟩
  rw [iterations_succ_front, if_neg (by simp [h.done]), hiter, Option.bind_some,
    iterations_succ_front, if_neg (by simp [hdone]), hvalue, Option.bind_some,
    iterations_succ_front, if_neg (by simp [hdone]), hor, Option.bind_some,
    iterations_succ_front, if_neg (by simp [hdone]), hend, Option.bind_some, iterations]

theorem atOr_iterations {pf : Platform} {m : Malloc} {s t : State} {k : Nat}
    (hs : iterations pf m s k = some t) (h : AtOr 0 t) : ∀ j, j ≤ 84 →
      ∃ u, iterations pf m s (k + j) = some u ∧ AtOr j u := by
  intro j
  induction j with
  | zero => exact fun _ => ⟨t, hs, h⟩
  | succ j ih =>
    intro hj
    obtain ⟨u, hu, hor⟩ := ih (by omega)
    obtain ⟨v, hv, hor'⟩ := @AtOr.next pf m _ _ hor (by omega)
    refine ⟨v, ?_, hor'⟩
    rw [← Nat.add_assoc, iterations, hu]
    simpa [hor.done] using hv

/-- The condition of the `if` is evaluated with its frame on the stack. -/
theorem atOr_start : ∃ s t,
    startProgram plainOutside.malloc (cellPtr 174) NIL lostFrameStore = some s
    ∧ iterations plainPlatform plainOutside.malloc s 1 = some t ∧ AtOr 0 t := by
  have hsome : (startProgram plainOutside.malloc (cellPtr 174) NIL lostFrameStore).isSome := by
    rw [startProgram, Option.isSome_map]
    decide
  obtain ⟨s, hs⟩ := Option.isSome_iff_exists.mp hsome
  obtain ⟨hfix, -⟩ := startProgram_fixed hs
  -- The registers after `ec_eval_program`, with nothing on the stack.
  have hexp : s.exp = cellPtr 170 ∧ s.prg = NIL ∧ s.env = NIL ∧ s.es = .evalDispatch
      ∧ s.done = false ∧ s.store = lostFrameStore ∧ s.S.sp = 0 := by
    obtain ⟨S, hS, rfl⟩ := Option.map_eq_some_iff.mp hs
    have hsp : S.sp = 0 := by
      rw [stackAllocate, if_pos (by decide)] at hS
      rw [← Option.some.inj hS]
    exact ⟨car_lostFrame (show 174 < 175 by decide), cdr_lostFrame (show 174 < 175 by decide), rfl,
      rfl, rfl, rfl, hsp⟩
  obtain ⟨hexp, hprg, henv, hes, hdone, hstore, hsp⟩ := hexp
  have hcdr : cdr lostFrameStore.heap (cellPtr 170) = cellPtr 171 := cdr_lostFrame (by decide)
  have hcond : car lostFrameStore.heap (cellPtr 171) = cellPtr 0 := car_lostFrame (by decide)
  have hkind : expKindOf lostFrameStore.heap (cellPtr 170) = .expIf := by decide +kernel
  refine ⟨s, evalIf plainOutside.malloc s, hs, ?_, ?_⟩
  · have hiter : ecEvalIteration plainPlatform plainOutside.malloc s
        = dispatchSwitch plainPlatform plainOutside.malloc s := by rw [ecEvalIteration, hes]
    rw [iterations_succ_front, if_neg (by simp [hdone]), hiter, dispatchSwitch, hstore, hexp, hkind]
    rfl
  · have hroom : s.S.sp + 3 ≤ 256 := by omega
    refine ⟨rfl, hdone, ?_, henv, hprg, hstore, push_fixed hfix, ?_, fun h => absurd rfl h⟩
    · show car s.store.heap (cdr s.store.heap s.exp) = cellPtr 0
      rw [hstore, hexp, hcdr, hcond]
    · have hpush := @push_sp plainOutside.malloc _ _ [s.cont, s.env,
        cdr s.store.heap (cdr s.store.heap s.exp)] hfix hroom
      rw [hsp] at hpush
      exact hpush

/-- **A program that overflows the stack and returns a value**: `(if (or (or .. 1)) 2 3)` with 85
times `or` returns 1. -/
theorem not_overflowReported_lostFrame :
    ∃ s, startProgram plainOutside.malloc (cellPtr 174) NIL lostFrameStore = some s
      ∧ (∃ n t, ecEval plainPlatform plainOutside.malloc n s = some t ∧ t.val = encI 1#32)
      ∧ ¬OverflowReported plainPlatform plainOutside.malloc s := by
  obtain ⟨s, t, hstart, ht, hor⟩ := atOr_start
  obtain ⟨u, hu, hor'⟩ := atOr_iterations ht hor 84 (by omega)
  obtain ⟨v, hv, hdone, hlost, hval⟩ := @AtOr.last plainPlatform plainOutside.malloc _ hor'
  have hrun : iterations plainPlatform plainOutside.malloc s (1 + 84 + 4) = some v := by
    rw [iterations_add, hu]
    exact hv
  have heval := ecEval_of_iterations hrun hdone
  refine ⟨s, hstart, ⟨_, v, heval, hval⟩, fun hrep => ?_⟩
  have herror := hrep.never _ v heval hlost
  rw [hval] at herror
  exact absurd herror (by decide)

end EcEval

end LispBM
