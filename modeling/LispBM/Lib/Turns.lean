import LispBM.Lib.Operands

/-!
# Code that has operands evaluated in turn

A piece of code is put together from smaller pieces, and somewhere in it there are operands whose
evaluation is none of its business. Its law says in which order the operands are evaluated and what
holds when their values are there. `InTurn` states such a law in the manner of a weakest
precondition, so that the laws of the pieces add up to that of the whole.

* `Work` — what the code does itself, and what the evaluation of an operand is;
* `InTurn` — the operands are evaluated from left to right, and then `Q` holds of their values;
* `InTurn.bind` — the law of one piece of code after another.
-/

namespace FrameStack

namespace Machine

variable {σ ω ε υ : Type*}

/-- Code with operands in `ε`, whose values are in `υ`. -/
structure Work (σ ε υ : Type*) where
  /-- The code itself is being evaluated. -/
  own : σ → Prop
  /-- The code cannot go on for the time being. -/
  halted : σ → Prop
  /-- The evaluation of an operand is about to start. -/
  starts : ε → σ → Prop
  /-- The evaluation of an operand that started in the first state has ended in the second. -/
  val : ε → σ → σ → υ → Prop

variable (M : Machine σ ω)

/-- The operands are evaluated one after another, with nothing but the code's own steps before,
between and after, and at the end `Q` holds of their values, unless the code halts. -/
def InTurn (W : Work σ ε υ) : List ε → (List υ → σ → Prop) → σ → Prop
  | [], Q, s => M.Leads W.own (fun t => W.halted t ∨ Q [] t) s
  | e :: es, Q, s => M.Leads W.own
      (fun t => W.halted t
        ∨ W.starts e t ∧ ∀ v u, M.Delivers (W.val e) t v u →
          InTurn W es (fun vs => Q (v :: vs)) u) s

variable {M} {W : Work σ ε υ} {Q Q' : List υ → σ → Prop} {es fs : List ε} {s : σ}

/-- Steps of its own in front. -/
theorem InTurn.of_leads (h : M.Leads W.own (fun t => W.halted t ∨ M.InTurn W es Q t) s) :
    M.InTurn W es Q s := by
  cases es with
  | nil =>
    apply h.bind
    intro t ht
    rcases ht with hhalted | ht
    · exact .here (.inl hhalted)
    · exact ht
  | cons e es =>
    apply h.bind
    intro t ht
    rcases ht with hhalted | ht
    · exact .here (.inl hhalted)
    · exact ht

theorem InTurn.nil (h : Q [] s) : M.InTurn W [] Q s := .here (.inr h)

/-- The code is an operand. -/
theorem InTurn.single {e : ε} (hstarts : W.starts e s)
    (h : ∀ v u, M.Delivers (W.val e) s v u → M.InTurn W [] (fun vs => Q (v :: vs)) u) :
    M.InTurn W [e] Q s :=
  .here (.inr ⟨hstarts, h⟩)

/-- **One piece of code after another.** The operands of both are evaluated in turn, and what the
second one leaves is asked of the values of both. -/
theorem InTurn.bind : ∀ {es : List ε} {Q Q' : List υ → σ → Prop} {s : σ}, M.InTurn W es Q s →
    (∀ vs t, Q vs t → M.InTurn W fs (fun ws => Q' (vs ++ ws)) t) → M.InTurn W (es ++ fs) Q' s := by
  intro es
  induction es with
  | nil =>
    intro Q Q' s h hQ
    apply InTurn.of_leads
    exact h.mono fun t ht => ht.imp_right (hQ [] t)
  | cons e es ih =>
    intro Q Q' s h hQ
    -- the steps up to the first operand are the same
    apply h.mono
    intro t ht
    refine ht.imp_right fun hnext => ⟨hnext.1, fun v u hdel => ?_⟩
    exact ih (hnext.2 v u hdel) fun vs w hw => hQ (v :: vs) w hw

theorem InTurn.mono (h : M.InTurn W es Q s) (hQ : ∀ vs t, Q vs t → Q' vs t) :
    M.InTurn W es Q' s := by
  have hbind := @InTurn.bind _ _ _ _ M W [] _ _ Q' _ h fun vs t ht =>
    .nil (by simpa using hQ vs t ht)
  rwa [List.append_nil] at hbind

end Machine

end FrameStack
