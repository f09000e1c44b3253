import LispBM.Lib.FrameStack
import Mathlib.Logic.Relation

/-!
# Forms that evaluate their operands one after another

A form is evaluated by steps of its own, between which the machine evaluates the operands. What
happens inside an operand is of no interest here: its evaluation is a run up to the delivery of
a value (`Delivers`), and the steps of the form are what comes after.

* `Leads` — a state with some property comes after finitely many steps, whatever they are;
* `Form` — which values stop a form, and what is to come after the last operand;
* `InOrder` — the operands are evaluated one after another, each of them once;
* `InOrder.of_invariant` — a form is in order if one delivery keeps an invariant;
* `InOrder.leads` — if every operand has a value, the form gets done with them;
* `ends_of_round` — a run ends if each of its rounds brings it nearer to the end;
* `keepsOn_of_round` — it keeps on if each of its rounds can be followed by another one.
-/

namespace FrameStack

namespace Machine

variable {σ ω ε υ : Type*} (M : Machine σ ω)

/-- Whatever steps the machine makes, it comes to a state with `P` after finitely many of them.
Until then its states are `live`. -/
inductive Leads (live P : σ → Prop) : σ → Prop where
  | here {s : σ} (h : P s) : Leads live P s
  | next {s : σ} (hlive : live s) (h : ∀ t, M.step s t → Leads live P t) : Leads live P s

/-- Whatever steps the machine makes, it stops after finitely many of them, and its states are
`live`. -/
def Ends (live : σ → Prop) (s : σ) : Prop := M.Leads live (fun _ => False) s

def Enabled (s : σ) : Prop := ∃ t, M.step s t

/-- `t` comes after `s`. -/
def Reaches (s t : σ) : Prop := Relation.ReflTransGen M.step s t

/-- The evaluation that starts in `s` ends in `t` with the value `v`. -/
structure Delivers (val : σ → σ → υ → Prop) (s : σ) (v : υ) (t : σ) : Prop where
  run : M.RunTo (M.stack s) s t
  returning : M.returning t
  stack : M.stack t = M.stack s
  val : val s t v

/-- A form with operands in `ε` and values in `υ`. -/
structure Form (σ ε υ : Type*) where
  /-- The form is being evaluated. -/
  live : σ → Prop
  /-- The evaluation of an operand is about to start. -/
  starts : ε → σ → Prop
  /-- The evaluation that started in the first state has ended in the second with a value. -/
  val : σ → σ → υ → Prop
  /-- A value after which no operand is evaluated. -/
  stops : υ → Prop
  /-- What is to come after a value that stops. -/
  exit : υ → σ → Prop
  /-- What is to come after the values of all operands. -/
  finish : List υ → σ → Prop

/-- The form is being evaluated, and nothing is evaluated for it at the moment. -/
def Between (F : Form σ ε υ) (s : σ) : Prop := F.live s ∧ ¬M.evaluating s

/-- The operands are evaluated from left to right, up to the first value that stops, and nothing
else is; `vs` are the values that there are already. -/
def InOrder (F : Form σ ε υ) : List ε → List υ → σ → Prop
  | [], vs, s => F.finish vs s
  | e :: es, vs, s => F.starts e s ∧ ∀ v t, M.Delivers F.val s v t →
      M.Leads (M.Between F)
        (fun u => F.stops v ∧ F.exit v u ∨ ¬F.stops v ∧ InOrder F es (vs ++ [v]) u) t

variable {M} {live P Q : σ → Prop} {s : σ}

theorem Leads.bind (h : M.Leads live P s) (hPQ : ∀ t, P t → M.Leads live Q t) :
    M.Leads live Q s := by
  induction h with
  | here h => exact hPQ _ h
  | next hlive _ ih => exact .next hlive ih

theorem Leads.mono (h : M.Leads live P s) (hPQ : ∀ t, P t → Q t) : M.Leads live Q s :=
  h.bind fun t ht => .here (hPQ t ht)

theorem Leads.mono_live {live' : σ → Prop} (h : M.Leads live P s)
    (hlive : ∀ t, live t → live' t) : M.Leads live' P s := by
  induction h with
  | here h => exact .here h
  | next hl _ ih => exact .next (hlive _ hl) ih

/-- A state that is not live has the property at once, or never. -/
theorem Leads.of_not_live (h : M.Leads live P s) (hlive : ¬live s) : P s := by
  cases h with
  | here h => exact h
  | next h _ => exact absurd h hlive

/-- A state without the property leaves it to its next states. -/
theorem Leads.of_step {t : σ} (h : M.Leads live P s) (hP : ¬P s) (hstep : M.step s t) :
    M.Leads live P t := by
  cases h with
  | here h => exact absurd h hP
  | next _ h => exact h t hstep

theorem Leads.reaches (h : M.Leads live P s) : ∀ {s₀ : σ}, M.Reaches s₀ s →
    M.Leads live (fun t => P t ∧ M.Reaches s₀ t) s := by
  induction h with
  | here h => exact fun hr => .here ⟨h, hr⟩
  | next hlive _ ih => exact fun hr => .next hlive fun t ht => ih t ht (hr.tail ht)

/-- **A run ends** if every state in `B n` leads to one whose next states are all in a `B m` with
`m` below `n`. -/
theorem ends_of_round {B : Nat → σ → Prop}
    (hB : ∀ n t, B n t →
      M.Leads live (fun u => live u ∧ ∀ w, M.step u w → ∃ m, m < n ∧ B m w) t) :
    ∀ {n : Nat} {s : σ}, B n s → M.Ends live s := by
  intro n
  induction n using Nat.strongRecOn with
  | ind n ih =>
    intro s hs
    apply (hB n s hs).bind
    intro u hu
    apply Leads.next hu.1
    intro w hw
    obtain ⟨m, hm, hBw⟩ := hu.2 w hw
    exact ih m hm hBw

/-- Whatever steps the machine makes, there is another one until it comes to a state with `P`: it
goes on for ever or comes to such a state. -/
def KeepsOn (P : σ → Prop) (s : σ) : Prop :=
  ∃ B : σ → Prop, B s ∧ ∀ t, B t → P t ∨ M.Enabled t ∧ ∀ u, M.step t u → B u

/-- A run that keeps on does not end before it comes to a state with `P`. -/
theorem KeepsOn.not_ends (h : M.KeepsOn P s) (hP : ∀ t, P t → ¬live t) : ¬M.Ends live s := by
  obtain ⟨B, hs, hB⟩ := h
  intro hends
  unfold Ends at hends
  induction hends with
  | here h => exact h
  | next hlive _ ih =>
    rcases hB _ hs with hPs | ⟨⟨t, hstep⟩, hnext⟩
    · exact hP _ hPs hlive
    · exact ih t hstep (hnext t hstep)

theorem KeepsOn.of_steps (henabled : M.Enabled s) (h : ∀ t, M.step s t → M.KeepsOn P t) :
    M.KeepsOn P s := by
  refine ⟨fun t => t = s ∨ M.KeepsOn P t, .inl rfl, ?_⟩
  rintro t (rfl | ⟨B, ht, hB⟩)
  · exact .inr ⟨henabled, fun u hu => .inr (h u hu)⟩
  · exact (hB t ht).imp_right fun hnext =>
      ⟨hnext.1, fun u hu => .inr ⟨B, hnext.2 u hu, hB⟩⟩

/-- **A run keeps on** if every state in `B` leads, by way of states that can go on, to one with `P`
or one that can go on, and then only to states in `B`. -/
theorem keepsOn_of_round {B : σ → Prop}
    (hB : ∀ t, B t → M.Leads M.Enabled
      (fun u => P u ∨ M.Enabled u ∧ ∀ w, M.step u w → B w) t)
    (hs : B s) : M.KeepsOn P s := by
  -- the states of a round
  refine ⟨M.Leads M.Enabled fun u => P u ∨ M.Enabled u ∧ ∀ w, M.step u w → B w, hB s hs, ?_⟩
  intro t ht
  cases ht with
  | here h => exact h.imp_right fun hgo => ⟨hgo.1, fun w hw => hB w (hgo.2 w hw)⟩
  | next henabled hnext => exact .inr ⟨henabled, hnext⟩

/-- The operands of the form are done with, and what is to come after them has come. -/
def Form.Over (F : Form σ ε υ) (s : σ) : Prop :=
  (∃ v, F.stops v ∧ F.exit v s) ∨ ∃ vs, F.finish vs s

variable {F : Form σ ε υ}

/-- **A form is in order** if the delivery of a value keeps an invariant of the operands that are
left and the values that there are. -/
theorem InOrder.of_invariant {I : List ε → List υ → σ → Prop}
    (hfinish : ∀ vs s, I [] vs s → F.finish vs s)
    (hstarts : ∀ e es vs s, I (e :: es) vs s → F.starts e s)
    (hnext : ∀ e es vs s v t, I (e :: es) vs s → M.Delivers F.val s v t →
      M.Leads (M.Between F)
        (fun u => F.stops v ∧ F.exit v u ∨ ¬F.stops v ∧ I es (vs ++ [v]) u) t) :
    ∀ {es : List ε} {vs : List υ} {s : σ}, I es vs s → M.InOrder F es vs s := by
  intro es
  induction es with
  | nil =>
    intro vs s hI
    exact hfinish vs s hI
  | cons e es ih =>
    intro vs s hI
    refine ⟨hstarts e es vs s hI, fun v t hdel => ?_⟩
    apply (hnext e es vs s v t hI hdel).mono
    intro u hu
    exact hu.imp_right fun hnot => ⟨hnot.1, ih hnot.2⟩

/-- **A form whose operands have values is done with them** after finitely many steps. The operands
need a value only from those states that come after `s₀`. -/
theorem InOrder.leads {s₀ : σ} : ∀ {es : List ε} {vs : List υ} {s : σ}, M.InOrder F es vs s →
    M.Reaches s₀ s → (∀ e ∈ es, ∀ t, M.Reaches s₀ t → F.starts e t →
      M.Leads F.live (fun u => ∃ v, M.Delivers F.val t v u) t) →
    M.Leads F.live F.Over s := by
  intro es
  induction es with
  | nil =>
    intro vs s h _ _
    exact .here (.inr ⟨vs, h⟩)
  | cons e es ih =>
    intro vs s h hreach heval
    have hvalue := heval e List.mem_cons_self s hreach h.1
    apply (hvalue.reaches hreach).bind
    intro t ht
    obtain ⟨⟨v, hdel⟩, hreach'⟩ := ht
    apply (((h.2 v t hdel).mono_live fun u hu => hu.1).reaches hreach').bind
    intro u hu
    rcases hu with ⟨hexit | ⟨-, hrest⟩, hreach''⟩
    · exact .here (.inl ⟨v, hexit⟩)
    · exact ih hrest hreach'' fun e' he' => heval e' (List.mem_cons_of_mem _ he')

end Machine

end FrameStack
