import LispBM.EvalCps
import LispBM.Heap.Builders
import LispBM.Semantics.Layout

/-!
# LispBM — the heap and the environments of the semantics

What the functions of `heap.c` and `env.c` that the evaluators call do to values and environments of
the semantics, if there are enough free cells: `Leaves` says which memory the heap stands for
afterwards, how many cells are gone, and what the result stands for.
-/

namespace LispBM

namespace Semantics

open Structures

/-- From `h`, `n` free cells later, `h'` stands for the memory `m'`, and the result is `P`. -/
def Leaves (h : HeapState) (Λ : Layout) (n : Nat) (h' : HeapState) (m' : Memory) (g : VALUE)
    (P : HeapState → Layout → Prop) : Prop :=
  ∃ Λ', Sound h' Λ' m' g ∧ Keeps h Λ n h' Λ' ∧ P h' Λ'

section

variable {h h' h₁ h₂ : HeapState} {Λ Λ' Λ₁ : Layout} {m m' m₁ : Memory} {g w a d e env : VALUE}
  {v b : Val} {E R : Env} {n k i j : Nat} {l ls : List Nat} {vs : List Val} {ws ps : List VALUE}
  {x : VALUE} {P Q : HeapState → Layout → Prop}

theorem Leaves.after (h₂ : Leaves h₁ Λ₁ k h' m' g P) (hk : Keeps h Λ n h₁ Λ₁) :
    Leaves h Λ (n + k) h' m' g P := by
  obtain ⟨Λ', hs', hk', hP⟩ := h₂
  exact ⟨Λ', hs', hk.trans hk', hP⟩

@[simp] theorem length_allocate (m : Memory) (vs : List (Option Val)) :
    (m.allocate vs).vals.length = m.vals.length + vs.length := List.length_append

theorem allocate_allocate (m : Memory) (us vs : List (Option Val)) :
    (m.allocate us).allocate vs = m.allocate (us ++ vs) := by
  simp only [Memory.allocate, List.append_assoc]

theorem allocate_nil (m : Memory) : m.allocate [] = m := by
  simp only [Memory.allocate, List.append_nil]

/-! ## Lists -/

/-- The cell that `cons` took has a pair. -/
theorem holds_conses (hs : Sound h ⟨i :: l, ls⟩ m g) (hc : Conses h i l a d h')
    (ha : Holds h ⟨i :: l, ls⟩ a v) (hd : Holds h ⟨i :: l, ls⟩ d b) :
    Holds h' ⟨l, ls⟩ (cellPtr i) (.pair v b) := by
  obtain ⟨-, hk⟩ := hs.take hc
  refine .pair hc.type ?_ ?_ ?_
  · rw [hc.ix]
    exact data_of_conses hs hc
  · rw [hc.car]
    exact hk.holds ha
  · rw [hc.cdr]
    exact hk.holds hd

/-- Values are put in front of a list one after another. -/
theorem Sound.leaves_consAll : ∀ {ws : List VALUE} {vs : List Val} {e : VALUE} {b : Val}
    {h : HeapState} {Λ : Layout}, Sound h Λ m g → List.Forall₂ (Holds h Λ) ws vs → Holds h Λ e b →
    ws.length ≤ Λ.free.length →
    Leaves h Λ ws.length (consAll ws e h).2 m g
      fun h' Λ' => Holds h' Λ' (consAll ws e h).1 (.listTo vs.reverse b) := by
  intro ws
  induction ws with
  | nil =>
    intro vs e b h Λ hs hws he _
    cases hws
    exact ⟨Λ, hs, .refl h Λ, he⟩
  | cons w ws ih =>
    intro vs e b h Λ hs hws he hn
    obtain ⟨free, ls⟩ := Λ
    cases free with
    | nil => exact absurd hn (by simp)
    | cons i l =>
      cases hws with
      | @cons _ v _ vs hw hws =>
        obtain ⟨h', hc⟩ := hs.free.conses w e
        obtain ⟨hs', hk⟩ := hs.take hc
        have hrest := ih hs' (hk.forall_holds hws) (holds_conses hs hc hw he)
          (Nat.le_of_succ_le_succ hn)
        rw [consAll_cons hc, List.reverse_cons, Val.listTo, List.foldr_append, List.length_cons,
          Nat.add_comm]
        exact hrest.after hk

/-! ## Environments -/

/-- A binding is put in front of an environment. -/
theorem isEnv_conses (hs : Sound h ⟨i :: l, ls⟩ m g) (hc : Conses h i l w env h')
    {y : VALUE × Loc} (hw : Binds h ⟨i :: l, ls⟩ w y) (hE : IsEnv h ⟨i :: l, ls⟩ env E) :
    IsEnv h' ⟨l, ls⟩ (cellPtr i) (y :: E) := by
  obtain ⟨-, hk⟩ := hs.take hc
  obtain ⟨ws, is, hlist, his, hbinds⟩ := hE
  refine ⟨w :: ws, i :: is, hc.listOf hlist fun j hj => (his j hj).used, fun j hj => ?_, ?_⟩
  · rcases List.mem_cons.mp hj with rfl | hj
    · exact data_of_conses hs hc
    · exact hk.data (his j hj)
  · exact .cons (hk.binds hw) (hbinds.imp fun _ _ hb => hk.binds hb)

/-- The two allocations of a new binding: its cell, and the environment with it. -/
structure Pushes (h : HeapState) (Λ : Layout) (m : Memory) (g x w env : VALUE) (o : Option Val)
    (E : Env) (p env' : VALUE) (h₁ h₂ : HeapState) : Prop where
  binding : cons x w h = (p, h₁)
  env : cons p env h₁ = (env', h₂)
  types : typeOf p = ptrTypeCons ∧ typeOf env' = ptrTypeCons
  leaves : Leaves h Λ 2 h₂ (m.allocate [o]) g fun h' Λ' =>
    IsEnv h' Λ' env' ((x, m.vals.length) :: E)

theorem Sound.pushes {o : Option Val} (hs : Sound h Λ m g) (hn : 2 ≤ Λ.free.length)
    (hx : typeOf x = valTypeSymbol) (ho : ∀ v, o = some v → Holds h Λ w v) (hE : IsEnv h Λ env E) :
    ∃ p env' h₁ h₂, Pushes h Λ m g x w env o E p env' h₁ h₂ := by
  obtain ⟨free, ls⟩ := Λ
  match free, hn with
  | i :: j :: l, _ =>
    obtain ⟨h₁, hc₁⟩ := hs.free.conses x w
    obtain ⟨hs₁, hk₁⟩ := hs.bind hc₁ hx ho
    obtain ⟨h₂, hc₂⟩ := hs₁.free.conses (cellPtr i) env
    obtain ⟨hs₂, hk₂⟩ := hs₁.take hc₂
    have hlen : ls.length = m.vals.length := hs.length
    have hloc : (ls ++ [i])[m.vals.length]? = some i := by
      rw [List.getElem?_append_right (Nat.le_of_eq hlen), hlen, Nat.sub_self]
      rfl
    have hname : (h₁.cell i).car = x := by
      have hcar := hc₁.car
      rwa [car_of_isPtr (isPtr_cellPtr i), hc₁.ix] at hcar
    have hbinds : Binds h₁ ⟨j :: l, ls ++ [i]⟩ (cellPtr i) (x, m.vals.length) :=
      ⟨i, hloc, rfl, hname⟩
    exact ⟨_, _, h₁, h₂, hc₁.eq, hc₂.eq, ⟨hc₁.type, hc₂.type⟩, _, hs₂, hk₁.trans hk₂,
      isEnv_conses hs₁ hc₂ hbinds (hk₁.isEnv hE)⟩

/-- **The arguments of a call** are bound to the parameters. -/
theorem Sound.leaves_envBuildParamsArgsLoop : ∀ {ps : List VALUE} {vs : List Val} {js : List Nat}
    {params args env : VALUE} {E : Env} {h : HeapState} {Λ : Layout} {m : Memory} {n : Nat},
    Sound h Λ m g → ListOf h params ps js → (∀ j ∈ js, Λ.Data h j) → Holds h Λ args (.list vs) →
    ps.length = vs.length → (∀ p ∈ ps, typeOf p = valTypeSymbol) → IsEnv h Λ env E →
    2 * ps.length ≤ Λ.free.length → ps.length < n →
    ∃ env' h', envBuildParamsArgsLoop n params args env h = some (env', h')
      ∧ Leaves h Λ (2 * ps.length) h' (m.allocate (vs.map some)) g
        fun h' Λ' => IsEnv h' Λ' env' (E.extend ps m.vals.length) := by
  intro ps
  induction ps with
  | nil =>
    intro vs js params args env E h Λ m n hs hparams _ _ hlen _ hE _ hn
    obtain ⟨n, rfl⟩ := Nat.exists_eq_succ_of_ne_zero (Nat.ne_of_gt hn)
    obtain rfl := List.length_eq_zero_iff.mp hlen.symm
    cases hparams
    rw [List.map_nil, allocate_nil]
    exact ⟨env, h, rfl, Λ, hs, .refl h Λ, hE⟩
  | cons p ps ih =>
    intro vs js params args env E h Λ m n hs hparams hjs hargs hlen hps hE hfree hn
    obtain ⟨n, rfl⟩ := Nat.exists_eq_succ_of_ne_zero (Nat.ne_of_gt (Nat.zero_lt_of_lt hn))
    cases vs with
    | nil => exact absurd hlen (by simp)
    | cons v vs =>
      rw [List.length_cons] at hfree hn
      obtain ⟨hty, hcar, ks, rfl, hrest⟩ := hparams.uncons
      obtain ⟨-, ha, hd⟩ := hargs.uncons
      obtain ⟨q, env', h₁, h₂, hp⟩ :=
        @Sound.pushes _ _ _ _ (car h args) _ _ p (some v) hs (by omega)
        (hps p List.mem_cons_self) (fun u hu => Option.some.inj hu ▸ ha) hE
      obtain ⟨Λ₂, hs₂, hk₂, hE₂⟩ := hp.leaves
      have hsym : (ptrTypeCons == valTypeSymbol) = false := by decide
      -- the parameters and the arguments that are left
      have hcdr : cdr h₂ params = cdr h params :=
        cdr_congr hty (hk₂.cells _ (hjs _ List.mem_cons_self))
      have hparams' : ListOf h₂ (cdr h₂ params) ps ks := by
        rw [hcdr]
        exact hrest.congr fun j hj => hk₂.cells j (hjs j (List.mem_cons_of_mem _ hj))
      have hargs' : Holds h₂ Λ₂ (cdr h₂ args) (.list vs) := (hk₂.holds hargs).uncons.2.2
      have hfree₂ : 2 * ps.length ≤ Λ₂.free.length := by
        rw [hk₂.free, List.length_drop]
        omega
      obtain ⟨env'', h', hloop, hl⟩ := ih hs₂ hparams'
        (fun j hj => hk₂.data (hjs j (List.mem_cons_of_mem _ hj))) hargs' (Nat.succ.inj hlen)
        (fun p hp => hps p (List.mem_cons_of_mem _ hp)) hE₂ hfree₂
        (show ps.length < n by omega)
      refine ⟨env'', h', ?_, ?_⟩
      · rw [envBuildParamsArgsLoop, hty, if_pos (by rfl), hcar, hp.binding]
        simp only [hp.types.1, hsym, Bool.false_and, Bool.false_eq_true, if_false,
          hp.env, hp.types.2]
        exact hloop
      · rw [allocate_allocate, length_allocate] at hl
        have htotal : 2 * (p :: ps).length = 2 + 2 * ps.length := by
          rw [List.length_cons]
          omega
        rw [htotal]
        exact hl.after hk₂

theorem Sound.leaves_envBuildParamsArgs {js : List Nat} {params args : VALUE}
    (hs : Sound h Λ m g) (hparams : ListOf h params ps js) (hjs : ∀ j ∈ js, Λ.Data h j)
    (hargs : Holds h Λ args (.list vs)) (hlen : ps.length = vs.length)
    (hps : ∀ p ∈ ps, typeOf p = valTypeSymbol) (hE : IsEnv h Λ env E)
    (hfree : 2 * ps.length ≤ Λ.free.length) :
    ∃ env' h', envBuildParamsArgs params args env h = some (env', h')
      ∧ Leaves h Λ (2 * ps.length) h' (m.allocate (vs.map some)) g
        fun h' Λ' => IsEnv h' Λ' env' (E.extend ps m.vals.length) := by
  obtain ⟨ws, is, hlist, his, hws⟩ := hargs.listOf
  obtain ⟨env', h', hloop, hl⟩ := hs.leaves_envBuildParamsArgsLoop hparams hjs hargs hlen hps hE
    hfree (hs.length_lt hparams hjs)
  have hsame : ps.length = ws.length := by rw [hlen, hws.length_eq]
  refine ⟨env', h', ?_, hl⟩
  unfold envBuildParamsArgs
  simp only [hs.length_eq hparams hjs, hs.length_eq hlist his, hsame, Option.bind_eq_bind,
    Option.bind_some, bne_self_eq_false, Bool.false_eq_true, if_false]
  exact hloop

/-- **The bindings of a `let`** are made without values. -/
theorem Sound.leaves_letEnvLoop : ∀ {bs : List (VALUE × Val)} {binds env : VALUE} {E : Env}
    {h : HeapState} {Λ : Layout} {m : Memory} {n : Nat}, Sound h Λ m g →
    Holds h Λ binds (bindingList bs) → (∀ b ∈ bs, typeOf b.1 = valTypeSymbol) → IsEnv h Λ env E →
    2 * bs.length ≤ Λ.free.length → bs.length < n →
    ∃ env' h', letEnvLoop n binds env h = some ((env', true), h')
      ∧ Leaves h Λ (2 * bs.length) h' (m.allocate (bs.map fun _ => none)) g
        fun h' Λ' => IsEnv h' Λ' env' (E.extend (bs.map Prod.fst) m.vals.length) := by
  intro bs
  induction bs with
  | nil =>
    intro binds env E h Λ m n hs hbinds _ hE _ hn
    obtain ⟨n, rfl⟩ := Nat.exists_eq_succ_of_ne_zero (Nat.ne_of_gt hn)
    rw [List.map_nil, allocate_nil, Holds.nil_eq hbinds]
    exact ⟨env, h, rfl, Λ, hs, .refl h Λ, hE⟩
  | cons b bs ih =>
    intro binds env E h Λ m n hs hbinds hnames hE hfree hn
    obtain ⟨n, rfl⟩ := Nat.exists_eq_succ_of_ne_zero (Nat.ne_of_gt (Nat.zero_lt_of_lt hn))
    rw [List.length_cons] at hfree hn
    have hpair : Holds h Λ binds (.pair (.list [.word b.1, b.2]) (bindingList bs)) := hbinds
    obtain ⟨hty, hb, hrest⟩ := hpair.uncons
    have hname : car h (car h binds) = b.1 := (Holds.uncons hb).2.1.word_eq
    obtain ⟨q, env', h₁, h₂, hp⟩ := @Sound.pushes _ _ _ _ NIL _ _ b.1 none hs (by omega)
      (hnames b List.mem_cons_self) (fun u hu => absurd hu (by simp)) hE
    obtain ⟨Λ₂, hs₂, hk₂, hE₂⟩ := hp.leaves
    have hsym : (ptrTypeCons == valTypeSymbol) = false := by decide
    have hfree₂ : 2 * bs.length ≤ Λ₂.free.length := by
      rw [hk₂.free, List.length_drop]
      omega
    obtain ⟨env'', h', hloop, hl⟩ := ih hs₂ (hk₂.holds hpair).uncons.2.2
      (fun c hc => hnames c (List.mem_cons_of_mem _ hc)) hE₂ hfree₂ (show bs.length < n by omega)
    refine ⟨env'', h', ?_, ?_⟩
    · rw [letEnvLoop, hty, if_pos (by rfl), hname, hp.binding]
      simp only [hp.env, hp.types.1, hp.types.2, hsym, Bool.or_self, Bool.false_eq_true, if_false]
      exact hloop
    · rw [allocate_allocate, length_allocate] at hl
      have htotal : 2 * (b :: bs).length = 2 + 2 * bs.length := by
        rw [List.length_cons]
        omega
      rw [htotal]
      exact hl.after hk₂

/-! ## Closures -/

/-- **The copy of an environment** has its bindings in the opposite order. -/
theorem Sound.leaves_envCopyShallowLoop : ∀ {ws : List VALUE} {E R : Env} {is : List Nat}
    {env res : VALUE} {h : HeapState} {Λ : Layout} {n : Nat}, Sound h Λ m g → ListOf h env ws is →
    (∀ i ∈ is, Λ.Data h i) → List.Forall₂ (Binds h Λ) ws E → IsEnv h Λ res R →
    E.bound.length ≤ Λ.free.length → ws.length < n →
    ∃ res' h', envCopyShallowLoop n env res h = some (res', h')
      ∧ Leaves h Λ E.bound.length h' m g fun h' Λ' => IsEnv h' Λ' res' (E.bound.reverse ++ R) := by
  intro ws
  induction ws with
  | nil =>
    intro E R is env res h Λ n hs hlist _ hbinds hR _ hn
    obtain ⟨n, rfl⟩ := Nat.exists_eq_succ_of_ne_zero (Nat.ne_of_gt hn)
    cases hbinds
    cases hlist
    exact ⟨res, h, rfl, Λ, hs, .refl h Λ, hR⟩
  | cons w ws ih =>
    intro E R is env res h Λ n hs hlist his hbinds hR hfree hn
    obtain ⟨n, rfl⟩ := Nat.exists_eq_succ_of_ne_zero (Nat.ne_of_gt (Nat.zero_lt_of_lt hn))
    rw [List.length_cons] at hn
    obtain ⟨hty, hcar, js, rfl, hrest⟩ := hlist.uncons
    cases hbinds with
    | @cons _ b _ E hb hbinds =>
      have hname : car h w = b.1 := by
        obtain ⟨i, hi, rfl, hname⟩ := hb
        rw [hs.car_loc (List.mem_of_getElem? hi), hname]
      have hjs : ∀ j ∈ js, Λ.Data h j := fun j hj => his j (List.mem_cons_of_mem _ hj)
      rw [envCopyShallowLoop, hty, if_pos (by rfl), hcar, hname]
      by_cases hkey : decSym b.1 = symreprNil
      · -- a binding of `nil` is left out
        have hbound : Env.bound (b :: E) = Env.bound E := by simp [Env.bound, hkey]
        rw [hbound] at hfree ⊢
        simp only [hkey, bne_self_eq_false, Bool.false_eq_true, if_false]
        exact ih hs hrest hjs hbinds hR hfree (by omega)
      · have hbound : Env.bound (b :: E) = b :: Env.bound E := by simp [Env.bound, hkey]
        rw [hbound, List.length_cons] at hfree
        rw [hbound, List.length_cons, List.reverse_cons, List.append_assoc]
        obtain ⟨free, ls⟩ := Λ
        cases free with
        | nil => exact absurd hfree (by simp)
        | cons i l =>
          obtain ⟨h₁, hc⟩ := hs.free.conses w res
          obtain ⟨hs₁, hk⟩ := hs.take hc
          have hcdr : cdr h₁ env = cdr h env :=
            cdr_congr hty (hk.cells _ (his _ List.mem_cons_self))
          have hrest₁ : ListOf h₁ (cdr h₁ env) ws js := by
            rw [hcdr]
            exact hrest.congr fun j hj => hk.cells j (hjs j hj)
          obtain ⟨res', h', hloop, hl⟩ := ih hs₁ hrest₁ (fun j hj => hk.data (hjs j hj))
            (hbinds.imp fun _ _ hu => hk.binds hu) (isEnv_conses hs hc hb hR)
            (Nat.le_of_succ_le_succ hfree) (show ws.length < n by omega)
          have hsym : (ptrTypeCons == valTypeSymbol) = false := by decide
          refine ⟨res', h', ?_, ?_⟩
          · rw [hc.eq]
            simp only [bne_iff_ne, ne_eq, hkey, not_false_eq_true, if_true, hc.type, hsym,
              Bool.false_and, Bool.false_eq_true, if_false]
            exact hloop
          · rw [Nat.add_comm]
            exact hl.after hk

theorem Sound.leaves_envCopyShallow (hs : Sound h Λ m g) (hE : IsEnv h Λ env E)
    (hfree : E.bound.length ≤ Λ.free.length) :
    ∃ env' h', envCopyShallow env h = some (env', h')
      ∧ Leaves h Λ E.bound.length h' m g fun h' Λ' => IsEnv h' Λ' env' E.bound.reverse := by
  obtain ⟨ws, is, hlist, his, hbinds⟩ := hE
  have hfuel : ws.length < allocWalkFuel h := by
    apply lt_of_lt_of_le (hs.length_lt hlist his)
    rw [allocWalkFuel]
    exact Nat.le_mul_self _
  have hloop := hs.leaves_envCopyShallowLoop hlist his hbinds isEnv_nil hfree hfuel
  rwa [List.append_nil] at hloop

/-- A list in data cells gets another word in front. -/
theorem listOf_conses {is : List Nat} (hs : Sound h ⟨i :: l, ls⟩ m g) (hc : Conses h i l a d h')
    (hlist : ListOf h d ws is) (his : ∀ j ∈ is, Layout.Data ⟨i :: l, ls⟩ h j) :
    ListOf h' (cellPtr i) (a :: ws) (i :: is) ∧ ∀ j ∈ i :: is, Layout.Data ⟨l, ls⟩ h' j := by
  obtain ⟨-, hk⟩ := hs.take hc
  refine ⟨hc.listOf hlist fun j hj => (his j hj).used, fun j hj => ?_⟩
  rcases List.mem_cons.mp hj with rfl | hj
  · exact data_of_conses hs hc
  · exact hk.data (his j hj)

/-- **The closure** of a `lambda`. -/
theorem Sound.leaves_consClosure {f rest : Val} {exp : VALUE} (hs : Sound h Λ m g)
    (hexp : Holds h Λ exp (.pair f (.pair (.list (ps.map .word)) (.pair v rest))))
    (hps : ∀ p ∈ ps, typeOf p = valTypeSymbol) (hE : IsEnv h Λ env E) (hfree : 4 ≤ Λ.free.length) :
    ∃ w h', consClosure env exp h = ((w, false), h') ∧ typeOf w = ptrTypeCons
      ∧ Leaves h Λ 4 h' m g fun h' Λ' => Holds h' Λ' w (.closure ps v E) := by
  obtain ⟨free, ls⟩ := Λ
  match free, hfree with
  | i₁ :: i₂ :: i₃ :: i₄ :: l, _ =>
    obtain ⟨h₁, hc₁⟩ := hs.free.conses env NIL
    obtain ⟨hs₁, hk₁⟩ := hs.take hc₁
    obtain ⟨hl₁, hd₁⟩ := listOf_conses hs hc₁ .nil (by simp)
    obtain ⟨h₂, hc₂⟩ := hs₁.free.conses (car h₁ (cdr h₁ (cdr h₁ exp))) (cellPtr i₁)
    obtain ⟨hs₂, hk₂⟩ := hs₁.take hc₂
    obtain ⟨hl₂, hd₂⟩ := listOf_conses hs₁ hc₂ hl₁ hd₁
    obtain ⟨h₃, hc₃⟩ := hs₂.free.conses (car h₂ (cdr h₂ exp)) (cellPtr i₂)
    obtain ⟨hs₃, hk₃⟩ := hs₂.take hc₃
    obtain ⟨hl₃, hd₃⟩ := listOf_conses hs₂ hc₃ hl₂ hd₂
    obtain ⟨h₄, hc₄⟩ := hs₃.free.conses (encSym symreprClosure) (cellPtr i₃)
    obtain ⟨hs₄, hk₄⟩ := hs₃.take hc₄
    obtain ⟨hl₄, hd₄⟩ := listOf_conses hs₃ hc₄ hl₃ hd₃
    -- the parameters and the body, where they are read
    have hbody : Holds h₁ _ (car h₁ (cdr h₁ (cdr h₁ exp))) v :=
      (hk₁.holds hexp).uncons.2.2.uncons.2.2.uncons.2.1
    have hparams : Holds h₂ _ (car h₂ (cdr h₂ exp)) (.list (ps.map .word)) :=
      ((hk₁.trans hk₂).holds hexp).uncons.2.2.uncons.2.1
    obtain ⟨ws, js, hlist, hjs, hws⟩ := ((hk₃.trans hk₄).holds hparams).listOf
    obtain rfl := forall_word_eq hws
    have hsym : (ptrTypeCons == valTypeSymbol) = false := by decide
    refine ⟨cellPtr i₄, h₄, ?_, hc₄.type, _, hs₄, ((hk₁.trans hk₂).trans hk₃).trans hk₄,
      .closure hl₄ hd₄ hlist hjs hps (((hk₂.trans hk₃).trans hk₄).holds hbody)
        ((((hk₁.trans hk₂).trans hk₃).trans hk₄).isEnv hE)⟩
    unfold consClosure
    simp only [hc₁.eq, hc₂.eq, hc₃.eq, hc₄.eq, hc₁.type, hc₂.type, hc₃.type, hc₄.type, hsym,
      Bool.or_self]

/-! ## Definitions and assignments -/

theorem Sound.withGlobals (hs : Sound h Λ m g) (hE : IsEnv h Λ env E) :
    Sound h Λ { m with globals := E } env :=
  ⟨hs.free, hs.nodup, hs.locs, hs.length, hs.names, hs.vals, hE⟩

/-- **`env_set` on the global environment** is a definition. -/
theorem Sound.leaves_envSet (hs : Sound h Λ m g) (hx : typeOf x = valTypeSymbol)
    (hw : Holds h Λ w v) (hfree : m.defineCells x ≤ Λ.free.length) :
    ∃ g' h', envSet g x w h = some (g', h') ∧ typeOf g' = ptrTypeCons
      ∧ Leaves h Λ (m.defineCells x) h' (m.define x v) g' fun _ _ => True := by
  obtain ⟨ws, is, hlist, his, hbinds⟩ := hs.globals
  have hloop := hlist.setBindingLoop_eq x w (hs.length_lt hlist his)
  unfold envSet
  rw [hloop]
  rcases hs.bindingOf_eq hbinds x with ⟨hnone, hb⟩ | ⟨k, i, hk, hi, hb⟩
  · have hcells : m.defineCells x = 2 := by rw [Memory.defineCells, hnone]; rfl
    have hdefine : m.define x v
        = { m.allocate [some v] with globals := (x, m.vals.length) :: m.globals } := by
      rw [Memory.define, hnone]
      rfl
    rw [hcells] at hfree ⊢
    obtain ⟨p, g', h₁, h₂, hp⟩ := @Sound.pushes _ _ _ _ w _ _ x (some v) hs hfree hx
      (fun u hu => Option.some.inj hu ▸ hw) hs.globals
    obtain ⟨Λ₂, hs₂, hk₂, hE₂⟩ := hp.leaves
    have hsym : (ptrTypeCons == valTypeSymbol) = false := by decide
    rw [hb, Option.map_none, hp.binding, hdefine]
    simp only [hp.types.1, hp.types.2, hsym, hp.env, Bool.false_eq_true, if_false]
    exact ⟨g', h₂, rfl, hp.types.2, Λ₂, hs₂.withGlobals hE₂, hk₂, trivial⟩
  · have hcells : m.defineCells x = 0 := by rw [Memory.defineCells, hk]; rfl
    have hdefine : m.define x v = m.assign k v := by rw [Memory.define, hk]
    have hty : typeOf g = ptrTypeCons := by
      cases hlist with
      | nil => exact absurd hb (by simp [bindingOf])
      | cons hty _ => exact hty
    rw [hb, hcells, hdefine]
    exact ⟨g, _, rfl, hty, Λ, hs.assign hi hw, hs.keeps_assign (List.mem_of_getElem? hi) w, trivial⟩

/-- **`env_modify_binding`** is an assignment. -/
theorem Sound.leaves_envModifyBinding {k : Loc} (hs : Sound h Λ m g) (hE : IsEnv h Λ env E)
    (hk : E.lookup x = some k) (hw : Holds h Λ w v) :
    ∃ h', envModifyBinding env x w h = some (env, h')
      ∧ Leaves h Λ 0 h' (m.assign k v) g fun _ _ => True := by
  obtain ⟨ws, is, hlist, his, hbinds⟩ := hE
  have hloop := hlist.setBindingLoop_eq x w (hs.length_lt hlist his)
  unfold envModifyBinding
  rw [hloop]
  rcases hs.bindingOf_eq hbinds x with ⟨hnone, -⟩ | ⟨k', i, hk', hi, hb⟩
  · exact absurd (hnone.symm.trans hk) (by simp)
  · obtain rfl : k' = k := Option.some.inj (hk'.symm.trans hk)
    rw [hb]
    exact ⟨_, rfl, Λ, hs.assign hi hw, hs.keeps_assign (List.mem_of_getElem? hi) w, trivial⟩

/-! ## Fundamental operations -/

variable {T : Target} {f : VALUE}

/-- An operation reads as many arguments as it has at least. -/
theorem Primitive.minArgs_le (hp : Primitive T f vs n v) : minArgs (decSym f) ≤ vs.length := by
  cases hp with
  | immediate hf hcontrol hws hr hn hexec =>
    rw [List.length_map]
    exact hn
  | cons a d =>
    show minArgs (decSym (encSym symCons)) ≤ 2
    decide
  | car a d =>
    show minArgs (decSym (encSym symCar)) ≤ 1
    decide
  | cdr a d =>
    show minArgs (decSym (encSym symCdr)) ≤ 1
    decide
  | list vs => exact Nat.zero_le _
  | append us b => exact Nat.zero_le _

theorem Primitive.isFundamental_eq (hp : Primitive T f vs n v) :
    isFundamental f = true ∧ isControlSymbol f = false := by
  cases hp with
  | immediate hf hcontrol => exact ⟨hf, hcontrol⟩
  | _ => decide

/-- What an operation makes of words that stand for its arguments, if it has no others. -/
theorem Primitive.leaves_args (hp : Primitive T f vs n v) (hs : Sound h Λ m g)
    (hws : List.Forall₂ (Holds h Λ) ws vs) (hfree : n ≤ Λ.free.length) (hlen : ws.length < 2 ^ 32)
    (st : SymbolTable) :
    ∃ r h', fundamentalExec T.floats ws (BitVec.ofNat 32 ws.length) f st h = some (r, h', st)
      ∧ Leaves h Λ n h' m g fun h' Λ' => Holds h' Λ' r v := by
  cases hp with
  | cons a d =>
    match ws, hws with
    | [w, u], .cons ha (.cons hd .nil) =>
      obtain ⟨free, ls⟩ := Λ
      cases free with
      | nil => exact absurd hfree (by simp)
      | cons i l =>
        obtain ⟨h', hc⟩ := hs.free.conses w u
        obtain ⟨hs', hk⟩ := hs.take hc
        have hexec : fundamentalHeapExec T.floats [w, u] 2#32 symCons st h
            = some (LispBM.cons w u h) := rfl
        rw [hc.eq] at hexec
        exact ⟨_, h', fundamentalExec_of_heapExec rfl hexec, _, hs', hk, holds_conses hs hc ha hd⟩
  | car a d =>
    match ws, hws with
    | [w], .cons hw .nil =>
      exact ⟨LispBM.car h w, h, fundamentalExec_of_heapExec rfl rfl, Λ, hs, .refl h Λ,
        hw.uncons.2.1⟩
  | cdr a d =>
    match ws, hws with
    | [w], .cons hw .nil =>
      exact ⟨LispBM.cdr h w, h, fundamentalExec_of_heapExec rfl rfl, Λ, hs, .refl h Λ,
        hw.uncons.2.2⟩
  | list vs =>
    rw [← hws.length_eq, ← List.length_reverse] at hfree
    have hnil : Holds h Λ NIL .nil := .word (by decide)
    have hall := hs.leaves_consAll (List.rel_reverse hws) hnil hfree
    rw [List.reverse_reverse, List.length_reverse, hws.length_eq] at hall
    exact ⟨_, _, list_eq T.floats st hlen, hall⟩
  | append us b =>
    match ws, hws with
    | [w, u], .cons hw (.cons hu .nil) =>
      obtain ⟨xs, is, hlist, his, hxs⟩ := hw.listOf
      have heq := append_eq T.floats st hs.free hlist
        (fun i hi => ⟨(his i hi).lt, (his i hi).used⟩) u
      rw [← hxs.length_eq, ← List.length_reverse] at hfree
      have hall := hs.leaves_consAll (List.rel_reverse hxs) hu hfree
      rw [List.reverse_reverse, List.length_reverse, hxs.length_eq] at hall
      exact ⟨_, _, heq, hall⟩
  | @immediate _ r us hf hcontrol hus hr hmin hexec =>
    obtain rfl := forall_word_eq hws
    exact ⟨r, h, hexec st h, Λ, hs, .refl h Λ, .word hr⟩

/-- **A fundamental operation** on the stack, where other words come after its arguments. -/
theorem Primitive.leaves (hp : Primitive T f vs n v) (hs : Sound h Λ m g)
    (hws : List.Forall₂ (Holds h Λ) ws vs) (hfree : n ≤ Λ.free.length) (hlen : ws.length < 2 ^ 32)
    (st : SymbolTable) :
    ∃ r h', (∀ above, fundamentalExec T.floats (ws ++ above) (BitVec.ofNat 32 ws.length) f st h
        = some (r, h', st))
      ∧ Leaves h Λ n h' m g fun h' Λ' => Holds h' Λ' r v := by
  have hn : (BitVec.ofNat 32 ws.length).toNat = ws.length := by
    rw [BitVec.toNat_ofNat, Nat.mod_eq_of_lt hlen]
  have hmin : minArgs (decSym f) ≤ (BitVec.ofNat 32 ws.length).toNat := by
    rw [hn, hws.length_eq]
    exact hp.minArgs_le
  obtain ⟨r, h', hexec, hl⟩ := hp.leaves_args hs hws hfree hlen st
  refine ⟨r, h', fun above => ?_, hl⟩
  have hargs : ∀ i, i < (BitVec.ofNat 32 ws.length).toNat →
      (ws ++ above).getD i 0#32 = ws.getD i 0#32 := by
    intro i hi
    rw [hn] at hi
    rw [List.getD_eq_getElem?_getD, List.getD_eq_getElem?_getD, List.getElem?_append_left hi]
  rw [readsOnlyArgs_of_minArgs hmin (ws ++ above) ws st h hargs]
  exact hexec

end

end Semantics

end LispBM
