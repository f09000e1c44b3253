import LispBM.EcEval
import LispBM.Env.Bindings
import LispBM.EvalCps

/-!
# LispBM — `define` under memory exhaustion

A new binding takes two cells. With one free cell `env_set` returns the key-value cell it has just
filled, which is no environment and no error symbol, and both evaluators make it the global
environment. With any other number of free cells, and whenever the name is bound already, a
definition is made or nothing changes (`define_allOrNothing_iff`).
-/

namespace LispBM

variable {h h' : HeapState} {l : List Nat} {env env' k v : VALUE} {ws : List VALUE} {is : List Nat}

/-- In the environment `env'` the name `k` is bound to `v`, and every other name as in `env`. -/
def Defines (h : HeapState) (env k v : VALUE) (h' : HeapState) (env' : VALUE) : Prop :=
  (∃ l' ws' is', FreeList h' l' ∧ EnvOf h' l' env' ws' is') ∧ Updated h env k v h' env'

/-- The environment `env` has its cells and its bindings. -/
def Unchanged (h : HeapState) (env : VALUE) (ws : List VALUE) (is : List Nat) (h' : HeapState) :
    Prop :=
  (∃ l', FreeList h' l' ∧ EnvOf h' l' env ws is)
    ∧ ∀ k, IsName k → envLookup h' k env = envLookup h k env

/-! ## `env_set` -/

/-- A pair with a symbol as its car is no environment. -/
theorem not_envOf_pair {p : VALUE} (hp : typeOf p = ptrTypeCons)
    (hcar : typeOf (car h p) = valTypeSymbol) : ¬EnvOf h l p ws is := by
  intro he
  cases he.list with
  | nil => exact absurd hp (by decide)
  | cons hty hrest =>
    have hpair := he.pair _ List.mem_cons_self
    rw [hcar] at hpair
    exact absurd hpair (by decide)

/-- What `env_set` does, by the number of free cells. -/
inductive SetCase (h : HeapState) (l : List Nat) (env k v : VALUE) (ws : List VALUE) :
    VALUE → HeapState → Prop where
  | defines {env' : VALUE} {h' : HeapState} (hok : Bound h k ws ∨ 2 ≤ l.length)
      (hty : typeOf env' = ptrTypeCons) (hd : Defines h env k v h' env') :
      SetCase h l env k v ws env' h'
  | merror (hnew : ¬Bound h k ws) (hl : l = []) :
      SetCase h l env k v ws (encSym symreprMerror) h
  | keyval {j : Nat} {h' : HeapState} (hnew : ¬Bound h k ws) (hl : l = [j])
      (hc : Conses h j [] k v h') : SetCase h l env k v ws (cellPtr j) h'

theorem EnvOf.envSet_cases (hl : FreeList h l) (he : EnvOf h l env ws is) (hk : IsName k)
    (v : VALUE) : ∃ env' h', envSet env k v h = some (env', h')
      ∧ SetCase h l env k v ws env' h' := by
  have hne : ¬ptrTypeCons = valTypeSymbol := by decide
  cases hb : bindingOf h k ws with
  | some w =>
    have hbind := he.isBinding (bindingOf_spec hb).1
    have hty : typeOf env = ptrTypeCons := by
      cases ws with
      | nil => exact absurd hb (by simp [bindingOf])
      | cons u ws => exact he.uncons.1
    refine ⟨env, LispBM.setCdr h w v, he.envSet_bound hl hb v, .defines (Or.inl ?_) hty ⟨?_, ?_⟩⟩
    · exact bound_iff.mpr ⟨w, hb⟩
    · exact ⟨l, ws, is, freeList_setCdr hl hbind v, he.setCdr hl hbind v⟩
    · exact he.updated_setCdr hl hb v
  | none =>
    have hnew := not_bound_iff.mpr hb
    rcases l with _ | ⟨j, _ | ⟨i, l⟩⟩
    · refine ⟨_, h, ?_, .merror hnew rfl⟩
      rw [envSet, he.setBinding_eq hl, hb]
      simp [hl.cons_eq_merror]
    · obtain ⟨h₁, hc⟩ := hl.conses k v
      refine ⟨cellPtr j, h₁, ?_, .keyval hnew rfl hc⟩
      rw [envSet, he.setBinding_eq hl, hb]
      simp [hc.eq, hc.type, hc.free.cons_eq_merror, hne]
    · obtain ⟨h', hset, hext, henv, hbound⟩ := he.envSet_insert hl hk.symbol hb v
      refine ⟨cellPtr i, h', hset, .defines (Or.inr (by simp)) hext.list_type ⟨?_, ?_⟩⟩
      · exact ⟨l, _, _, hext.free, henv⟩
      · intro k' hk'
        rw [henv.envLookup_eq hext.free hk', he.envLookup_eq hl hk', hbound]
        split <;> rfl

/-- `env_set` has made the definition, or it has failed and changed nothing. -/
def SetsOrFails (h : HeapState) (env k v : VALUE) (ws : List VALUE) (is : List Nat) (env' : VALUE)
    (h' : HeapState) : Prop :=
  Defines h env k v h' env' ∨ (env' = encSym symreprMerror ∧ Unchanged h env ws is h')

/-- A definition with a binding to write or with another number of free cells than one. -/
def HasRoom (h : HeapState) (l : List Nat) (k : VALUE) (ws : List VALUE) : Prop :=
  Bound h k ws ∨ l.length ≠ 1

theorem unchanged_self (hl : FreeList h l) (he : EnvOf h l env ws is) : Unchanged h env ws is h :=
  ⟨⟨l, hl, he⟩, fun _ _ => rfl⟩

theorem Conses.not_envOf {j : Nat} {l' : List Nat} (hc : Conses h j l k v h') (hk : IsName k) :
    ¬EnvOf h' l' (cellPtr j) ws is := by
  refine not_envOf_pair hc.type ?_
  rw [hc.car]
  exact hk.symbol

theorem SetCase.setsOrFails_iff (hl : FreeList h l) (he : EnvOf h l env ws is) (hk : IsName k)
    (hc : SetCase h l env k v ws env' h') :
    SetsOrFails h env k v ws is env' h' ↔ HasRoom h l k ws := by
  cases hc with
  | defines hok hty hd =>
    refine ⟨fun _ => hok.imp id fun hlen => ?_, fun _ => Or.inl hd⟩
    omega
  | merror hnew hnil =>
    refine ⟨fun _ => Or.inr (by simp [hnil]), fun _ => Or.inr ⟨rfl, unchanged_self hl he⟩⟩
  | keyval hnew hone hc =>
    refine ⟨fun hs => ?_, fun hroom => ?_⟩
    · rcases hs with ⟨⟨l', ws', is', -, henv⟩, -⟩ | ⟨heq, -⟩
      · exact absurd henv (hc.not_envOf hk)
      · have hty := hc.type
        rw [heq] at hty
        exact absurd hty (by decide)
    · exact absurd (by simp [hone]) (hroom.resolve_left hnew)

/-! ## The evaluators -/

/-- The global environment after a definition: the old one, or one in which the name is bound. -/
def GlobalKept (old : Store) (k v : VALUE) (ws : List VALUE) (is : List Nat) (new : Store) : Prop :=
  Defines old.heap old.envGlobal k v new.heap new.envGlobal
    ∨ (new.envGlobal = old.envGlobal ∧ Unchanged old.heap old.envGlobal ws is new.heap)

theorem Defines.of_old {h₁ : HeapState} (hd : Defines h₁ env k v h' env')
    (hsame : ∀ k, IsName k → envLookup h₁ k env = envLookup h k env) :
    Defines h env k v h' env' := by
  refine ⟨hd.1, fun k' hk' => ?_⟩
  rw [hd.2 k' hk', hsame k' hk']

/-- A pair of a symbol and a value has become the global environment. -/
theorem Conses.not_globalKept {j : Nat} {old new : Store} (hc : Conses h j l k v h') (hk : IsName k)
    (hheap : new.heap = h') (henv : new.envGlobal = cellPtr j) :
    ¬GlobalKept old k v ws is new := by
  intro hkept
  rw [GlobalKept, hheap, henv] at hkept
  rcases hkept with ⟨⟨l', ws', is', -, henv⟩, -⟩ | ⟨heq, ⟨l', -, henv⟩, -⟩
  · exact hc.not_envOf hk henv
  · rw [← heq] at henv
    exact hc.not_envOf hk henv

section EvalCps

variable {io : Outside} {ctx : EvalContext} {st st' : Store} {o : Outcome} {g : Bool} {K : Stack}

theorem contSetGlobalEnvCase_kept_iff (hl : FreeList st.heap l)
    (he : EnvOf st.heap l st.envGlobal ws is) (hk : IsName k) (hpop : popU32 ctx.K = some (k, K))
    (h : contSetGlobalEnvCase io ctx st = some (o, st', g)) :
    GlobalKept st k ctx.r ws is st' ↔ HasRoom st.heap l k ws := by
  have hne : ¬ptrTypeCons = valTypeSymbol := by decide
  obtain ⟨env', h', hset, hcase⟩ := he.envSet_cases hl hk ctx.r
  rw [contSetGlobalEnvCase, hpop] at h
  simp only [Option.bind_eq_bind, Option.bind_some, hset] at h
  cases hcase with
  | defines hok hty hd =>
    simp only [hty, hne, beq_iff_eq, Bool.and_eq_true, false_and, if_false] at h
    cases h
    refine ⟨fun _ => hok.imp id fun hlen => ?_, fun _ => Or.inl hd⟩
    omega
  | merror hnew hnil =>
    have hst : st' = st := by
      simp +decide only [if_true] at h
      split at h
      all_goals
        cases h
        rfl
    rw [hst]
    exact ⟨fun _ => Or.inr (by simp [hnil]), fun _ => Or.inr ⟨rfl, unchanged_self hl he⟩⟩
  | keyval hnew hone hc =>
    simp only [hc.type, hne, beq_iff_eq, Bool.and_eq_true, false_and, if_false] at h
    cases h
    refine ⟨fun hkept => absurd hkept (hc.not_globalKept hk rfl rfl), fun hroom => ?_⟩
    exact absurd (by simp [hone]) (hroom.resolve_left hnew)

theorem contSetGlobalEnvCase_isSome (hl : FreeList st.heap l)
    (he : EnvOf st.heap l st.envGlobal ws is) (hk : IsName k)
    (hpop : popU32 ctx.K = some (k, K)) :
    ∃ o st' g, contSetGlobalEnvCase io ctx st = some (o, st', g) := by
  obtain ⟨env', h', hset, -⟩ := he.envSet_cases hl hk ctx.r
  rw [contSetGlobalEnvCase, hpop]
  simp only [Option.bind_eq_bind, Option.bind_some, hset]
  split
  · split <;> exact ⟨_, _, _, rfl⟩
  · split <;> exact ⟨_, _, _, rfl⟩

end EvalCps

/-- An exact collection keeps the environments that can be reached. -/
theorem EnvOf.collected {roots : List VALUE} (hl : FreeList h l) (he : EnvOf h l env ws is)
    (hx : ExactCollection h roots l h') (hroot : env ∈ roots) :
    ∃ l', FreeList h' l' ∧ EnvOf h' l' env ws is ∧ (∀ k, Bound h' k ws ↔ Bound h k ws)
      ∧ ∀ k, IsName k → envLookup h' k env = envLookup h k env := by
  obtain ⟨l', hchain, hnodup, hmem⟩ := hx.free
  have hreach : ReachableWord h roots env := ⟨env, hroot, .refl⟩
  have hskel := he.list.live hreach
  have hpairs : ∀ w ∈ ws, Live h roots (ptrIx w) := fun w hw =>
    (he.list.reachable hreach w hw).live (he.pair w hw)
  have hfree : FreeList h' l' := by
    refine ⟨hchain, hnodup, ?_, ?_⟩
    · rw [hx.heapSize, hx.heap_length]
      exact hl.fits
    · rw [hx.heapSize]
      exact hl.addressable
  have hcar : ∀ w ∈ ws, car h' w = car h w := by
    intro w hw
    have hp := isPtr_of_typeOf_cons (he.pair w hw)
    rw [car_of_isPtr hp, car_of_isPtr hp, hx.live _ (hpairs w hw)]
  have hcdr : ∀ w ∈ ws, cdr h' w = cdr h w := by
    intro w hw
    have hp := isPtr_of_typeOf_cons (he.pair w hw)
    rw [cdr_of_isPtr hp, cdr_of_isPtr hp, hx.live _ (hpairs w hw)]
  have henv : EnvOf h' l' env ws is := by
    refine ⟨he.list.congr fun i hi => hx.live i (hskel i hi), ?_, he.pair, ?_, ?_⟩
    · intro i hi
      rw [hx.heapSize]
      exact ⟨(he.skeleton i hi).1, fun hil => ((hmem i).mp hil).2 (hskel i hi)⟩
    · intro w hw
      rw [hcar w hw]
      exact he.key w hw
    · intro w hw
      rw [hx.heapSize]
      exact ⟨(he.used w hw).1, fun hil => ((hmem _).mp hil).2 (hpairs w hw)⟩
  refine ⟨l', hfree, henv, fun k => ?_, fun k hk => ?_⟩
  · rw [bound_iff, bound_iff, bindingOf_congr hcar]
  · rw [henv.envLookup_eq hfree hk, he.envLookup_eq hl hk, boundTo_congr hcar hcdr]

namespace EcEval

variable {s s' : State} {cont : VALUE} {S₁ S₂ : Stack}

/-- `cont_define` after it has popped its frame. -/
def definePopped (s : State) (cont k : VALUE) (S : Stack) : State :=
  { s with cont := cont, unev := k, S := S }

/-- The collector, when `cont_define` calls it, does not run out of its stack. -/
structure CollectsFor (s : State) (l : List Nat) : Prop where
  ready : l = [] → GcReady s.store.heap (gcCalls s) []
  marked : l = [] → ∀ oks h', collect (gcCalls s) s.store.heap = some (oks, h') →
    ∀ ok ∈ oks, ok = true

/-- Room for the definition, now or after the collection. -/
def HasRoomWithGc (s : State) (l : List Nat) (k : VALUE) (ws : List VALUE) : Prop :=
  HasRoom s.store.heap l k ws
    ∧ (l = [] → ∀ oks h' l', collect (gcCalls s) s.store.heap = some (oks, h') → FreeList h' l' →
      HasRoom h' l' k ws)

theorem CollectsFor.collected (hgc : CollectsFor s []) (hl : FreeList s.store.heap [])
    (he : EnvOf s.store.heap [] s.store.envGlobal ws is) :
    ∃ oks h₁ l₁, collect (gcCalls s) s.store.heap = some (oks, h₁) ∧ FreeList h₁ l₁
      ∧ EnvOf h₁ l₁ s.store.envGlobal ws is ∧ (∀ k, Bound h₁ k ws ↔ Bound s.store.heap k ws)
      ∧ ∀ k, IsName k → envLookup h₁ k s.store.envGlobal
        = envLookup s.store.heap k s.store.envGlobal := by
  have hready := hgc.ready rfl
  obtain ⟨⟨oks, M⟩, hvisits⟩ := Option.isSome_iff_exists.mp hready.visits_isSome
  obtain ⟨h₁, hcollect, -⟩ := hready.collect_swept hvisits
  have hexact := hready.exact_of_collect hcollect (hgc.marked rfl oks h₁ hcollect)
  obtain ⟨l₁, hl₁, he₁, hbound, hlookup⟩ :=
    he.collected hl hexact (by simp [rootWords, gcCalls, MarkCall.words])
  exact ⟨oks, h₁, l₁, hcollect, hl₁, he₁, hbound, hlookup⟩

/-- Room after the collection is room in the heap that it leaves. -/
theorem hasRoomWithGc_iff {oks : List Bool} {h₁ : HeapState}
    {l₁ : List Nat} (hcollect : collect (gcCalls s) s.store.heap = some (oks, h₁))
    (hl₁ : FreeList h₁ l₁) : HasRoomWithGc s [] k ws ↔ HasRoom h₁ l₁ k ws := by
  refine ⟨fun hroom => hroom.2 rfl oks h₁ l₁ hcollect hl₁, fun hroom => ⟨Or.inr (by simp), ?_⟩⟩
  intro _ oks' h' l' hcollect' hl'
  rw [hcollect] at hcollect'
  obtain ⟨-, rfl⟩ := Prod.mk.inj (Option.some.inj hcollect')
  rw [hl'.chain.unique hl'.addressable hl₁.chain]
  exact hroom

theorem contDefineCase_kept_iff (hl : FreeList s.store.heap l)
    (he : EnvOf s.store.heap l s.store.envGlobal ws is) (hk : IsName k)
    (hpop₁ : popU32 s.S = some (cont, S₁)) (hpop₂ : popU32 S₁ = some (k, S₂))
    (hgc : CollectsFor (definePopped s cont k S₂) l) (h : contDefineCase s = some s') :
    GlobalKept s.store k s.val ws is s'.store
      ↔ HasRoomWithGc (definePopped s cont k S₂) l k ws := by
  have hne : ¬ptrTypeCons = valTypeSymbol := by decide
  obtain ⟨env', h', hset, hcase⟩ := he.envSet_cases hl hk s.val
  rw [contDefineCase, hpop₁] at h
  simp only [Option.bind_eq_bind, Option.bind_some, hpop₂, allocWithGc, onHeap, hset,
    Option.map_some] at h
  cases hcase with
  | defines hok hty hd =>
    simp only [isSymbolMerror, isSymbol, hty, hne, beq_iff_eq, Bool.and_eq_true,
      false_and, if_false,
      Option.bind_some] at h
    cases h
    refine ⟨fun _ => ⟨hok.imp id fun hlen => by omega, fun hnil => ?_⟩, fun _ => Or.inl hd⟩
    -- without free cells the name is bound, and stays so
    subst hnil
    have hbound : Bound s.store.heap k ws := hok.resolve_right (by simp)
    obtain ⟨oks, h₁, l₁, hcollect, hl₁, -, hsame, -⟩ := hgc.collected hl he
    exact ((hasRoomWithGc_iff hcollect hl₁).mpr (Or.inl ((hsame k).mpr hbound))).2 rfl
  | merror hnew hnil =>
    subst hnil
    obtain ⟨oks, h₁, l₁, hcollect, hl₁, he₁, hsame, hlookup⟩ := hgc.collected hl he
    rw [hasRoomWithGc_iff hcollect hl₁]
    obtain ⟨env₂, h₂, hset₂, hcase₂⟩ := he₁.envSet_cases hl₁ hk s.val
    have hmerror : isSymbolMerror (encSym symreprMerror) = true := by decide
    simp only [definePopped] at he₁ hset₂ hcase₂ hlookup
    simp only [gcCalls, definePopped] at hcollect
    simp only [hmerror, if_true, gc, gcCalls, hcollect, Option.map_some, Option.bind_some,
      hset₂] at h
    cases hcase₂ with
    | defines hok hty hd =>
      simp only [isSymbolMerror, isSymbol, hty, hne, beq_iff_eq, Bool.and_eq_true, false_and,
        if_false] at h
      cases h
      refine ⟨fun _ => hok.imp id fun hlen => by omega, fun _ => Or.inl ?_⟩
      exact hd.of_old hlookup
    | merror hnew₁ hnil₁ =>
      simp only [hmerror, if_true, merrorStop] at h
      cases h
      refine ⟨fun _ => Or.inr (by simp [hnil₁]), fun _ => Or.inr ⟨rfl, ?_⟩⟩
      exact ⟨⟨l₁, hl₁, he₁⟩, hlookup⟩
    | keyval hnew₁ hone hc =>
      simp only [isSymbolMerror, isSymbol, hc.type, hne, beq_iff_eq, Bool.and_eq_true, false_and,
        if_false] at h
      cases h
      refine ⟨fun hkept => absurd hkept (hc.not_globalKept hk rfl rfl), fun hroom => ?_⟩
      exact absurd (by simp [hone]) (hroom.resolve_left hnew₁)
  | keyval hnew hone hc =>
    simp only [isSymbolMerror, isSymbol, hc.type, hne, beq_iff_eq, Bool.and_eq_true, false_and,
      if_false, Option.bind_some] at h
    cases h
    refine ⟨fun hkept => absurd hkept (hc.not_globalKept hk rfl rfl), fun hroom => ?_⟩
    exact absurd (by simp [hone]) (hroom.1.resolve_left hnew)

theorem contDefineCase_isSome (hl : FreeList s.store.heap l)
    (he : EnvOf s.store.heap l s.store.envGlobal ws is) (hk : IsName k)
    (hpop₁ : popU32 s.S = some (cont, S₁)) (hpop₂ : popU32 S₁ = some (k, S₂))
    (hgc : CollectsFor (definePopped s cont k S₂) l) : ∃ s', contDefineCase s = some s' := by
  obtain ⟨env', h', hset, hcase⟩ := he.envSet_cases hl hk s.val
  rw [contDefineCase, hpop₁]
  simp only [Option.bind_eq_bind, Option.bind_some, hpop₂, allocWithGc, onHeap, hset,
    Option.map_some]
  cases hcase with
  | defines hok hty hd =>
    have hne : ¬ptrTypeCons = valTypeSymbol := by decide
    simp [isSymbolMerror, isSymbol, hty, hne]
  | merror hnew hnil =>
    subst hnil
    obtain ⟨oks, h₁, l₁, hcollect, hl₁, he₁, -⟩ := hgc.collected hl he
    obtain ⟨env₂, h₂, hset₂, -⟩ := he₁.envSet_cases hl₁ hk s.val
    have hmerror : isSymbolMerror (encSym symreprMerror) = true := by decide
    simp only [definePopped] at hset₂
    simp only [gcCalls, definePopped] at hcollect
    simp only [hmerror, if_true, gc, gcCalls, hcollect, Option.map_some, Option.bind_some, hset₂]
    split <;> exact ⟨_, rfl⟩
  | keyval hnew hone hc =>
    have hne : ¬ptrTypeCons = valTypeSymbol := by decide
    simp [isSymbolMerror, isSymbol, hc.type, hne]

end EcEval

/-- **`define` is all or nothing** exactly if the name is bound or the number of free cells is not
one, each time `env_set` is called. -/
theorem define_allOrNothing_iff (hl : FreeList h l) (he : EnvOf h l env ws is) (hk : IsName k)
    (v : VALUE) :
    (∃ env' h', envSet env k v h = some (env', h')
      ∧ (SetsOrFails h env k v ws is env' h' ↔ HasRoom h l k ws))
    ∧ (∀ (io : Outside) (ctx : EvalContext) (st : Store) (K : Stack), st.heap = h →
      st.envGlobal = env → ctx.r = v → popU32 ctx.K = some (k, K) →
      ∃ o st' g, contSetGlobalEnvCase io ctx st = some (o, st', g)
        ∧ (GlobalKept st k v ws is st' ↔ HasRoom h l k ws))
    ∧ ∀ (s : EcEval.State) (cont : VALUE) (S₁ S₂ : Stack), s.store.heap = h →
      s.store.envGlobal = env → s.val = v → popU32 s.S = some (cont, S₁) →
      popU32 S₁ = some (k, S₂) → EcEval.CollectsFor (EcEval.definePopped s cont k S₂) l →
      ∃ s', EcEval.contDefineCase s = some s'
        ∧ (GlobalKept s.store k v ws is s'.store
          ↔ EcEval.HasRoomWithGc (EcEval.definePopped s cont k S₂) l k ws) := by
  refine ⟨?_, ?_, ?_⟩
  · obtain ⟨env', h', hset, hcase⟩ := he.envSet_cases hl hk v
    exact ⟨env', h', hset, hcase.setsOrFails_iff hl he hk⟩
  · intro io ctx st K hheap henv hr hpop
    subst hheap henv hr
    obtain ⟨o, st', g, hstep⟩ := contSetGlobalEnvCase_isSome hl he hk hpop
    exact ⟨o, st', g, hstep, contSetGlobalEnvCase_kept_iff hl he hk hpop hstep⟩
  · intro s cont S₁ S₂ hheap henv hval hpop₁ hpop₂ hgc
    subst hheap henv hval
    obtain ⟨s', hstep⟩ := EcEval.contDefineCase_isSome hl he hk hpop₁ hpop₂ hgc
    exact ⟨s', hstep, EcEval.contDefineCase_kept_iff hl he hk hpop₁ hpop₂ hgc hstep⟩

/-- The two names of `twoNames`, and a list of two cells that nobody refers to. -/
def twoNamesFull : HeapState :=
  freshHeap
    [⟨cellPtr 1, cellPtr 2⟩, ⟨encSym 4096#32, encI 7#32⟩, ⟨cellPtr 3, NIL⟩,
      ⟨encSym 4097#32, encI 8#32⟩, ⟨encI 1#32, cellPtr 5⟩, ⟨encI 2#32, NIL⟩]
    NIL 6#32

/-- `cont_define` is about to bind a third name to 5. -/
def definingThird : EcEval.State where
  cont := EcEval.Continuation.contDefine.enc
  env := NIL
  unev := NIL
  prg := NIL
  exp := NIL
  argl := NIL
  val := encI 5#32
  fun' := NIL
  S := ⟨[encSym 4098#32, EcEval.Continuation.contDone.enc, 0#32, 0#32], 2, false, by decide,
    by decide⟩
  es := .evalContinuation
  done := false
  store :=
    { heap := twoNamesFull
      envGlobal := cellPtr 0
      symbols := ⟨0#32, 0#32⟩
      ctxQueue := []
      ctxDone := []
      nextCtxId := 1#32 }
  pushLost := false

/-- The state in which `cont_define` calls `env_set`. -/
def definedThird : EcEval.State :=
  EcEval.definePopped definingThird EcEval.Continuation.contDone.enc (encSym 4098#32)
    ⟨[encSym 4098#32, EcEval.Continuation.contDone.enc, 0#32, 0#32], 0, false, by decide, by decide⟩

/-- The collection marks all roots and leaves the cells 5 and 4 free. -/
theorem collect_definedThird : ∃ h', collect (EcEval.gcCalls definedThird) twoNamesFull
    = some (List.replicate 8 true, h') ∧ isFreeList h' [5, 4] = true := by
  have hc : (collect (EcEval.gcCalls definedThird) twoNamesFull).map
      (fun r => (r.1, isFreeList r.2 [5, 4])) = some (List.replicate 8 true, true) := by
    decide +kernel
  obtain ⟨⟨oks, h'⟩, hcollect, hvalues⟩ := Option.map_eq_some_iff.mp hc
  obtain ⟨rfl, hfree⟩ := Prod.mk.inj hvalues
  exact ⟨h', hcollect, hfree⟩

theorem collectsFor_definingThird : EcEval.CollectsFor definedThird [] where
  ready := by
    have hfull : fullOfLists twoNamesFull (EcEval.gcCalls definedThird)
        [NIL, cellPtr 0, cellPtr 1, cellPtr 2, cellPtr 3, encSym 4096#32, encSym 4097#32,
          encSym 4098#32, encI 5#32, encI 7#32, encI 8#32] = true := by decide +kernel
    exact fun _ => gcReady_of_fullOfLists hfull
  marked := by
    intro _ oks h' hc ok hok
    obtain ⟨h₁, hcollect, -⟩ := collect_definedThird
    rw [show definedThird.store.heap = twoNamesFull from rfl, hcollect] at hc
    obtain ⟨rfl, -⟩ := Prod.mk.inj (Option.some.inj hc)
    exact List.eq_of_mem_replicate hok

theorem hasRoomWithGc_definingThird :
    EcEval.HasRoomWithGc definedThird [] (encSym 4098#32) [cellPtr 1, cellPtr 3] := by
  obtain ⟨h', hcollect, hfree⟩ := collect_definedThird
  have hroom : HasRoom h' [5, 4] (encSym 4098#32) [cellPtr 1, cellPtr 3] := Or.inr (by decide)
  exact (EcEval.hasRoomWithGc_iff hcollect (freeList_of_isFreeList hfree)).mpr hroom

/-- With free cells `env_set` makes the definition; without, the collection that `cont_define` asks
for finds two. -/
theorem define_allOrNothing_twoNames :
    (∃ env' h', envSet (cellPtr 0) (encSym 4098#32) (encI 5#32) twoNames = some (env', h')
      ∧ SetsOrFails twoNames (cellPtr 0) (encSym 4098#32) (encI 5#32) [cellPtr 1, cellPtr 3] [0, 2]
        env' h')
    ∧ ∃ s', EcEval.contDefineCase definingThird = some s'
      ∧ GlobalKept definingThird.store (encSym 4098#32) (encI 5#32) [cellPtr 1, cellPtr 3] [0, 2]
        s'.store := by
  have hname : IsName (encSym 4098#32) := ⟨by decide, by decide⟩
  refine ⟨?_, ?_⟩
  · obtain ⟨⟨env', h', hset, hiff⟩, -, -⟩ :=
      define_allOrNothing_iff freeList_twoNames envOf_twoNames hname (encI 5#32)
    exact ⟨env', h', hset, hiff.mpr (Or.inr (by decide))⟩
  · have hfree : FreeList twoNamesFull [] := freeList_of_isFreeList (by decide +kernel)
    have henv : EnvOf twoNamesFull [] (cellPtr 0) [cellPtr 1, cellPtr 3] [0, 2] :=
      envOf_of_isEnvOf (by decide +kernel)
    obtain ⟨s', hstep, hiff⟩ := (define_allOrNothing_iff hfree henv hname (encI 5#32)).2.2
      definingThird _ _ _ rfl rfl rfl rfl rfl collectsFor_definingThird
    exact ⟨s', hstep, hiff.mpr hasRoomWithGc_definingThird⟩

/-- The name with the number 4096 is bound to 7, and one cell is free. -/
def oneFree : HeapState :=
  freshHeap [⟨cellPtr 1, NIL⟩, ⟨encSym 4096#32, encI 7#32⟩, ⟨RECOVERED, NIL⟩] (cellPtr 2) 2#32

/-- **A definition that loses the environment**: what `env_set` returns is neither an environment
nor an error, and the name that was bound is not bound in it. -/
theorem not_setsOrFails_oneFree :
    isFreeList oneFree [2] = true ∧ isEnvOf oneFree [2] (cellPtr 0) [cellPtr 1] [0] = true
      ∧ envLookup oneFree (encSym 4096#32) (cellPtr 0) = some (encI 7#32)
      ∧ ∃ env' h', envSet (cellPtr 0) (encSym 4097#32) (encI 5#32) oneFree = some (env', h')
        ∧ envLookup h' (encSym 4096#32) env' = some (encSym symreprNotFound)
        ∧ ¬SetsOrFails oneFree (cellPtr 0) (encSym 4097#32) (encI 5#32) [cellPtr 1] [0] env'
          h' := by
  have hname : IsName (encSym 4096#32) := ⟨by decide, by decide⟩
  have hold : envLookup oneFree (encSym 4096#32) (cellPtr 0) = some (encI 7#32) := by
    decide +kernel
  have hset : (envSet (cellPtr 0) (encSym 4097#32) (encI 5#32) oneFree).map
      (fun r => (r.1, envLookup r.2 (encSym 4096#32) r.1))
      = some (cellPtr 2, some (encSym symreprNotFound)) := by decide +kernel
  obtain ⟨⟨env', h'⟩, hset, hvalues⟩ := Option.map_eq_some_iff.mp hset
  obtain ⟨henv, hlost⟩ := Prod.mk.inj hvalues
  refine ⟨by decide +kernel, by decide +kernel, hold, env', h', hset, hlost, ?_⟩
  rintro (⟨-, hupdated⟩ | ⟨heq, -⟩)
  · have hkept := hupdated _ hname
    rw [hlost, hold, if_neg (by decide)] at hkept
    exact absurd hkept (by decide)
  · rw [show env' = cellPtr 2 from henv] at heq
    exact absurd heq (by decide)

end LispBM
