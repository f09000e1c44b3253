import LispBM.Env.Bindings

/-!
# LispBM — the environment of a closure

`env_copy_shallow` conses the key-value cells it meets onto the copy, so that the copy has them in
the opposite order. The first cell of a name wins, and in the copy that is the last one of the
environment: a closure sees the outermost of several bindings of a name. It captures what is
visible exactly if the first and the last cell of every name are the same (`captures_iff`).
-/

namespace LispBM

variable {h h' : HeapState} {l : List Nat} {env copy : VALUE} {ws : List VALUE} {is : List Nat}

/-- The cells that go into the copy. -/
def captured (h : HeapState) (ws : List VALUE) : List VALUE :=
  ws.filter fun w => decSym (car h w) != symreprNil

/-- The last key-value cell of a name. -/
def lastBindingOf (h : HeapState) (k : VALUE) (ws : List VALUE) : Option VALUE :=
  bindingOf h k ws.reverse

/-- The cells of a name are captured, and the last one comes first. -/
theorem bindingOf_captured {k : VALUE} (hk : IsName k) :
    bindingOf h k (captured h ws).reverse = lastBindingOf h k ws := by
  have hsame : (captured h ws).filter (fun w => car h w == k)
      = ws.filter fun w => car h w == k := by
    rw [captured, List.filter_filter]
    refine List.filter_congr fun w _ => ?_
    by_cases hw : car h w = k
    · simp [hw, hk.not_nil]
    · simp [hw]
  rw [lastBindingOf, bindingOf, bindingOf, ← List.head?_filter, ← List.head?_filter,
    List.filter_reverse, List.filter_reverse, hsame]

/-! ## The copy -/

/-- A key-value cell that is in use is put in front of an environment. -/
theorem EnvOf.share {i : Nat} {w : VALUE} (he : EnvOf h (i :: l) env ws is)
    (hb : IsBinding h (i :: l) w) (hc : Conses h i l w env h') :
    EnvOf h' l (cellPtr i) (w :: ws) (i :: is) := by
  have hold := he.kept hc.kept hc.size fun m hm => List.mem_cons_of_mem i hm
  refine ⟨hc.listOf he.list fun m hm => (he.skeleton m hm).2, ?_, ?_, ?_, ?_⟩
  · intro m hm
    rcases List.mem_cons.mp hm with rfl | hm
    · rw [hc.size]
      exact ⟨hc.lt, hc.fresh⟩
    · exact hold.skeleton m hm
  · intro u hu
    rcases List.mem_cons.mp hu with rfl | hu
    · exact hb.pair
    · exact hold.pair u hu
  · intro u hu
    rcases List.mem_cons.mp hu with rfl | hu
    · have hp := isPtr_of_typeOf_cons hb.pair
      rw [car_of_isPtr hp, hc.kept _ hb.used, ← car_of_isPtr hp]
      exact hb.key
    · exact hold.key u hu
  · intro u hu
    rcases List.mem_cons.mp hu with rfl | hu
    · rw [hc.size]
      exact ⟨hb.lt, fun hm => hb.used (List.mem_cons_of_mem i hm)⟩
    · exact hold.used u hu

/-- The copy of the environment with the cells `ws`, in front of the cells `rs`. -/
structure Copied (h : HeapState) (l : List Nat) (ws rs : List VALUE) (copy : VALUE)
    (h' : HeapState) : Prop where
  env : ∃ l' is', l' ⊆ l ∧ FreeList h' l' ∧ EnvOf h' l' copy ((captured h ws).reverse ++ rs) is'
  kept : ∀ i, i ∉ l → h'.cell i = h.cell i
  size : h'.heapSize = h.heapSize

theorem envCopyShallowLoop_cases : ∀ {ws rs : List VALUE} {env res : VALUE} {is ris l : List Nat}
    {h : HeapState} {n : Nat}, FreeList h l → EnvOf h l env ws is → EnvOf h l res rs ris →
    ws.length < n →
    (∃ copy h', envCopyShallowLoop n env res h = some (copy, h') ∧ Copied h l ws rs copy h')
      ∨ ∃ h', envCopyShallowLoop n env res h = some (encSym symreprMerror, h') := by
  intro ws
  induction ws with
  | nil =>
    intro rs env res is ris l h n hl he hres hn
    obtain ⟨n, rfl⟩ := Nat.exists_eq_succ_of_ne_zero (Nat.ne_of_gt hn)
    cases he.list
    exact Or.inl ⟨res, h, rfl, ⟨l, ris, fun _ h => h, hl, hres⟩, fun _ _ => rfl, rfl⟩
  | cons w ws ih =>
    intro rs env res is ris l h n hl he hres hn
    rw [List.length_cons] at hn
    obtain ⟨n, rfl⟩ : ∃ m, n = m + 1 := Nat.exists_eq_succ_of_ne_zero (by omega)
    obtain ⟨hty, hcar, hix, hrest⟩ := he.uncons
    rw [envCopyShallowLoop, hty, if_pos (by rfl), hcar]
    by_cases hkey : decSym (car h w) = symreprNil
    · -- a binding of nil is left out
      have hcap : captured h (w :: ws) = captured h ws := by simp [captured, hkey]
      simp only [hkey, bne_self_eq_false, Bool.false_eq_true, if_false]
      rcases ih hl hrest hres (show ws.length < n by omega) with ⟨copy, h', hloop, hcopy⟩ | hfail
      · refine Or.inl ⟨copy, h', hloop, ?_, hcopy.kept, hcopy.size⟩
        rw [hcap]
        exact hcopy.env
      · exact Or.inr hfail
    · have hcap : captured h (w :: ws) = w :: captured h ws := by simp [captured, hkey]
      simp only [bne_iff_ne, ne_eq, hkey, not_false_eq_true, if_true]
      cases l with
      | nil =>
        rw [hl.cons_eq_merror w res]
        exact Or.inr ⟨h, by simp +decide⟩
      | cons i l =>
        obtain ⟨h₁, hc⟩ := hl.conses w res
        have hsub : l ⊆ i :: l := fun m hm => List.mem_cons_of_mem i hm
        have hne : ¬ptrTypeCons = valTypeSymbol := by decide
        have hcdr : cdr h₁ env = cdr h env := by
          have hp := isPtr_of_typeOf_cons hty
          rw [cdr_of_isPtr hp, cdr_of_isPtr hp, hc.kept _ hix]
        rw [hc.eq]
        simp only [hc.type, hne, beq_iff_eq, Bool.and_eq_true, false_and, if_false, hcdr]
        have hres₁ := hres.share (he.isBinding (by simp)) hc
        rcases ih hc.free (hrest.kept hc.kept hc.size hsub) hres₁ (show ws.length < n by omega) with
          ⟨copy, h', hloop, hcopy⟩ | hfail
        · refine Or.inl ⟨copy, h', hloop, ?_, fun m hm => ?_, hcopy.size.trans hc.size⟩
          · obtain ⟨l', is', hl', hfree, henv⟩ := hcopy.env
            have hcap₁ : captured h₁ ws = captured h ws := by
              refine List.filter_congr fun u hu => ?_
              have hp := isPtr_of_typeOf_cons (hrest.pair u hu)
              rw [car_of_isPtr hp, car_of_isPtr hp, hc.kept _ (hrest.used u hu).2]
            refine ⟨l', is', fun m hm => hsub (hl' hm), hfree, ?_⟩
            rw [hcap, List.reverse_cons, List.append_assoc, ← hcap₁]
            exact henv
          · rw [hcopy.kept m fun hml => hm (hsub hml), hc.kept m hm]
        · exact Or.inr hfail

/-- `env_copy_shallow` ends: with the copy, or without memory. -/
theorem EnvOf.envCopyShallow_cases (hl : FreeList h l) (he : EnvOf h l env ws is) :
    (∃ copy h', envCopyShallow env h = some (copy, h') ∧ Copied h l ws [] copy h')
      ∨ ∃ h', envCopyShallow env h = some (encSym symreprMerror, h') := by
  have hlt := he.length_lt hl
  have hfuel : ws.length < allocWalkFuel h := by
    refine lt_of_lt_of_le hlt ?_
    rw [allocWalkFuel]
    exact Nat.le_mul_self _
  have hnil : EnvOf h l (encSym symreprNil) [] [] :=
    ⟨.nil, by simp, by simp, by simp, by simp⟩
  exact envCopyShallowLoop_cases hl he hnil hfuel

/-! ## What a closure sees -/

/-- The copy sees what the environment sees, and goes on doing so. -/
structure Captures (h : HeapState) (l : List Nat) (env : VALUE) (ws : List VALUE) (is : List Nat)
    (copy : VALUE) (h' : HeapState) : Prop where
  lookup : ∀ s, IsName s → envLookup h' s copy = envLookup h s env
  shared : ∃ ws' is', ListOf h' copy ws' is' ∧ ∀ w, w ∈ ws' ↔ w ∈ captured h ws
  modified : ∀ s v e, IsName s → Bound h s ws → e = env ∨ e = copy →
    ∃ h'', envModifyBinding e s v h' = some (e, h'') ∧ envLookup h'' s env = some v
      ∧ envLookup h'' s copy = some v
  unchanged : ListOf h' env ws is ∧ ∀ i, i ∉ l → h'.cell i = h.cell i

/-- The first and the last cell of every name are the same. -/
def Unshadowed (h : HeapState) (ws : List VALUE) : Prop :=
  ∀ s w w', IsName s → bindingOf h s ws = some w → lastBindingOf h s ws = some w' →
    ptrIx w = ptrIx w'

theorem lastBindingOf_spec {k w : VALUE} (hb : lastBindingOf h k ws = some w) :
    w ∈ ws ∧ car h w = k := by
  obtain ⟨hw, hk⟩ := bindingOf_spec hb
  exact ⟨List.mem_reverse.mp hw, hk⟩

theorem lastBindingOf_of_bindingOf {k w : VALUE} (hb : bindingOf h k ws = some w) :
    ∃ w', lastBindingOf h k ws = some w' := by
  obtain ⟨hw, hk⟩ := bindingOf_spec hb
  exact bound_iff.mp ⟨w, List.mem_reverse.mpr hw, hk⟩

/-- In a heap with the same keys a name has its last cell in the copy. -/
theorem bindingOf_copy {s : VALUE} (hcar : ∀ w ∈ ws, car h' w = car h w) (hs : IsName s) :
    bindingOf h' s (captured h ws).reverse = lastBindingOf h s ws := by
  rw [← bindingOf_captured hs]
  exact bindingOf_congr fun w hw => hcar w (List.mem_filter.mp (List.mem_reverse.mp hw)).1

theorem cdr_eq_of_ptrIx_eq {u w : VALUE} (hu : typeOf u = ptrTypeCons) (hw : typeOf w = ptrTypeCons)
    (hix : ptrIx u = ptrIx w) : cdr h u = cdr h w := by
  rw [cdr_of_isPtr (isPtr_of_typeOf_cons hu), cdr_of_isPtr (isPtr_of_typeOf_cons hw), hu, hw, hix]

/-- Without shadowing a name is bound to the same value in the copy, whatever the values are. -/
theorem Unshadowed.boundTo_eq {s : VALUE} (hshadow : Unshadowed h ws)
    (hpair : ∀ w ∈ ws, typeOf w = ptrTypeCons) (hcar : ∀ w ∈ ws, car h' w = car h w)
    (hs : IsName s) : boundTo h' s (captured h ws).reverse = boundTo h' s ws := by
  rw [boundTo, boundTo, bindingOf_copy hcar hs, bindingOf_congr hcar]
  cases hb : bindingOf h s ws with
  | none =>
    have hnone : lastBindingOf h s ws = none :=
      bindingOf_eq_none.mpr fun w hw => bindingOf_eq_none.mp hb w (List.mem_reverse.mp hw)
    rw [hnone]
  | some w =>
    obtain ⟨w', hlast⟩ := lastBindingOf_of_bindingOf hb
    rw [hlast, Option.map_some, Option.map_some,
      cdr_eq_of_ptrIx_eq (hpair w' (lastBindingOf_spec hlast).1) (hpair w (bindingOf_spec hb).1)
        (hshadow s w w' hs hb hlast).symm]

section

variable (he : EnvOf h l env ws is) (hcopy : Copied h l ws [] copy h')
include he hcopy

theorem Copied.car_eq {w : VALUE} (hw : w ∈ ws) : car h' w = car h w := by
  have hp := isPtr_of_typeOf_cons (he.pair w hw)
  rw [car_of_isPtr hp, car_of_isPtr hp, hcopy.kept _ (he.used w hw).2]

/-- A cell is written that both lists have, whichever of them it is reached through. -/
theorem Copied.modified {l' is' is₁ : List Nat} {s e : VALUE} {ws₁ : List VALUE}
    (hshadow : Unshadowed h ws) (hfree : FreeList h' l') (hold : EnvOf h' l' env ws is)
    (henv : EnvOf h' l' copy (captured h ws).reverse is') (he₁ : EnvOf h' l' e ws₁ is₁)
    (hws₁ : ws₁ = ws ∨ ws₁ = (captured h ws).reverse) (hs : IsName s) {w : VALUE}
    (hw : bindingOf h' s ws₁ = some w) (v : VALUE) :
    ∃ h'', envModifyBinding e s v h' = some (e, h'') ∧ envLookup h'' s env = some v
      ∧ envLookup h'' s copy = some v := by
  have hb := he₁.isBinding (bindingOf_spec hw).1
  have hfree' := freeList_setCdr hfree hb v
  have hvalue := he₁.boundTo_setCdr hfree hb v hw s
  rw [if_pos rfl] at hvalue
  have hcar : ∀ u ∈ ws, car (setCdr h' w v) u = car h u := by
    intro u hu
    rw [car_setCdr hfree hb v (isPtr_of_typeOf_cons (he.pair u hu)), hcopy.car_eq he hu]
  have hboth := hshadow.boundTo_eq he.pair hcar hs
  have hvalues : boundTo (setCdr h' w v) s ws = v
      ∧ boundTo (setCdr h' w v) s (captured h ws).reverse = v := by
    rcases hws₁ with rfl | rfl
    · exact ⟨hvalue, hboth.trans hvalue⟩
    · exact ⟨hboth.symm.trans hvalue, hvalue⟩
  refine ⟨setCdr h' w v, ?_, ?_, ?_⟩
  · rw [he₁.envModifyBinding_eq hfree, hw]
    rfl
  · rw [(hold.setCdr hfree hb v).envLookup_eq hfree' hs, hvalues.1]
  · rw [(henv.setCdr hfree hb v).envLookup_eq hfree' hs, hvalues.2]

theorem Copied.captures (hl : FreeList h l) (hshadow : Unshadowed h ws) :
    Captures h l env ws is copy h' := by
  obtain ⟨l', is', hsub, hfree, henv⟩ := hcopy.env
  rw [List.append_nil] at henv
  have hold := he.kept hcopy.kept hcopy.size hsub
  refine ⟨fun s hs => ?_, ⟨_, is', henv.list, fun w => by rw [List.mem_reverse]⟩,
    fun s v e hs hbound hor => ?_, hold.list, hcopy.kept⟩
  · rw [henv.envLookup_eq hfree hs, he.envLookup_eq hl hs,
      hshadow.boundTo_eq he.pair (fun w hw => hcopy.car_eq he hw) hs,
      he.boundTo_kept hcopy.kept]
  · have hcar : ∀ w ∈ ws, car h' w = car h w := fun w hw => hcopy.car_eq he hw
    obtain ⟨w, hw⟩ := bound_iff.mp hbound
    rcases hor with rfl | rfl
    · rw [← bindingOf_congr hcar] at hw
      exact hcopy.modified he hshadow hfree hold henv hold (Or.inl rfl) hs hw v
    · obtain ⟨w', hlast⟩ := lastBindingOf_of_bindingOf hw
      rw [← bindingOf_copy hcar hs] at hlast
      exact hcopy.modified he hshadow hfree hold henv henv (Or.inr rfl) hs hlast v

/-- A value written to the first cell of a name is not the one of its last cell. -/
theorem Copied.unshadowed (hcap : Captures h l env ws is copy h') : Unshadowed h ws := by
  intro s w w' hs hw hlast
  by_contra hne
  obtain ⟨l', is', hsub, hfree, henv⟩ := hcopy.env
  rw [List.append_nil] at henv
  have hold := he.kept hcopy.kept hcopy.size hsub
  have hbind := hw
  rw [← bindingOf_congr fun w hw => hcopy.car_eq he hw] at hbind
  have hb := hold.isBinding (bindingOf_spec hbind).1
  have hw' := hold.pair w' (lastBindingOf_spec hlast).1
  -- any other value
  obtain ⟨v, hv⟩ : ∃ v, v ≠ cdr h' w' := ⟨cdr h' w' + 1#32, by simp⟩
  obtain ⟨h'', hmodify, -, hlookup⟩ := hcap.modified s v env hs (bound_iff.mpr ⟨w, hw⟩) (Or.inl rfl)
  rw [hold.envModifyBinding_eq hfree, hbind] at hmodify
  obtain rfl : setCdr h' w v = h'' := by simpa using hmodify
  have hcar : ∀ u ∈ ws, car (setCdr h' w v) u = car h u := by
    intro u hu
    rw [car_setCdr hfree hb v (isPtr_of_typeOf_cons (he.pair u hu)), hcopy.car_eq he hu]
  rw [(henv.setCdr hfree hb v).envLookup_eq (freeList_setCdr hfree hb v) hs, boundTo,
    bindingOf_copy hcar hs, hlast, Option.map_some, cdr_setCdr hfree hb v hw',
    if_neg hne] at hlookup
  exact hv (Option.some.inj hlookup).symm

end

/-- **What closures capture.** When there is memory for the copy, it captures what is visible
exactly if no name is shadowed. -/
theorem captures_iff (hl : FreeList h l) (he : EnvOf h l env ws is)
    (hcopy : envCopyShallow env h = some (copy, h')) (hroom : isSymbolMerror copy = false) :
    Captures h l env ws is copy h' ↔ Unshadowed h ws := by
  have hcopied : Copied h l ws [] copy h' := by
    rcases he.envCopyShallow_cases hl with ⟨copy₁, h₁, heq, hcopied⟩ | ⟨h₁, heq⟩
    · rw [hcopy] at heq
      obtain ⟨rfl, rfl⟩ := Prod.mk.inj (Option.some.inj heq)
      exact hcopied
    · rw [hcopy] at heq
      obtain ⟨rfl, -⟩ := Prod.mk.inj (Option.some.inj heq)
      exact absurd hroom (by decide)
  exact ⟨hcopied.unshadowed he, hcopied.captures he hl⟩

/-- The two names have one key-value cell each. -/
theorem unshadowed_twoNames : Unshadowed twoNames [cellPtr 1, cellPtr 3] := by
  intro s w w' _ hw hlast
  obtain ⟨hmem, hcar⟩ := bindingOf_spec hw
  obtain ⟨hmem', hcar'⟩ := lastBindingOf_spec hlast
  have hdiff : car twoNames (cellPtr 1) ≠ car twoNames (cellPtr 3) := by decide +kernel
  rcases List.mem_pair.mp hmem with rfl | rfl <;> rcases List.mem_pair.mp hmem' with rfl | rfl
  · rfl
  · exact absurd (hcar.trans hcar'.symm) hdiff
  · exact absurd (hcar'.trans hcar.symm) hdiff
  · rfl

theorem captures_twoNames : ∃ copy h', envCopyShallow (cellPtr 0) twoNames = some (copy, h')
    ∧ Captures twoNames [4, 5, 6, 7] (cellPtr 0) [cellPtr 1, cellPtr 3] [0, 2] copy h' := by
  have hcopy : (envCopyShallow (cellPtr 0) twoNames).map (fun r => isSymbolMerror r.1)
      = some false := by decide +kernel
  obtain ⟨⟨copy, h'⟩, hcopy, hroom⟩ := Option.map_eq_some_iff.mp hcopy
  have hiff := captures_iff freeList_twoNames envOf_twoNames hcopy hroom
  exact ⟨copy, h', hcopy, hiff.mpr unshadowed_twoNames⟩

/-- The name with the number 4096 is bound to 1 and, further out, to 2; four cells are free. -/
def shadowedName : HeapState :=
  freshHeap
    [⟨cellPtr 1, cellPtr 2⟩, ⟨encSym 4096#32, encI 1#32⟩, ⟨cellPtr 3, NIL⟩,
      ⟨encSym 4096#32, encI 2#32⟩, ⟨RECOVERED, cellPtr 5⟩, ⟨RECOVERED, cellPtr 6⟩,
      ⟨RECOVERED, cellPtr 7⟩, ⟨RECOVERED, NIL⟩]
    (cellPtr 4) 4#32

/-- **A closure that sees the outer binding**: the name is 1 in the environment and 2 in its
copy. -/
theorem not_captures_shadowedName :
    isFreeList shadowedName [4, 5, 6, 7] = true
      ∧ isEnvOf shadowedName [4, 5, 6, 7] (cellPtr 0) [cellPtr 1, cellPtr 3] [0, 2] = true
      ∧ envLookup shadowedName (encSym 4096#32) (cellPtr 0) = some (encI 1#32)
      ∧ ∃ copy h', envCopyShallow (cellPtr 0) shadowedName = some (copy, h')
        ∧ isSymbolMerror copy = false
        ∧ envLookup h' (encSym 4096#32) copy = some (encI 2#32)
        ∧ ¬Captures shadowedName [4, 5, 6, 7] (cellPtr 0) [cellPtr 1, cellPtr 3] [0, 2] copy
          h' := by
  have hname : IsName (encSym 4096#32) := ⟨by decide, by decide⟩
  have hold : envLookup shadowedName (encSym 4096#32) (cellPtr 0) = some (encI 1#32) := by
    decide +kernel
  have hcopy : (envCopyShallow (cellPtr 0) shadowedName).map
      (fun r => (isSymbolMerror r.1, envLookup r.2 (encSym 4096#32) r.1))
      = some (false, some (encI 2#32)) := by decide +kernel
  obtain ⟨⟨copy, h'⟩, hcopy, hvalues⟩ := Option.map_eq_some_iff.mp hcopy
  obtain ⟨hroom, hlookup⟩ := Prod.mk.inj hvalues
  refine ⟨by decide +kernel, by decide +kernel, hold, copy, h', hcopy, hroom, hlookup,
    fun hcap => ?_⟩
  have hsame := hcap.lookup _ hname
  rw [hlookup, hold] at hsame
  exact absurd hsame (by decide)

end LispBM
