import LispBM.Heap.Lists

/-!
# LispBM — environments as finite maps

An environment is a list of key-value cells. Several lists share key-value cells: a closure has
the cells of the environment it was made in, in a list of its own. `EnvOf` is what all of them
have in common. As the car of a key-value cell is a symbol and the car of a cell of a list is not,
writing the value of a binding changes no list, and only what the name of that binding is bound to.
-/

namespace LispBM

/-- A symbol that can be bound. -/
structure IsName (k : VALUE) : Prop where
  symbol : typeOf k = valTypeSymbol
  not_nil : decSym k ≠ symreprNil

/-- `env` is the list of the key-value cells `ws`, in the cells `is`, and none of all these cells is
one of the free cells `l`. -/
structure EnvOf (h : HeapState) (l : List Nat) (env : VALUE) (ws : List VALUE) (is : List Nat) :
    Prop where
  list : ListOf h env ws is
  skeleton : ∀ i ∈ is, i < h.heapSize ∧ i ∉ l
  pair : ∀ w ∈ ws, typeOf w = ptrTypeCons
  key : ∀ w ∈ ws, typeOf (car h w) = valTypeSymbol
  used : ∀ w ∈ ws, ptrIx w < h.heapSize ∧ ptrIx w ∉ l

/-- The first key-value cell of a name. -/
def bindingOf (h : HeapState) (k : VALUE) (ws : List VALUE) : Option VALUE :=
  ws.find? fun w => car h w == k

/-- What a name is bound to. -/
def boundTo (h : HeapState) (k : VALUE) (ws : List VALUE) : VALUE :=
  ((bindingOf h k ws).map (cdr h)).getD (encSym symreprNotFound)

variable {h h' : HeapState} {l l' : List Nat} {env k v w : VALUE} {ws : List VALUE} {is : List Nat}

theorem bindingOf_cons (h : HeapState) (k w : VALUE) (ws : List VALUE) :
    bindingOf h k (w :: ws) = if car h w = k then some w else bindingOf h k ws := by
  rw [bindingOf, List.find?_cons]
  by_cases hk : car h w = k
  · simp [hk]
  · have : (car h w == k) = false := beq_eq_false_iff_ne.mpr hk
    rw [this, if_neg hk]
    rfl

theorem bindingOf_spec (hb : bindingOf h k ws = some w) : w ∈ ws ∧ car h w = k :=
  ⟨List.mem_of_find?_eq_some hb, by simpa using List.find?_some hb⟩

theorem bindingOf_eq_none : bindingOf h k ws = none ↔ ∀ w ∈ ws, car h w ≠ k := by
  rw [bindingOf, List.find?_eq_none]
  simp

/-! ## The walks -/

theorem ListOf.envLookupLoop_eq (hl : ListOf h env ws is) (k : VALUE) : ∀ {n : Nat},
    ws.length < n → envLookupLoop h k n env = some (boundTo h k ws) := by
  induction hl with
  | nil =>
    intro n hn
    obtain ⟨n, rfl⟩ := Nat.exists_eq_succ_of_ne_zero (Nat.ne_of_gt hn)
    rfl
  | @cons env ws is hty _ ih =>
    intro n hn
    rw [List.length_cons] at hn
    obtain ⟨n, rfl⟩ : ∃ m, n = m + 1 := Nat.exists_eq_succ_of_ne_zero (by omega)
    rw [envLookupLoop, hty, if_pos (by rfl), boundTo, bindingOf_cons]
    by_cases hk : car h (car h env) = k
    · simp [hk]
    · simp only [hk, beq_eq_false_iff_ne.mpr hk, Bool.false_eq_true, if_false]
      exact ih (by omega)

theorem ListOf.setBindingLoop_eq (hl : ListOf h env ws is) (k v : VALUE) : ∀ {n : Nat},
    ws.length < n →
    setBindingLoop k v h n env = some ((bindingOf h k ws).map fun w => setCdr h w v) := by
  induction hl with
  | nil =>
    intro n hn
    obtain ⟨n, rfl⟩ := Nat.exists_eq_succ_of_ne_zero (Nat.ne_of_gt hn)
    rfl
  | @cons env ws is hty _ ih =>
    intro n hn
    rw [List.length_cons] at hn
    obtain ⟨n, rfl⟩ : ∃ m, n = m + 1 := Nat.exists_eq_succ_of_ne_zero (by omega)
    rw [setBindingLoop, hty, if_pos (by rfl), bindingOf_cons]
    by_cases hk : car h (car h env) = k
    · simp [hk]
    · simp only [hk, beq_eq_false_iff_ne.mpr hk, Bool.false_eq_true, if_false]
      exact ih (by omega)

namespace EnvOf

variable (he : EnvOf h l env ws is)
include he

theorem length_lt (hl : FreeList h l) : ws.length < walkFuel h :=
  he.list.length_lt_walkFuel (fun i hi => (he.skeleton i hi).1) hl.fits

theorem envLookup_eq (hl : FreeList h l) (hk : IsName k) :
    envLookup h k env = some (boundTo h k ws) := by
  have hne : ¬(decSym k == symreprNil) = true := by simpa using hk.not_nil
  rw [envLookup, if_neg hne]
  exact he.list.envLookupLoop_eq k (he.length_lt hl)

theorem setBinding_eq (hl : FreeList h l) (k v : VALUE) :
    setBindingLoop k v h (walkFuel h) env = some ((bindingOf h k ws).map fun w => setCdr h w v) :=
  he.list.setBindingLoop_eq k v (he.length_lt hl)

end EnvOf

theorem EnvOf.uncons (he : EnvOf h l env (w :: ws) is) :
    typeOf env = ptrTypeCons ∧ car h env = w ∧ ptrIx env ∉ l
      ∧ EnvOf h l (cdr h env) ws is.tail := by
  obtain ⟨hlist, hskel, hpair, hkey, hused⟩ := he
  cases hlist with
  | cons hty hrest =>
    refine ⟨hty, rfl, (hskel _ (by simp)).2, hrest, ?_, ?_, ?_, ?_⟩
    · exact fun i hi => hskel i (List.mem_cons_of_mem _ hi)
    · exact fun u hu => hpair u (List.mem_cons_of_mem _ hu)
    · exact fun u hu => hkey u (List.mem_cons_of_mem _ hu)
    · exact fun u hu => hused u (List.mem_cons_of_mem _ hu)

/-! ## Cells that stay -/

/-- The words of the cells that were in use are as before. -/
theorem EnvOf.kept (he : EnvOf h l env ws is) (hcell : ∀ i, i ∉ l → h'.cell i = h.cell i)
    (hsize : h'.heapSize = h.heapSize) (hsub : l' ⊆ l) : EnvOf h' l' env ws is := by
  have hw : ∀ w ∈ ws, car h' w = car h w := by
    intro w hw
    have hp := isPtr_of_typeOf_cons (he.pair w hw)
    rw [car_of_isPtr hp, car_of_isPtr hp, hcell _ (he.used w hw).2]
  refine ⟨he.list.congr fun i hi => hcell i (he.skeleton i hi).2, ?_, he.pair, ?_, ?_⟩
  · intro i hi
    rw [hsize]
    exact ⟨(he.skeleton i hi).1, fun hil => (he.skeleton i hi).2 (hsub hil)⟩
  · intro w hmem
    rw [hw w hmem]
    exact he.key w hmem
  · intro w hmem
    rw [hsize]
    exact ⟨(he.used w hmem).1, fun hil => (he.used w hmem).2 (hsub hil)⟩

theorem bindingOf_congr (hcar : ∀ w ∈ ws, car h' w = car h w) :
    bindingOf h' k ws = bindingOf h k ws := by
  induction ws with
  | nil => rfl
  | cons w ws ih =>
    rw [bindingOf_cons, bindingOf_cons, hcar w (by simp), ih fun u hu => hcar u (by simp [hu])]

theorem boundTo_congr (hcar : ∀ w ∈ ws, car h' w = car h w) (hcdr : ∀ w ∈ ws, cdr h' w = cdr h w) :
    boundTo h' k ws = boundTo h k ws := by
  rw [boundTo, boundTo, bindingOf_congr hcar]
  cases hb : bindingOf h k ws with
  | none => rfl
  | some w => rw [Option.map_some, Option.map_some, hcdr w (bindingOf_spec hb).1]

theorem EnvOf.boundTo_kept (he : EnvOf h l env ws is)
    (hcell : ∀ i, i ∉ l → h'.cell i = h.cell i) (k : VALUE) :
    boundTo h' k ws = boundTo h k ws := by
  refine boundTo_congr (fun w hw => ?_) fun w hw => ?_
  · have hp := isPtr_of_typeOf_cons (he.pair w hw)
    rw [car_of_isPtr hp, car_of_isPtr hp, hcell _ (he.used w hw).2]
  · have hp := isPtr_of_typeOf_cons (he.pair w hw)
    rw [cdr_of_isPtr hp, cdr_of_isPtr hp, hcell _ (he.used w hw).2]

/-! ## Writing a value -/

/-- A key-value cell in use. -/
structure IsBinding (h : HeapState) (l : List Nat) (w : VALUE) : Prop where
  pair : typeOf w = ptrTypeCons
  key : typeOf (car h w) = valTypeSymbol
  lt : ptrIx w < h.heapSize
  used : ptrIx w ∉ l

theorem EnvOf.isBinding (he : EnvOf h l env ws is) (hw : w ∈ ws) : IsBinding h l w :=
  ⟨he.pair w hw, he.key w hw, (he.used w hw).1, (he.used w hw).2⟩

section Write

variable (hl : FreeList h l) (hb : IsBinding h l w) (v : VALUE)
include hl hb

theorem cell_setCdr (i : Nat) :
    (setCdr h w v).cell i = if ptrIx w = i then ⟨car h w, v⟩ else h.cell i := by
  have hfits := hl.fits
  have hlt := hb.lt
  rw [setCdr, hb.pair, if_pos (by rfl), setCdrRaw, cell_setCell h (by omega),
    car_of_isPtr (isPtr_of_typeOf_cons hb.pair), refCell]

theorem car_setCdr {u : VALUE} (hu : isPtr u = true) : car (setCdr h w v) u = car h u := by
  rw [car_of_isPtr hu, car_of_isPtr hu, cell_setCdr hl hb]
  split
  · next heq => rw [car_of_isPtr (isPtr_of_typeOf_cons hb.pair), heq]
  · rfl

theorem cdr_setCdr {u : VALUE} (hu : typeOf u = ptrTypeCons) :
    cdr (setCdr h w v) u = if ptrIx w = ptrIx u then v else cdr h u := by
  have hp := isPtr_of_typeOf_cons hu
  rw [cdr_of_isPtr hp, cdr_of_isPtr hp, cell_setCdr hl hb, if_pos hu, if_pos hu]
  split <;> rfl

omit hl in
theorem setCdr_fields :
    (setCdr h w v).freelist = h.freelist ∧ (setCdr h w v).heapSize = h.heapSize
      ∧ (setCdr h w v).heap.length = h.heap.length := by
  rw [setCdr, hb.pair, if_pos (by rfl), setCdrRaw]
  exact ⟨rfl, rfl, setCell_heap_length _ _ _⟩

theorem freeList_setCdr : FreeList (setCdr h w v) l := by
  obtain ⟨hfree, hsize, hlen⟩ := setCdr_fields hb v
  refine ⟨?_, hl.nodup, ?_, ?_⟩
  · rw [hfree]
    refine hl.chain.congr hsize fun i hi => ?_
    rw [cell_setCdr hl hb, if_neg fun heq => hb.used (by rw [heq]; exact hi)]
  · rw [hsize, hlen]
    exact hl.fits
  · rw [hsize]
    exact hl.addressable

/-- Every environment keeps its cells, whatever binding is written. -/
theorem EnvOf.setCdr (he : EnvOf h l env ws is) : EnvOf (setCdr h w v) l env ws is := by
  obtain ⟨-, hsize, -⟩ := setCdr_fields hb v
  have hcar : ∀ u ∈ ws, car (LispBM.setCdr h w v) u = car h u := fun u hu =>
    car_setCdr hl hb v (isPtr_of_typeOf_cons (he.pair u hu))
  have hcell : ∀ i ∈ is, (LispBM.setCdr h w v).cell i = h.cell i := by
    intro i hi
    rw [cell_setCdr hl hb]
    refine if_neg fun heq => ?_
    -- the car of a cell of the list is a pointer, that of a key-value cell is not
    have hkey := hb.key
    rw [car_of_isPtr (isPtr_of_typeOf_cons hb.pair), heq, he.pair _ (he.list.car_mem i hi)] at hkey
    exact absurd hkey (by decide)
  refine ⟨he.list.congr hcell, ?_, he.pair, ?_, ?_⟩
  · rw [hsize]
    exact he.skeleton
  · intro u hu
    rw [hcar u hu]
    exact he.key u hu
  · rw [hsize]
    exact he.used

/-- Writing the first binding of a name changes what that name is bound to, and nothing else. -/
theorem EnvOf.boundTo_setCdr (he : EnvOf h l env ws is) (hw : bindingOf h k ws = some w)
    (k' : VALUE) : boundTo (LispBM.setCdr h w v) k' ws = if k' = k then v else boundTo h k' ws := by
  have hcar : ∀ u ∈ ws, car (LispBM.setCdr h w v) u = car h u := fun u hu =>
    car_setCdr hl hb v (isPtr_of_typeOf_cons (he.pair u hu))
  rw [boundTo, bindingOf_congr hcar]
  split
  · next heq =>
    rw [heq, hw, Option.map_some, cdr_setCdr hl hb v hb.pair, if_pos rfl]
    rfl
  · next hne =>
    rw [boundTo]
    cases hb' : bindingOf h k' ws with
    | none => rfl
    | some u =>
      obtain ⟨hu, hku⟩ := bindingOf_spec hb'
      rw [Option.map_some, Option.map_some, cdr_setCdr hl hb v (he.pair u hu), if_neg]
      intro heq
      refine hne ?_
      rw [← hku, ← (bindingOf_spec hw).2, car_of_isPtr (isPtr_of_typeOf_cons (he.pair u hu)),
        car_of_isPtr (isPtr_of_typeOf_cons hb.pair), heq]

end Write

/-! ## New bindings -/

/-- A binding in front of an environment: the cell `i` of the list, the cell `j` of the binding. -/
structure Extends (h : HeapState) (l : List Nat) (i j : Nat) (h' : HeapState) : Prop where
  list_type : typeOf (cellPtr i) = ptrTypeCons
  pair_type : typeOf (cellPtr j) = ptrTypeCons
  free : FreeList h' l
  kept : ∀ m, m ∉ j :: i :: l → h'.cell m = h.cell m
  size : h'.heapSize = h.heapSize
  length : h'.heap.length = h.heap.length

/-- `cons(cons(key, val), env)`, when there are two cells. -/
theorem EnvOf.extend {i j : Nat} (hl : FreeList h (j :: i :: l))
    (he : EnvOf h (j :: i :: l) env ws is) (hk : typeOf k = valTypeSymbol) (v : VALUE) :
    ∃ h₁ h', cons k v h = (cellPtr j, h₁) ∧ cons (cellPtr j) env h₁ = (cellPtr i, h')
      ∧ Extends h l i j h' ∧ EnvOf h' l (cellPtr i) (cellPtr j :: ws) (i :: is)
      ∧ ∀ k', boundTo h' k' (cellPtr j :: ws) = if k' = k then v else boundTo h k' ws := by
  obtain ⟨h₁, hc₁⟩ := hl.conses k v
  obtain ⟨h', hc₂⟩ := hc₁.free.conses (cellPtr j) env
  have hji : j ≠ i := fun heq => hc₁.fresh (by simp [heq])
  have hjl : j ∉ l := fun hmem => hc₁.fresh (List.mem_cons_of_mem _ hmem)
  have hkept : ∀ m, m ∉ j :: i :: l → h'.cell m = h.cell m := by
    intro m hm
    rw [hc₂.kept m fun hmem => hm (List.mem_cons_of_mem _ hmem), hc₁.kept m hm]
  have hsize : h'.heapSize = h.heapSize := hc₂.size.trans hc₁.size
  have hj : h'.cell j = h₁.cell j := hc₂.kept j hc₁.fresh
  have hpj := isPtr_cellPtr j
  have hcar : car h' (cellPtr j) = k := by
    rw [car_of_isPtr hpj, hc₁.ix, hj, ← hc₁.ix, ← car_of_isPtr hpj, hc₁.car]
  have hcdr : cdr h' (cellPtr j) = v := by
    have := hc₁.cdr
    rw [cdr_of_isPtr hpj, hc₁.ix] at this
    rw [cdr_of_isPtr hpj, hc₁.ix, hj]
    exact this
  have hold : EnvOf h' l env ws is := he.kept hkept hsize fun m hm => by simp [hm]
  have hlist : ListOf h' (cellPtr i) (cellPtr j :: ws) (i :: is) := by
    have hmid := he.kept hc₁.kept hc₁.size fun m (hm : m ∈ i :: l) => List.mem_cons_of_mem _ hm
    exact hc₂.listOf hmid.list fun m hm => (hmid.skeleton m hm).2
  refine ⟨h₁, h', hc₁.eq, hc₂.eq,
    ⟨hc₂.type, hc₁.type, hc₂.free, hkept, hsize, hc₂.length.trans hc₁.length⟩,
    ⟨hlist, ?_, ?_, ?_, ?_⟩, fun k' => ?_⟩
  · intro m hm
    rcases List.mem_cons.mp hm with rfl | hm
    · rw [hsize, ← hc₁.size]
      exact ⟨hc₂.lt, hc₂.fresh⟩
    · exact hold.skeleton m hm
  · intro w hw
    rcases List.mem_cons.mp hw with rfl | hw
    · exact hc₁.type
    · exact hold.pair w hw
  · intro w hw
    rcases List.mem_cons.mp hw with rfl | hw
    · rw [hcar]
      exact hk
    · exact hold.key w hw
  · intro w hw
    rcases List.mem_cons.mp hw with rfl | hw
    · rw [hc₁.ix, hsize]
      exact ⟨hc₁.lt, hjl⟩
    · exact hold.used w hw
  · rw [boundTo, bindingOf_cons, hcar]
    by_cases heq : k = k'
    · rw [if_pos heq, if_pos heq.symm, Option.map_some, hcdr]
      rfl
    · rw [if_neg heq, if_neg (Ne.symm heq)]
      exact he.boundTo_kept hkept k'

/-! ## The operations -/

/-- `env_set` on a name that is bound. -/
theorem EnvOf.envSet_bound (hl : FreeList h l) (he : EnvOf h l env ws is)
    (hw : bindingOf h k ws = some w) (v : VALUE) :
    envSet env k v h = some (env, LispBM.setCdr h w v) := by
  rw [envSet, he.setBinding_eq hl, hw]
  rfl

/-- `env_set` on a name that is not bound, with two free cells. -/
theorem EnvOf.envSet_insert {i j : Nat} (hl : FreeList h (j :: i :: l))
    (he : EnvOf h (j :: i :: l) env ws is) (hk : typeOf k = valTypeSymbol)
    (hw : bindingOf h k ws = none) (v : VALUE) :
    ∃ h', envSet env k v h = some (cellPtr i, h') ∧ Extends h l i j h'
      ∧ EnvOf h' l (cellPtr i) (cellPtr j :: ws) (i :: is)
      ∧ ∀ k', boundTo h' k' (cellPtr j :: ws) = if k' = k then v else boundTo h k' ws := by
  obtain ⟨h₁, h', hcons₁, hcons₂, hext, henv, hbound⟩ := he.extend hl hk v
  refine ⟨h', ?_, hext, henv, hbound⟩
  have hne : ¬ptrTypeCons = valTypeSymbol := by decide
  rw [envSet, he.setBinding_eq hl, hw]
  simp only [Option.map_none, hcons₁, hcons₂, hext.list_type, hext.pair_type, beq_iff_eq, hne,
    if_false]

theorem EnvOf.envModifyBinding_eq (hl : FreeList h l) (he : EnvOf h l env ws is) (k v : VALUE) :
    envModifyBinding env k v h
      = some ((bindingOf h k ws).elim (encSym symreprNotFound, h) fun w =>
        (env, LispBM.setCdr h w v)) := by
  rw [envModifyBinding, he.setBinding_eq hl]
  cases bindingOf h k ws <;> rfl

/-! ### Parameters and arguments -/

/-- A list whose cells are not free. -/
def UsedList (h : HeapState) (l : List Nat) (v : VALUE) (ws : List VALUE) : Prop :=
  ∃ is, ListOf h v ws is ∧ ∀ i ∈ is, i < h.heapSize ∧ i ∉ l

theorem UsedList.kept (hu : UsedList h l v ws) (hcell : ∀ i, i ∉ l → h'.cell i = h.cell i)
    (hsize : h'.heapSize = h.heapSize) (hsub : l' ⊆ l) : UsedList h' l' v ws := by
  obtain ⟨is, hlist, hin⟩ := hu
  refine ⟨is, hlist.congr fun i hi => hcell i (hin i hi).2, fun i hi => ?_⟩
  rw [hsize]
  exact ⟨(hin i hi).1, fun hil => (hin i hi).2 (hsub hil)⟩

theorem UsedList.uncons (hu : UsedList h l v (w :: ws)) :
    typeOf v = ptrTypeCons ∧ car h v = w ∧ ptrIx v ∉ l ∧ UsedList h l (cdr h v) ws := by
  obtain ⟨is, hlist, hin⟩ := hu
  cases hlist with
  | cons hty hrest =>
    exact ⟨hty, rfl, (hin _ (by simp)).2, _, hrest, fun i hi => hin i (List.mem_cons_of_mem _ hi)⟩

theorem UsedList.length_eq (hl : FreeList h l) (hu : UsedList h l v ws) :
    length h v = some ws.length := by
  obtain ⟨is, hlist, hin⟩ := hu
  have hlt := hlist.length_lt_walkFuel (fun i hi => (hin i hi).1) hl.fits
  rw [length, hlist.lengthLoop_eq hlt, Nat.zero_add]

/-- What a name is bound to after the parameters were bound one after the other. -/
def boundArg (k : VALUE) : List VALUE → List VALUE → VALUE → VALUE
  | p :: ps, a :: as, old => boundArg k ps as (if k = p then a else old)
  | _, _, old => old

theorem boundArg_of_not_mem {ps : List VALUE} (hk : k ∉ ps) (as : List VALUE) (old : VALUE) :
    boundArg k ps as old = old := by
  induction ps generalizing as old with
  | nil => cases as <;> rfl
  | cons p ps ih =>
    cases as with
    | nil => rfl
    | cons a as =>
      rw [boundArg, ih fun hmem => hk (List.mem_cons_of_mem p hmem), if_neg]
      rintro rfl
      exact hk (by simp)

/-- Each of several different parameters is bound to its argument. -/
theorem boundArg_getElem {ps as : List VALUE} (hnodup : ps.Nodup) (hlen : ps.length = as.length)
    (old : VALUE) {i : Nat} (hi : i < ps.length) : boundArg ps[i] ps as old = as[i] := by
  induction ps generalizing as old i with
  | nil => exact absurd hi (Nat.not_lt_zero _)
  | cons p ps ih =>
    obtain ⟨hp, hnodup⟩ := List.nodup_cons.mp hnodup
    cases as with
    | nil => exact absurd hlen (by simp)
    | cons a as =>
      rw [boundArg]
      cases i with
      | zero =>
        rw [List.getElem_cons_zero, if_pos rfl, boundArg_of_not_mem hp]
        rfl
      | succ i =>
        simp only [List.length_cons, Nat.add_right_cancel_iff] at hlen
        exact ih hnodup hlen _ (by simpa using hi)

/-- What `env_build_params_args` makes of the environment `env`. -/
structure Applied (h : HeapState) (l : List Nat) (ws ps as : List VALUE) (env' : VALUE)
    (h' : HeapState) : Prop where
  env : ∃ l' ws' is', l' ⊆ l ∧ FreeList h' l' ∧ EnvOf h' l' env' ws' is'
    ∧ ∀ k, boundTo h' k ws' = boundArg k ps as (boundTo h k ws)
  kept : ∀ i, i ∉ l → h'.cell i = h.cell i
  size : h'.heapSize = h.heapSize

theorem envBuildParamsArgsLoop_eq {ps : List VALUE} :
    ∀ {as ws : List VALUE} {params args env : VALUE}
    {is l : List Nat} {h : HeapState} {n : Nat}, FreeList h l → EnvOf h l env ws is →
    UsedList h l params ps → UsedList h l args as → ps.length = as.length →
    (∀ p ∈ ps, typeOf p = valTypeSymbol) → 2 * ps.length ≤ l.length → ps.length < n →
    ∃ env' h', envBuildParamsArgsLoop n params args env h = some (env', h')
      ∧ Applied h l ws ps as env' h' := by
  induction ps with
  | nil =>
    intro as ws params args env is l h n hl he hparams _ _ _ _ hn
    obtain ⟨n, rfl⟩ := Nat.exists_eq_succ_of_ne_zero (Nat.ne_of_gt hn)
    obtain ⟨pis, hlist, -⟩ := hparams
    cases hlist
    refine ⟨env, h, rfl, ⟨l, ws, is, fun _ h => h, hl, he, fun k => ?_⟩, fun _ _ => rfl, rfl⟩
    rw [boundArg]
    simp
  | cons p ps ih =>
    intro as ws params args env is l h n hl he hparams hargs hlen hsym hroom hn
    obtain ⟨n, rfl⟩ : ∃ m, n = m + 1 := Nat.exists_eq_succ_of_ne_zero (by omega)
    cases as with
    | nil => exact absurd hlen (by simp)
    | cons a as =>
      obtain ⟨j, i, l, rfl⟩ : ∃ j i l', l = j :: i :: l' := by
        rw [List.length_cons] at hroom
        rcases l with _ | ⟨j, _ | ⟨i, l⟩⟩
        · rw [List.length_nil] at hroom
          omega
        · rw [List.length_singleton] at hroom
          omega
        · exact ⟨j, i, l, rfl⟩
      obtain ⟨h₁, h₂, hcons₁, hcons₂, hext, henv, hbound⟩ := he.extend hl (hsym p (by simp)) a
      have hsub : l ⊆ j :: i :: l := fun m hm => by simp [hm]
      obtain ⟨hpty, hpcar, hpix, hprest⟩ := hparams.uncons
      obtain ⟨haty, hacar, haix, harest⟩ := hargs.uncons
      -- the rest of the lists is in cells that were not taken
      have hpcdr : cdr h₂ params = cdr h params := by
        have hp := isPtr_of_typeOf_cons hpty
        rw [cdr_of_isPtr hp, cdr_of_isPtr hp, hext.kept _ hpix]
      have hacdr : cdr h₂ args = cdr h args := by
        have hp := isPtr_of_typeOf_cons haty
        rw [cdr_of_isPtr hp, cdr_of_isPtr hp, hext.kept _ haix]
      simp only [List.length_cons] at hlen hroom hn
      obtain ⟨env', h', hloop, happ⟩ := ih hext.free henv (hprest.kept hext.kept hext.size hsub)
        (harest.kept hext.kept hext.size hsub) (by omega)
        (fun q hq => hsym q (List.mem_cons_of_mem p hq)) (by omega) (show ps.length < n by omega)
      refine ⟨env', h', ?_, ?_, ?_, happ.size.trans hext.size⟩
      · have hne : ¬ptrTypeCons = valTypeSymbol := by decide
        rw [envBuildParamsArgsLoop, hpty, if_pos (by rfl), hpcar, hacar, hcons₁]
        simp only [hcons₂, hext.list_type, hext.pair_type, hne, beq_iff_eq, Bool.and_eq_true,
          false_and, if_false, hpcdr, hacdr]
        exact hloop
      · obtain ⟨l', ws', is', hl', hfree, henv', hbound'⟩ := happ.env
        refine ⟨l', ws', is', fun m hm => hsub (hl' hm), hfree, henv', fun k => ?_⟩
        rw [hbound', hbound, boundArg]
      · intro m hm
        rw [happ.kept m fun hml => hm (hsub hml), hext.kept m hm]

/-- `env_build_params_args`. -/
theorem EnvOf.envBuildParamsArgs_eq {params args : VALUE} {ps as : List VALUE} (hl : FreeList h l)
    (he : EnvOf h l env ws is) (hparams : UsedList h l params ps) (hargs : UsedList h l args as)
    (hlen : ps.length = as.length) (hsym : ∀ p ∈ ps, typeOf p = valTypeSymbol)
    (hroom : 2 * ps.length ≤ l.length) :
    ∃ env' h', envBuildParamsArgs params args env h = some (env', h')
      ∧ Applied h l ws ps as env' h' := by
  have hfuel : ps.length < walkFuel h := by
    obtain ⟨pis, hlist, hin⟩ := hparams
    exact hlist.length_lt_walkFuel (fun i hi => (hin i hi).1) hl.fits
  obtain ⟨env', h', hloop, happ⟩ :=
    envBuildParamsArgsLoop_eq hl he hparams hargs hlen hsym hroom hfuel
  refine ⟨env', h', ?_, happ⟩
  rw [envBuildParamsArgs, hparams.length_eq hl, hargs.length_eq hl, hlen]
  simpa using hloop

/-! ## Finite maps -/

/-- Some key-value cell has the name. -/
def Bound (h : HeapState) (k : VALUE) (ws : List VALUE) : Prop := ∃ w ∈ ws, car h w = k

theorem bound_iff : Bound h k ws ↔ ∃ w, bindingOf h k ws = some w := by
  refine ⟨fun hbound => ?_, fun ⟨w, hw⟩ => ⟨w, bindingOf_spec hw⟩⟩
  obtain ⟨w, hw, hk⟩ := hbound
  cases hb : bindingOf h k ws with
  | none => exact absurd hk (bindingOf_eq_none.mp hb w hw)
  | some w => exact ⟨w, rfl⟩

theorem not_bound_iff : ¬Bound h k ws ↔ bindingOf h k ws = none := by
  rw [bound_iff, ← Option.isSome_iff_exists, Option.not_isSome_iff_eq_none]

/-- The environment `env` with `k` bound to `v`. -/
def Updated (h : HeapState) (env k v : VALUE) (h' : HeapState) (env' : VALUE) : Prop :=
  ∀ k', IsName k' → envLookup h' k' env' = if k' = k then some v else envLookup h k' env

/-- The operations of `env.c` on the environment `env`, in a heap with the free cells `l`. -/
structure FiniteMap (h : HeapState) (l : List Nat) (env : VALUE) (ws : List VALUE) : Prop where
  set : ∀ k v, IsName k → (Bound h k ws ∨ 2 ≤ l.length) →
    ∃ env' h', envSet env k v h = some (env', h') ∧ Updated h env k v h' env'
  modify : ∀ k v, IsName k → Bound h k ws →
    ∃ h', envModifyBinding env k v h = some (env, h') ∧ Updated h env k v h' env
  modify_unbound : ∀ k v, IsName k → ¬Bound h k ws →
    envModifyBinding env k v h = some (encSym symreprNotFound, h)
  build : ∀ params args ps as, UsedList h l params ps → UsedList h l args as →
    (∀ p ∈ ps, typeOf p = valTypeSymbol) → ps.Nodup → ps.length = as.length →
    2 * ps.length ≤ l.length →
    ∃ env' h', envBuildParamsArgs params args env h = some (env', h')
      ∧ (∀ i (hp : i < ps.length) (ha : i < as.length), IsName ps[i] →
        envLookup h' ps[i] env' = some as[i])
      ∧ (∀ k, IsName k → k ∉ ps → envLookup h' k env' = envLookup h k env)
      ∧ (∀ i, i ∉ l → h'.cell i = h.cell i)
      ∧ ∀ k, IsName k → envLookup h' k env = envLookup h k env

theorem EnvOf.updated_setCdr (hl : FreeList h l) (he : EnvOf h l env ws is)
    (hw : bindingOf h k ws = some w) (v : VALUE) :
    Updated h env k v (LispBM.setCdr h w v) env := by
  intro k' hk'
  have hb := he.isBinding (bindingOf_spec hw).1
  rw [(he.setCdr hl hb v).envLookup_eq (freeList_setCdr hl hb v) hk', he.envLookup_eq hl hk',
    he.boundTo_setCdr hl hb v hw]
  split <;> rfl

/-- **Environments are finite maps.** -/
theorem EnvOf.finiteMap (hl : FreeList h l) (he : EnvOf h l env ws is) :
    FiniteMap h l env ws where
  set := by
    intro k v hk hroom
    cases hb : bindingOf h k ws with
    | some w => exact ⟨env, _, he.envSet_bound hl hb v, he.updated_setCdr hl hb v⟩
    | none =>
      have hroom : 2 ≤ l.length := hroom.resolve_left (not_bound_iff.mpr hb)
      obtain ⟨j, i, l, rfl⟩ : ∃ j i l', l = j :: i :: l' := by
        rcases l with _ | ⟨j, _ | ⟨i, l⟩⟩
        · exact absurd hroom (by simp)
        · exact absurd hroom (by simp)
        · exact ⟨j, i, l, rfl⟩
      obtain ⟨h', hset, hext, henv, hbound⟩ := he.envSet_insert hl hk.symbol hb v
      refine ⟨cellPtr i, h', hset, fun k' hk' => ?_⟩
      rw [henv.envLookup_eq hext.free hk', he.envLookup_eq hl hk', hbound]
      split <;> rfl
  modify := by
    intro k v _ hbound
    obtain ⟨w, hw⟩ := bound_iff.mp hbound
    refine ⟨LispBM.setCdr h w v, ?_, he.updated_setCdr hl hw v⟩
    rw [he.envModifyBinding_eq hl, hw]
    rfl
  modify_unbound := by
    intro k v _ hbound
    rw [he.envModifyBinding_eq hl, not_bound_iff.mp hbound]
    rfl
  build := by
    intro params args ps as hparams hargs hsym hnodup hlen hroom
    obtain ⟨env', h', hbuild, happ⟩ :=
      he.envBuildParamsArgs_eq hl hparams hargs hlen hsym hroom
    obtain ⟨l', ws', is', hsub, hfree, henv, hbound⟩ := happ.env
    have hold := he.kept happ.kept happ.size hsub
    refine ⟨env', h', hbuild, fun i hp ha hk => ?_, fun k hk hps => ?_, happ.kept, fun k hk => ?_⟩
    · rw [henv.envLookup_eq hfree hk, hbound, boundArg_getElem hnodup hlen]
    · rw [henv.envLookup_eq hfree hk, hbound, boundArg_of_not_mem hps, he.envLookup_eq hl hk]
    · rw [hold.envLookup_eq hfree hk, he.envLookup_eq hl hk, he.boundTo_kept happ.kept]

/-- The environment of a given heap. -/
def isEnvOf (h : HeapState) (l : List Nat) (env : VALUE) (ws : List VALUE) (is : List Nat) : Bool :=
  isListOf h env ws is && is.all (fun i => decide (i < h.heapSize) && !l.contains i)
    && ws.all fun w => typeOf w == ptrTypeCons && typeOf (car h w) == valTypeSymbol
      && decide (ptrIx w < h.heapSize) && !l.contains (ptrIx w)

theorem envOf_of_isEnvOf (he : isEnvOf h l env ws is = true) : EnvOf h l env ws is := by
  simp only [isEnvOf, Bool.and_eq_true, List.all_eq_true, decide_eq_true_eq, Bool.not_eq_true',
    List.contains_eq_mem, decide_eq_false_iff_not, beq_iff_eq] at he
  obtain ⟨⟨hlist, hskel⟩, hws⟩ := he
  exact ⟨listOf_of_isListOf hlist, hskel, fun w hw => (hws w hw).1.1.1,
    fun w hw => (hws w hw).1.1.2, fun w hw => ⟨(hws w hw).1.2, (hws w hw).2⟩⟩

/-- The name with the number 4096, bound to 7, the next one, bound to 8, and four free cells. -/
def twoNames : HeapState :=
  freshHeap
    [⟨cellPtr 1, cellPtr 2⟩, ⟨encSym 4096#32, encI 7#32⟩, ⟨cellPtr 3, NIL⟩,
      ⟨encSym 4097#32, encI 8#32⟩, ⟨RECOVERED, cellPtr 5⟩, ⟨RECOVERED, cellPtr 6⟩,
      ⟨RECOVERED, cellPtr 7⟩, ⟨RECOVERED, NIL⟩]
    (cellPtr 4) 4#32

theorem freeList_twoNames : FreeList twoNames [4, 5, 6, 7] :=
  freeList_of_isFreeList (by decide +kernel)

theorem envOf_twoNames : EnvOf twoNames [4, 5, 6, 7] (cellPtr 0) [cellPtr 1, cellPtr 3] [0, 2] :=
  envOf_of_isEnvOf (by decide +kernel)

theorem finiteMap_twoNames :
    FiniteMap twoNames [4, 5, 6, 7] (cellPtr 0) [cellPtr 1, cellPtr 3] :=
  EnvOf.finiteMap freeList_twoNames envOf_twoNames

end LispBM
