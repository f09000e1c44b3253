import LispBM.Value

/-!
# LispBM — the word stack (`src/stack.c`, `include/stack.h`)

Both evaluators keep their continuations on a stack of words. `pop_u32` only lowers the stack
pointer, so popped words stay in the array until a later push overwrites them, and code that
indexes past the top (`fun_args[1]` of a call without arguments) reads them. The model keeps the
whole array; `contents` is the part below the stack pointer, and the lemmas at the end say what
the operations do to it.
-/

namespace LispBM

/-- What `malloc` does during one step of an evaluator: which requests (in words) it grants, and
what the granted words hold. The targets have 32-bit addresses; there is no room on them for a stack
that was doubled to a gigabyte, `2 ^ 28` words, next to the one that is copied. -/
structure Malloc where
  grants : Nat → Bool
  uninit : Nat → UINT
  grants_lt : ∀ n, grants n = true → n < 2 ^ 28

/-- The sizes that a stack is created with. There is room for the first word, which `create_ctx`
pushes without another look at the block that it got for 0 words, and the 28 bits in which the
frames keep their counts are enough. -/
structure StackSize where
  words : Nat
  bounds : 0 < words ∧ words < 2 ^ 28
deriving DecidableEq

/-- The number that both evaluators write where they create a stack. -/
instance : OfNat StackSize 256 where
  ofNat := ⟨256, by decide⟩

@[simp] theorem StackSize.words_256 : (256 : StackSize).words = 256 := rfl

/-- `stack`. The capacity (`size`) is the length of `data`. -/
structure Stack where
  data : List UINT
  sp : Nat
  growable : Bool
  sp_le : sp ≤ data.length
  size_bounds : 0 < data.length ∧ data.length < 2 ^ 28
deriving DecidableEq

namespace Stack

theorem size_lt (s : Stack) : s.data.length < 2 ^ 28 := s.size_bounds.2

/-- The words on the stack, bottom first. -/
def contents (s : Stack) : List UINT := s.data.take s.sp

/-- Store a word at the stack pointer and advance it. -/
def write (s : Stack) (v : UINT) (h : s.sp < s.data.length) : Stack where
  data := s.data.set s.sp v
  sp := s.sp + 1
  growable := s.growable
  sp_le := by rw [List.length_set]; exact h
  size_bounds := by rw [List.length_set]; exact s.size_bounds

end Stack

/-! ## The operations -/

def stackAllocate (m : Malloc) (stackSize : StackSize) (growable : Bool) : Option Stack :=
  if m.grants stackSize.words = true then
    some
      { data := (List.range stackSize.words).map m.uninit
        sp := 0
        growable := growable
        sp_le := Nat.zero_le _
        size_bounds := by simpa using stackSize.bounds }
  else none

def stackClear (s : Stack) : Stack := { s with sp := 0, sp_le := Nat.zero_le _ }

def stackGrow (m : Malloc) (s : Stack) : Option Stack :=
  if !s.growable then none
  else if h : m.grants (s.data.length * 2) = true then
    some
      { data := s.data ++ (List.range s.data.length).map m.uninit
        sp := s.sp
        growable := s.growable
        sp_le := by
          have := s.sp_le
          rw [List.length_append]
          omega
        size_bounds := by
          have := s.size_bounds
          have := m.grants_lt _ h
          simp only [List.length_append, List.length_map, List.length_range]
          omega }
  else none

/-- `push_u32`: the C result (1 or 0) as a boolean. A stack that has just grown has room, so
the last branch is not reached. -/
def pushU32 (m : Malloc) (s : Stack) (v : UINT) : Bool × Stack :=
  if h : s.sp < s.data.length then (true, s.write v h)
  else
    match stackGrow m s with
    | none => (false, s)
    | some s' => if h' : s'.sp < s'.data.length then (true, s'.write v h') else (false, s)

/-- `push_u32_2` .. `push_u32_5`: all pushes are made, the results are anded. -/
def pushAll (m : Malloc) : Stack → List UINT → Bool × Stack
  | s, [] => (true, s)
  | s, v :: vs =>
      let (res, s) := pushU32 m s v
      let (ress, s) := pushAll m s vs
      (res && ress, s)

/-- `pop_u32`; `none` on an empty stack, where the C code reads outside the array. -/
def popU32 (s : Stack) : Option (UINT × Stack) :=
  if 0 < s.sp then
    some (s.data.getD (s.sp - 1) 0#32,
      { s with sp := s.sp - 1, sp_le := (Nat.sub_le _ _).trans s.sp_le })
  else none

/-- `stack_ptr(s, n)`, as the index into `data`; `none` for NULL. -/
def stackPtr (s : Stack) (n : Nat) : Option Nat := if s.sp < n then none else some (s.sp - n)

/-- `stack_drop`; its result is not looked at by any caller. -/
def stackDrop (s : Stack) (n : Nat) : Stack :=
  if s.sp < n then s else { s with sp := s.sp - n, sp_le := (Nat.sub_le _ _).trans s.sp_le }

/-! ## What the operations do to the contents -/

namespace Stack

theorem length_contents (s : Stack) : s.contents.length = s.sp := by
  rw [contents, List.length_take, Nat.min_eq_left s.sp_le]

theorem contents_write (s : Stack) (v : UINT) (h : s.sp < s.data.length) :
    (s.write v h).contents = s.contents ++ [v] := by
  show (s.data.set s.sp v).take (s.sp + 1) = s.data.take s.sp ++ [v]
  rw [List.take_succ_eq_append_getElem (by simpa using h), List.take_set_of_le (le_refl _),
    List.getElem_set_self]

end Stack

theorem stackGrow_spec {m : Malloc} {s t : Stack} (h : stackGrow m s = some t) :
    t.contents = s.contents ∧ t.sp = s.sp := by
  unfold stackGrow at h
  split at h
  · exact absurd h (by simp)
  · split at h
    · obtain rfl := Option.some.inj h
      refine ⟨?_, rfl⟩
      show (s.data ++ _).take s.sp = s.data.take s.sp
      rw [List.take_append_of_le_length s.sp_le]
    · exact absurd h (by simp)

theorem contents_pushU32 {m : Malloc} {s t : Stack} {v : UINT} (h : pushU32 m s v = (true, t)) :
    t.contents = s.contents ++ [v] := by
  unfold pushU32 at h
  split at h
  · obtain rfl := (Prod.mk.inj h).2
    exact s.contents_write v _
  · split at h
    · exact absurd h (by simp)
    · next s' hgrow =>
      split at h
      · obtain rfl := (Prod.mk.inj h).2
        rw [s'.contents_write v _, (stackGrow_spec hgrow).1]
      · exact absurd h (by simp)

theorem contents_pushAll {m : Malloc} {vs : List UINT} : ∀ {s t : Stack},
    pushAll m s vs = (true, t) → t.contents = s.contents ++ vs := by
  induction vs with
  | nil =>
    intro s t h
    obtain rfl := (Prod.mk.inj h).2
    simp
  | cons v vs ih =>
    intro s t h
    rw [pushAll] at h
    obtain ⟨hres, ht⟩ := Prod.mk.inj h
    simp only [Bool.and_eq_true] at hres
    have hpush : pushU32 m s v = (true, (pushU32 m s v).2) := Prod.ext hres.1 rfl
    have hrest : pushAll m (pushU32 m s v).2 vs = (true, t) := Prod.ext hres.2 ht
    rw [ih hrest, contents_pushU32 hpush, List.append_assoc]
    rfl

/-- Popping takes the last word of the contents. -/
theorem popU32_of_contents {s : Stack} {k : List UINT} {v : UINT} (h : s.contents = k ++ [v]) :
    ∃ t, popU32 s = some (v, t) ∧ t.contents = k ∧ t.data = s.data
      ∧ t.sp + 1 = s.sp ∧ t.growable = s.growable := by
  have hlen : s.sp = k.length + 1 := by rw [← s.length_contents, h]; simp
  have hle := s.sp_le
  have htake : s.data.take (k.length + 1) = k ++ [v] := by rw [← hlen]; exact h
  have hv : s.data.getD k.length 0#32 = v := by
    have : (s.data.take (k.length + 1))[k.length]? = some v := by rw [htake]; simp
    rw [List.getElem?_take_of_lt (by omega)] at this
    rw [List.getD_eq_getElem?_getD, this]
    rfl
  have hpop : popU32 s = some (v, { s with
      sp := s.sp - 1, sp_le := (Nat.sub_le _ _).trans s.sp_le }) := by
    rw [popU32, if_pos (by omega), show s.data.getD (s.sp - 1) 0#32 = v from by
      rw [hlen, Nat.add_sub_cancel, hv]]
  refine ⟨_, hpop, ?_, rfl, ?_, rfl⟩
  · show s.data.take (s.sp - 1) = k
    have := congrArg (List.take k.length) htake
    rw [List.take_take, Nat.min_eq_left (by omega), List.take_left] at this
    rw [hlen, Nat.add_sub_cancel]
    exact this
  · show s.sp - 1 + 1 = s.sp
    omega

/-- What was below the popped word. -/
theorem contents_of_popU32 {s t : Stack} {v : UINT} (h : popU32 s = some (v, t)) :
    s.contents = t.contents ++ [v] := by
  have hpos : s.contents ≠ [] := by
    intro hnil
    have hsp : s.sp = 0 := by rw [← s.length_contents, hnil]; rfl
    rw [popU32, if_neg (by omega)] at h
    cases h
  have hlast := List.dropLast_append_getLast hpos
  obtain ⟨t', hpop, ht', -⟩ := popU32_of_contents hlast.symm
  cases h.symm.trans hpop
  rw [ht']
  exact hlast.symm

theorem popU32_two_of_contents {s : Stack} {k : List UINT} {a b : UINT}
    (h : s.contents = k ++ [a, b]) :
    ∃ s₁ s₂, popU32 s = some (b, s₁) ∧ popU32 s₁ = some (a, s₂) ∧ s₂.contents = k := by
  obtain ⟨s₁, hpop₁, h₁, -⟩ := popU32_of_contents (s := s) (k := k ++ [a]) (v := b) (by simp [h])
  obtain ⟨s₂, hpop₂, h₂, -⟩ := popU32_of_contents h₁
  exact ⟨s₁, s₂, hpop₁, hpop₂, h₂⟩

theorem popU32_three_of_contents {s : Stack} {k : List UINT} {a b c : UINT}
    (h : s.contents = k ++ [a, b, c]) :
    ∃ s₁ s₂ s₃, popU32 s = some (c, s₁) ∧ popU32 s₁ = some (b, s₂) ∧ popU32 s₂ = some (a, s₃)
      ∧ s₃.contents = k := by
  obtain ⟨s₁, hpop₁, h₁, -⟩ :=
    popU32_of_contents (s := s) (k := k ++ [a, b]) (v := c) (by simp [h])
  obtain ⟨s₂, s₃, hpop₂, hpop₃, h₃⟩ := popU32_two_of_contents h₁
  exact ⟨s₁, s₂, s₃, hpop₁, hpop₂, hpop₃, h₃⟩

/-- Pushing a word back after popping it restores the stack, popped words included. -/
theorem pushU32_popU32 {m : Malloc} {s t : Stack} {v : UINT} (h : popU32 s = some (v, t)) :
    pushU32 m t v = (true, s) := by
  unfold popU32 at h
  split at h
  · next hpos =>
    obtain ⟨rfl, rfl⟩ := Prod.mk.inj (Option.some.inj h)
    have hle := s.sp_le
    have hlt : s.sp - 1 < s.data.length := by omega
    rw [pushU32, dif_pos hlt]
    refine Prod.ext rfl ?_
    obtain ⟨data, sp, growable, hsp, hsize⟩ := s
    simp only [Stack.write, Stack.mk.injEq]
    simp only at hpos hlt
    refine ⟨?_, by omega, trivial⟩
    rw [List.getD_eq_getElem?_getD, List.getElem?_eq_getElem hlt, Option.getD_some,
      List.set_getElem_self]
  · exact absurd h (by simp)

theorem data_popU32 {s t : Stack} {v : UINT} (h : popU32 s = some (v, t)) : t.data = s.data := by
  unfold popU32 at h
  split at h
  · cases h
    rfl
  · cases h

theorem sp_popU32 {s t : Stack} {v : UINT} (h : popU32 s = some (v, t)) : t.sp + 1 = s.sp := by
  unfold popU32 at h
  split at h
  · cases h
    exact Nat.sub_add_cancel ‹_›
  · cases h

/-- Pushes into words that were popped do not fail. -/
theorem pushAll_of_room {m : Malloc} :
    ∀ {s : Stack} {ws : List UINT}, s.sp + ws.length ≤ s.data.length → (pushAll m s ws).1 = true
  | _, [], _ => rfl
  | s, w :: ws, h => by
    rw [List.length_cons] at h
    have hroom : s.sp < s.data.length := by omega
    simp only [pushAll, pushU32, dif_pos hroom, Bool.true_and]
    apply pushAll_of_room
    show s.sp + 1 + ws.length ≤ (s.data.set s.sp w).length
    rw [List.length_set]
    omega

theorem exists_pushAll_of_room {m : Malloc} {s : Stack} {ws : List UINT}
    (h : s.sp + ws.length ≤ s.data.length) :
    ∃ t, pushAll m s ws = (true, t) ∧ t.contents = s.contents ++ ws := by
  have hpush : pushAll m s ws = (true, (pushAll m s ws).2) := Prod.ext (pushAll_of_room h) rfl
  exact ⟨_, hpush, contents_pushAll hpush⟩

theorem pushAll_popU32_two {m : Malloc} {s s₁ s₂ : Stack} {a b : UINT}
    (h₁ : popU32 s = some (b, s₁)) (h₂ : popU32 s₁ = some (a, s₂)) :
    pushAll m s₂ [a, b] = (true, s) := by
  simp [pushAll, pushU32_popU32 h₂, pushU32_popU32 h₁]

/-- The array below the top, read at the index of a word. -/
theorem data_of_contents {s : Stack} {k ws : List UINT} {v : UINT}
    (h : s.contents = k ++ v :: ws) :
    s.data.getD k.length 0#32 = v ∧ (s.data.drop (k.length + 1)).take ws.length = ws := by
  have hdata : s.data = k ++ v :: ws ++ s.data.drop s.sp := by
    rw [← h]
    exact (List.take_append_drop s.sp s.data).symm
  constructor
  · rw [hdata]
    simp
  · rw [hdata, List.append_assoc, List.drop_append,
      List.drop_eq_nil_of_le (Nat.le_succ k.length)]
    simp

theorem stackPtr_of_contents {s : Stack} {k ws : List UINT} (h : s.contents = k ++ ws) :
    stackPtr s ws.length = some k.length := by
  have hlen : s.sp = k.length + ws.length := by rw [← s.length_contents, h]; simp
  rw [stackPtr, if_neg (by omega), hlen, Nat.add_sub_cancel]

theorem contents_stackDrop {s : Stack} {k ws : List UINT} (h : s.contents = k ++ ws) :
    (stackDrop s ws.length).contents = k := by
  have hlen : s.sp = k.length + ws.length := by rw [← s.length_contents, h]; simp
  rw [stackDrop, if_neg (by omega)]
  show s.data.take (s.sp - ws.length) = k
  have := congrArg (List.take k.length) h
  rw [Stack.contents, List.take_take, Nat.min_eq_left (by omega), List.take_left] at this
  rw [hlen, Nat.add_sub_cancel]
  exact this

end LispBM
