import LispBM.Stack

/-!
# LispBM — the stack in its block of memory (`src/stack.c`)

`Stack` is the stack as the evaluators use it. Here the counters are the 32-bit words of the C
structure, `malloc` is asked for a number of bytes that may have wrapped, and an access outside of
the block that `data` points to has no result. On a `Stack` both are the same (`pushU32_ofStack`
and the lemmas after it).
-/

namespace LispBM

/-- `stack`: the words of the block behind `data`, and the counters. -/
structure CStack where
  data : List UINT
  sp : UINT
  size : UINT
  growable : Bool
deriving DecidableEq

namespace CStack

def sizeofUINT : UINT := 4#32

/-- `malloc(bytes)`: the words of the new block, or `none` for NULL. -/
abbrev Alloc := UINT → Option (List UINT)

/-- `memcpy(dest, src, bytes)` of whole words; `none` if one of the blocks is too short. -/
def memcpy (dest src : List UINT) (bytes : UINT) : Option (List UINT) :=
  let n := bytes.toNat / 4
  if n ≤ dest.length ∧ n ≤ src.length then some (src.take n ++ dest.drop n) else none

/-! ## The operations

`none` is an access outside of the block. -/

/-- `stack_allocate`; `none` is the result 0. -/
def stackAllocate (malloc : Alloc) (stackSize : UINT) (growable : Bool) : Option CStack :=
  (malloc (sizeofUINT * stackSize)).map fun data =>
    { data := data, sp := 0#32, size := stackSize, growable := growable }

/-- `stack_create` on an array of the caller. -/
def stackCreate (data : List UINT) (size : UINT) : CStack :=
  { data := data, sp := 0#32, size := size, growable := false }

def stackClear (s : CStack) : CStack := { s with sp := 0#32 }

def stackGrow (malloc : Alloc) (s : CStack) : Option (Bool × CStack) :=
  if !s.growable then some (false, s)
  else
    let newSize := s.size * 2#32
    match malloc (sizeofUINT * newSize) with
    | none => some (false, s)
    | some data =>
        (memcpy data s.data (s.size * sizeofUINT)).map fun data =>
          (true, { s with data := data, size := newSize })

/-- `stack_ptr`: an index into `data`, `none` for NULL. -/
def stackPtr (s : CStack) (n : UINT) : Option UINT := if s.sp < n then none else some (s.sp - n)

def stackDrop (s : CStack) (n : UINT) : Bool × CStack :=
  if s.sp < n then (false, s) else (true, { s with sp := s.sp - n })

/-- `s->data[s->sp] = val; s->sp++`. -/
def store (s : CStack) (val : UINT) : Option CStack :=
  if s.sp.toNat < s.data.length then
    some { s with data := s.data.set s.sp.toNat val, sp := s.sp + 1#32 }
  else none

def pushU32 (malloc : Alloc) (s : CStack) (val : UINT) : Option (Bool × CStack) :=
  (if s.sp = s.size then stackGrow malloc s else some (true, s)).bind fun p =>
    if !p.1 then some p else (store p.2 val).map fun s => (p.1, s)

def popU32 (s : CStack) : Option (UINT × CStack) :=
  let sp := s.sp - 1#32
  if sp.toNat < s.data.length then some (s.data.getD sp.toNat 0#32, { s with sp := sp }) else none

/-- The words on the stack, bottom first. -/
def contents (s : CStack) : List UINT := s.data.take s.sp.toNat

/-! ## Stacks of the evaluators -/

/-- The structure behind a stack of an evaluator. -/
def ofStack (s : Stack) : CStack :=
  { data := s.data, sp := BitVec.ofNat 32 s.sp, size := BitVec.ofNat 32 s.data.length,
    growable := s.growable }

/-- The blocks of a `Malloc`, of which the words from `old` on are used for the first time. -/
def blocks (m : Malloc) (old : Nat) : Alloc := fun bytes =>
  if m.grants (bytes.toNat / 4) then
    some ((List.range (bytes.toNat / 4)).map fun i => m.uninit (i - old))
  else none

variable {m : Malloc} {s : Stack}

@[simp] theorem data_ofStack (s : Stack) : (ofStack s).data = s.data := rfl

@[simp] theorem growable_ofStack (s : Stack) : (ofStack s).growable = s.growable := rfl

theorem sp_ofStack (s : Stack) : (ofStack s).sp.toNat = s.sp := by
  have hle := s.sp_le
  have hlt := s.size_lt
  show (BitVec.ofNat 32 s.sp).toNat = s.sp
  rw [BitVec.toNat_ofNat]
  omega

theorem size_ofStack (s : Stack) : (ofStack s).size.toNat = s.data.length := by
  have hlt := s.size_lt
  show (BitVec.ofNat 32 s.data.length).toNat = s.data.length
  rw [BitVec.toNat_ofNat]
  omega

@[simp] theorem contents_ofStack (s : Stack) : (ofStack s).contents = s.contents := by
  rw [contents, sp_ofStack]
  rfl

theorem ext_iff_toNat {a b : CStack} (hdata : a.data = b.data) (hsp : a.sp.toNat = b.sp.toNat)
    (hsize : a.size.toNat = b.size.toNat) (hgrow : a.growable = b.growable) : a = b := by
  cases a
  cases b
  simp only [mk.injEq]
  exact ⟨hdata, BitVec.eq_of_toNat_eq hsp, BitVec.eq_of_toNat_eq hsize, hgrow⟩

theorem stackAllocate_ofStack {size : StackSize} {growable : Bool} :
    stackAllocate (blocks m 0) (BitVec.ofNat 32 size.words) growable
      = (LispBM.stackAllocate m size growable).map ofStack := by
  obtain ⟨n, hn⟩ := size
  have hwords : (sizeofUINT * BitVec.ofNat 32 n).toNat / 4 = n := by
    rw [sizeofUINT, BitVec.toNat_mul, BitVec.toNat_ofNat, BitVec.toNat_ofNat]
    omega
  rw [stackAllocate, LispBM.stackAllocate, blocks, hwords]
  split
  · rw [Option.map_some, Option.map_some]
    congr 1
    apply ext_iff_toNat
    · rfl
    · rfl
    · rw [size_ofStack]
      simp only [List.length_map, List.length_range, BitVec.toNat_ofNat]
      omega
    · rfl
  · rfl

theorem stackClear_ofStack (s : Stack) : stackClear (ofStack s) = ofStack (LispBM.stackClear s) :=
  rfl

theorem stackPtr_ofStack (s : Stack) {n : Nat} (hn : n < 2 ^ 32) :
    (stackPtr (ofStack s) (BitVec.ofNat 32 n)).map BitVec.toNat = LispBM.stackPtr s n := by
  have hlt : ((ofStack s).sp < BitVec.ofNat 32 n) ↔ s.sp < n := by
    rw [BitVec.lt_def, sp_ofStack, BitVec.toNat_ofNat, Nat.mod_eq_of_lt hn]
  rw [stackPtr, LispBM.stackPtr]
  by_cases h : s.sp < n
  · rw [if_pos (hlt.mpr h), if_pos h]
    rfl
  · rw [if_neg (mt hlt.mp h), if_neg h, Option.map_some, BitVec.toNat_sub, sp_ofStack,
      BitVec.toNat_ofNat, Nat.mod_eq_of_lt hn]
    have hle := s.sp_le
    have hsize := s.size_lt
    congr 1
    omega

theorem stackDrop_ofStack (s : Stack) {n : Nat} (hn : n < 2 ^ 32) :
    (stackDrop (ofStack s) (BitVec.ofNat 32 n)).2 = ofStack (LispBM.stackDrop s n) := by
  have hlt : ((ofStack s).sp < BitVec.ofNat 32 n) ↔ s.sp < n := by
    rw [BitVec.lt_def, sp_ofStack, BitVec.toNat_ofNat, Nat.mod_eq_of_lt hn]
  rw [stackDrop, LispBM.stackDrop]
  by_cases h : s.sp < n
  · rw [if_pos (hlt.mpr h), if_pos h]
  · rw [if_neg (mt hlt.mp h), if_neg h]
    have hle := s.sp_le
    have hsize := s.size_lt
    apply ext_iff_toNat
    · rfl
    · rw [sp_ofStack]
      show ((ofStack s).sp - BitVec.ofNat 32 n).toNat = s.sp - n
      rw [BitVec.toNat_sub, sp_ofStack, BitVec.toNat_ofNat, Nat.mod_eq_of_lt hn]
      omega
    · rfl
    · rfl

theorem popU32_ofStack (hpos : 0 < s.sp) :
    popU32 (ofStack s) = (LispBM.popU32 s).map fun p => (p.1, ofStack p.2) := by
  have hle := s.sp_le
  have hsize := s.size_lt
  have hsp : ((ofStack s).sp - 1#32).toNat = s.sp - 1 := by
    rw [BitVec.toNat_sub, sp_ofStack, show (1#32 : UINT).toNat = 1 from rfl]
    omega
  rw [popU32, LispBM.popU32, if_pos hpos, Option.map_some]
  simp only [hsp, data_ofStack]
  rw [if_pos (by omega)]
  congr 2
  apply ext_iff_toNat
  · rfl
  · rw [sp_ofStack]
    exact hsp
  · rfl
  · rfl

/-- A store below the end of the block. -/
theorem store_ofStack {v : UINT} (h : s.sp < s.data.length) :
    store (ofStack s) v = some (ofStack (s.write v h)) := by
  have hsize := s.size_lt
  rw [store, if_pos (by rw [sp_ofStack]; exact h)]
  congr 1
  apply ext_iff_toNat
  · show (ofStack s).data.set (ofStack s).sp.toNat v = s.data.set s.sp v
    rw [sp_ofStack]
    rfl
  · show ((ofStack s).sp + 1#32).toNat = (ofStack (s.write v h)).sp.toNat
    rw [BitVec.toNat_add, sp_ofStack, sp_ofStack, show (1#32 : UINT).toNat = 1 from rfl]
    show (s.sp + 1) % 2 ^ 32 = s.sp + 1
    omega
  · show (ofStack s).size.toNat = (ofStack (s.write v h)).size.toNat
    rw [size_ofStack, size_ofStack]
    show s.data.length = (s.data.set s.sp v).length
    rw [List.length_set]
  · rfl

theorem stackGrow_ofStack :
    stackGrow (blocks m s.data.length) (ofStack s)
      = match LispBM.stackGrow m s with
        | none => some (false, ofStack s)
        | some t => some (true, ofStack t) := by
  have hsize := s.size_lt
  have hwords : (sizeofUINT * ((ofStack s).size * 2#32)).toNat / 4 = s.data.length * 2 := by
    rw [sizeofUINT, BitVec.toNat_mul, BitVec.toNat_mul, size_ofStack,
      show (4#32 : UINT).toNat = 4 from rfl, show (2#32 : UINT).toNat = 2 from rfl]
    omega
  have hcopy : ((ofStack s).size * sizeofUINT).toNat / 4 = s.data.length := by
    rw [sizeofUINT, BitVec.toNat_mul, size_ofStack, show (4#32 : UINT).toNat = 4 from rfl]
    omega
  rw [stackGrow, LispBM.stackGrow, growable_ofStack]
  cases hgrow : s.growable with
  | false => rfl
  | true =>
    simp only [Bool.not_true, Bool.false_eq_true, if_false, blocks, hwords]
    by_cases hgrant : m.grants (s.data.length * 2) = true
    · rw [if_pos hgrant, dif_pos hgrant]
      simp only [memcpy, hcopy, data_ofStack, List.length_map, List.length_range]
      rw [if_pos ⟨by omega, le_refl _⟩, Option.map_some, List.take_length]
      congr 2
      apply ext_iff_toNat
      · show s.data ++ _ = s.data ++ _
        congr 1
        apply List.ext_getElem
        · simp only [List.length_drop, List.length_map, List.length_range]
          omega
        · intro i _ _
          simp
      · rfl
      · rw [size_ofStack]
        show ((ofStack s).size * 2#32).toNat = (s.data ++ _).length
        rw [BitVec.toNat_mul, size_ofStack, show (2#32 : UINT).toNat = 2 from rfl,
          List.length_append, List.length_map, List.length_range]
        omega
      · rfl
    · rw [if_neg hgrant, dif_neg hgrant]

/-- `push_u32` on a stack of an evaluator stays in the block. -/
theorem pushU32_ofStack {v : UINT} :
    pushU32 (blocks m s.data.length) (ofStack s) v
      = some ((LispBM.pushU32 m s v).1, ofStack (LispBM.pushU32 m s v).2) := by
  have hle := s.sp_le
  have hfull : (ofStack s).sp = (ofStack s).size ↔ s.sp = s.data.length := by
    rw [← BitVec.toNat_inj, sp_ofStack, size_ofStack]
  rw [pushU32, LispBM.pushU32]
  by_cases hroom : s.sp < s.data.length
  · rw [if_neg (by rw [hfull]; omega), dif_pos hroom]
    simp only [Option.bind_some, Bool.not_true, Bool.false_eq_true, if_false, store_ofStack hroom,
      Option.map_some]
  · rw [if_pos (by rw [hfull]; omega), dif_neg hroom, stackGrow_ofStack]
    cases hgrow : LispBM.stackGrow m s with
    | none => simp
    | some t =>
      have hroom' : t.sp < t.data.length := by
        rw [LispBM.stackGrow] at hgrow
        split at hgrow
        · cases hgrow
        · split at hgrow
          · have hpos := s.size_bounds.1
            cases hgrow
            simp only [List.length_append, List.length_map, List.length_range]
            omega
          · cases hgrow
      simp only [Option.bind_some, Bool.not_true, Bool.false_eq_true, if_false,
        store_ofStack hroom', Option.map_some, dif_pos hroom']

end CStack

end LispBM
