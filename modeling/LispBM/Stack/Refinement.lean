import Mathlib.Data.Nat.Log
import LispBM.Lib.Lifo
import LispBM.Stack.Blocks

/-!
# LispBM — the stack is a list (`src/stack.c`)

Requests to a stack are answered as by a list whose last word is the top. A growable stack never
refuses a push while `malloc` succeeds, a fixed one refuses it when it is full. This goes well as
long as a size in bytes fits a word: `stack_allocate` with `2 ^ 30` words or more asks for a
block that is too short, and so does `stack_grow` when the size passes `2 ^ 30` words. `capacity` is
the number of words for which a stack has, or can get, a block.

* `answersLike_iff` — a stack answers a sequence of requests like the list exactly when no push
  finds the depth at the capacity.
-/

namespace LispBM

namespace CStack

/-! ## Requests -/

inductive Request where
  | push (val : UINT)
  | pop
  | drop (n : UINT)
  | ptr (n : UINT)
  | clear
deriving DecidableEq

def Request.lifo : Request → Lifo.Request UINT
  | .push val => .push val
  | .pop => .pop
  | .drop n => .drop n.toNat
  | .ptr n => .top n.toNat
  | .clear => .clear

/-- The result of the function that is called, and the stack after it. A pointer stands for the
`n` words that it points to. -/
def exec (malloc : Alloc) (s : CStack) : Request → Option (Lifo.Reply UINT × CStack)
  | .push val => (pushU32 malloc s val).map fun p => (.pushed p.1, p.2)
  | .pop => (popU32 s).map fun p => (.popped p.1, p.2)
  | .drop n => some (.dropped (stackDrop s n).1, (stackDrop s n).2)
  | .ptr n =>
      match stackPtr s n with
      | none => some (.top none, s)
      | some ix =>
          if ix.toNat + n.toNat ≤ s.data.length then
            some (.top (some ((s.data.drop ix.toNat).take n.toNat)), s)
          else none
  | .clear => some (.cleared, stackClear s)

/-- The list answers the request. -/
def listExec (bound : Option Nat) (l : List UINT) (i : Request) :
    Option (Lifo.Reply UINT × List UINT) :=
  Lifo.answer bound l i.lifo

/-- Every request for memory is granted. -/
def Succeeds (malloc : Alloc) : Prop :=
  ∀ bytes, ∃ data, malloc bytes = some data ∧ data.length = bytes.toNat / 4

/-- A stack of at least one word as `stack_allocate` or `stack_create` leaves it. -/
inductive Fresh (malloc : Alloc) : CStack → Prop where
  | allocated {n : UINT} {growable : Bool} {s : CStack} (hpos : 1#32 ≤ n)
      (h : stackAllocate malloc n growable = some s) : Fresh malloc s
  | created {data : List UINT} {n : UINT} (hpos : 1#32 ≤ n) (hlen : data.length = n.toNat) :
      Fresh malloc (stackCreate data n)

/-- A fixed stack refuses a push when it is full. -/
def bound (s : CStack) : Option Nat := if s.growable then none else some s.size.toNat

/-- A growable stack of fewer than `2 ^ 30` words. -/
def Grows (s : CStack) : Prop := s.growable = true ∧ s.size.toNat < 2 ^ 30

instance (s : CStack) : Decidable (Grows s) := inferInstanceAs (Decidable (_ ∧ _))

/-- The words that a fresh stack can hold: its size is doubled as long as it stays below `2 ^ 30`,
and otherwise there is only the first block. -/
def capacity (s : CStack) : Nat :=
  if Grows s then s.size.toNat * 2 ^ Nat.log 2 ((2 ^ 30 - 1) / s.size.toNat) else s.data.length

/-- A push that is not refused finds room. -/
def Room (s₀ : CStack) (l : List UINT) (i : Request) : Prop :=
  ∀ val, i = .push val → bound s₀ ≠ some l.length → l.length < capacity s₀

/-- The stack `s₀` answers the requests with `rs`, and its contents are `l` in the end. A request
that is refused leaves everything as it is. -/
def AnswersLike (malloc : Alloc) (s₀ : CStack) (is : List Request) (rs : List (Lifo.Reply UINT))
    (l : List UINT) : Prop :=
  (∃ s, Lifo.run (exec malloc) s₀ is = some (rs, s) ∧ s.contents = l)
    ∧ Lifo.Along (exec malloc)
        (fun s i => ∀ p, exec malloc s i = some p → p.1.refused = true → p.2 = s) s₀ is

/-! ## Stacks that stand for a list -/

variable {malloc : Alloc} {s₀ s : CStack} {l : List UINT} {v : UINT}

/-- What is known of a fresh stack. -/
structure Fresh.Spec (s₀ : CStack) : Prop where
  sp : s₀.sp = 0#32
  pos : 0 < s₀.size.toNat
  data_le : s₀.data.length ≤ s₀.size.toNat
  data_lt : s₀.growable = true → ¬ Grows s₀ → s₀.data.length < s₀.size.toNat
  data_eq : Grows s₀ → s₀.data.length = s₀.size.toNat

theorem Fresh.spec (hmalloc : Succeeds malloc) (h : Fresh malloc s₀) : Fresh.Spec s₀ := by
  cases h with
  | allocated hpos h =>
    rename_i n growable
    obtain ⟨data, hdata, hlen⟩ := hmalloc (sizeofUINT * n)
    rw [stackAllocate, hdata] at h
    cases h
    have hn : 1 ≤ n.toNat := hpos
    have hlt := n.isLt
    have hwords : data.length = n.toNat % 2 ^ 30 := by
      rw [hlen, sizeofUINT, BitVec.toNat_mul, BitVec.toNat_ofNat]
      omega
    constructor
    · rfl
    · exact hn
    · show data.length ≤ n.toNat
      omega
    · intro hgrow hnot
      have hbig : ¬ n.toNat < 2 ^ 30 := fun hsmall => hnot ⟨hgrow, hsmall⟩
      show data.length < n.toNat
      omega
    · intro hgrows
      have hsmall : n.toNat < 2 ^ 30 := hgrows.2
      show data.length = n.toNat
      omega
  | created hpos hlen =>
    have hn := hpos
    constructor
    · rfl
    · exact hn
    · exact hlen.le
    · intro hgrow
      cases hgrow
    · exact fun _ => hlen

/-- The stack `s` came from `s₀` and has the words `l`. -/
structure Rel (s₀ s : CStack) (l : List UINT) : Prop where
  growable : s.growable = s₀.growable
  sp : s.sp.toNat = l.length
  contents : s.contents = l
  grown : Grows s₀ → ∃ j, s.size.toNat = s₀.size.toNat * 2 ^ j ∧ s.data.length = s.size.toNat
    ∧ s.size.toNat < 2 ^ 30
  fixed : ¬ Grows s₀ → s.size = s₀.size ∧ s.data.length = s₀.data.length

theorem Rel.length_le (h : Rel s₀ s l) : l.length ≤ s.data.length := by
  have hlen := congrArg List.length h.contents
  rw [CStack.contents, List.length_take, h.sp] at hlen
  omega

theorem Rel.take_data (h : Rel s₀ s l) : s.data.take l.length = l := by
  have hcontents := h.contents
  rwa [CStack.contents, h.sp] at hcontents

theorem Rel.data_le (h : Rel s₀ s l) (h₀ : Fresh.Spec s₀) : s.data.length ≤ s.size.toNat := by
  by_cases hgrows : Grows s₀
  · obtain ⟨j, -, hdata, -⟩ := h.grown hgrows
    exact hdata.le
  · obtain ⟨hsize, hdata⟩ := h.fixed hgrows
    rw [hsize, hdata]
    exact h₀.data_le

theorem rel_fresh (h₀ : Fresh.Spec s₀) : Rel s₀ s₀ [] := by
  constructor
  · rfl
  · rw [h₀.sp]
    rfl
  · rw [contents, h₀.sp]
    rfl
  · intro hgrows
    exact ⟨0, by rw [Nat.pow_zero, Nat.mul_one], h₀.data_eq hgrows, hgrows.2⟩
  · intro _
    exact ⟨rfl, rfl⟩

/-- Nothing that the relation looks at changes but the words. -/
theorem Rel.shrink (h : Rel s₀ s l) {sp : UINT} {k : Nat} (hsp : sp.toNat = k) (hk : k ≤ l.length) :
    Rel s₀ { s with sp := sp } (l.take k) := by
  constructor
  · exact h.growable
  · rw [List.length_take, Nat.min_eq_left hk]
    exact hsp
  · show s.data.take sp.toNat = l.take k
    rw [hsp]
    calc s.data.take k = (s.data.take l.length).take k := by
          rw [List.take_take, Nat.min_eq_left hk]
      _ = l.take k := by rw [h.take_data]
  · exact h.grown
  · exact h.fixed

/-! ## A push -/

theorem Rel.store (h : Rel s₀ s l) (hroom : l.length < s.data.length)
    (hdata : s.data.length < 2 ^ 32) :
    ∃ t, store s v = some t ∧ Rel s₀ t (l ++ [v]) := by
  have hsp : s.sp.toNat < s.data.length := by
    rw [h.sp]
    exact hroom
  refine ⟨_, if_pos hsp, ?_⟩
  have hnext : (s.sp + 1#32).toNat = l.length + 1 := by
    rw [BitVec.toNat_add, h.sp, show (1#32 : UINT).toNat = 1 from rfl]
    omega
  constructor
  · exact h.growable
  · rw [List.length_append]
    exact hnext
  · show (s.data.set s.sp.toNat v).take (s.sp + 1#32).toNat = l ++ [v]
    rw [hnext, h.sp, List.take_succ_eq_append_getElem (by simpa using hroom),
      List.take_set_of_le (le_refl _), List.getElem_set_self, h.take_data]
  · intro hgrows
    obtain ⟨j, hsize, hlen, hlt⟩ := h.grown hgrows
    refine ⟨j, hsize, ?_, hlt⟩
    rw [List.length_set]
    exact hlen
  · intro hnot
    rw [List.length_set]
    exact h.fixed hnot

theorem store_eq_none (h : Rel s₀ s l) (hfull : s.data.length ≤ l.length) : store s v = none := by
  rw [CStack.store, if_neg (by rw [h.sp]; omega)]

/-- The stack grows to a size below `2 ^ 30`. -/
theorem Rel.grow (hmalloc : Succeeds malloc) (h : Rel s₀ s l) (hgrows : Grows s₀)
    (hsize : s.size.toNat * 2 < 2 ^ 30) :
    ∃ t, stackGrow malloc s = some (true, t) ∧ Rel s₀ t l ∧ t.data.length = s.size.toNat * 2 := by
  obtain ⟨j, hj, hdata, hlt⟩ := h.grown hgrows
  have hle := h.length_le
  have hgrowable : s.growable = true := h.growable.trans hgrows.1
  obtain ⟨data, hmal, hlen⟩ := hmalloc (sizeofUINT * (s.size * 2#32))
  have hdouble : (s.size * 2#32).toNat = s.size.toNat * 2 := by
    rw [BitVec.toNat_mul, BitVec.toNat_ofNat]
    omega
  have hwords : data.length = s.size.toNat * 2 := by
    rw [hlen, BitVec.toNat_mul, hdouble, sizeofUINT, BitVec.toNat_ofNat]
    omega
  have hcopy : (s.size * sizeofUINT).toNat / 4 = s.size.toNat := by
    rw [BitVec.toNat_mul, sizeofUINT, BitVec.toNat_ofNat]
    omega
  have hmem : memcpy data s.data (s.size * sizeofUINT)
      = some (s.data ++ data.drop s.size.toNat) := by
    simp only [memcpy, hcopy]
    rw [if_pos ⟨by omega, by omega⟩, ← hdata, List.take_length]
  have hnew : (s.data ++ data.drop s.size.toNat).length = s.size.toNat * 2 := by
    rw [List.length_append, List.length_drop]
    omega
  refine ⟨{ s with data := s.data ++ data.drop s.size.toNat, size := s.size * 2#32 }, ?_, ?_, hnew⟩
  · rw [stackGrow, hgrowable, if_neg (by decide)]
    simp only [hmal, hmem, Option.map_some]
  · constructor
    · exact h.growable
    · exact h.sp
    · show (s.data ++ data.drop s.size.toNat).take s.sp.toNat = l
      rw [List.take_append_of_le_length (by rw [h.sp]; exact hle)]
      exact h.contents
    · intro _
      refine ⟨j + 1, ?_, ?_, ?_⟩
      · show (s.size * 2#32).toNat = s₀.size.toNat * 2 ^ (j + 1)
        rw [hdouble, hj, Nat.pow_succ, Nat.mul_assoc]
      · exact hnew.trans hdouble.symm
      · show (s.size * 2#32).toNat < 2 ^ 30
        rw [hdouble]
        exact hsize
    · exact fun hnot => absurd hgrows hnot

/-- From `2 ^ 29` words on the new block is shorter than the old one. -/
theorem stackGrow_eq_none (hmalloc : Succeeds malloc) (hgrowable : s.growable = true)
    (hlt : s.size.toNat < 2 ^ 30) (hbig : 2 ^ 30 ≤ s.size.toNat * 2) :
    stackGrow malloc s = none := by
  obtain ⟨data, hmal, hlen⟩ := hmalloc (sizeofUINT * (s.size * 2#32))
  have hdouble : (s.size * 2#32).toNat = s.size.toNat * 2 := by
    rw [BitVec.toNat_mul, BitVec.toNat_ofNat]
    omega
  have hwords : data.length = s.size.toNat * 2 - 2 ^ 30 := by
    rw [hlen, BitVec.toNat_mul, hdouble, sizeofUINT, BitVec.toNat_ofNat]
    omega
  have hcopy : (s.size * sizeofUINT).toNat / 4 = s.size.toNat := by
    rw [BitVec.toNat_mul, sizeofUINT, BitVec.toNat_ofNat]
    omega
  have hmem : memcpy data s.data (s.size * sizeofUINT) = none := by
    simp only [memcpy, hcopy]
    rw [if_neg (by omega)]
  rw [stackGrow, hgrowable, if_neg (by decide)]
  simp only [hmal, hmem, Option.map_none]

/-- The capacity is the largest size below `2 ^ 30` that doubling gives. -/
theorem lt_capacity_iff (h₀ : Fresh.Spec s₀) (hgrows : Grows s₀) (j : Nat) :
    s₀.size.toNat * 2 ^ j < 2 ^ 30 ↔ s₀.size.toNat * 2 ^ j ≤ capacity s₀ := by
  have hpos := h₀.pos
  have hsmall := hgrows.2
  have hquot : (2 ^ 30 - 1) / s₀.size.toNat ≠ 0 := by
    have := Nat.div_pos (by omega : s₀.size.toNat ≤ 2 ^ 30 - 1) hpos
    omega
  rw [capacity, if_pos hgrows, Nat.mul_le_mul_left_iff hpos, Nat.pow_le_pow_iff_right (by decide),
    Nat.le_log_iff_pow_le (by decide) hquot, Nat.le_div_iff_mul_le hpos, Nat.mul_comm]
  omega

theorem le_capacity_of_lt (hgrows : Grows s₀) {j : Nat}
    (h : s₀.size.toNat * 2 ^ j < capacity s₀) : s₀.size.toNat * 2 ^ (j + 1) ≤ capacity s₀ := by
  rw [capacity, if_pos hgrows] at h ⊢
  have hj := (Nat.pow_lt_pow_iff_right (by decide)).mp (Nat.lt_of_mul_lt_mul_left h)
  exact Nat.mul_le_mul_left _ (Nat.pow_le_pow_right (by decide) hj)

/-- A push that the list takes goes through exactly when the depth is below the capacity. -/
theorem Rel.push (hmalloc : Succeeds malloc) (h₀ : Fresh.Spec s₀) (h : Rel s₀ s l)
    (hbound : bound s₀ ≠ some l.length) :
    if l.length < capacity s₀ then ∃ t, pushU32 malloc s v = some (true, t) ∧ Rel s₀ t (l ++ [v])
    else pushU32 malloc s v = none := by
  have hle := h.length_le
  have hdata := h.data_le h₀
  have hsize := s.size.isLt
  have hfull : s.sp = s.size ↔ l.length = s.size.toNat := by
    rw [← BitVec.toNat_inj, h.sp]
  by_cases hgrows : Grows s₀
  · -- the block is as long as the size says
    obtain ⟨j, hj, hlen, hlt⟩ := h.grown hgrows
    by_cases hroom : l.length < s.size.toNat
    · obtain ⟨t, hstore, hrel⟩ := h.store (v := v) (by omega) (by omega)
      have hcap := (lt_capacity_iff h₀ hgrows j).mp (by omega)
      rw [if_pos (by omega), pushU32, if_neg (by rw [hfull]; omega)]
      exact ⟨t, by simp [hstore], hrel⟩
    · have heq : l.length = s.size.toNat := by omega
      have hnext : s.size.toNat * 2 = s₀.size.toNat * 2 ^ (j + 1) := by
        rw [hj, Nat.pow_succ, Nat.mul_assoc]
      have hpos := h₀.pos
      by_cases hdouble : s.size.toNat * 2 < 2 ^ 30
      · obtain ⟨t, hgrow, hrel, htlen⟩ := h.grow hmalloc hgrows hdouble
        have hspos : 0 < s.size.toNat := by
          rw [hj]
          exact Nat.mul_pos hpos (Nat.pow_pos (by decide))
        obtain ⟨u, hstore, hrel'⟩ := hrel.store (v := v) (by omega) (by omega)
        have hcap := (lt_capacity_iff h₀ hgrows (j + 1)).mp (by omega)
        rw [if_pos (by omega), pushU32, if_pos (hfull.mpr heq), hgrow]
        exact ⟨u, by simp [hstore], hrel'⟩
      · -- the capacity is reached
        have hgrowable : s.growable = true := h.growable.trans hgrows.1
        have hcap : ¬ l.length < capacity s₀ := by
          intro hlt'
          have hle' := le_capacity_of_lt hgrows (j := j) (by omega)
          have := (lt_capacity_iff h₀ hgrows (j + 1)).mpr hle'
          omega
        rw [if_neg hcap, pushU32, if_pos (hfull.mpr heq),
          stackGrow_eq_none hmalloc hgrowable hlt (by omega)]
        rfl
  · -- the block stays
    obtain ⟨hsz, hlen⟩ := h.fixed hgrows
    have hcap : capacity s₀ = s.data.length := by
      rw [capacity, if_neg hgrows, hlen]
    have hnotFull : l.length ≠ s.size.toNat := by
      cases hg : s₀.growable with
      | true =>
        have hlt := h₀.data_lt hg hgrows
        rw [hsz]
        omega
      | false =>
        rw [bound, hg, if_neg (by decide), ← hsz] at hbound
        exact fun heq => hbound (congrArg some heq.symm)
    rw [hcap, pushU32, if_neg (mt hfull.mp hnotFull)]
    by_cases hroom : l.length < s.data.length
    · obtain ⟨t, hstore, hrel⟩ := h.store (v := v) hroom (by omega)
      rw [if_pos hroom]
      exact ⟨t, by simp [hstore], hrel⟩
    · rw [if_neg hroom]
      simp [store_eq_none h (by omega : s.data.length ≤ l.length)]

/-- A push onto a full fixed stack is refused. -/
theorem Rel.push_full (h : Rel s₀ s l) (hbound : bound s₀ = some l.length) :
    pushU32 malloc s v = some (false, s) := by
  have hfixed : s₀.growable = false := by
    cases hg : s₀.growable with
    | true =>
      rw [bound, hg, if_pos rfl] at hbound
      cases hbound
    | false => rfl
  have hnot : ¬ Grows s₀ := by
    intro hgrows
    exact Bool.false_ne_true (hfixed.symm.trans hgrows.1)
  have hsp : s.sp = s.size := by
    apply BitVec.eq_of_toNat_eq
    rw [bound, hfixed, if_neg (by decide)] at hbound
    rw [h.sp, (h.fixed hnot).1]
    exact (Option.some.inj hbound).symm
  rw [pushU32, if_pos hsp, stackGrow, h.growable, hfixed]
  rfl

/-! ## The other requests -/

theorem Rel.pop (h : Rel s₀ s l) (hlast : l.getLast? = some v)
    (hdata : s.data.length < 2 ^ 32) :
    ∃ t, popU32 s = some (v, t) ∧ Rel s₀ t l.dropLast := by
  have hle := h.length_le
  have hne : l ≠ [] := by
    rintro rfl
    cases hlast
  have hpos : 0 < l.length := List.length_pos_of_ne_nil hne
  have hsp : (s.sp - 1#32).toNat = l.length - 1 := by
    rw [BitVec.toNat_sub, h.sp, show (1#32 : UINT).toNat = 1 from rfl]
    omega
  have hval : s.data.getD (l.length - 1) 0#32 = v := by
    rw [List.getLast?_eq_getElem?, ← h.take_data, List.length_take, Nat.min_eq_left hle,
      List.getElem?_take_of_lt (by omega)] at hlast
    rw [List.getD_eq_getElem?_getD, hlast]
    rfl
  refine ⟨{ s with sp := s.sp - 1#32 }, ?_, ?_⟩
  · rw [popU32]
    simp only [hsp]
    rw [if_pos (by omega), hval]
  · rw [List.dropLast_eq_take]
    exact h.shrink hsp (Nat.sub_le _ _)

theorem Rel.lt_iff (h : Rel s₀ s l) (n : UINT) : s.sp < n ↔ l.length < n.toNat := by
  rw [BitVec.lt_def, h.sp]

theorem Rel.sub (h : Rel s₀ s l) {n : UINT} (hn : n.toNat ≤ l.length) :
    (s.sp - n).toNat = l.length - n.toNat := by
  have hsp := s.sp.isLt
  rw [h.sp] at hsp
  rw [BitVec.toNat_sub, h.sp]
  omega

/-- The words that the pointer of `stack_ptr` points to. -/
theorem Rel.window (h : Rel s₀ s l) {k : Nat} (hk : k ≤ l.length) :
    (s.data.drop (l.length - k)).take k = l.drop (l.length - k) := by
  calc (s.data.drop (l.length - k)).take k
      = (s.data.take l.length).drop (l.length - k) := by
        rw [List.drop_take]
        congr 1
        omega
    _ = l.drop (l.length - k) := by rw [h.take_data]

/-- A stack follows the list as long as there is room. -/
theorem tracks (hmalloc : Succeeds malloc) (h₀ : Fresh.Spec s₀) :
    Lifo.Tracks (exec malloc) (listExec (bound s₀)) (Rel s₀) (Room s₀) where
  answers := by
    intro s l i r l' h hspec hroom
    have hsize : s.data.length < 2 ^ 32 := (h.data_le h₀).trans_lt s.size.isLt
    cases i with
    | push v =>
      rw [listExec, Request.lifo, Lifo.answer] at hspec
      split at hspec
      · next hfull =>
        cases hspec
        refine ⟨s, ?_, h⟩
        rw [exec, h.push_full hfull]
        rfl
      · next hbound =>
        cases hspec
        have hpush := h.push (v := v) hmalloc h₀ hbound
        rw [if_pos (hroom v rfl hbound)] at hpush
        obtain ⟨t, hpush, hrel⟩ := hpush
        exact ⟨t, by rw [exec, hpush]; rfl, hrel⟩
    | pop =>
      obtain ⟨v, hlast, hv⟩ := Option.map_eq_some_iff.mp hspec
      cases hv
      obtain ⟨t, hpop, hrel⟩ := h.pop hlast hsize
      exact ⟨t, by rw [exec, hpop]; rfl, hrel⟩
    | drop n =>
      rw [listExec, Request.lifo, Lifo.answer] at hspec
      split at hspec
      · next hlt =>
        cases hspec
        refine ⟨s, ?_, h⟩
        rw [exec, stackDrop, if_pos ((h.lt_iff n).mpr hlt)]
      · next hlt =>
        cases hspec
        refine ⟨{ s with sp := s.sp - n }, ?_, h.shrink (h.sub (by omega)) (Nat.sub_le _ _)⟩
        rw [exec, stackDrop, if_neg (mt (h.lt_iff n).mp hlt)]
    | ptr n =>
      rw [listExec, Request.lifo, Lifo.answer] at hspec
      split at hspec
      · next hlt =>
        cases hspec
        refine ⟨s, ?_, h⟩
        simp only [exec, stackPtr, if_pos ((h.lt_iff n).mpr hlt)]
      · next hlt =>
        cases hspec
        have hle := h.length_le
        refine ⟨s, ?_, h⟩
        simp only [exec, stackPtr, if_neg (mt (h.lt_iff n).mp hlt), h.sub (by omega : n.toNat ≤ _)]
        rw [if_pos (by omega), h.window (by omega)]
    | clear =>
      cases hspec
      refine ⟨stackClear s, rfl, ?_⟩
      exact h.shrink (k := 0) rfl (Nat.zero_le _)
  fails := by
    intro s l i r l' t h hspec hexec v hi hbound
    subst hi
    by_contra hfull
    have hpush := h.push (v := v) hmalloc h₀ hbound
    rw [if_neg hfull] at hpush
    rw [exec, hpush] at hexec
    cases hexec

theorem stackGrow_refused {t : CStack} (h : stackGrow malloc s = some (false, t)) : t = s := by
  rw [stackGrow] at h
  split at h
  · cases h
    rfl
  · simp only at h
    split at h
    · cases h
      rfl
    · obtain ⟨data, -, hdata⟩ := Option.map_eq_some_iff.mp h
      cases hdata

theorem pushU32_refused {t : CStack} (h : pushU32 malloc s v = some (false, t)) : t = s := by
  rw [pushU32] at h
  obtain ⟨p, hp, hstore⟩ := Option.bind_eq_some_iff.mp h
  split at hstore
  · cases hstore
    split at hp
    · exact stackGrow_refused hp
    · cases hp
  · next hdone =>
    obtain ⟨u, -, hu⟩ := Option.map_eq_some_iff.mp hstore
    have hfalse : p.1 = false := (Prod.mk.inj hu).1
    exact absurd (by rw [hfalse]; rfl) hdone

/-- A request that is refused leaves everything as it is, whatever `malloc` does. -/
theorem eq_of_refused {i : Request} {r : Lifo.Reply UINT} {t : CStack}
    (h : exec malloc s i = some (r, t)) (hr : r.refused = true) : t = s := by
  cases i with
  | push v =>
    obtain ⟨p, hp, hrt⟩ := Option.map_eq_some_iff.mp h
    cases hrt
    have hfalse : p.1 = false := by simpa [Lifo.Reply.refused] using hr
    exact pushU32_refused (hp.trans (congrArg some (Prod.ext hfalse rfl)))
  | pop =>
    obtain ⟨p, -, hrt⟩ := Option.map_eq_some_iff.mp h
    cases hrt
    cases hr
  | drop n =>
    cases h
    rw [stackDrop] at hr ⊢
    split at hr
    · next hlt => rw [if_pos hlt]
    · cases hr
  | ptr n =>
    rw [exec] at h
    split at h
    · cases h
      rfl
    · split at h
      · cases h
        rfl
      · cases h
  | clear =>
    cases h
    cases hr

/-- **A stack answers like a list**, and keeps what it refuses to change, exactly when every push
that is not refused finds the depth below the capacity. The requests are such that nothing is popped
off the empty list. -/
theorem answersLike_iff (hmalloc : Succeeds malloc) (hfresh : Fresh malloc s₀) {is : List Request}
    {rs : List (Lifo.Reply UINT)}
    (hspec : Lifo.run (listExec (bound s₀)) [] is = some (rs, l)) :
    AnswersLike malloc s₀ is rs l ↔ Lifo.Along (listExec (bound s₀)) (Room s₀) [] is := by
  have h₀ := hfresh.spec hmalloc
  have htracks := tracks hmalloc h₀
  constructor
  · rintro ⟨⟨s, hrun, -⟩, -⟩
    exact htracks.along (rel_fresh h₀) hspec hrun
  · intro hroom
    obtain ⟨s, hrun, hrel⟩ := htracks.run (rel_fresh h₀) hspec hroom
    refine ⟨⟨s, hrun, hrel.contents⟩, ?_⟩
    apply Lifo.along_of_invariant (fun _ => True) (fun _ _ _ _ _ => trivial) _ is trivial
    intro s i _ p hp hr
    exact eq_of_refused hp hr

/-- A fixed stack has room in every run if its block is as long as its size says. -/
theorem along_room_of_fixed (hfixed : s₀.growable = false)
    (hlen : s₀.data.length = s₀.size.toNat) (is : List Request) :
    Lifo.Along (listExec (bound s₀)) (Room s₀) [] is := by
  have hbound : bound s₀ = some s₀.size.toNat := by
    rw [bound, hfixed]
    rfl
  have hcap : capacity s₀ = s₀.size.toNat := by
    rw [capacity, if_neg (fun hgrows => Bool.false_ne_true (hfixed.symm.trans hgrows.1)), hlen]
  rw [hbound]
  apply Lifo.along_of_invariant (fun l => l.length ≤ s₀.size.toNat) _ _ is (Nat.zero_le _)
  · intro l i p hl hp
    exact Lifo.length_le_of_answer hl hp
  · intro l i hl v _ hne
    have hlt : l.length ≠ s₀.size.toNat := by
      intro heq
      rw [hbound] at hne
      exact hne (congrArg some heq.symm)
    rw [hcap]
    omega

/-- A `malloc` that grants every request. -/
def mallocZero : Alloc := fun bytes => some (List.replicate (bytes.toNat / 4) 0#32)

theorem succeeds_mallocZero : Succeeds mallocZero := fun _ => ⟨_, rfl, List.length_replicate⟩

/-- A growable stack of one word. -/
theorem answersLike_iff_oneWord :
    AnswersLike mallocZero ⟨[0#32], 0#32, 1#32, true⟩
        [.push 5#32, .push 6#32, .ptr 2#32, .drop 3#32, .pop, .clear]
        [.pushed true, .pushed true, .top (some [5#32, 6#32]), .dropped false, .popped 6#32,
          .cleared] []
      ↔ Lifo.Along (listExec (bound ⟨[0#32], 0#32, 1#32, true⟩))
        (Room ⟨[0#32], 0#32, 1#32, true⟩) []
          [.push 5#32, .push 6#32, .ptr 2#32, .drop 3#32, .pop, .clear] :=
  answersLike_iff succeeds_mallocZero
    (@Fresh.allocated _ 1#32 true _ (by decide) (by decide)) (by decide)

/-- `stack_allocate(&s, 0x40000000, true)` asks for a block of 0 bytes and succeeds. The first push
writes behind it. -/
theorem not_answersLike_wraps :
    stackAllocate mallocZero 0x40000000#32 true = some ⟨[], 0#32, 0x40000000#32, true⟩
      ∧ listExec none [] (.push 7#32) = some (.pushed true, [7#32])
      ∧ exec mallocZero ⟨[], 0#32, 0x40000000#32, true⟩ (.push 7#32) = none
      ∧ ¬ ∀ (malloc : Alloc) (s₀ : CStack) (is : List Request) (rs : List (Lifo.Reply UINT))
          (l : List UINT), Succeeds malloc → Fresh malloc s₀ →
          Lifo.run (listExec (bound s₀)) [] is = some (rs, l) → AnswersLike malloc s₀ is rs l := by
  have hallocate : stackAllocate mallocZero 0x40000000#32 true
      = some ⟨[], 0#32, 0x40000000#32, true⟩ := by decide
  have hnone : exec mallocZero ⟨[], 0#32, 0x40000000#32, true⟩ (.push 7#32) = none := by decide
  refine ⟨hallocate, rfl, hnone, fun hall => ?_⟩
  have hlike := hall mallocZero ⟨[], 0#32, 0x40000000#32, true⟩ [.push 7#32] [.pushed true] [7#32]
    succeeds_mallocZero (.allocated (by decide) hallocate) rfl
  obtain ⟨⟨s, hrun, -⟩, -⟩ := hlike
  rw [Lifo.run, hnone] at hrun
  cases hrun

end CStack

end LispBM
