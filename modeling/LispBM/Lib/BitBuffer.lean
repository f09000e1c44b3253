import Mathlib.Data.List.Basic
import Mathlib.Data.BitVec

/-!
# Bits in a buffer of bytes

Bit `p` of a buffer is bit `p % 8` of byte `p / 8`, the least significant bit first. `writeBits`
sets the bits from a position on one after the other, and `readBits` is what is found there.
-/

namespace BitBuffer

abbrev Byte := BitVec 8

def bit (buf : List Byte) (p : Nat) : Bool := (buf.getD (p / 8) 0#8).getLsbD (p % 8)

def setBit (c : Byte) (i : Nat) (b : Bool) : Byte :=
  if b then c ||| 1#8 <<< i else c &&& ~~~(1#8 <<< i)

def writeBit (buf : List Byte) (p : Nat) (b : Bool) : List Byte :=
  buf.set (p / 8) (setBit (buf.getD (p / 8) 0#8) (p % 8) b)

def writeBits : List Byte → Nat → List Bool → List Byte
  | buf, _, [] => buf
  | buf, p, b :: bs => writeBits (writeBit buf p b) (p + 1) bs

def readBits (buf : List Byte) (p : Nat) : Nat → List Bool
  | 0 => []
  | n + 1 => bit buf p :: readBits buf (p + 1) n

variable {buf : List Byte} {p q n m : Nat} {b : Bool} {bs : List Bool}

theorem getLsbD_setBit {c : Byte} {i j : Nat} (hi : i < 8) (hj : j < 8) :
    (setBit c i b).getLsbD j = if j = i then b else c.getLsbD j := by
  unfold setBit
  cases b with
  | true =>
    rw [if_pos rfl, BitVec.getLsbD_or, BitVec.getLsbD_shiftLeft]
    by_cases h : j = i
    · subst h
      simp [hj]
    · simp only [if_neg h, hj]
      rcases Nat.lt_or_ge j i with hlt | hge
      · simp [hlt]
      · have hne : j - i ≠ 0 := by omega
        simp [hne]
  | false =>
    rw [if_neg (by simp), BitVec.getLsbD_and, BitVec.getLsbD_not, BitVec.getLsbD_shiftLeft]
    by_cases h : j = i
    · subst h
      simp [hj]
    · simp only [if_neg h, hj]
      rcases Nat.lt_or_ge j i with hlt | hge
      · simp [hlt]
      · have hne : j - i ≠ 0 := by omega
        simp [hne]

/-- A byte that is put together bit by bit. -/
theorem getLsbD_foldl_setBit {f : Nat → Bool} {c : Byte} {n j : Nat} (hn : n ≤ 8) (hj : j < 8) :
    ((List.range n).foldl (fun c i => setBit c i (f i)) c).getLsbD j
      = if j < n then f j else c.getLsbD j := by
  induction n with
  | zero => rfl
  | succ n ih =>
    rw [List.range_succ, List.foldl_append, List.foldl_cons, List.foldl_nil,
      getLsbD_setBit (by omega) hj, ih (by omega)]
    rcases Nat.lt_trichotomy j n with hlt | rfl | hgt
    · rw [if_neg (by omega), if_pos hlt, if_pos (by omega)]
    · rw [if_pos rfl, if_pos (by omega)]
    · rw [if_neg (by omega), if_neg (by omega), if_neg (by omega)]

@[simp] theorem length_writeBit : (writeBit buf p b).length = buf.length := List.length_set ..

theorem bit_writeBit (hp : p < 8 * buf.length) :
    bit (writeBit buf p b) q = if q = p then b else bit buf q := by
  have hlt : p / 8 < buf.length := by omega
  unfold bit writeBit
  by_cases h : q / 8 = p / 8
  · rw [h, List.getD_eq_getElem?_getD, List.getElem?_set_self hlt, Option.getD_some,
      getLsbD_setBit (Nat.mod_lt _ (by decide)) (Nat.mod_lt _ (by decide))]
    by_cases hqp : q = p
    · rw [if_pos hqp, if_pos (by rw [hqp])]
    · rw [if_neg hqp, if_neg (by omega)]
  · rw [List.getD_eq_getElem?_getD, List.getElem?_set_ne (Ne.symm h), if_neg (by
      rintro rfl
      exact h rfl), List.getD_eq_getElem?_getD]

theorem bit_writeBit_of_ne (h : q ≠ p) : bit (writeBit buf p b) q = bit buf q := by
  rcases Nat.lt_or_ge p (8 * buf.length) with hp | hp
  · rw [bit_writeBit hp, if_neg h]
  · unfold writeBit
    rw [List.set_eq_of_length_le (by omega)]

@[simp] theorem length_writeBits : (writeBits buf p bs).length = buf.length := by
  induction bs generalizing buf p with
  | nil => rfl
  | cons b bs ih => rw [writeBits, ih, length_writeBit]

theorem writeBits_append {cs : List Bool} :
    writeBits buf p (bs ++ cs) = writeBits (writeBits buf p bs) (p + bs.length) cs := by
  induction bs generalizing buf p with
  | nil => rfl
  | cons b bs ih =>
    rw [List.cons_append, writeBits, ih, writeBits, List.length_cons]
    congr 1
    omega

theorem bit_writeBits_of_lt (h : q < p) : bit (writeBits buf p bs) q = bit buf q := by
  induction bs generalizing buf p with
  | nil => rfl
  | cons b bs ih => rw [writeBits, ih (by omega), bit_writeBit_of_ne (by omega)]

theorem readBits_append : readBits buf p (m + n) = readBits buf p m ++ readBits buf (p + m) n := by
  induction m generalizing p with
  | zero => rw [Nat.zero_add]; rfl
  | succ m ih =>
    rw [Nat.succ_add, readBits, ih, readBits, List.cons_append]
    congr 3
    omega

@[simp] theorem length_readBits : (readBits buf p n).length = n := by
  induction n generalizing p with
  | zero => rfl
  | succ n ih => rw [readBits, List.length_cons, ih]

/-- What was written is read back. -/
theorem readBits_writeBits (h : p + bs.length ≤ 8 * buf.length) :
    readBits (writeBits buf p bs) p bs.length = bs := by
  induction bs generalizing buf p with
  | nil => rfl
  | cons b bs ih =>
    rw [List.length_cons] at h
    rw [List.length_cons, readBits, writeBits, bit_writeBits_of_lt (by omega),
      bit_writeBit (by omega), if_pos rfl, ih (by rw [length_writeBit]; omega)]

theorem getD_writeBits_of_lt {i : Nat} (h : 8 * (i + 1) ≤ p) :
    (writeBits buf p bs).getD i 0#8 = buf.getD i 0#8 := by
  apply BitVec.eq_of_getLsbD_eq
  intro j hj
  have hbit : bit (writeBits buf p bs) (8 * i + j) = bit buf (8 * i + j) :=
    bit_writeBits_of_lt (by omega)
  unfold bit at hbit
  rwa [show (8 * i + j) / 8 = i by omega, show (8 * i + j) % 8 = j by omega] at hbit

end BitBuffer
