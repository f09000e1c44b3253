import LispBM.Fundamental.Integers

/-!
# LispBM — the encodings of values (`include/heap.h`)

A value packs a payload, a type and a mark into one word, immediates in one way and pointers in
another. `Payload` is what is encoded, and `Payload.Faithful` what the rest of the program expects
of the word. The field of a pointer has 23 bits. `mk-sym-indirect` lets through numbers of 25 bits,
whose upper two end up in the type.
-/

namespace LispBM

/-- What the encoding functions of `heap.h` are given. -/
inductive Payload where
  | i28 (x : UINT)
  | u28 (x : UINT)
  | symbol (s : UINT)
  | char (c : BitVec 8)
  | cons (ix : UINT)
  | indirection (n : UINT)
deriving DecidableEq

namespace Payload

/-- The arguments the encodings are meant for. For an indirection these are the numbers that
`mk-sym-indirect` accepts. -/
def Encodable : Payload → Prop
  | .i28 x => -2 ^ 27 ≤ x.toInt ∧ x.toInt < 2 ^ 27
  | .u28 x => x.toNat < 2 ^ 28
  | .symbol s => s.toNat < 2 ^ 28
  | .char _ => True
  | .cons ix => ix.toNat < 2 ^ 23
  | .indirection n => n.toNat < 2 ^ 28 ∧ n < 33554432#32

def enc : Payload → VALUE
  | .i28 x => encI x
  | .u28 x => encU x
  | .symbol s => encSym s
  | .char c => encChar c
  | .cons ix => encConsPtr ix
  | .indirection n => encSymbolIndirection n

def type : Payload → TYPE
  | .i28 _ => valTypeI
  | .u28 _ => valTypeU
  | .symbol _ => valTypeSymbol
  | .char _ => valTypeChar
  | .cons _ => ptrTypeCons
  | .indirection _ => ptrTypeSymbolIndirection

/-- A word decoded by the function that belongs to the encoding of `p`. -/
def dec : Payload → VALUE → Payload
  | .i28 _, v => .i28 (decI v)
  | .u28 _, v => .u28 (decU v)
  | .symbol _, v => .symbol (decSym v)
  | .char _, v => .char (decChar v)
  | .cons _, v => .cons (decPtr v)
  | .indirection _, v => .indirection (decSymbolIndirection v)

/-- The words `v` and `w` have the same payload and the same type. -/
def SameAs (p : Payload) (v w : VALUE) : Prop := p.dec v = p.dec w ∧ typeOf v = typeOf w

/-- The word for `p` is faithful. -/
structure Faithful (p : Payload) : Prop where
  payload : p.dec p.enc = p
  type : typeOf p.enc = p.type
  unmarked : valGetGcMark p.enc = false
  /-- Setting the mark. -/
  marked : p.SameAs (valSetGcMark p.enc) p.enc
  /-- Clearing the mark, of the word and of the marked word. -/
  cleared : p.SameAs (valClrGcMark p.enc) p.enc
    ∧ p.SameAs (valClrGcMark (valSetGcMark p.enc)) (valSetGcMark p.enc)
  /-- Other payloads have other words. -/
  injective : ∀ q, Encodable q → q ≠ p → q.enc ≠ p.enc

instance (p : Payload) : Decidable p.Encodable := by
  cases p <;> unfold Encodable <;> infer_instance

variable {p : Payload}

/-- `mk-sym-indirect` accepts a number exactly when it is below 33554432. -/
theorem fundamentalExec_mkSymbolIndirect_encU {fo : FloatOps} {nargs : UINT} {st : SymbolTable}
    {h : HeapState} {n : UINT} (hn : n.toNat < 2 ^ 28) :
    fundamentalExec fo [encU n] nargs (encSym symMkSymbolIndirect) st h
      = some (if n < 33554432#32 then encSymbolIndirection n else encSym symreprEerror, h, st) := by
  have hop : decSym (encSym symMkSymbolIndirect) = symMkSymbolIndirect := by decide
  have hexec : fundamentalHeapExec fo [encU n] nargs symMkSymbolIndirect st h
      = if (typeOf (encU n) == valTypeU && decide (decU (encU n) < 33554432#32)) = true
        then some (encSymbolIndirection (decU (encU n)), h)
        else some (encSym symreprEerror, h) := rfl
  have htype : typeOf (encU n) = valTypeU := typeOf_shift n (by decide)
  rw [decU_encU hn, htype, beq_self_eq_true, Bool.true_and] at hexec
  have hne : ¬ ((symMkSymbolIndirect == symStringToSymbol) = true) := by decide
  rw [fundamentalExec, hop, if_neg hne, hexec]
  by_cases hlt : n < 33554432#32
  · rw [if_pos (by simpa using hlt), if_pos hlt]
  · rw [if_neg (by simpa using hlt), if_neg hlt]

/-! ## The fields of a word -/

theorem decI_encI {x : UINT} (hlo : -2 ^ 27 ≤ x.toInt) (hhi : x.toInt < 2 ^ 27) :
    decI (encI x) = x := by
  apply BitVec.eq_of_toInt_eq
  rw [toInt_decI_encI]
  rw [BitVec.toInt_eq_toNat_cond] at hlo hhi ⊢
  have hx := x.isLt
  rw [Int.bmod_def]
  split at hlo <;> omega

theorem isPtr_encSymbolIndirection (n : UINT) : isPtr (encSymbolIndirection n) = true := by
  have h : (n <<< 3 ||| ptrTypeSymbolIndirection ||| ptrMask) &&& ptrMask = ptrMask := by
    ext i hi
    interval_cases i <;> simp [ptrMask]
  simp only [isPtr, encSymbolIndirection, h]
  decide

/-- A symbol indirection is no cons pointer, even when its number is too wide. -/
theorem ushiftRight_encSymbolIndirection {n : UINT} (hn : n.toNat < 2 ^ 25) :
    encSymbolIndirection n >>> 28 = 5#32 := by
  have hbit : ∀ i (hi : i < 32), 25 ≤ i → n[i] = false := fun i hi h =>
    getElem_eq_false_of_lt hn h hi
  ext i hi
  simp only [encSymbolIndirection, ptrTypeSymbolIndirection, ptrMask]
  interval_cases i <;> simp [hbit]

theorem ushiftRight_encConsPtr {ix : UINT} (hix : ix.toNat < 2 ^ 23) :
    encConsPtr ix >>> 28 = 1#32 := by
  have hbit : ∀ i (hi : i < 32), 23 ≤ i → ix[i] = false := fun i hi h =>
    getElem_eq_false_of_lt hix h hi
  ext i hi
  simp only [encConsPtr, ptrTypeCons, ptrMask]
  interval_cases i <;> simp [hbit]

/-- The number of an indirection is between the lowest three and the highest four bits. -/
theorem number_encSymbolIndirection {n : UINT} (hn : n.toNat < 2 ^ 25) :
    (encSymbolIndirection n &&& 0x0FFFFFF8#32) >>> 3 = n := by
  have hbit : ∀ i (hi : i < 32), 25 ≤ i → n[i] = false := fun i hi h =>
    getElem_eq_false_of_lt hn h hi
  ext i hi
  simp only [encSymbolIndirection, ptrTypeSymbolIndirection, ptrMask]
  interval_cases i <;> simp [hbit]

theorem decSymbolIndirection_enc {n : UINT} (hn : n.toNat < 2 ^ 23) :
    decSymbolIndirection (encSymbolIndirection n) = n := by
  have hbit : ∀ i (hi : i < 32), 23 ≤ i → n[i] = false := fun i hi h =>
    getElem_eq_false_of_lt hn h hi
  ext i hi
  simp only [decSymbolIndirection, encSymbolIndirection, ptrValMask, ptrTypeSymbolIndirection,
    ptrMask]
  interval_cases i <;> simp [hbit]

theorem typeOf_encSymbolIndirection {n : UINT} (hn : n.toNat < 2 ^ 23) :
    typeOf (encSymbolIndirection n) = ptrTypeSymbolIndirection := by
  have hbit : ∀ i (hi : i < 32), 23 ≤ i → n[i] = false := fun i hi h =>
    getElem_eq_false_of_lt hn h hi
  rw [typeOf_of_isPtr (isPtr_encSymbolIndirection n)]
  ext i hi
  simp only [ptrType, encSymbolIndirection, ptrTypeMask, ptrTypeSymbolIndirection, ptrMask]
  interval_cases i <;> simp [hbit]

/-! ## The mark -/

/-- No encoding sets the mark. -/
theorem valGetGcMark_enc (p : Payload) : valGetGcMark p.enc = false := by
  have hshift : ∀ (x : UINT) (t : TYPE), t &&& gcMask = 0#32 →
      valGetGcMark (x <<< 4 ||| t) = false := by
    intro x t ht
    have hmark : (x <<< 4 ||| t) &&& gcMask = t &&& gcMask := by
      ext i hi
      interval_cases i <;> simp [gcMask]
    rw [valGetGcMark, hmark, ht]
    rfl
  cases p with
  | i28 x => exact hshift x valTypeI (by decide)
  | u28 x => exact hshift x valTypeU (by decide)
  | symbol s => exact hshift s valTypeSymbol (by decide)
  | char c => exact hshift (c.signExtend 32) valTypeChar (by decide)
  | cons ix => exact valGetGcMark_encConsPtr ix
  | indirection n =>
    have hmark : (n <<< 3 ||| ptrTypeSymbolIndirection ||| ptrMask) &&& gcMask = 0#32 := by
      ext i hi
      interval_cases i <;> simp [ptrMask, ptrTypeSymbolIndirection, gcMask]
    show (encSymbolIndirection n &&& gcMask != 0#32) = false
    rw [encSymbolIndirection, hmark]
    rfl

/-- Every decoding drops the mark, whatever the word. -/
theorem sameAs_valSetGcMark (p : Payload) (v : VALUE) : p.SameAs (valSetGcMark v) v := by
  have hshift : valSetGcMark v >>> 4 = v >>> 4 := by
    ext i hi
    simp only [valSetGcMark, gcMask]
    interval_cases i <;> simp
  have hsshift : (valSetGcMark v).sshiftRight 4 = v.sshiftRight 4 := by
    ext i hi
    have hmsb : (2#32 : UINT).msb = false := by decide
    simp only [valSetGcMark, gcMask]
    interval_cases i <;> simp [BitVec.getElem_sshiftRight, hmsb]
  refine ⟨?_, typeOf_valSetGcMark v⟩
  cases p with
  | i28 x => exact congrArg i28 hsshift
  | u28 x => exact congrArg u28 hshift
  | symbol s => exact congrArg symbol hshift
  | char c => exact congrArg (fun w : UINT => char (w.setWidth 8)) hshift
  | cons ix => exact congrArg cons (decPtr_valSetGcMark v)
  | indirection n => exact congrArg indirection (decPtr_valSetGcMark v)

/-- Clearing is undone by setting, as far as the payload and the type go. -/
theorem sameAs_valClrGcMark (p : Payload) (v : VALUE) : p.SameAs (valClrGcMark v) v := by
  have hset : valSetGcMark (valClrGcMark v) = valSetGcMark v := by
    ext i hi
    simp only [valSetGcMark, valClrGcMark, gcMask]
    interval_cases i <;> simp
  obtain ⟨hdec, htype⟩ := sameAs_valSetGcMark p (valClrGcMark v)
  obtain ⟨hdec', htype'⟩ := sameAs_valSetGcMark p v
  rw [hset] at hdec htype
  exact ⟨hdec.symm.trans hdec', htype.symm.trans htype'⟩

/-! ## Different words -/

/-- The payload of a word that was encoded. Numbers of indirections are taken with the two bits
that are in the type. -/
def ofWord (v : VALUE) : Payload :=
  if isPtr v then
    if v >>> 28 = 1#32 then .cons (decPtr v) else .indirection ((v &&& 0x0FFFFFF8#32) >>> 3)
  else if typeOf v = valTypeI then .i28 (decI v)
  else if typeOf v = valTypeU then .u28 (decU v)
  else if typeOf v = valTypeChar then .char (decChar v)
  else .symbol (decSym v)

theorem ofWord_enc (hp : p.Encodable) : ofWord p.enc = p := by
  cases p with
  | i28 x =>
    have htype : typeOf (encI x) = valTypeI := typeOf_shift x (by decide)
    have himm : isPtr (encI x) = false := isPtr_shift x (by decide)
    simp [ofWord, enc, himm, htype, decI_encI hp.1 hp.2]
  | u28 x =>
    have htype : typeOf (encU x) = valTypeU := typeOf_shift x (by decide)
    have himm : isPtr (encU x) = false := isPtr_shift x (by decide)
    have hne : valTypeU ≠ valTypeI := by decide
    simp [ofWord, enc, himm, htype, hne, decU_encU hp]
  | symbol s =>
    have hneI : valTypeSymbol ≠ valTypeI := by decide
    have hneU : valTypeSymbol ≠ valTypeU := by decide
    have hneC : valTypeSymbol ≠ valTypeChar := by decide
    simp [ofWord, enc, hneI, hneU, hneC, decSym_encSym hp]
  | char c =>
    have htype : typeOf (encChar c) = valTypeChar := typeOf_shift _ (by decide)
    have himm : isPtr (encChar c) = false := isPtr_shift _ (by decide)
    have hneI : valTypeChar ≠ valTypeI := by decide
    have hneU : valTypeChar ≠ valTypeU := by decide
    simp [ofWord, enc, himm, htype, hneI, hneU, decChar_encChar c]
  | cons ix => simp [ofWord, enc, ushiftRight_encConsPtr hp, decPtr_encConsPtr hp]
  | indirection n =>
    have hn : n.toNat < 2 ^ 25 := hp.2
    have hfive : (5#32 : UINT) ≠ 1#32 := by decide
    simp only [ofWord, enc, isPtr_encSymbolIndirection, if_true,
      ushiftRight_encSymbolIndirection hn,
      if_neg hfive, number_encSymbolIndirection hn]

theorem enc_injective {q : Payload} (hp : p.Encodable) (hq : q.Encodable) (h : q.enc = p.enc) :
    q = p := by
  rw [← ofWord_enc hp, ← ofWord_enc hq, h]

/-! ## Which words are faithful -/

/-- The number of an indirection fits the field of a pointer. -/
def Fits (p : Payload) : Prop := ∀ n, p = .indirection n → n.toNat < 2 ^ 23

theorem dec_enc (hp : p.Encodable) (hfits : p.Fits) : p.dec p.enc = p := by
  cases p with
  | i28 x => exact congrArg i28 (decI_encI hp.1 hp.2)
  | u28 x => exact congrArg u28 (decU_encU hp)
  | symbol s => exact congrArg symbol (decSym_encSym hp)
  | char c => exact congrArg char (decChar_encChar c)
  | cons ix => exact congrArg cons (decPtr_encConsPtr hp)
  | indirection n => exact congrArg indirection (decSymbolIndirection_enc (hfits n rfl))

theorem typeOf_enc (hp : p.Encodable) (hfits : p.Fits) : typeOf p.enc = p.type := by
  cases p with
  | i28 x => exact typeOf_shift x (by decide)
  | u28 x => exact typeOf_shift x (by decide)
  | symbol s => exact typeOf_encSym s
  | char c => exact typeOf_shift _ (by decide)
  | cons ix =>
    show typeOf (encConsPtr ix) = ptrTypeCons
    rw [typeOf_of_isPtr (isPtr_encConsPtr ix), ptrType_encConsPtr hp]
  | indirection n => exact typeOf_encSymbolIndirection (hfits n rfl)

/-- What is read from the field of a pointer has 23 bits. -/
theorem Faithful.fits (h : p.Faithful) : p.Fits := by
  intro n hp
  subst hp
  have hdec : decPtr (encSymbolIndirection n) = n := indirection.inj h.payload
  rw [← hdec]
  exact ptrIx_lt _

/-- **The encodings are faithful, except for the indirections whose number does not fit.** -/
theorem faithful_iff (hp : p.Encodable) :
    p.Faithful ↔ ∀ n, p = .indirection n → n.toNat < 2 ^ 23 := by
  constructor
  · exact Faithful.fits
  · intro hfits
    constructor
    · exact dec_enc hp hfits
    · exact typeOf_enc hp hfits
    · exact valGetGcMark_enc p
    · exact sameAs_valSetGcMark p p.enc
    · exact ⟨sameAs_valClrGcMark p p.enc, sameAs_valClrGcMark p (valSetGcMark p.enc)⟩
    · intro q hq hne heq
      exact hne (enc_injective hp hq heq)

/-- Minus one, and the indirections on both sides of the bound. -/
theorem faithful_iff_border :
    (i28 0xFFFFFFFF#32).Faithful ∧ (indirection 0x7FFFFF#32).Faithful
      ∧ ¬(indirection 0x800000#32).Faithful := by
  refine ⟨(faithful_iff (by decide)).mpr ?_, (faithful_iff (by decide)).mpr ?_, fun hfaithful => ?_⟩
  · intro n hn
    cases hn
  · intro n hn
    rw [← indirection.inj hn]
    decide
  · have hlt := (faithful_iff (by decide)).mp hfaithful _ rfl
    exact absurd hlt (by decide)

/-- `(mk-sym-indirect 8388608u28)` is accepted. Its word has the number 0, and a type that no
encoding has. -/
theorem not_faithful_indirection :
    (∀ fo nargs st h, fundamentalExec fo [encU 0x800000#32] nargs (encSym symMkSymbolIndirect) st h
        = some (encSymbolIndirection 0x800000#32, h, st))
      ∧ (indirection 0x800000#32).Encodable
      ∧ decSymbolIndirection (encSymbolIndirection 0x800000#32) = 0#32
      ∧ typeOf (encSymbolIndirection 0x800000#32) = 0x54000000#32
      ∧ ¬ ∀ p : Payload, p.Encodable → p.Faithful := by
  have hrun : ∀ fo nargs st h,
      fundamentalExec fo [encU 0x800000#32] nargs (encSym symMkSymbolIndirect) st h
        = some (encSymbolIndirection 0x800000#32, h, st) := by
    intro fo nargs st h
    rw [fundamentalExec_mkSymbolIndirect_encU (by decide), if_pos (by decide)]
  have hacc : (indirection 0x800000#32).Encodable := by decide
  have hnot : ¬ (indirection 0x800000#32).Faithful := by
    intro h
    have hlt := h.fits _ rfl
    exact absurd hlt (by decide)
  exact ⟨hrun, hacc, by decide, by decide, fun hall => hnot (hall _ hacc)⟩

end Payload

end LispBM
