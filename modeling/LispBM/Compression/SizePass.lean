import LispBM.Compression.RoundTrip

/-!
# LispBM — the size pass and the emitting pass (`src/compression.c`)

`compressed_length` and the loop of `compression_compress` are two copies of one lexer: only the
second overwrites white space, and only the first asks `isspace`. Both follow the text in the sense
of `Follows`, so they stop at the same places and count the same bits. `emitInside` writes a bit
only if its byte is in the buffer; with it the emitting pass ends exactly where the header says.

* `compress_sizePass` — a compressed text has the bits that were counted, all inside the buffer, and
  a text that cannot be counted is not compressed.
-/

namespace LispBM

namespace Compression

open BitBuffer PrefixCode

/-! ## Writing inside the buffer -/

/-- A bit is written at `bit_pos` if there is a byte for it. -/
def writeInside (s : List Byte × Nat) (b : Bool) : Option (List Byte × Nat) :=
  if s.2 / 8 < s.1.length then some (writeBit s.1 s.2 b, s.2 + 1) else none

/-- The bits of a code or of a character; `none` once a bit was behind the buffer. -/
def emitInside (s : Option (List Byte × Nat)) (bs : List Bool) : Option (List Byte × Nat) :=
  bs.foldl (fun s b => s.bind fun t => writeInside t b) s

theorem emitInside_eq {bs : List Bool} : ∀ {buf : List Byte} {pos : Nat},
    pos + bs.length ≤ 8 * buf.length →
    emitInside (some (buf, pos)) bs = some (emitBits (buf, pos) bs) := by
  induction bs with
  | nil => intro buf pos _; rfl
  | cons b bs ih =>
    intro buf pos hroom
    rw [List.length_cons] at hroom
    have hbyte : pos / 8 < buf.length := by omega
    have hwrite : writeInside (buf, pos) b = some (writeBit buf pos b, pos + 1) := if_pos hbyte
    show emitInside (writeInside (buf, pos) b) bs = _
    rw [hwrite, ih (by rw [length_writeBit]; omega)]
    show some (writeBits (writeBit buf pos b) (pos + 1) bs, pos + 1 + bs.length) = _
    rw [emitBits, writeBits, List.length_cons, Nat.add_assoc, Nat.add_comm 1]

theorem follows_emitInside :
    Follows (· == chr ' ') (fun _ => chr ' ')
      (fun fuel pre suf s inside gap =>
        compressLoopOn emitInside fuel (pre ++ suf) pre.length s inside gap) emitInside id :=
  follows_compressOn (fun _ => rfl) fun _ _ _ => List.foldl_append

/-! ## The passes end -/

section

variable {σ ρ : Type} {isGap : Byte → Bool} {gapChar : Byte → Byte}
  {run : Nat → List Byte → List Byte → σ → Bool → Bool → Option ρ} {emit : σ → List Bool → σ}
  {fin : σ → ρ}

/-- What a loop does does not depend on the number of iterations it is given, once they suffice
for the text. -/
theorem Follows.fuel_eq (hf : Follows isGap gapChar run emit fin)
    (hnoKey : ∀ pre c cs s, c ≠ chr ';' → isWhitespace c = false →
      matchLongestKey (c :: cs) = none →
      (∀ fuel, run (fuel + 1) pre (c :: cs) s false false = none)
        ∨ ∃ s', ∀ fuel, run (fuel + 1) pre (c :: cs) s false false
          = run fuel (pre ++ [c]) cs s' false false)
    {fuel : Nat} : ∀ {fuel' : Nat} {place : Place} {gap : Bool} {pre suf : List Byte} {s : σ},
    Ready isGap place gap pre suf → (∀ c ∈ suf, c ≠ 0#8) →
    2 * suf.length + gap.toNat < fuel → 2 * suf.length + gap.toNat < fuel' →
    run fuel' pre suf s place.isInside gap = run fuel pre suf s place.isInside gap := by
  induction fuel with
  | zero =>
    intro fuel' place gap pre suf s _ _ hfuel
    omega
  | succ fuel ih =>
    rintro (_ | fuel') place gap pre suf s hready hnul hfuel hfuel'
    · omega
    cases suf with
    | nil => rw [hf.done, hf.done]
    | cons c cs =>
      have hnul' : ∀ d ∈ cs, d ≠ 0#8 := fun d hd => hnul d (List.mem_cons_of_mem _ hd)
      rw [List.length_cons] at hfuel hfuel'
      cases place with
      | comment => exact absurd rfl hready.notComment
      | inside escaped =>
        obtain ⟨rfl, pre', d, rfl, rfl⟩ := hready.inside escaped rfl
        rw [Bool.toNat_false] at hfuel hfuel'
        rw [isInside_inside, hf.inside, hf.inside]
        cases hclose : c == chr '"' && !(d == chr '\\') with
        | true =>
          apply ih (ready_close cs) hnul'
          · rw [Bool.toNat_false]
            omega
          · rw [Bool.toNat_false]
            omega
        | false =>
          apply ih (ready_char cs) hnul'
          · rw [Bool.toNat_false]
            omega
          · rw [Bool.toNat_false]
            omega
      | outside =>
        rw [isInside_outside]
        by_cases hcomment : c = chr ';'
        · subst hcomment
          have hdrop := List.length_dropWhile_le inComment cs
          rw [hf.comment, hf.comment]
          apply ih (ready_comment hnul') fun d hd => hnul' d (List.dropWhile_subset _ hd)
          · omega
          · omega
        cases hspace : isWhitespace c with
        | true =>
          rw [hf.whitespace _ _ _ _ _ _ hcomment hspace, hf.whitespace _ _ _ _ _ _ hcomment hspace]
          apply ih (ready_whitespace (hf.isGap_gapChar c hspace) cs) hnul'
          · rw [Bool.toNat_true]
            omega
          · rw [Bool.toNat_true]
            omega
        | false =>
          cases gap with
          | true =>
            -- the step back is paid for by the white space before it
            obtain ⟨pre', w, rfl, hw⟩ := hready.gap_eq hspace
            rw [Bool.toNat_true] at hfuel hfuel'
            rw [hf.gap _ _ _ _ _ _ hw hcomment hspace, hf.gap _ _ _ _ _ _ hw hcomment hspace]
            apply ih (ready_close (c :: cs)) hnul
            · rw [List.length_cons, Bool.toNat_false]
              omega
            · rw [List.length_cons, Bool.toNat_false]
              omega
          | false =>
            cases hix : matchLongestKey (c :: cs) with
            | none =>
              rw [Bool.toNat_false] at hfuel hfuel'
              rcases hnoKey pre c cs s hcomment hspace hix with hstop | ⟨s', hskip⟩
              · rw [hstop, hstop]
              · rw [hskip, hskip]
                apply ih (ready_close cs) hnul'
                · rw [Bool.toNat_false]
                  omega
                · rw [Bool.toNat_false]
                  omega
            | some ix =>
              obtain ⟨hlt, rest, hrest⟩ := matchLongestKey_spec hix
              have hpos := length_keyOf_pos hlt
              have hlen : (keyOf ix).length + rest.length = cs.length + 1 := by
                rw [← List.length_append, hrest, List.length_cons]
              rw [Bool.toNat_false] at hfuel hfuel'
              rw [hf.key _ _ _ _ _ _ _ hcomment hspace hix hrest.symm,
                hf.key _ _ _ _ _ _ _ hcomment hspace hix hrest.symm, ← isInside_ite]
              apply ih (ready_key hlt hrest.symm)
                fun d hd => hnul d (hrest ▸ List.mem_append_right _ hd)
              · rw [Bool.toNat_false]
                omega
              · rw [Bool.toNat_false]
                omega

end

section

variable {malloc : Nat → Bool} {s : CString} {items : List Item} {comp : List Byte}

/-- Where no key matches, `compressed_length` returns -1, or passes a vertical tab or a form feed,
which `isspace` takes for a space. -/
theorem compressedLengthLoop_noKey {compLen : Nat} {pre cs : List Byte} {c : Byte}
    (hcomment : c ≠ chr ';') (hspace : isWhitespace c = false)
    (hix : matchLongestKey (c :: cs) = none) :
    (∀ fuel, compressedLengthLoop (pre ++ c :: cs) (fuel + 1) pre.length compLen false false = none)
      ∨ ∃ compLen', ∀ fuel,
        compressedLengthLoop (pre ++ c :: cs) (fuel + 1) pre.length compLen false false
          = compressedLengthLoop (pre ++ [c] ++ cs) fuel (pre ++ [c]).length compLen' false
            false := by
  by_cases hc : isspace c = true
  · right
    refine ⟨compLen + (codeOf 12).length, fun fuel => ?_⟩
    have hquote : (c == chr '"') = false := by
      rw [beq_eq_false_iff_ne]
      rintro rfl
      exact absurd hc (by decide)
    rw [compressedLengthLoop, if_pos (by simp), if_neg (by simp), charAt_append,
      if_neg (by simpa using hcomment), if_neg (by simp [hspace])]
    simp only [Bool.false_eq_true, if_false, charAt_append, if_pos hc,
      matchLongestKey_space, hquote,
      keyOf_space, List.length_singleton, List.length_append, List.append_assoc,
      List.singleton_append]
  · left
    intro fuel
    rw [compressedLengthLoop, if_pos (by simp), if_neg (by simp), charAt_append,
      if_neg (by simpa using hcomment), if_neg (by simp [hspace])]
    simp only [Bool.false_eq_true, if_false, charAt_append, List.drop_left, hix, hc]

/-- The -1 of `compressed_length` is a character without a key, not a loop that was cut off. -/
theorem compressedLengthLoop_fuel {fuel : Nat} (hfuel : loopFuel s.chars ≤ fuel) :
    compressedLengthLoop s.chars fuel 0 0 false false = compressedLength s.chars := by
  have hlt : 2 * s.chars.length + Bool.toNat false < loopFuel s.chars := by
    rw [loopFuel, Bool.toNat_false]
    omega
  exact follows_compressedLength.fuel_eq (fun _ _ _ _ => compressedLengthLoop_noKey)
    (s := 0) (ready_start _ _) s.no_nul hlt (hlt.trans_le hfuel)

/-- So is the NULL of the emitting pass. -/
theorem compressLoop_fuel {fuel : Nat} (hfuel : loopFuel s.chars ≤ fuel) (buf : List Byte) :
    compressLoop fuel s.chars 0 buf 32 false false
      = compressLoop (loopFuel s.chars) s.chars 0 buf 32 false false := by
  have hlt : 2 * s.chars.length + Bool.toNat false < loopFuel s.chars := by
    rw [loopFuel, Bool.toNat_false]
    omega
  exact follows_compress.fuel_eq
    (fun _ _ _ _ hcomment hspace hix => .inl fun _ => compressLoop_noKey hcomment hspace hix)
    (s := (buf, 32)) (ready_start _ _) s.no_nul hlt (hlt.trans_le hfuel)

/-! ## The size pass agrees with the emitting pass -/

theorem length_blank_eq (bits : Nat) : (blank bits).length = 4 + (bits + 7) / 8 := by
  simp only [blank, header, sizeBytes, List.length_append, List.length_map, List.length_range,
    List.length_replicate]
  split <;> omega

/-- The emitting pass from the bit behind the header, with every write checked. -/
theorem Scans.emitsInside (h : Scans .outside false s.chars items) :
    compressLoopOn emitInside (loopFuel s.chars) s.chars 0
        (some (blank (items.flatMap Item.bits).length, 32)) false false
      = some (some (emitBits (blank (items.flatMap Item.bits).length, 32)
          (items.flatMap Item.bits))) := by
  have hrun := follows_emitInside.eq h (s := some (blank (items.flatMap Item.bits).length, 32))
    (ready_start _ _) s.no_nul
    (show _ < loopFuel s.chars by rw [loopFuel, Bool.toNat_false]; omega)
  rw [emitInside_eq (length_blank _)] at hrun
  exact hrun

/-- **The size pass agrees with the emitting pass.** A compressed text has the counted bits behind
its header, the header holds their number, every bit was written inside the allocated bytes; and a
text that cannot be counted gives NULL. -/
theorem compress_sizePass (malloc : Nat → Bool) (s : CString) :
    (∀ comp, compress malloc s = some comp →
      ∃ bits, compressedLength s.chars = some bits
        ∧ compressLoopOn emitInside (loopFuel s.chars) s.chars 0 (some (blank bits, 32)) false false
          = some (some (comp, 32 + bits))
        ∧ (initState comp).compressedBits = bits
        ∧ comp.length = 4 + (bits + 7) / 8)
      ∧ (compressedLength s.chars = none → compress malloc s = none) := by
  constructor
  · intro comp hcomp
    obtain ⟨items, hscans, hlt, rfl⟩ := compress_eq_some hcomp
    refine ⟨(items.flatMap Item.bits).length, hscans.compressedLength_eq, hscans.emitsInside,
      compressedBits_initState (by omega), ?_⟩
    rw [length_writeBits, length_blank_eq]
  · intro hnone
    cases hcomp : compress malloc s with
    | none => rfl
    | some comp =>
      obtain ⟨items, hscans, -⟩ := compress_eq_some hcomp
      have hsome := hscans.compressedLength_eq
      rw [hnone] at hsome
      cases hsome

/-- `twoForms` is compressed, `\x01` has no key. -/
theorem compress_sizePass_twoForms :
    (∃ comp bits, compress (fun _ => true) twoForms = some comp
      ∧ compressedLength twoForms.chars = some bits ∧ comp.length = 4 + (bits + 7) / 8)
      ∧ ∀ s : CString, s.chars = [1#8] → compress (fun _ => true) s = none := by
  constructor
  · have hsome : (compress (fun _ => true) twoForms).isSome = true := by decide +kernel
    obtain ⟨comp, hcomp⟩ := Option.isSome_iff_exists.mp hsome
    obtain ⟨bits, hbits, -, -, hlen⟩ := (compress_sizePass (fun _ => true) twoForms).1 comp hcomp
    exact ⟨comp, bits, hcomp, hbits, hlen⟩
  · intro s hs
    apply (compress_sizePass (fun _ => true) s).2
    rw [hs]
    decide +kernel

end

end Compression

end LispBM
