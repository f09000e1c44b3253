import LispBM.Compression.Decoding

/-!
# LispBM — decompression of arbitrary bits

Any bits are code words and characters up to a point. There they are at an end, or no code word
begins with what is left, or less than a character of a string literal is left; the decompressor
tells only the second of these from the first.

* `exists_decodes`, `Decodes.unique` — how bits decode, and that there is one way;
* `DecompState.Ahead.step` — what a call of `compression_decompress_incremental` does;
* `decompress_eq` — the result of `compression_decompress` on any bytes.
-/

namespace LispBM

namespace Compression

open BitBuffer PrefixCode

/-! ## How bits decode -/

/-- What there is where the items end: nothing, bits that do not begin with a code word, or a part
of a character. -/
inductive Ending where
  | complete
  | undecodable
  | truncated
deriving DecidableEq

/-- The items of bits, from a place on. -/
inductive Decodes : Place → List Bool → List Item → Ending → Prop where
  | complete {place : Place} : Decodes place [] [] .complete
  | key {ix : Nat} {bits : List Bool} {items : List Item} {e : Ending} (hix : ix < 66)
      (h : Decodes (.afterKey ix) bits items e) :
      Decodes .outside (codeOf ix ++ bits) (.key ix :: items) e
  | char {escaped : Bool} {c : Byte} {bits : List Bool} {items : List Item} {e : Ending}
      (h : Decodes (.afterChar escaped c) bits items e) :
      Decodes (.inside escaped) (charBits c ++ bits) (.raw c :: items) e
  | undecodable {bits : List Bool} (hne : bits ≠ []) (h : ∀ ix, ix < 66 → ¬codeOf ix <+: bits) :
      Decodes .outside bits [] .undecodable
  | truncated {escaped : Bool} {bits : List Bool} (hne : bits ≠ []) (h : bits.length < 8) :
      Decodes (.inside escaped) bits [] .truncated

theorem length_charBits (c : Byte) : (charBits c).length = 8 := by
  rw [charBits, List.length_map, List.length_range]

theorem afterKey_ne_comment (ix : Nat) : Place.afterKey ix ≠ .comment := by
  unfold Place.afterKey
  split <;> simp

theorem afterChar_ne_comment (escaped : Bool) (c : Byte) :
    Place.afterChar escaped c ≠ .comment := by
  unfold Place.afterChar
  split <;> simp

/-- Eight bits are a character. -/
theorem exists_charBits {bits : List Bool} (h : bits.length = 8) : ∃ c, bits = charBits c := by
  refine ⟨(BitVec.ofBoolListLE bits).cast h, ?_⟩
  apply List.ext_getElem
  · rw [length_charBits]
    exact h
  · intro i hi hi'
    simp [charBits, hi]

theorem charBits_injective {c d : Byte} (h : charBits c = charBits d) : c = d := by
  apply BitVec.eq_of_getLsbD_eq
  intro i hi
  have := List.map_inj_left.mp h i (List.mem_range.mpr hi)
  exact this

/-- **All bits decode up to a point.** -/
theorem exists_decodes {place : Place} (hplace : place ≠ .comment) (bits : List Bool) :
    ∃ items e, Decodes place bits items e := by
  induction hn : bits.length using Nat.strong_induction_on generalizing place bits with
  | h n ih =>
    by_cases hne : bits = []
    · subst hne
      exact ⟨[], _, .complete⟩
    · have hpos := List.length_pos_of_ne_nil hne
      cases place with
      | comment => exact absurd rfl hplace
      | outside =>
        by_cases hcode : ∀ ix, ix < 66 → ¬codeOf ix <+: bits
        · exact ⟨[], _, .undecodable hne hcode⟩
        · push Not at hcode
          obtain ⟨ix, hix, rest, hrest⟩ := hcode
          have hcodePos := List.length_pos_of_ne_nil (keyKind hix).2
          have hlen : rest.length < n := by
            rw [← hn, ← hrest, List.length_append]
            omega
          obtain ⟨items, e, hitems⟩ := ih _ hlen (afterKey_ne_comment ix) rest rfl
          rw [← hrest]
          exact ⟨_, e, .key hix hitems⟩
      | inside escaped =>
        by_cases hshort : bits.length < 8
        · exact ⟨[], _, .truncated hne hshort⟩
        · obtain ⟨c, hc⟩ := @exists_charBits (bits.take 8) (by
            rw [List.length_take]
            omega)
          have hlen : (bits.drop 8).length < n := by
            rw [List.length_drop]
            omega
          obtain ⟨items, e, hitems⟩ := ih _ hlen (afterChar_ne_comment escaped c) (bits.drop 8) rfl
          rw [← List.take_append_drop 8 bits, hc]
          exact ⟨_, e, .char hitems⟩

/-- Two code words that begin the same bits are the same one. -/
theorem codeOf_prefix_unique {ix jx : Nat} {bits : List Bool} (hix : ix < 66) (hjx : jx < 66)
    (hi : codeOf ix <+: bits) (hj : codeOf jx <+: bits) : ix = jx := by
  have hcode : ∀ {k}, k < 66 → (codes.map (·.2))[k]? = some (codeOf k) := by
    intro k hk
    rw [List.getElem?_map, codes_getElem? hk]
    rfl
  exact prefixFree_codes.index_eq (hcode hix) (hcode hjx) hi hj

/-- **Bits decode in one way.** -/
theorem Decodes.unique {place : Place} {bits : List Bool} {items items' : List Item}
    {e e' : Ending} (h : Decodes place bits items e) (h' : Decodes place bits items' e') :
    items = items' ∧ e = e' := by
  induction h generalizing items' e' with
  | complete =>
    generalize hbits : ([] : List Bool) = bits at h'
    cases h' with
    | complete => exact ⟨rfl, rfl⟩
    | key hix _ => exact absurd (List.append_eq_nil_iff.mp hbits.symm).1 (keyKind hix).2
    | char _ =>
      have hlen := congrArg List.length hbits
      rw [List.length_append, length_charBits, List.length_nil] at hlen
      omega
    | undecodable hne _ => exact absurd hbits.symm hne
    | truncated hne _ => exact absurd hbits.symm hne
  | @key ix bits items e hix h ih =>
    generalize hbits : codeOf ix ++ bits = all at h'
    have hpre : codeOf ix <+: all := ⟨bits, hbits⟩
    cases h' with
    | complete => exact absurd (List.append_eq_nil_iff.mp hbits).1 (keyKind hix).2
    | @key jx bits' items' e' hjx h' =>
      obtain rfl := codeOf_prefix_unique hix hjx hpre (List.prefix_append _ _)
      obtain rfl := List.append_cancel_left hbits
      obtain ⟨hitems, he⟩ := ih h'
      exact ⟨by rw [hitems], he⟩
    | undecodable _ hno => exact absurd hpre (hno ix hix)
  | @char escaped c bits items e h ih =>
    generalize hbits : charBits c ++ bits = all at h'
    have hlen := congrArg List.length hbits
    rw [List.length_append, length_charBits] at hlen
    cases h' with
    | complete => simp at hlen
    | @char _ d bits' items' e' h' =>
      obtain ⟨hc, hrest⟩ := List.append_inj hbits (by rw [length_charBits, length_charBits])
      obtain rfl := charBits_injective hc
      obtain rfl := hrest
      obtain ⟨hitems, he⟩ := ih h'
      exact ⟨by rw [hitems], he⟩
    | truncated _ hshort => omega
  | @undecodable bits hne hno =>
    cases h' with
    | complete => exact absurd rfl hne
    | key hix _ => exact absurd (List.prefix_append _ _) (hno _ hix)
    | undecodable _ _ => exact ⟨rfl, rfl⟩
  | @truncated escaped bits hne hshort =>
    cases h' with
    | complete => exact absurd rfl hne
    | char _ =>
      rw [List.length_append, length_charBits] at hshort
      omega
    | truncated _ _ => exact ⟨rfl, rfl⟩

/-- Bits that do not decode are bits. -/
theorem Decodes.ne_nil {place : Place} {bits : List Bool} {items : List Item}
    (h : Decodes place bits items .undecodable) : bits ≠ [] := by
  cases h with
  | key hix _ => exact List.append_ne_nil_of_left_ne_nil (keyKind hix).2 _
  | char _ =>
    apply List.ne_nil_of_length_pos
    rw [List.length_append, length_charBits]
    omega
  | undecodable hne _ => exact hne

/-- Bits that decode are those of their items. -/
theorem Decodes.reads {place : Place} {bits : List Bool} {items : List Item} {e : Ending}
    (h : Decodes place bits items e) (he : e = .complete) :
    Reads place items ∧ items.flatMap Item.bits = bits := by
  induction h with
  | complete => exact ⟨.nil, rfl⟩
  | key hix _ ih =>
    obtain ⟨hreads, hbits⟩ := ih he
    exact ⟨.key hix hreads, by rw [List.flatMap_cons, hbits]; rfl⟩
  | char _ ih =>
    obtain ⟨hreads, hbits⟩ := ih he
    exact ⟨.raw hreads, by rw [List.flatMap_cons, hbits]; rfl⟩
  | undecodable _ _ => exact absurd he (by decide)
  | truncated _ _ => exact absurd he (by decide)

/-! ## The decompressor on its way -/

theorem readBits_split {src : List Byte} {i n : Nat} {xs ys : List Bool}
    (h : readBits src i n = xs ++ ys) :
    readBits src i xs.length = xs ∧ readBits src (i + xs.length) (n - xs.length) = ys
      ∧ xs.length + ys.length = n := by
  have hlen : xs.length + ys.length = n := by
    rw [← List.length_append, ← h, length_readBits]
  rw [show n = xs.length + (n - xs.length) by omega, readBits_append] at h
  obtain ⟨hxs, hys⟩ := List.append_inj h (by rw [length_readBits])
  exact ⟨hxs, hys, hlen⟩

/-- Nothing is found where no code word begins. -/
theorem matchLongestCode_eq_none {src : List Byte} {start total : Nat}
    (h : ∀ ix, ix < 66 → ¬codeOf ix <+: readBits src start (total - start)) :
    matchLongestCode src start total = none := by
  cases hmatch : matchLongestCode src start total with
  | none => rfl
  | some j =>
    obtain ⟨e, he, hbits⟩ := longest_matches hmatch
    simp only [map_range_bit, Bool.and_eq_true, decide_eq_true_eq, beq_iff_eq] at hbits
    have hj : j < 66 := by
      rw [← length_codes]
      exact (List.getElem?_eq_some_iff.mp he).1
    rw [codes_getElem? hj] at he
    obtain rfl := Option.some.inj he
    apply absurd _ (h j hj)
    -- the code word is what is read first
    have hsplit : total - start = (codeOf j).length + (total - start - (codeOf j).length) := by
      have hle : (codeOf j).length ≤ total - start := hbits.1
      omega
    rw [hsplit, readBits_append]
    exact ⟨_, congrArg (· ++ _) hbits.2⟩

/-- The decompressor is in a place, and the bits before it are the items. -/
structure DecompState.Ahead (s : DecompState) (place : Place) (items : List Item) (e : Ending) :
    Prop where
  isIn : s.IsIn place
  decodes : Decodes place (readBits s.src s.i (s.compressedBits + 32 - s.i)) items e
  le : s.i ≤ s.compressedBits + 32
  lt : s.compressedBits < 2 ^ 31

section

variable {s : DecompState} {place : Place} {item : Item} {items : List Item} {e : Ending}

theorem DecompState.Ahead.moved (h : s.Ahead place items e) {s' : DecompState} {place' : Place}
    {xs ys : List Bool} {items' : List Item} {e' : Ending} (hm : s.Moved s' xs.length place')
    (hbits : readBits s.src s.i (s.compressedBits + 32 - s.i) = xs ++ ys)
    (hys : Decodes place' ys items' e') : s'.Ahead place' items' e' := by
  obtain ⟨-, hrest, hlen⟩ := readBits_split hbits
  have hle := h.le
  refine ⟨hm.isIn, ?_, ?_, ?_⟩
  · rw [hm.src, hm.i, hm.compressedBits, Nat.sub_add_eq, hrest]
    exact hys
  · rw [hm.i, hm.compressedBits]
    omega
  · rw [hm.compressedBits]
    exact h.lt

theorem DecompState.Ahead.text_ne_nil (h : s.Ahead place (item :: items) e) : item.text ≠ [] := by
  have hdecodes := h.decodes
  generalize readBits s.src s.i (s.compressedBits + 32 - s.i) = all at hdecodes
  cases hdecodes with
  | key hix _ => exact List.length_pos_iff.mp (length_keyOf_pos hix)
  | char _ => exact List.cons_ne_nil _ _

/-- One item is read at a time. -/
theorem DecompState.Ahead.next (h : s.Ahead place (item :: items) e) :
    ∃ s' place', decompressIncremental s = (some item.text, s') ∧ s'.Ahead place' items e := by
  have hlt := h.lt
  have hle := h.le
  generalize hall : readBits s.src s.i (s.compressedBits + 32 - s.i) = all at *
  have hdecodes := h.decodes
  rw [hall] at hdecodes
  cases hdecodes with
  | @key ix bits _ _ hix hrest =>
    obtain ⟨hword, -, hlen⟩ := readBits_split hall
    obtain ⟨s', hincr, hm⟩ := h.isIn.key hix (by omega) (by omega) hword
    exact ⟨s', _, hincr, h.moved hm hall hrest⟩
  | @char escaped c bits _ _ hrest =>
    obtain ⟨hchar, -, hlen⟩ := readBits_split hall
    rw [length_charBits] at hchar hlen
    obtain ⟨s', hincr, hm⟩ := h.isIn.char (by omega) (by omega) (by omega)
    rw [readCharacter_eq hchar] at hincr hm
    rw [← length_charBits c] at hm
    exact ⟨s', _, hincr, h.moved hm hall hrest⟩

theorem DecompState.Ahead.complete (h : s.Ahead place [] .complete) :
    decompressIncremental s = (some [], s) := by
  have hle := h.le
  have hlt := h.lt
  have hdecodes := h.decodes
  generalize hall : readBits s.src s.i (s.compressedBits + 32 - s.i) = all at hdecodes
  cases hdecodes with
  | complete =>
    have hlen := congrArg List.length hall
    rw [length_readBits, List.length_nil] at hlen
    rw [decompressIncremental, if_neg]
    rw [Nat.mod_eq_of_lt (by omega)]
    omega

/-- There are bits left. -/
theorem DecompState.Ahead.more {bits : List Bool} (h : s.Ahead place items e)
    (hbits : readBits s.src s.i (s.compressedBits + 32 - s.i) = bits) (hne : bits ≠ []) :
    s.i < (s.compressedBits + 32) % 2 ^ 32 ∧ s.i + bits.length = s.compressedBits + 32 := by
  have hle := h.le
  have hlt := h.lt
  have hpos := List.length_pos_of_ne_nil hne
  have hlen := congrArg List.length hbits
  rw [length_readBits] at hlen
  rw [Nat.mod_eq_of_lt (by omega)]
  omega

theorem DecompState.Ahead.undecodable (h : s.Ahead place [] .undecodable) :
    place = .outside ∧ decompressIncremental s = (none, s) := by
  have hlt := h.lt
  have hdecodes := h.decodes
  generalize hall : readBits s.src s.i (s.compressedBits + 32 - s.i) = all at hdecodes
  cases hdecodes with
  | undecodable hne hno =>
    have hmode : s.stringMode = false := h.isIn.stringMode
    have hmatch : matchLongestCode s.src s.i ((s.compressedBits + 32) % 2 ^ 32) = none := by
      rw [Nat.mod_eq_of_lt (by omega)]
      apply matchLongestCode_eq_none
      rw [hall]
      exact hno
    refine ⟨rfl, ?_⟩
    rw [decompressIncremental, if_pos (h.more hall hne).1, if_neg (by simp [hmode]), hmatch]

/-- A part of a character is taken for a character, and then nothing is left. -/
theorem DecompState.Ahead.truncated (h : s.Ahead place [] .truncated) :
    ∃ c s', decompressIncremental s = (some [c], s') ∧ decompressIncremental s' = (some [], s')
      ∧ s.i + 8 > s.compressedBits + 32 := by
  have hlt := h.lt
  have hdecodes := h.decodes
  generalize hall : readBits s.src s.i (s.compressedBits + 32 - s.i) = all at hdecodes
  cases hdecodes with
  | @truncated escaped bits hne hshort =>
    obtain ⟨hmore, hlen⟩ := h.more hall hne
    rw [Nat.mod_eq_of_lt (by omega)] at hmore
    obtain ⟨s', hincr, hm⟩ := h.isIn.char (by omega) hmore (by omega)
    refine ⟨_, s', hincr, ?_, by omega⟩
    rw [decompressIncremental, if_neg]
    rw [hm.i, hm.compressedBits, Nat.mod_eq_of_lt (by omega)]
    omega

/-! ## Runs -/

/-- The characters that are made of a part of one. -/
def Ending.extra : Ending → Nat
  | .truncated => 1
  | _ => 0

/-- The loop of `compression_decompress`: it fails where nothing is decoded, and only there. -/
theorem decompressLoop_ahead {destN : Nat} : ∀ {items : List Item} {fuel : Nat} {s : DecompState}
    {place : Place} {dest : List Byte}, s.Ahead place items e → items.length + 1 < fuel →
    (dest.length + (items.flatMap Item.text).length + e.extra ≤ destN →
      ∃ tail, tail.length = e.extra ∧ decompressLoop destN fuel s dest
        = some (e != .undecodable, dest ++ items.flatMap Item.text ++ tail))
    ∧ (destN < dest.length + (items.flatMap Item.text).length + e.extra →
      dest.length ≤ destN → decompressLoop destN fuel s dest = none) := by
  intro items
  induction items with
  | nil =>
    intro fuel s place dest h hfuel
    obtain ⟨fuel, rfl⟩ : ∃ k, fuel = k + 2 := ⟨fuel - 2, by simp at hfuel; omega⟩
    rw [List.flatMap_nil, List.length_nil, List.append_nil, decompressLoop]
    cases e with
    | complete =>
      rw [h.complete]
      exact ⟨fun _ => ⟨[], rfl, by rw [List.append_nil]; rfl⟩, fun hlt hle => absurd hlt (by
        show ¬destN < dest.length + 0 + 0
        omega)⟩
    | undecodable =>
      rw [h.undecodable.2]
      exact ⟨fun _ => ⟨[], rfl, by rw [List.append_nil]; rfl⟩, fun hlt hle => absurd hlt (by
        show ¬destN < dest.length + 0 + 0
        omega)⟩
    | truncated =>
      obtain ⟨c, s', hincr, hdone, -⟩ := h.truncated
      rw [hincr]
      show (dest.length + 0 + 1 ≤ destN → _) ∧ (destN < dest.length + 0 + 1 → _)
      refine ⟨fun hle => ⟨[c], rfl, ?_⟩, fun hlt _ => ?_⟩
      · dsimp only
        rw [if_pos (by simpa using hle), decompressLoop, hdone]
        rfl
      · dsimp only
        rw [if_neg (by simpa using hlt)]
  | cons item items ih =>
    intro fuel s place dest h hfuel
    obtain ⟨fuel, rfl⟩ : ∃ k, fuel = k + 1 := ⟨fuel - 1, by omega⟩
    obtain ⟨s', place', hincr, h'⟩ := h.next
    obtain ⟨c, cs, htext⟩ := List.exists_cons_of_ne_nil h.text_ne_nil
    rw [List.length_cons] at hfuel
    rw [decompressLoop, hincr, List.flatMap_cons, List.length_append, htext]
    dsimp only
    by_cases hfit : dest.length + (c :: cs).length ≤ destN
    · obtain ⟨hroom, hfull⟩ := @ih fuel s' place' (dest ++ c :: cs) h' (by omega)
      rw [List.length_append] at hroom hfull
      rw [if_pos hfit]
      refine ⟨fun hle => ?_, fun hlt _ => hfull (by omega) hfit⟩
      obtain ⟨tail, htail, heq⟩ := hroom (by omega)
      refine ⟨tail, htail, ?_⟩
      rw [heq, List.append_assoc dest]
    · rw [if_neg hfit]
      exact ⟨fun hle => absurd hle (by omega), fun _ _ => rfl⟩

end

/-! ## What is read of the buffer -/

/-- The bits that `compression_decompress_incremental` reads. `match_longest_code` compares all bits
of every code word that is not longer than what is left. -/
def bitsRead (s : DecompState) : List Nat :=
  if s.i < (s.compressedBits + 32) % 2 ^ 32 then
    if s.stringMode then List.range' s.i 8
    else (codes.filter fun e => e.2.length ≤ (s.compressedBits + 32) % 2 ^ 32 - s.i).flatMap
      fun e => List.range' s.i e.2.length
  else []

/-- The state after `k` calls. -/
def stateAfter (src : List Byte) (k : Nat) : DecompState :=
  (fun s => (decompressIncremental s).2)^[k] (initState src)

section

variable {s : DecompState} {place : Place} {items : List Item} {e : Ending}

theorem bitsRead_lt (h : s.Ahead place items e) (he : e ≠ .truncated) :
    ∀ p ∈ bitsRead s, p < s.compressedBits + 32 := by
  intro p hp
  have hlt := h.lt
  have htotal : (s.compressedBits + 32) % 2 ^ 32 = s.compressedBits + 32 :=
    Nat.mod_eq_of_lt (by omega)
  rw [bitsRead, htotal] at hp
  by_cases hmore : s.i < s.compressedBits + 32
  · rw [if_pos hmore] at hp
    by_cases hmode : s.stringMode = true
    · rw [if_pos hmode, List.mem_range'_1] at hp
      have hinside := h.isIn.stringMode.symm.trans hmode
      have hdecodes := h.decodes
      generalize hall : readBits s.src s.i (s.compressedBits + 32 - s.i) = all at hdecodes
      cases hdecodes with
      | complete =>
        have hlen := congrArg List.length hall
        rw [length_readBits, List.length_nil] at hlen
        omega
      | key _ _ => exact absurd hinside (by simp)
      | @char _ c bits _ _ _ =>
        obtain ⟨-, -, hlen⟩ := readBits_split hall
        rw [length_charBits] at hlen
        omega
      | undecodable _ _ => exact absurd hinside (by simp)
      | truncated _ _ => exact absurd rfl he
    · rw [if_neg hmode, List.mem_flatMap] at hp
      obtain ⟨entry, hentry, hp⟩ := hp
      have hfits := of_decide_eq_true (List.mem_filter.mp hentry).2
      rw [List.mem_range'_1] at hp
      omega
  · rw [if_neg hmore] at hp
    exact absurd hp List.not_mem_nil

theorem compressedBits_incremental (s : DecompState) :
    (decompressIncremental s).2.compressedBits = s.compressedBits := by
  rw [decompressIncremental]
  split
  · split
    · rfl
    · cases matchLongestCode s.src s.i ((s.compressedBits + 32) % 2 ^ 32) with
      | none => rfl
      | some ix =>
        dsimp only
        split <;> rfl
  · rfl

/-- All calls read declared bits only. -/
theorem bitsRead_iterate (he : e ≠ .truncated) : ∀ {k : Nat} {s : DecompState} {place : Place}
    {items : List Item}, s.Ahead place items e →
    ∀ p ∈ bitsRead ((fun s => (decompressIncremental s).2)^[k] s), p < s.compressedBits + 32 := by
  intro k
  induction k with
  | zero => intro s place items h; exact bitsRead_lt h he
  | succ k ih =>
    intro s place items h
    rw [Function.iterate_succ_apply, ← compressedBits_incremental s]
    cases items with
    | cons item items =>
      obtain ⟨s', place', hincr, h'⟩ := h.next
      rw [hincr]
      exact ih h'
    | nil =>
      have hfix : (decompressIncremental s).2 = s := by
        cases e with
        | complete => rw [h.complete]
        | undecodable => rw [h.undecodable.2]
        | truncated => exact absurd rfl he
      rw [hfix]
      exact ih h

end

/-! ## Any buffer -/

/-- The bits that the header declares. -/
def declaredBits (src : List Byte) : List Bool := readBits src 32 (initState src).compressedBits

/-- What robust decompression is: the loop ends if the destination is large enough, only bytes of
the buffer are read, only the `destN` bytes of the destination are written, and the result is false
unless all of the bits decode. -/
structure DecompressesSafely (destN : Nat) (src : List Byte) : Prop where
  ends : ∃ room, ∀ n, room ≤ n → (decompress n src).isSome
  reads : ∀ k, ∀ p ∈ bitsRead (stateAfter src k), p / 8 < src.length
  writes : (decompress destN src).isSome
  result : ∀ text, decompress destN src = some (true, text) →
    ∃ items, Decodes .outside (declaredBits src) items .complete

section

variable {src : List Byte} {items : List Item} {e : Ending}

theorem ahead_initState (hbits : (initState src).compressedBits < 2 ^ 31)
    (h : Decodes .outside (declaredBits src) items e) : (initState src).Ahead .outside items e := by
  have hi : (initState src).i = 32 := rfl
  refine ⟨⟨rfl, fun _ he => absurd he (by simp)⟩, ?_, ?_, hbits⟩
  · rw [hi, Nat.add_sub_cancel]
    exact h
  · omega

theorem Decodes.length_le {place : Place} {bits : List Bool} (h : Decodes place bits items e) :
    items.length ≤ bits.length := by
  induction h with
  | complete => exact Nat.le_refl _
  | key hix _ ih =>
    have hpos := List.length_pos_iff.mpr (keyKind hix).2
    rw [List.length_cons, List.length_append]
    omega
  | char _ ih =>
    rw [List.length_cons, List.length_append, length_charBits]
    omega
  | undecodable _ _ => exact Nat.zero_le _
  | truncated _ _ => exact Nat.zero_le _

/-- **The result of `compression_decompress`** on any bytes: the text that they decode to, with one
more character if a part of a character is left, and whether a code word was missed. -/
theorem decompress_eq {destN : Nat} (hbits : (initState src).compressedBits < 2 ^ 31)
    (h : Decodes .outside (declaredBits src) items e) :
    ((items.flatMap Item.text).length + e.extra ≤ destN →
      ∃ text, decompress destN src = some (e != .undecodable, text))
    ∧ (destN < (items.flatMap Item.text).length + e.extra → decompress destN src = none) := by
  have hfuel : items.length + 1 < (initState src).compressedBits + 2 := by
    have hle := h.length_le
    rw [declaredBits, length_readBits] at hle
    omega
  obtain ⟨hroom, hfull⟩ := @decompressLoop_ahead e destN _ _ _ _ [] (ahead_initState hbits h) hfuel
  rw [List.length_nil, Nat.zero_add] at hroom hfull
  refine ⟨fun hle => ?_, fun hlt => ?_⟩
  · obtain ⟨tail, -, heq⟩ := hroom hle
    rw [decompress, heq]
    exact ⟨_, rfl⟩
  · rw [decompress, hfull hlt (Nat.zero_le _)]
    rfl

/-- **Decompression is robust** where no part of a character is left and the text fits. -/
theorem decompressesSafely_iff {destN : Nat} (hbits : (initState src).compressedBits < 2 ^ 31)
    (hlen : src.length = 4 + ((initState src).compressedBits + 7) / 8)
    (h : Decodes .outside (declaredBits src) items e) :
    DecompressesSafely destN src
      ↔ e ≠ .truncated ∧ (items.flatMap Item.text).length ≤ destN := by
  have heq := fun n => @decompress_eq src items e n hbits h
  constructor
  · intro hsafe
    have hfits : (items.flatMap Item.text).length + e.extra ≤ destN := by
      by_contra hlt
      have hnone := (heq destN).2 (Nat.not_le.mp hlt)
      have hsome := hsafe.writes
      rw [hnone] at hsome
      exact absurd hsome (by simp)
    refine ⟨?_, by omega⟩
    rintro rfl
    obtain ⟨text, htext⟩ := (heq destN).1 hfits
    obtain ⟨items', hcomplete⟩ := hsafe.result text htext
    exact absurd (h.unique hcomplete).2 (by decide)
  · intro ⟨he, hfits⟩
    have hextra : e.extra = 0 := by
      cases e with
      | truncated => exact absurd rfl he
      | complete => rfl
      | undecodable => rfl
    have hsome : ∀ n, (items.flatMap Item.text).length ≤ n →
        ∃ text, decompress n src = some (e != .undecodable, text) :=
      fun n hn => (heq n).1 (by omega)
    have his : ∀ n, (items.flatMap Item.text).length ≤ n → (decompress n src).isSome := by
      intro n hn
      obtain ⟨text, htext⟩ := hsome n hn
      rw [htext]
      rfl
    refine ⟨⟨_, his⟩, fun k p hp => ?_, his _ hfits, fun text htext => ?_⟩
    · have hlt := bitsRead_iterate he (ahead_initState hbits h) p hp
      omega
    · obtain ⟨text', htext'⟩ := hsome _ hfits
      have hok := congrArg Prod.fst (Option.some.inj (htext'.symm.trans htext))
      cases e with
      | complete => exact ⟨items, h⟩
      | undecodable => exact absurd (show false = true from hok) (by decide)
      | truncated => exact absurd rfl he

end

end Compression

end LispBM
