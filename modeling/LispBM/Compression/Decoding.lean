import LispBM.Compression

/-!
# LispBM — what bits decode to

Outside of string literals bits are code words, and no code word is the beginning of another one;
in a string literal they are characters, up to a double quote without a backslash before it. The
decompressor reads one item after the other.
-/

namespace LispBM

namespace Compression

open BitBuffer PrefixCode

/-- Where in a program text one is. In a string literal, `escaped` says whether the last character
was a backslash. -/
inductive Place where
  | outside
  | comment
  | inside (escaped : Bool)
deriving DecidableEq

def Place.isInside : Place → Bool
  | .inside _ => true
  | _ => false

@[simp] theorem isInside_outside : Place.outside.isInside = false := rfl

@[simp] theorem isInside_inside (escaped : Bool) : (Place.inside escaped).isInside = true := rfl

/-- Layout does not look into characters of names and numbers. -/
def isPlain (c : Byte) : Bool := !(c == chr ';' || isWhitespace c || c == chr '"')

/-! ## The table -/

theorem length_codes : codes.length = 66 := by decide +kernel

theorem prefixFree_codes : PrefixFree (codes.map (·.2)) := by decide +kernel

/-- The keys are a space, a double quote, and words of other characters; code words are not
empty. -/
theorem codes_spec : codes.zipIdx.all (fun (e, j) => !e.2.isEmpty
    && ((e.1 == [chr ' '] && j == 12) || e.1 == [chr '"']
      || (!e.1.isEmpty && e.1.all isPlain))) = true := by
  decide +kernel

/-- What is known of a key. -/
inductive KeyKind (ix : Nat) : Prop where
  | space (hkey : keyOf ix = [chr ' ']) (hix : ix = 12)
  | quote (hkey : keyOf ix = [chr '"'])
  | plain (hne : keyOf ix ≠ []) (hplain : ∀ c ∈ keyOf ix, isPlain c = true)

theorem codes_getElem? {ix : Nat} (h : ix < 66) : codes[ix]? = some (keyOf ix, codeOf ix) := by
  have hlt : ix < codes.length := by
    rw [length_codes]
    exact h
  simp [keyOf, codeOf, List.getD, List.getElem?_eq_getElem hlt]

theorem keyKind {ix : Nat} (h : ix < 66) : KeyKind ix ∧ codeOf ix ≠ [] := by
  have hmem : ((keyOf ix, codeOf ix), ix) ∈ codes.zipIdx := by
    rw [List.mem_zipIdx_iff_getElem?]
    exact codes_getElem? h
  have hspec := List.all_eq_true.mp codes_spec _ hmem
  simp only [Bool.and_eq_true, Bool.or_eq_true, beq_iff_eq, Bool.not_eq_true',
    List.isEmpty_eq_false_iff,
    List.all_eq_true] at hspec
  obtain ⟨hcode, (⟨hkey, hix⟩ | hkey) | ⟨hne, hplain⟩⟩ := hspec
  · exact ⟨.space hkey hix, hcode⟩
  · exact ⟨.quote hkey, hcode⟩
  · exact ⟨.plain hne hplain, hcode⟩

theorem matchLongestKey_spec {string : List Byte} {ix : Nat}
    (h : matchLongestKey string = some ix) :
    ix < 66 ∧ keyOf ix <+: string := by
  obtain ⟨e, he, hmatch⟩ := longest_matches h
  have hlt : ix < 66 := by
    rw [← length_codes]
    exact (List.getElem?_eq_some_iff.mp he).1
  rw [codes_getElem? hlt] at he
  cases he
  simp only [Bool.and_eq_true, beq_iff_eq] at hmatch
  refine ⟨hlt, ?_⟩
  rw [hmatch.2]
  exact List.take_prefix _ _

theorem length_keyOf_pos {ix : Nat} (h : ix < 66) : 0 < (keyOf ix).length := by
  obtain ⟨hkind, -⟩ := keyKind h
  cases hkind with
  | space hkey _ => simp [hkey]
  | quote hkey => simp [hkey]
  | plain hne _ => exact List.length_pos_iff.mpr hne

theorem keyOf_space : keyOf 12 = [chr ' '] := by decide +kernel

theorem matchLongestKey_space (rest : List Byte) :
    matchLongestKey (chr ' ' :: rest) = some 12 := by
  have hmem : (keyOf 12, codeOf 12) ∈ codes := List.mem_of_getElem? (codes_getElem? (by decide))
  have hsome : (matchLongestKey (chr ' ' :: rest)).isSome := by
    refine longest_isSome hmem ?_ ?_
    · simp [keyOf_space]
    · simp [keyOf_space]
  obtain ⟨ix, hix⟩ := Option.isSome_iff_exists.mp hsome
  obtain ⟨hlt, hprefix⟩ := matchLongestKey_spec hix
  rw [hix]
  obtain ⟨hkind, -⟩ := keyKind hlt
  cases hkind with
  | space _ h => rw [h]
  | quote h =>
    rw [h] at hprefix
    obtain ⟨t, ht⟩ := hprefix
    exact absurd (List.cons.inj ht).1 (by decide)
  | plain hne hplain =>
    obtain ⟨t, ht⟩ := hprefix
    cases hk : keyOf ix with
    | nil => exact absurd hk hne
    | cons c key =>
      rw [hk] at ht
      have hc := hplain c (by simp [hk])
      rw [(List.cons.inj ht).1] at hc
      exact absurd hc (by decide)

/-- The key of a text that begins with a double quote. -/
theorem keyOf_of_quote {ix : Nat} {cs rest : List Byte} (hix : ix < 66)
    (h : chr '"' :: cs = keyOf ix ++ rest) : keyOf ix = [chr '"'] := by
  obtain ⟨hkind, -⟩ := keyKind hix
  cases hkind with
  | space hkey _ =>
    rw [hkey] at h
    exact absurd (List.cons.inj h).1 (by decide)
  | quote hkey => exact hkey
  | plain hne hplain =>
    cases hk : keyOf ix with
    | nil => exact absurd hk hne
    | cons d key =>
      rw [hk] at h
      have hd := hplain d (by simp [hk])
      rw [← (List.cons.inj h).1] at hd
      exact absurd hd (by decide)

/-! ## Items -/

/-- A key of the table, or a character of a string literal. -/
inductive Item where
  | key (ix : Nat)
  | raw (c : Byte)

def charBits (c : Byte) : List Bool := (List.range 8).map fun i => c.getLsbD i

def Item.bits : Item → List Bool
  | .key ix => codeOf ix
  | .raw c => charBits c

def Item.text : Item → List Byte
  | .key ix => keyOf ix
  | .raw c => [c]

/-- Items as the decompressor tells them apart: after a double quote come characters, up to the
next double quote without a backslash before it. -/
inductive Reads : Place → List Item → Prop where
  | nil {place : Place} : Reads place []
  | key {ix : Nat} {items : List Item} (hix : ix < 66)
      (h : Reads (if keyOf ix == [chr '"'] then .inside false else .outside) items) :
      Reads .outside (.key ix :: items)
  | raw {escaped : Bool} {c : Byte} {items : List Item}
      (h : Reads (if c == chr '"' && !escaped then .outside else .inside (c == chr '\\')) items) :
      Reads (.inside escaped) (.raw c :: items)

theorem map_range_bit (src : List Byte) (p n : Nat) :
    (List.range n).map (fun b => bit src (p + b)) = readBits src p n := by
  induction n generalizing p with
  | zero => rfl
  | succ n ih =>
    rw [List.range_succ_eq_map, List.map_cons, List.map_map, readBits, ← ih]
    refine congrArg₂ _ rfl (List.map_congr_left fun b _ => ?_)
    show bit src (p + (b + 1)) = bit src (p + 1 + b)
    congr 1
    omega

/-- The character whose bits are at a position. -/
theorem readCharacter_eq {src : List Byte} {p : Nat} {c : Byte}
    (h : readBits src p 8 = charBits c) : readCharacter src p = c := by
  have hbits : ∀ i, i < 8 → bit src (p + i) = c.getLsbD i := by
    rw [← map_range_bit, charBits] at h
    intro i hi
    have := List.map_inj_left.mp h i (List.mem_range.mpr hi)
    exact this
  apply BitVec.eq_of_getLsbD_eq
  intro j hj
  rw [← hbits j hj, readCharacter, getLsbD_foldl_setBit le_rfl hj, if_pos hj]

/-- The code word that is at a position is found. -/
theorem matchLongestCode_eq {src : List Byte} {start total ix : Nat} (hix : ix < 66)
    (hlen : (codeOf ix).length ≤ total - start)
    (hbits : readBits src start (codeOf ix).length = codeOf ix) :
    matchLongestCode src start total = some ix := by
  have hpos : 0 < (codeOf ix).length := List.length_pos_iff.mpr (keyKind hix).2
  have hsome : (matchLongestCode src start total).isSome := by
    refine longest_isSome (List.mem_of_getElem? (codes_getElem? hix)) ?_ hpos
    simp only [map_range_bit, hbits, decide_eq_true hlen, Bool.true_and, beq_self_eq_true]
  obtain ⟨j, hj⟩ := Option.isSome_iff_exists.mp hsome
  obtain ⟨e, he, hmatch⟩ := longest_matches hj
  simp only [map_range_bit, Bool.and_eq_true, decide_eq_true_eq, beq_iff_eq] at hmatch
  -- both code words are at the beginning of the bits that are left
  have hprefix : ∀ {n : Nat}, n ≤ total - start →
      readBits src start n <+: readBits src start (total - start) := by
    intro n hn
    rw [show total - start = n + (total - start - n) by omega, readBits_append]
    exact List.prefix_append _ _
  have hcode : (codes.map (·.2))[ix]? = some (codeOf ix) := by
    rw [List.getElem?_map, codes_getElem? hix]
    rfl
  have hother : (codes.map (·.2))[j]? = some e.2 := by
    rw [List.getElem?_map, he]
    rfl
  have heq : ix = j := prefixFree_codes.index_eq hcode hother (hbits ▸ hprefix hlen)
    (hmatch.2 ▸ hprefix hmatch.1)
  rw [hj, heq]

/-! ## The steps of the decompressor -/

/-- The place after a code word. -/
def Place.afterKey (ix : Nat) : Place := if keyOf ix == [chr '"'] then .inside false else .outside

/-- The place after a character of a string literal. -/
def Place.afterChar (escaped : Bool) (c : Byte) : Place :=
  if c == chr '"' && !escaped then .outside else .inside (c == chr '\\')

/-- The decompressor is in a place. -/
structure DecompState.IsIn (s : DecompState) (place : Place) : Prop where
  stringMode : s.stringMode = place.isInside
  lastStringChar : ∀ escaped, place = .inside escaped → escaped = (s.lastStringChar == chr '\\')

/-- `s'` is `s` after `n` bits, in a place. -/
structure DecompState.Moved (s s' : DecompState) (n : Nat) (place : Place) : Prop where
  isIn : s'.IsIn place
  i : s'.i = s.i + n
  src : s'.src = s.src
  compressedBits : s'.compressedBits = s.compressedBits

section

variable {s : DecompState}

/-- A code word is read. -/
theorem DecompState.IsIn.key (h : s.IsIn .outside) {ix : Nat} (hix : ix < 66)
    (hlt : s.compressedBits + 32 < 2 ^ 32)
    (hlen : s.i + (codeOf ix).length ≤ s.compressedBits + 32)
    (hbits : readBits s.src s.i (codeOf ix).length = codeOf ix) :
    ∃ s', decompressIncremental s = (some (keyOf ix), s')
      ∧ s.Moved s' (codeOf ix).length (.afterKey ix) := by
  have hpos : 0 < (codeOf ix).length := List.length_pos_iff.mpr (keyKind hix).2
  have htotal := Nat.mod_eq_of_lt hlt
  have hmode : s.stringMode = false := h.stringMode
  have hmore : s.i < (s.compressedBits + 32) % 2 ^ 32 := by omega
  have hnext : (s.i + (codeOf ix).length) % 2 ^ 32 = s.i + (codeOf ix).length :=
    Nat.mod_eq_of_lt (by omega)
  have hmatch : matchLongestCode s.src s.i ((s.compressedBits + 32) % 2 ^ 32) = some ix :=
    matchLongestCode_eq hix (by omega) hbits
  have hincr := decompressIncremental.eq_def s
  rw [if_pos hmore, if_neg (by simp [hmode]), hmatch] at hincr
  unfold Place.afterKey
  cases hquote : keyOf ix == [chr '"'] with
  | true =>
    simp only [hquote, if_true, hnext] at hincr
    refine ⟨_, hincr, ⟨rfl, fun escaped he => ?_⟩, rfl, rfl, rfl⟩
    cases he
    rfl
  | false =>
    simp only [hquote, Bool.false_eq_true, if_false, hnext] at hincr
    exact ⟨_, hincr, ⟨hmode, by simp⟩, rfl, rfl, rfl⟩

/-- A character of a string literal is read, whether or not eight bits are left. -/
theorem DecompState.IsIn.char {escaped : Bool} (h : s.IsIn (.inside escaped))
    (hlt : s.compressedBits + 32 < 2 ^ 32) (hi : s.i < s.compressedBits + 32)
    (hnext : s.i + 8 < 2 ^ 32) :
    ∃ s', decompressIncremental s = (some [readCharacter s.src s.i], s')
      ∧ s.Moved s' 8 (.afterChar escaped (readCharacter s.src s.i)) := by
  have hmore : s.i < (s.compressedBits + 32) % 2 ^ 32 := by
    rw [Nat.mod_eq_of_lt hlt]
    exact hi
  have hmode : s.stringMode = true := h.stringMode
  have hescaped := h.lastStringChar escaped rfl
  have hincr := decompressIncremental.eq_def s
  rw [if_pos hmore, if_pos hmode] at hincr
  simp only [Nat.mod_eq_of_lt hnext] at hincr
  refine ⟨_, hincr, ⟨?_, ?_⟩, rfl, rfl, rfl⟩
  · show (!(readCharacter s.src s.i == chr '"' && s.lastStringChar != chr '\\')) = _
    rw [bne, ← hescaped]
    unfold Place.afterChar
    split
    · next hclose => rw [hclose]; rfl
    · next hclose => rw [Bool.not_eq_true] at hclose; rw [hclose]; rfl
  · intro escaped' he
    unfold Place.afterChar at he
    split at he
    · cases he
    · cases he
      rfl

end

/-! ## Reading to the end -/

/-- The decompressor is in a place and has the items before it. -/
structure DecompState.Holds (s : DecompState) (place : Place) (items : List Item) : Prop where
  stringMode : s.stringMode = place.isInside
  lastStringChar : ∀ escaped, place = .inside escaped → escaped = (s.lastStringChar == chr '\\')
  reads : Reads place items
  bits : readBits s.src s.i (items.flatMap Item.bits).length = items.flatMap Item.bits
  size : s.i + (items.flatMap Item.bits).length = s.compressedBits + 32
  lt : s.compressedBits + 32 < 2 ^ 32

section

variable {s : DecompState} {place : Place} {item : Item} {items : List Item}

theorem DecompState.Holds.done (h : s.Holds place []) : decompressIncremental s = (some [], s) := by
  have hsize := h.size
  rw [List.flatMap_nil, List.length_nil] at hsize
  rw [decompressIncremental, if_neg]
  rw [Nat.mod_eq_of_lt h.lt]
  omega

/-- The first item and the others. -/
theorem DecompState.Holds.split (h : s.Holds place (item :: items)) :
    readBits s.src s.i item.bits.length = item.bits
      ∧ readBits s.src (s.i + item.bits.length) (items.flatMap Item.bits).length
        = items.flatMap Item.bits
      ∧ s.i + item.bits.length + (items.flatMap Item.bits).length = s.compressedBits + 32 := by
  have hbits := h.bits
  have hsize := h.size
  rw [List.flatMap_cons, List.length_append, readBits_append] at hbits
  rw [List.flatMap_cons, List.length_append] at hsize
  obtain ⟨hitem, hrest⟩ := List.append_inj hbits (by rw [length_readBits])
  exact ⟨hitem, hrest, by omega⟩

/-- The items after the first one are before the state after it. -/
theorem DecompState.Holds.moved (h : s.Holds place (item :: items)) {s' : DecompState}
    {place' : Place} (hm : s.Moved s' item.bits.length place') (hreads : Reads place' items) :
    s'.Holds place' items := by
  obtain ⟨-, hrest, hsize⟩ := h.split
  refine ⟨hm.isIn.stringMode, hm.isIn.lastStringChar, hreads, ?_, ?_, ?_⟩
  · rw [hm.src, hm.i]
    exact hrest
  · rw [hm.i, hm.compressedBits]
    exact hsize
  · rw [hm.compressedBits]
    exact h.lt

/-- One item is read at a time. -/
theorem DecompState.Holds.next (h : s.Holds place (item :: items)) :
    ∃ s' place', decompressIncremental s = (some item.text, s') ∧ s'.Holds place' items := by
  obtain ⟨hitem, -, hsize⟩ := h.split
  have hin : s.IsIn place := ⟨h.stringMode, h.lastStringChar⟩
  have hlt := h.lt
  cases h.reads with
  | key hix hreads =>
    rename_i ix
    obtain ⟨s', hincr, hm⟩ := hin.key hix hlt (by
      show s.i + (Item.key ix).bits.length ≤ _
      omega) hitem
    exact ⟨s', _, hincr, h.moved hm hreads⟩
  | raw hreads =>
    rename_i escaped c
    have hlen : (Item.raw c).bits.length = 8 := by simp [Item.bits, charBits]
    rw [hlen] at hitem hsize
    obtain ⟨s', hincr, hm⟩ := hin.char hlt (by omega) (by omega)
    rw [readCharacter_eq hitem] at hincr hm
    refine ⟨s', _, hincr, h.moved ?_ hreads⟩
    rw [hlen]
    exact hm

/-- The text of an item is not empty. -/
theorem Reads.text_ne_nil (h : Reads place (item :: items)) : item.text ≠ [] := by
  cases h with
  | key hix _ => exact List.length_pos_iff.mp (length_keyOf_pos hix)
  | raw _ => exact List.cons_ne_nil _ _

theorem Reads.length_le {items : List Item} (h : Reads place items) :
    items.length ≤ (items.flatMap Item.bits).length := by
  induction h with
  | nil => exact le_rfl
  | key hix h ih =>
    have hpos := List.length_pos_iff.mpr (keyKind hix).2
    rw [List.flatMap_cons, List.length_append, List.length_cons, Item.bits]
    omega
  | raw h ih =>
    rw [List.flatMap_cons, List.length_append, List.length_cons]
    simp only [Item.bits, charBits, List.length_map, List.length_range]
    omega

/-- The decompressor reads the items that were written. -/
theorem decompressLoop_eq {items : List Item} : ∀ {fuel destN : Nat} {s : DecompState}
    {place : Place} {dest : List Byte}, s.Holds place items → items.length < fuel →
    dest.length + (items.flatMap Item.text).length ≤ destN →
    decompressLoop destN fuel s dest = some (true, dest ++ items.flatMap Item.text) := by
  induction items with
  | nil =>
    rintro (_ | fuel) destN s place dest h hfuel hdest
    · omega
    rw [decompressLoop, h.done, List.flatMap_nil, List.append_nil]
  | cons item items ih =>
    rintro (_ | fuel) destN s place dest h hfuel hdest
    · omega
    obtain ⟨s', place', hincr, h'⟩ := h.next
    obtain ⟨c, cs, htext⟩ := List.exists_cons_of_ne_nil h.reads.text_ne_nil
    rw [List.flatMap_cons, List.length_append, htext] at hdest
    rw [List.length_cons] at hfuel
    rw [decompressLoop, hincr, htext]
    simp only
    rw [if_pos (by omega), ih h' (by omega) (by rw [List.length_append]; omega), List.flatMap_cons,
      htext, List.append_assoc]

end

end Compression

end LispBM
