import Mathlib.Data.List.TakeWhile
import LispBM.Compression.Decoding

/-!
# LispBM — decompression undoes compression up to layout

`layout` is the text of a program with its comments removed and its white space collapsed, and its
string literals as they are. `Scans` says which keys and characters the compressor writes for a
text. Both loops over the text follow it, one to count the bits and one to write them; the
decompressor reads the same keys and characters back, since no code word is the beginning of
another and since it sees where string literals begin and end.

* `decompress_compress` — the decompressed text of a compressed program is its layout.
-/

namespace LispBM

namespace Compression

open BitBuffer PrefixCode

/-! ## Layout -/

/-- The text without comments, with runs of white space outside of string literals replaced by one
space, and without the last run. `gap` says that such a run was seen. -/
def layoutFrom : Place → Bool → List Byte → List Byte
  | _, _, [] => []
  | .outside, gap, c :: cs =>
      if c == chr ';' then layoutFrom .comment gap cs
      else if isWhitespace c then layoutFrom .outside true cs
      else
        (if gap then [chr ' '] else []) ++
          c :: if c == chr '"' then layoutFrom (.inside false) false cs
            else layoutFrom .outside false cs
  | .comment, gap, c :: cs =>
      if c == chr '\n' then layoutFrom .outside true cs else layoutFrom .comment gap cs
  | .inside escaped, _, c :: cs =>
      c :: if c == chr '"' && !escaped then layoutFrom .outside false cs
        else layoutFrom (.inside (c == chr '\\')) false cs

def layout (s : List Byte) : List Byte := layoutFrom .outside false s

theorem layoutFrom_plain {key rest : List Byte} (h : ∀ c ∈ key, isPlain c = true) :
    layoutFrom .outside false (key ++ rest) = key ++ layoutFrom .outside false rest := by
  induction key with
  | nil => rfl
  | cons c key ih =>
    have hc := h c (by simp)
    simp only [isPlain, Bool.not_eq_true', Bool.or_eq_false_iff] at hc
    simp only [List.cons_append, layoutFrom, hc.1.1, hc.1.2, hc.2]
    rw [← ih fun d hd => h d (by simp [hd])]
    rfl

theorem layoutFrom_whitespace {gap : Bool} {c : Byte} {cs : List Byte}
    (h : isWhitespace c = true) :
    layoutFrom .outside gap (c :: cs) = layoutFrom .outside true cs := by
  have hne : (c == chr ';') = false := by
    rw [beq_eq_false_iff_ne]
    rintro rfl
    exact absurd h (by decide)
  simp only [layoutFrom, hne, h]
  rfl

theorem layoutFrom_gap {c : Byte} {cs : List Byte} (hcomment : c ≠ chr ';')
    (hspace : isWhitespace c = false) :
    layoutFrom .outside true (c :: cs) = chr ' ' :: layoutFrom .outside false (c :: cs) := by
  have hne : (c == chr ';') = false := beq_eq_false_iff_ne.mpr hcomment
  simp only [layoutFrom, hne, hspace]
  rfl

/-- A comment ends before the next new line. -/
theorem layoutFrom_comment {gap : Bool} {cs : List Byte} (h : ∀ c ∈ cs, c ≠ 0#8) :
    layoutFrom .comment gap cs
      = layoutFrom .outside gap (cs.dropWhile inComment) := by
  induction cs with
  | nil => rfl
  | cons c cs ih =>
    have hc : c ≠ 0#8 := h c (by simp)
    by_cases hnl : c = chr '\n'
    · subst hnl
      rfl
    · have hne : (c == chr '\n') = false := by simpa using hnl
      have hdrop : (c :: cs).dropWhile inComment
          = cs.dropWhile inComment :=
        List.dropWhile_cons_of_pos (by simp [inComment, hc, hnl])
      rw [hdrop, ← ih fun d hd => h d (by simp [hd])]
      simp only [layoutFrom, hne]
      rfl

/-! ## What is written -/

/-- The items that are written for a text. -/
inductive Scans : Place → Bool → List Byte → List Item → Prop where
  | done {place : Place} {gap : Bool} : Scans place gap [] []
  | comment {gap : Bool} {cs : List Byte} {items : List Item}
      (h : Scans .outside gap (cs.dropWhile inComment) items) :
      Scans .outside gap (chr ';' :: cs) items
  | whitespace {gap : Bool} {c : Byte} {cs : List Byte} {items : List Item}
      (hc : isWhitespace c = true) (h : Scans .outside true cs items) :
      Scans .outside gap (c :: cs) items
  /-- The step back to the last white space. -/
  | gap {c : Byte} {cs : List Byte} {items : List Item} (hcomment : c ≠ chr ';')
      (hspace : isWhitespace c = false) (h : Scans .outside false (c :: cs) items) :
      Scans .outside true (c :: cs) (.key 12 :: items)
  | key {c : Byte} {cs rest : List Byte} {ix : Nat} {items : List Item} (hcomment : c ≠ chr ';')
      (hspace : isWhitespace c = false) (hix : matchLongestKey (c :: cs) = some ix)
      (hrest : c :: cs = keyOf ix ++ rest)
      (h : Scans (if c = chr '"' then .inside false else .outside) false rest items) :
      Scans .outside false (c :: cs) (.key ix :: items)
  | close {cs : List Byte} {items : List Item} (h : Scans .outside false cs items) :
      Scans (.inside false) false (chr '"' :: cs) (.raw (chr '"') :: items)
  | char {escaped : Bool} {c : Byte} {cs : List Byte} {items : List Item}
      (hc : (c == chr '"' && !escaped) = false)
      (h : Scans (.inside (c == chr '\\')) false cs items) :
      Scans (.inside escaped) false (c :: cs) (.raw c :: items)

theorem Scans.text {place : Place} {gap : Bool} {cs : List Byte} {items : List Item}
    (h : Scans place gap cs items) (hnul : ∀ c ∈ cs, c ≠ 0#8) :
    items.flatMap Item.text = layoutFrom place gap cs := by
  induction h with
  | done => cases ‹Place› <;> rfl
  | comment h ih =>
    rename_i gap cs items
    rw [ih fun c hc => hnul c (List.mem_cons_of_mem _ (List.dropWhile_subset _ hc)),
      ← layoutFrom_comment fun c hc => hnul c (List.mem_cons_of_mem _ hc)]
    rfl
  | whitespace hc h ih =>
    rw [ih fun c hc => hnul c (List.mem_cons_of_mem _ hc), layoutFrom_whitespace hc]
  | gap hcomment hspace h ih =>
    rw [List.flatMap_cons, ih hnul, layoutFrom_gap hcomment hspace]
    exact congrArg (· ++ _) keyOf_space
  | key hcomment hspace hix hrest h ih =>
    rename_i c cs rest ix items
    rw [hrest] at hnul ⊢
    rw [List.flatMap_cons, ih fun d hd => hnul d (List.mem_append_right _ hd)]
    obtain ⟨hkind, -⟩ := keyKind (matchLongestKey_spec hix).1
    cases hkind with
    | space hkey _ =>
      -- a key that begins at this character is not the space
      rw [hkey] at hrest
      obtain rfl : c = chr ' ' := (List.cons.inj hrest).1
      exact absurd hspace (by decide)
    | quote hkey =>
      rw [hkey] at hrest ⊢
      obtain rfl : c = chr '"' := (List.cons.inj hrest).1
      rw [Item.text, hkey, if_pos rfl]
      rfl
    | plain hne hplain =>
      have hc : c ≠ chr '"' := by
        rintro rfl
        have hkey := keyOf_of_quote (matchLongestKey_spec hix).1 hrest
        exact absurd (hplain (chr '"') (by simp [hkey])) (by decide)
      rw [Item.text, if_neg hc, layoutFrom_plain hplain]
  | close h ih =>
    rw [List.flatMap_cons, ih fun c hc => hnul c (List.mem_cons_of_mem _ hc)]
    rfl
  | char hc h ih =>
    rw [List.flatMap_cons, ih fun c hc => hnul c (List.mem_cons_of_mem _ hc)]
    simp only [layoutFrom, hc]
    rfl

theorem emitStringCharCode_eq (buf : List Byte) (c : Byte) (pos : Nat) :
    emitStringCharCode buf c pos = (writeBits buf pos (charBits c), pos + (charBits c).length) :=
  rfl

/-! ## The loops over the text

The position in the text is the length of what was passed, `pre`, and `suf` is what is left. -/

theorem isInside_ite (c : Byte) :
    (if c = chr '"' then Place.inside false else Place.outside).isInside = (c == chr '"') := by
  by_cases h : c = chr '"' <;> simp [h]

/-- What the loops find before and at the position: in a string literal the last character, and
after white space either a character `w` of it, or the end of a comment. -/
structure Ready (isGap : Byte → Bool) (place : Place) (gap : Bool) (pre suf : List Byte) :
    Prop where
  notComment : place ≠ .comment
  inside : ∀ escaped, place = .inside escaped →
    gap = false ∧ ∃ pre' c, pre = pre' ++ [c] ∧ escaped = (c == chr '\\')
  gap : gap = true → (∃ pre' w, pre = pre' ++ [w] ∧ isGap w = true) ∨ suf = []
    ∨ ∃ cs, suf = chr '\n' :: cs

theorem charAt_append (pre cs : List Byte) (c : Byte) : charAt (pre ++ c :: cs) pre.length = c := by
  simp [charAt]

theorem skipComment_append (pre cs : List Byte) :
    skipComment (pre ++ chr ';' :: cs) pre.length
      = (pre ++ chr ';' :: cs.takeWhile inComment).length := by
  rw [skipComment, List.drop_left, List.takeWhile_cons_of_pos (by decide), List.length_append]

theorem closesString_append {pre cs : List Byte} {c d : Byte} :
    closesString (pre ++ [d] ++ c :: cs) (pre ++ [d]).length
      = (c == chr '"' && !(d == chr '\\')) := by
  rw [closesString, charAt_append, List.length_append]
  congr 3
  rw [List.append_assoc]
  exact charAt_append pre (c :: cs) d

/-- The comment and what is after it. -/
theorem split_comment (pre cs : List Byte) :
    pre ++ chr ';' :: cs
      = (pre ++ chr ';' :: cs.takeWhile inComment)
        ++ cs.dropWhile inComment := by
  rw [List.append_assoc, List.cons_append, List.takeWhile_append_dropWhile]

section

variable {isGap : Byte → Bool} {place : Place} {gap : Bool} {pre cs rest : List Byte} {c w : Byte}
  {ix : Nat}

theorem ready_start (isGap : Byte → Bool) (suf : List Byte) : Ready isGap .outside false [] suf :=
  ⟨by simp, by simp, by simp⟩

theorem ready_comment (hnul : ∀ c ∈ cs, c ≠ 0#8) :
    Ready isGap .outside gap (pre ++ chr ';' :: cs.takeWhile inComment)
      (cs.dropWhile inComment) := by
  refine ⟨by simp, by simp, fun _ => .inr ?_⟩
  cases hdrop : cs.dropWhile inComment with
  | nil => exact .inl rfl
  | cons d ds =>
    have hd : d ≠ 0#8 := hnul d (List.dropWhile_subset _ (hdrop ▸ List.mem_cons_self))
    have hnot := List.dropWhile_get_zero_not inComment cs
      (by rw [hdrop]; simp)
    simp only [hdrop, List.get_eq_getElem, List.getElem_cons_zero] at hnot
    refine .inr ⟨ds, ?_⟩
    have : d = chr '\n' := by simpa [inComment, hd] using hnot
    rw [this]

theorem ready_whitespace (hw : isGap w = true) (suf : List Byte) :
    Ready isGap .outside true (pre ++ [w]) suf :=
  ⟨by simp, by simp, fun _ => .inl ⟨pre, w, rfl, hw⟩⟩

/-- At a character that is not white space, the last character of a gap is right before it. -/
theorem Ready.gap_eq (h : Ready isGap .outside true pre (c :: cs))
    (hspace : isWhitespace c = false) :
    ∃ pre' w, pre = pre' ++ [w] ∧ isGap w = true := by
  rcases h.gap rfl with hgap | hnil | ⟨cs', hcs⟩
  · exact hgap
  · cases hnil
  · obtain rfl : c = chr '\n' := (List.cons.inj hcs).1
    exact absurd hspace (by decide)

theorem ready_key (hix : ix < 66) (hrest : c :: cs = keyOf ix ++ rest) :
    Ready isGap (if c = chr '"' then .inside false else .outside) false (pre ++ keyOf ix) rest := by
  by_cases hc : c = chr '"'
  · rw [if_pos hc]
    refine ⟨by simp, fun escaped he => ⟨rfl, pre, chr '"', ?_, ?_⟩, by simp⟩
    · rw [keyOf_of_quote hix (hc ▸ hrest)]
    · cases he
      decide
  · rw [if_neg hc]
    exact ⟨by simp, by simp, by simp⟩

theorem ready_close (suf : List Byte) : Ready isGap .outside false pre suf :=
  ⟨by simp, by simp, by simp⟩

theorem ready_char (suf : List Byte) :
    Ready isGap (.inside (c == chr '\\')) false (pre ++ [c]) suf := by
  refine ⟨by simp, fun escaped he => ⟨rfl, pre, c, rfl, ?_⟩, by simp⟩
  cases he
  rfl

end

/-! ## Loops that follow a text -/

/-- A loop over a text that emits bits, by its steps. `run fuel pre suf s inside gap` is what is
left of it; `s` is what was emitted and `fin s` the result. White space is overwritten with
`gapChar`. -/
structure Follows {σ ρ : Type} (isGap : Byte → Bool) (gapChar : Byte → Byte)
    (run : Nat → List Byte → List Byte → σ → Bool → Bool → Option ρ) (emit : σ → List Bool → σ)
    (fin : σ → ρ) : Prop where
  emit_nil : ∀ s, emit s [] = s
  emit_append : ∀ s bs cs, emit s (bs ++ cs) = emit (emit s bs) cs
  isGap_gapChar : ∀ c, isWhitespace c = true → isGap (gapChar c) = true
  done : ∀ fuel pre s inside gap, run (fuel + 1) pre [] s inside gap = some (fin s)
  inside : ∀ fuel pre d c cs s gap, run (fuel + 1) (pre ++ [d]) (c :: cs) s true gap
    = run fuel (pre ++ [d] ++ [c]) cs (emit s (charBits c))
      (!(c == chr '"' && !(d == chr '\\'))) gap
  comment : ∀ fuel pre cs s gap, run (fuel + 1) pre (chr ';' :: cs) s false gap
    = run fuel (pre ++ chr ';' :: cs.takeWhile inComment)
        (cs.dropWhile inComment) s false gap
  whitespace : ∀ fuel pre c cs s gap, c ≠ chr ';' → isWhitespace c = true →
    run (fuel + 1) pre (c :: cs) s false gap = run fuel (pre ++ [gapChar c]) cs s false true
  /-- The step back: the space is written, and the position is the same again. -/
  gap : ∀ fuel pre w c cs s, isGap w = true → c ≠ chr ';' → isWhitespace c = false →
    run (fuel + 1) (pre ++ [w]) (c :: cs) s false true
      = run fuel (pre ++ [w]) (c :: cs) (emit s (codeOf 12)) false false
  key : ∀ fuel pre c cs rest s ix, c ≠ chr ';' → isWhitespace c = false →
    matchLongestKey (c :: cs) = some ix → c :: cs = keyOf ix ++ rest →
    run (fuel + 1) pre (c :: cs) s false false
      = run fuel (pre ++ keyOf ix) rest (emit s (codeOf ix)) (c == chr '"') false

section

variable {σ ρ : Type} {isGap : Byte → Bool} {gapChar : Byte → Byte}
  {run : Nat → List Byte → List Byte → σ → Bool → Bool → Option ρ} {emit : σ → List Bool → σ}
  {fin : σ → ρ}

/-- A loop that needs a key at every character, and ends, has found the items of the text. -/
theorem Follows.scans (hf : Follows isGap gapChar run emit fin)
    (hstuck : ∀ pre suf s inside gap, run 0 pre suf s inside gap = none)
    (hnoKey : ∀ fuel pre c cs s, c ≠ chr ';' → isWhitespace c = false →
      matchLongestKey (c :: cs) = none → run (fuel + 1) pre (c :: cs) s false false = none)
    {fuel : Nat} : ∀ {place : Place} {gap : Bool} {pre suf : List Byte} {s : σ} {result : ρ},
    Ready isGap place gap pre suf → (∀ c ∈ suf, c ≠ 0#8) →
    run fuel pre suf s place.isInside gap = some result →
    ∃ items, Scans place gap suf items := by
  induction fuel with
  | zero =>
    intro place gap pre suf s result _ _ h
    rw [hstuck] at h
    cases h
  | succ fuel ih =>
    intro place gap pre suf s result hready hnul h
    cases suf with
    | nil => exact ⟨[], .done⟩
    | cons c cs =>
      have hnul' : ∀ d ∈ cs, d ≠ 0#8 := fun d hd => hnul d (List.mem_cons_of_mem _ hd)
      cases place with
      | comment => exact absurd rfl hready.notComment
      | inside escaped =>
        obtain ⟨rfl, pre', d, rfl, rfl⟩ := hready.inside escaped rfl
        rw [isInside_inside, hf.inside] at h
        cases hclose : c == chr '"' && !(d == chr '\\') with
        | true =>
          obtain ⟨hc, hd⟩ : c = chr '"' ∧ (d == chr '\\') = false := by simpa using hclose
          rw [hclose] at h
          obtain ⟨items, hscans⟩ := ih (ready_close cs) hnul' h
          refine ⟨.raw c :: items, ?_⟩
          rw [hd, hc]
          exact .close hscans
        | false =>
          rw [hclose] at h
          obtain ⟨items, hscans⟩ := ih (ready_char cs) hnul' h
          exact ⟨.raw c :: items, .char hclose hscans⟩
      | outside =>
        rw [isInside_outside] at h
        by_cases hcomment : c = chr ';'
        · subst hcomment
          rw [hf.comment] at h
          obtain ⟨items, hscans⟩ := ih (ready_comment hnul')
            (fun d hd => hnul' d (List.dropWhile_subset _ hd)) h
          exact ⟨items, .comment hscans⟩
        cases hspace : isWhitespace c with
        | true =>
          rw [hf.whitespace _ _ _ _ _ _ hcomment hspace] at h
          obtain ⟨items, hscans⟩ := ih (ready_whitespace (hf.isGap_gapChar c hspace) cs) hnul' h
          exact ⟨items, .whitespace hspace hscans⟩
        | false =>
          cases gap with
          | true =>
            obtain ⟨pre', w, rfl, hw⟩ := hready.gap_eq hspace
            rw [hf.gap _ _ _ _ _ _ hw hcomment hspace] at h
            obtain ⟨items, hscans⟩ := ih (ready_close (c :: cs)) hnul h
            exact ⟨.key 12 :: items, .gap hcomment hspace hscans⟩
          | false =>
            cases hix : matchLongestKey (c :: cs) with
            | none =>
              rw [hnoKey _ _ _ _ _ hcomment hspace hix] at h
              cases h
            | some ix =>
              obtain ⟨hlt, rest, hrest⟩ := matchLongestKey_spec hix
              rw [hf.key _ _ _ _ _ _ _ hcomment hspace hix hrest.symm, ← isInside_ite] at h
              obtain ⟨items, hscans⟩ := ih (ready_key hlt hrest.symm)
                (fun d hd => hnul d (hrest ▸ List.mem_append_right _ hd)) h
              exact ⟨.key ix :: items, .key hcomment hspace hix hrest.symm hscans⟩

/-- A loop over a text that has items ends, and has emitted all of them. -/
theorem Follows.eq (hf : Follows isGap gapChar run emit fin) {place : Place} {gap : Bool}
    {suf : List Byte} {items : List Item} (h : Scans place gap suf items) :
    ∀ {fuel : Nat} {pre : List Byte} {s : σ}, Ready isGap place gap pre suf →
    (∀ c ∈ suf, c ≠ 0#8) → 2 * suf.length + gap.toNat < fuel →
    run fuel pre suf s place.isInside gap = some (fin (emit s (items.flatMap Item.bits))) := by
  induction h with
  | done =>
    rintro (_ | fuel) pre s _ _ hfuel
    · omega
    rw [hf.done, List.flatMap_nil, hf.emit_nil]
  | comment h ih =>
    rename_i gap cs items
    rintro (_ | fuel) pre s _ hnul hfuel
    · omega
    have hnul' : ∀ d ∈ cs, d ≠ 0#8 := fun d hd => hnul d (List.mem_cons_of_mem _ hd)
    rw [isInside_outside, hf.comment]
    apply ih (ready_comment hnul') fun d hd => hnul' d (List.dropWhile_subset _ hd)
    have := List.length_dropWhile_le inComment cs
    rw [List.length_cons] at hfuel
    omega
  | whitespace hc h ih =>
    rename_i gap c cs items
    rintro (_ | fuel) pre s _ hnul hfuel
    · omega
    have hcomment : c ≠ chr ';' := by
      rintro rfl
      exact absurd hc (by decide)
    rw [isInside_outside, hf.whitespace _ _ _ _ _ _ hcomment hc]
    apply ih (ready_whitespace (hf.isGap_gapChar c hc) cs) fun d hd =>
      hnul d (List.mem_cons_of_mem _ hd)
    rw [List.length_cons] at hfuel
    rw [Bool.toNat_true]
    omega
  | gap hcomment hspace h ih =>
    rintro (_ | fuel) pre s hready hnul hfuel
    · omega
    obtain ⟨pre', w, rfl, hw⟩ := hready.gap_eq hspace
    rw [isInside_outside, hf.gap _ _ _ _ _ _ hw hcomment hspace, List.flatMap_cons, hf.emit_append]
    apply ih (ready_close _) hnul
    rw [Bool.toNat_true] at hfuel
    rw [Bool.toNat_false]
    omega
  | key hcomment hspace hix hrest h ih =>
    rintro (_ | fuel) pre s _ hnul hfuel
    · omega
    have hlt := (matchLongestKey_spec hix).1
    rw [isInside_outside, hf.key _ _ _ _ _ _ _ hcomment hspace hix hrest, List.flatMap_cons,
      hf.emit_append, ← isInside_ite]
    apply ih (ready_key hlt hrest) fun d hd => hnul d (hrest ▸ List.mem_append_right _ hd)
    have := length_keyOf_pos hlt
    rw [hrest, List.length_append] at hfuel
    omega
  | close h ih =>
    rintro (_ | fuel) pre s hready hnul hfuel
    · omega
    obtain ⟨-, pre', d, rfl, hd⟩ := hready.inside false rfl
    rw [isInside_inside, hf.inside, ← hd, List.flatMap_cons, hf.emit_append]
    apply ih (ready_close _) fun d hd => hnul d (List.mem_cons_of_mem _ hd)
    rw [List.length_cons] at hfuel
    omega
  | char hc h ih =>
    rename_i escaped c cs items
    rintro (_ | fuel) pre s hready hnul hfuel
    · omega
    obtain ⟨-, pre', d, rfl, rfl⟩ := hready.inside escaped rfl
    rw [isInside_inside, hf.inside, hc, List.flatMap_cons, hf.emit_append]
    apply ih (ready_char cs) fun d hd => hnul d (List.mem_cons_of_mem _ hd)
    rw [List.length_cons] at hfuel
    omega

end

/-- The loop of `compression_compress`, with the writing of bits as a parameter: `emit s bs` is what
becomes of `s` when the bits `bs` are written. -/
def compressLoopOn {σ : Type} (emit : σ → List Bool → σ) :
    Nat → List Byte → Nat → σ → Bool → Bool → Option σ
  | 0, _, _, _, _, _ => none
  | fuel + 1, string, i, s, stringMode, gobbling =>
      if i < string.length then
        if stringMode then
          if closesString string i then
            compressLoopOn emit fuel string (i + 1) (emit s (charBits (chr '"'))) false gobbling
          else
            compressLoopOn emit fuel string (i + 1) (emit s (charBits (charAt string i))) stringMode
              gobbling
        else if charAt string i == chr ';' then
          compressLoopOn emit fuel string (skipComment string i) s stringMode gobbling
        else if isWhitespace (charAt string i) then
          compressLoopOn emit fuel (string.set i (chr ' ')) (i + 1) s stringMode true
        else
          let i := if gobbling then i - 1 else i
          let stringMode := charAt string i == chr '"'
          match matchLongestKey (string.drop i) with
          | none => none
          | some ix =>
              compressLoopOn emit fuel string (i + (keyOf ix).length)
              (emit s (codeOf ix)) stringMode
                false
      else some s

/-- The bits are written into a buffer at `bit_pos`. -/
def emitBits (s : List Byte × Nat) (bs : List Bool) : List Byte × Nat :=
  (writeBits s.1 s.2 bs, s.2 + bs.length)

theorem compressLoop_eq_on (fuel : Nat) : ∀ (string : List Byte) (i : Nat) (s : List Byte × Nat)
    (inside gap : Bool), compressLoop fuel string i s.1 s.2 inside gap
      = (compressLoopOn emitBits fuel string i s inside gap).map (·.1) := by
  induction fuel with
  | zero => intro string i s inside gap; rfl
  | succ fuel ih =>
    intro string i s inside gap
    have hchar : ∀ c, emitStringCharCode s.1 c s.2 = emitBits s (charBits c) :=
      fun c => emitStringCharCode_eq s.1 c s.2
    have hcode : ∀ bs, emitCode s.1 bs s.2 = emitBits s bs := fun _ => rfl
    simp only [compressLoop, compressLoopOn, hchar, hcode, ih]
    split
    · split
      · split <;> rfl
      · split
        · rfl
        · split
          · rfl
          · cases matchLongestKey (string.drop (if gap = true then i - 1 else i)) <;> rfl
    · rfl

section

variable {σ ρ ρ' : Type} {isGap : Byte → Bool} {gapChar : Byte → Byte}
  {run : Nat → List Byte → List Byte → σ → Bool → Bool → Option ρ} {emit : σ → List Bool → σ}
  {fin : σ → ρ}

/-- The loop of `compression_compress`, however the bits are written. -/
theorem follows_compressOn (hnil : ∀ s, emit s [] = s)
    (happend : ∀ s bs cs, emit s (bs ++ cs) = emit (emit s bs) cs) :
    Follows (· == chr ' ') (fun _ => chr ' ')
      (fun fuel pre suf s inside gap =>
        compressLoopOn emit fuel (pre ++ suf) pre.length s inside gap) emit id where
  emit_nil := hnil
  emit_append := happend
  isGap_gapChar c _ := by simp
  done fuel pre s inside gap := by
    simp only [compressLoopOn, List.append_nil, lt_irrefl, if_false, id_eq]
  inside fuel pre d c cs s gap := by
    have happend : pre ++ [d] ++ [c] ++ cs = pre ++ [d] ++ c :: cs := by simp
    have hlen : (pre ++ [d] ++ [c]).length = (pre ++ [d]).length + 1 := List.length_append
    rw [compressLoopOn, if_pos (by simp), if_pos rfl, closesString_append, charAt_append, happend,
      hlen]
    split
    · next hclose =>
      obtain ⟨hc, -⟩ : c = chr '"' ∧ _ := by simpa using hclose
      rw [hclose, hc]
      rfl
    · next hclose =>
      rw [Bool.not_eq_true] at hclose
      rw [hclose]
      rfl
  comment fuel pre cs s gap := by
    rw [compressLoopOn, if_pos (by simp), if_neg (by simp), charAt_append, if_pos (by simp),
      skipComment_append, ← split_comment]
  whitespace fuel pre c cs s gap hcomment hspace := by
    rw [compressLoopOn, if_pos (by simp), if_neg (by simp), charAt_append,
      if_neg (by simpa using hcomment), if_pos hspace, List.set_append_right _ _ le_rfl,
      Nat.sub_self, List.set_cons_zero, List.append_assoc, List.singleton_append,
      List.length_append, List.length_singleton]
  gap fuel pre w c cs s hw hcomment hspace := by
    obtain rfl : w = chr ' ' := by simpa using hw
    rw [compressLoopOn, if_pos (by simp), if_neg (by simp), charAt_append,
      if_neg (by simpa using hcomment), if_neg (by simp [hspace])]
    simp only [if_true, List.length_append, List.length_singleton, Nat.add_sub_cancel]
    rw [List.append_assoc, List.singleton_append, charAt_append, List.drop_left,
      matchLongestKey_space]
    simp only [keyOf_space, List.length_singleton]
    rfl
  key fuel pre c cs rest s ix hcomment hspace hix hrest := by
    rw [compressLoopOn, if_pos (by simp), if_neg (by simp), charAt_append,
      if_neg (by simpa using hcomment), if_neg (by simp [hspace])]
    simp only [Bool.false_eq_true, if_false, charAt_append, List.drop_left, hix]
    rw [List.append_assoc, ← hrest, List.length_append]

/-- A part of what is emitted may be forgotten at the end. -/
theorem Follows.map (hf : Follows isGap gapChar run emit fin) (f : ρ → ρ') :
    Follows isGap gapChar (fun fuel pre suf s inside gap => (run fuel pre suf s inside gap).map f)
      emit (fun s => f (fin s)) where
  emit_nil := hf.emit_nil
  emit_append := hf.emit_append
  isGap_gapChar := hf.isGap_gapChar
  done fuel pre s inside gap := by rw [hf.done, Option.map_some]
  inside fuel pre d c cs s gap := by rw [hf.inside]
  comment fuel pre cs s gap := by rw [hf.comment]
  whitespace fuel pre c cs s gap hcomment hspace := by
    rw [hf.whitespace _ _ _ _ _ _ hcomment hspace]
  gap fuel pre w c cs s hw hcomment hspace := by rw [hf.gap _ _ _ _ _ _ hw hcomment hspace]
  key fuel pre c cs rest s ix hcomment hspace hix hrest := by
    rw [hf.key _ _ _ _ _ _ _ hcomment hspace hix hrest]

end

theorem follows_compress :
    Follows (· == chr ' ') (fun _ => chr ' ')
      (fun fuel pre suf (s : List Byte × Nat) inside gap =>
        compressLoop fuel (pre ++ suf) pre.length s.1 s.2 inside gap)
      (fun s bs => (writeBits s.1 s.2 bs, s.2 + bs.length)) (fun s => s.1) := by
  have hfollows := (@follows_compressOn _ emitBits (fun _ => rfl) (fun s bs cs => by
    simp only [emitBits, writeBits_append, List.length_append, Nat.add_assoc])).map (·.1)
  simp only [compressLoop_eq_on]
  exact hfollows

theorem compressLoop_noKey {fuel pos : Nat} {pre cs buf : List Byte} {c : Byte}
    (hcomment : c ≠ chr ';') (hspace : isWhitespace c = false)
    (hix : matchLongestKey (c :: cs) = none) :
    compressLoop (fuel + 1) (pre ++ c :: cs) pre.length buf pos false false = none := by
  rw [compressLoop, if_pos (by simp), if_neg (by simp), charAt_append,
    if_neg (by simpa using hcomment), if_neg (by simp [hspace])]
  simp only [Bool.false_eq_true, if_false, List.drop_left, hix]

theorem isspace_of_isWhitespace {c : Byte} (h : isWhitespace c = true) : isspace c = true := by
  simp only [isWhitespace, Bool.or_eq_true, beq_iff_eq] at h
  obtain ((rfl | rfl) | rfl) | rfl := h <;> decide

/-- Of the characters that `isspace` accepts only the space is in a key. -/
theorem keys_isspace :
    codes.all (fun e => e.1.all fun c => !isspace c || isWhitespace c) = true := by
  decide +kernel

theorem isspace_of_key {c : Byte} {cs rest : List Byte} {ix : Nat} (hlt : ix < 66)
    (hspace : isWhitespace c = false) (hrest : c :: cs = keyOf ix ++ rest) : isspace c = false := by
  have hmem := List.mem_of_getElem? (codes_getElem? hlt)
  have hkey := List.all_eq_true.mp (List.all_eq_true.mp keys_isspace _ hmem)
  cases hk : keyOf ix with
  | nil =>
    have := length_keyOf_pos hlt
    simp [hk] at this
  | cons d key =>
    rw [hk] at hrest
    have hc := hkey d (by simp [hk])
    rw [← (List.cons.inj hrest).1, hspace, Bool.or_false] at hc
    simpa using hc

/-- The loop of `compressed_length`. -/
theorem follows_compressedLength :
    Follows isWhitespace id
      (fun fuel pre suf (compLen : Nat) inside gap =>
        compressedLengthLoop (pre ++ suf) fuel pre.length compLen inside gap)
      (fun compLen bs => compLen + bs.length) (fun compLen => compLen) where
  emit_nil s := rfl
  emit_append s bs cs := by simp only [List.length_append, Nat.add_assoc]
  isGap_gapChar c hc := hc
  done fuel pre s inside gap := by
    simp only [compressedLengthLoop, List.append_nil, lt_irrefl, if_false]
  inside fuel pre d c cs s gap := by
    have happend : pre ++ [d] ++ [c] ++ cs = pre ++ [d] ++ c :: cs := by simp
    have hlen : (pre ++ [d] ++ [c]).length = (pre ++ [d]).length + 1 := List.length_append
    rw [compressedLengthLoop, if_pos (by simp), if_pos rfl, closesString_append, happend, hlen]
    split
    · next hclose =>
      rw [hclose]
      rfl
    · next hclose =>
      rw [Bool.not_eq_true] at hclose
      rw [hclose]
      rfl
  comment fuel pre cs s gap := by
    rw [compressedLengthLoop, if_pos (by simp), if_neg (by simp), charAt_append, if_pos (by simp),
      skipComment_append, ← split_comment]
  whitespace fuel pre c cs s gap hcomment hspace := by
    rw [compressedLengthLoop, if_pos (by simp), if_neg (by simp), charAt_append,
      if_neg (by simpa using hcomment), if_pos hspace, List.append_assoc, List.singleton_append,
      List.length_append, List.length_singleton]
    rfl
  gap fuel pre w c cs s hw hcomment hspace := by
    rw [compressedLengthLoop, if_pos (by simp), if_neg (by simp), charAt_append,
      if_neg (by simpa using hcomment), if_neg (by simp [hspace])]
    simp only [if_true, List.length_append, List.length_singleton, Nat.add_sub_cancel]
    rw [List.append_assoc, List.singleton_append, charAt_append,
      if_pos (isspace_of_isWhitespace hw), matchLongestKey_space]
    have hquote : (w == chr '"') = false := by
      rw [beq_eq_false_iff_ne]
      rintro rfl
      exact absurd hw (by decide)
    simp only [keyOf_space, List.length_singleton, hquote]
  key fuel pre c cs rest s ix hcomment hspace hix hrest := by
    rw [compressedLengthLoop, if_pos (by simp), if_neg (by simp), charAt_append,
      if_neg (by simpa using hcomment), if_neg (by simp [hspace])]
    simp only [Bool.false_eq_true, if_false, charAt_append, List.drop_left, hix,
      isspace_of_key (matchLongestKey_spec hix).1 hspace hrest]
    rw [List.append_assoc, ← hrest, List.length_append]

/-! ## The round trip -/

/-- The items that are written are the ones that are read. -/
theorem Scans.reads {place : Place} {gap : Bool} {cs : List Byte} {items : List Item}
    (h : Scans place gap cs items) : Reads place items := by
  induction h with
  | done => exact .nil
  | comment h ih => exact ih
  | whitespace hc h ih => exact ih
  | gap hcomment hspace h ih =>
    refine .key (by decide) ?_
    rw [if_neg (by rw [keyOf_space]; decide)]
    exact ih
  | key hcomment hspace hix hrest h ih =>
    rename_i c cs rest ix items
    have hlt := (matchLongestKey_spec hix).1
    refine .key hlt ?_
    by_cases hc : c = chr '"'
    · rw [if_pos hc] at ih
      rw [if_pos (by rw [keyOf_of_quote hlt (hc ▸ hrest)]; rfl)]
      exact ih
    · rw [if_neg hc] at ih
      rw [if_neg]
      · exact ih
      · intro hkey
        rw [beq_iff_eq.mp hkey] at hrest
        exact hc (List.cons.inj hrest).1
  | close h ih => exact .raw ih
  | char hc h ih =>
    refine .raw ?_
    rw [if_neg (by simp [hc])]
    exact ih

section

variable {malloc : Nat → Bool} {s : CString} {items : List Item} {comp : List Byte}

/-- `compressed_length` counts the bits that are written. -/
theorem Scans.compressedLength_eq (h : Scans .outside false s.chars items) :
    compressedLength s.chars = some (items.flatMap Item.bits).length := by
  have heq := follows_compressedLength.eq h (s := 0) (ready_start _ _) s.no_nul
    (show _ < loopFuel s.chars by rw [loopFuel, Bool.toNat_false]; omega)
  rw [List.nil_append, Nat.zero_add] at heq
  exact heq

theorem Scans.compressLoop_eq (h : Scans .outside false s.chars items) (buf : List Byte) :
    compressLoop (loopFuel s.chars) s.chars 0 buf 32 false false
      = some (writeBits buf 32 (items.flatMap Item.bits)) :=
  follows_compress.eq h (s := (buf, 32)) (ready_start _ _) s.no_nul
    (show _ < loopFuel s.chars by rw [loopFuel, Bool.toNat_false]; omega)

/-- What `compression_compress` returns, when it does. -/
theorem compress_eq_some (h : compress malloc s = some comp) :
    ∃ items, Scans .outside false s.chars items
      ∧ (items.flatMap Item.bits).length + 32 < 2 ^ 31
      ∧ comp = writeBits (blank (items.flatMap Item.bits).length) 32 (items.flatMap Item.bits) := by
  unfold compress at h
  simp only at h
  split at h
  · cases h
  split at h
  · cases h
  split at h
  · cases h
  next hoverflow =>
  obtain ⟨items, hscans⟩ := follows_compress.scans (fun _ _ _ _ _ => rfl)
    (fun _ _ _ _ _ => compressLoop_noKey) (s := (_, 32)) (ready_start _ _) s.no_nul h
  refine ⟨items, hscans, ?_, ?_⟩
  · rw [hscans.compressedLength_eq, Option.any_some, decide_eq_true_eq] at hoverflow
    omega
  · have hcomp := Option.some.inj (h.symm.trans (hscans.compressLoop_eq _))
    rw [hcomp, hscans.compressedLength_eq, Option.getD_some]

theorem length_blank (bits : Nat) : 32 + bits ≤ 8 * (blank bits).length := by
  simp only [blank, header, sizeBytes, List.length_append, List.length_map, List.length_range,
    List.length_replicate]
  split <;> omega

/-- The header holds the number of bits. -/
theorem compressedBits_initState {bits : Nat} {bs : List Bool} (h : bits < 2 ^ 32) :
    (initState (writeBits (blank bits) 32 bs)).compressedBits = bits := by
  have hbyte : ∀ k, k < 4 →
      (writeBits (blank bits) 32 bs).getD k 0#8 = BitVec.ofNat 8 (bits >>> (8 * k)) := by
    intro k hk
    rw [getD_writeBits_of_lt (by omega), blank, List.getD_eq_getElem?_getD,
      List.getElem?_append_left (by simpa [header] using hk)]
    simp [header, hk]
  simp only [initState, hbyte 0 (by decide), hbyte 1 (by decide), hbyte 2 (by decide),
    hbyte 3 (by decide), BitVec.toNat_ofNat, Nat.shiftRight_eq_div_pow]
  omega

/-- A compressed program has the items of the text before it. -/
theorem holds_of_compress (h : compress malloc s = some comp) :
    ∃ items, Scans .outside false s.chars items ∧ (initState comp).Holds .outside items := by
  obtain ⟨items, hscans, hlt, rfl⟩ := compress_eq_some h
  have hbits : (initState (writeBits (blank (items.flatMap Item.bits).length) 32
      (items.flatMap Item.bits))).compressedBits = (items.flatMap Item.bits).length :=
    compressedBits_initState (by omega)
  refine ⟨items, hscans, rfl, by simp, hscans.reads, ?_, ?_, ?_⟩
  · exact readBits_writeBits (length_blank _)
  · rw [hbits]
    exact Nat.add_comm _ _
  · rw [hbits]
    omega

/-- **Decompression undoes compression up to layout.** -/
theorem decompress_compress (h : compress malloc s = some comp) {destN : Nat}
    (hdest : (layout s.chars).length ≤ destN) :
    decompress destN comp
      = some (true, layout s.chars ++ List.replicate (destN - (layout s.chars).length) 0#8) := by
  obtain ⟨items, hscans, hholds⟩ := holds_of_compress h
  have htext := hscans.text s.no_nul
  have hfuel : items.length < (initState comp).compressedBits + 2 := by
    have hsize := hholds.size
    have hle := hholds.reads.length_le
    have hi : (initState comp).i = 32 := rfl
    omega
  rw [decompress, decompressLoop_eq hholds hfuel
    (by rw [htext, List.length_nil]; exact (Nat.zero_add _).trans_le hdest),
    htext, List.nil_append]
  rfl

/-- `(car  x) ; "` and ` "a;\\" "` as characters. -/
def twoForms : CString where
  chars := cstring "(car  x) ; \"\n \"a;\\\" \" ;"
  no_nul := by decide +kernel
  length_lt := by decide +kernel

theorem decompress_compress_twoForms :
    ∃ comp, compress (fun _ => true) twoForms = some comp
      ∧ layout twoForms.chars = cstring "(car x) \"a;\\\" \""
      ∧ decompress 20 comp
        = some (true,
          layout twoForms.chars ++ List.replicate (20 - (layout twoForms.chars).length) 0#8) := by
  have hsome : (compress (fun _ => true) twoForms).isSome = true := by decide +kernel
  obtain ⟨comp, hcomp⟩ := Option.isSome_iff_exists.mp hsome
  exact ⟨comp, hcomp, by decide +kernel, decompress_compress hcomp (by decide +kernel)⟩

end

end Compression

end LispBM
