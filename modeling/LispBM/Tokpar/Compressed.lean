import LispBM.Compression.RoundTrip
import LispBM.Tokpar.Text

/-!
# LispBM — reading a compressed program

The reader sees a compressed program through the same four functions as a string, and they deliver
the characters of its layout. So the reader builds from a compressed program what it builds from
the layout of the text, and the question is whether the tokenizer finds the same tokens in a text
and in its layout. The compressor has its own idea of where comments and string literals are: it
does not know character literals, and it takes a double quote after a backslash for a part of the
string. `Agrees` says that no token of the text is one of these, and then the tokens are the same.
-/

namespace LispBM

namespace Tokpar

open Compression (chr CString isspace isWhitespace DecompState decompressIncremental initState
  Place Item Scans layout layoutFrom compress)
open BitBuffer (Byte)

/-! ## Streams that agree -/

section Simulation

variable {α β σ τ : Type}

/-- Two results with related streams after them. -/
def Agree (R : σ → τ → Prop) : Option (α × σ) → Option (α × τ) → Prop
  | none, none => True
  | some (a, s), some (b, t) => a = b ∧ R s t
  | none, some _ => False
  | some _, none => False

variable {R : σ → τ → Prop}

/-- The functions of the first stream do what those of the second one do. -/
structure Simulates (str₁ : CharStream σ) (str₂ : CharStream τ) (R : σ → τ → Prop) : Prop where
  more : ∀ {s t}, R s t → str₁.more s = str₂.more t
  peek : ∀ {s t}, R s t → str₁.peek s = str₂.peek t
  get : ∀ {s t}, R s t → (str₁.get s).1 = (str₂.get t).1 ∧ R (str₁.get s).2 (str₂.get t).2
  drop : ∀ {s t}, R s t → ∀ n, R (str₁.drop s n) (str₂.drop t n)

variable {str₁ : CharStream σ} {str₂ : CharStream τ} {s : σ} {t : τ}

theorem countWhile_congr (hpeek : str₁.peek s = str₂.peek t) (p : Byte → Bool) :
    ∀ fuel n, countWhile str₁ p s fuel n = countWhile str₂ p t fuel n := by
  intro fuel
  induction fuel with
  | zero => intro n; rfl
  | succ fuel ih =>
    intro n
    rw [countWhile, countWhile, hpeek, ih]

theorem peekIs_congr (hpeek : str₁.peek s = str₂.peek t) (start : Nat) (text : List Byte) :
    peekIs str₁ s start text = peekIs str₂ t start text := by
  rw [peekIs, peekIs, hpeek]

theorem numeral_congr (hpeek : str₁.peek s = str₂.peek t) (base : UINT) (value : Byte → UINT)
    (start n : Nat) : numeral str₁ base value s start n = numeral str₂ base value t start n := by
  rw [numeral, numeral, hpeek]

namespace Simulates

variable (hsim : Simulates str₁ str₂ R) (lib : Libc) (fuel : Nat)

include hsim

theorem getMany : ∀ {n : Nat} {s : σ} {t : τ}, R s t →
    (getMany str₁ n s).1 = (getMany str₂ n t).1 ∧ R (getMany str₁ n s).2 (getMany str₂ n t).2 := by
  intro n
  induction n with
  | zero => intro s t h; exact ⟨rfl, h⟩
  | succ n ih =>
    intro s t h
    obtain ⟨hc, h'⟩ := hsim.get h
    obtain ⟨hcs, h''⟩ := ih h'
    refine ⟨?_, h''⟩
    show (str₁.get s).1 :: _ = (str₂.get t).1 :: _
    rw [hc, hcs]

/-- A recogniser finds the same token in both streams. -/
def SameToken (R : σ → τ → Prop) (r₁ : Recogniser σ) (r₂ : Recogniser τ) : Prop :=
  ∀ {s t}, R s t → Agree R (r₁ s) (r₂ t)

omit hsim in
theorem Agree.ite {p : Prop} [Decidable p] {x x' : Option (α × σ)} {y y' : Option (α × τ)}
    (hx : Agree R x y) (hx' : Agree R x' y') :
    Agree R (if p then x else x') (if p then y else y') := by
  split
  · exact hx
  · exact hx'

theorem fixed (text : String) (tok : Token) :
    SameToken R (tokFixed str₁ text tok) (tokFixed str₂ text tok) := by
  intro s t h
  rw [tokFixed, tokFixed, peekIs_congr (hsim.peek h)]
  exact Agree.ite ⟨rfl, hsim.drop h _⟩ ⟨rfl, h⟩

theorem symbol : SameToken R (tokSymbol lib str₁ fuel) (tokSymbol lib str₂ fuel) := by
  intro s t h
  rw [tokSymbol, tokSymbol, countWhile_congr (hsim.peek h), hsim.peek h]
  refine Agree.ite ⟨rfl, h⟩ ?_
  cases countWhile str₂ symchar t fuel 1 with
  | none => trivial
  | some len =>
    obtain ⟨htext, h'⟩ := hsim.getMany (n := len) h
    refine Agree.ite ⟨rfl, h⟩ ⟨?_, h'⟩
    rw [htext]

theorem string : SameToken R (tokString lib str₁ fuel) (tokString lib str₂ fuel) := by
  intro s t h
  have hget := (hsim.get h).2
  rw [tokString, tokString, hsim.peek h]
  refine Agree.ite ⟨rfl, h⟩ ?_
  simp only [countWhile_congr (hsim.peek hget), hsim.peek hget]
  cases countWhile str₂ (fun c => c != 0#8 && c != chr '"') (str₂.get t).2 fuel 0 with
  | none => trivial
  | some len =>
    obtain ⟨htext, h'⟩ := hsim.getMany (n := len) hget
    refine Agree.ite ⟨rfl, hget⟩ (Agree.ite ⟨rfl, hget⟩ ⟨?_, (hsim.get h').2⟩)
    rw [htext]

theorem char : SameToken R (tokChar str₁) (tokChar str₂) := by
  intro s t h
  rw [tokChar, tokChar, peekIs_congr (hsim.peek h), peekIs_congr (hsim.peek h), hsim.peek h]
  exact Agree.ite ⟨rfl, hsim.drop h _⟩ (Agree.ite ⟨rfl, hsim.drop h _⟩ ⟨rfl, h⟩)

theorem int : SameToken R (toki str₁ fuel) (toki str₂ fuel) := by
  intro s t h
  rw [toki, toki, countWhile_congr (hsim.peek h), hsim.peek h]
  cases countWhile str₂ isDigit t fuel 0 with
  | none => trivial
  | some n =>
    refine Agree.ite ⟨rfl, h⟩ (Agree.ite ⟨rfl, h⟩ ⟨?_, hsim.drop h _⟩)
    rw [numeral_congr (hsim.peek h)]

theorem suffixed (suffix : String) (tok : UINT → Token) :
    SameToken R (tokSuffixed str₁ fuel suffix tok) (tokSuffixed str₂ fuel suffix tok) := by
  intro s t h
  rw [tokSuffixed, tokSuffixed, countWhile_congr (hsim.peek h)]
  cases countWhile str₂ isDigit t fuel 0 with
  | none => trivial
  | some n =>
    show Agree R (if peekIs str₁ s n (cstring suffix) then _ else _) _
    rw [peekIs_congr (hsim.peek h)]
    refine Agree.ite ⟨?_, hsim.drop h _⟩ ⟨rfl, h⟩
    rw [numeral_congr (hsim.peek h)]

theorem unsigned : SameToken R (tokU str₁ fuel) (tokU str₂ fuel) := by
  intro s t h
  rw [tokU, tokU, hsim.peek h]
  refine Agree.ite ?_ (hsim.suffixed fuel "u32" .boxedUint h)
  rw [countWhile_congr (hsim.peek h)]
  cases countWhile str₂ isHexDigit t fuel 2 with
  | none => trivial
  | some n =>
    refine ⟨?_, hsim.drop h _⟩
    rw [numeral_congr (hsim.peek h)]

theorem float : SameToken R (tokF lib str₁ fuel) (tokF lib str₂ fuel) := by
  intro s t h
  rw [tokF, tokF, countWhile_congr (hsim.peek h), hsim.peek h]
  cases countWhile str₂ isDigit t fuel 0 with
  | none => trivial
  | some n =>
    refine Agree.ite ⟨rfl, h⟩ (Agree.ite ⟨rfl, h⟩ ?_)
    rw [countWhile_congr (hsim.peek h)]
    cases countWhile str₂ isDigit t fuel (n + 1) with
    | none => trivial
    | some m =>
      obtain ⟨htext, h'⟩ := hsim.getMany (n := min m 255) h
      refine ⟨?_, h'⟩
      rw [htext]

theorem recognisers : List.Forall₂ (SameToken R) (recognisers lib str₁ fuel)
    (recognisers lib str₂ fuel) := by
  refine .cons (hsim.fixed _ _) (.cons (hsim.fixed _ _) (.cons (hsim.fixed _ _) ?_))
  refine .cons (hsim.fixed _ _) (.cons (hsim.fixed _ _) (.cons (hsim.fixed _ _) ?_))
  refine .cons (hsim.symbol lib fuel) (.cons hsim.char (.cons (hsim.string lib fuel) ?_))
  refine .cons (hsim.float lib fuel) (.cons (hsim.unsigned fuel) ?_)
  refine .cons (hsim.suffixed fuel _ _) (.cons (hsim.suffixed fuel _ _) ?_)
  exact .cons (hsim.int fuel) .nil

omit hsim in
theorem firstOf {rs₁ : List (Recogniser σ)} {rs₂ : List (Recogniser τ)}
    (h : List.Forall₂ (SameToken R) rs₁ rs₂) :
    ∀ {s : σ} {t : τ}, R s t → Agree R (firstOf rs₁ s) (firstOf rs₂ t) := by
  induction h with
  | nil => intro s t h; exact ⟨rfl, h⟩
  | @cons r₁ r₂ rs₁ rs₂ hr _ ih =>
    intro s t h
    have hagree := hr h
    rw [Tokpar.firstOf, Tokpar.firstOf]
    rcases hx : r₁ s with _ | ⟨_ | a, s'⟩ <;> rcases hy : r₂ t with _ | ⟨_ | b, t'⟩ <;>
      rw [hx, hy] at hagree
    · trivial
    · exact hagree.elim
    · exact hagree.elim
    · exact hagree.elim
    · exact ih hagree.2
    · exact absurd hagree.1 (by simp)
    · exact hagree.elim
    · exact absurd hagree.1 (by simp)
    · obtain ⟨hab, hst⟩ := hagree
      exact ⟨Option.some.inj hab, hst⟩

theorem comment : ∀ {n : Nat} {s : σ} {t : τ}, R s t →
    Option.Rel R (dropComment str₁ n s) (dropComment str₂ n t) := by
  intro n
  induction n with
  | zero => intro s t _; exact .none
  | succ n ih =>
    intro s t h
    rw [dropComment, dropComment, hsim.more h, hsim.peek h]
    split
    · exact ih (hsim.drop h 1)
    · exact .some h

omit hsim in
theorem rel_bind {x : Option σ} {y : Option τ} (h : Option.Rel R x y) {f : σ → Option σ}
    {g : τ → Option τ} (hfg : ∀ {s t}, R s t → Option.Rel R (f s) (g t)) :
    Option.Rel R (x.bind f) (y.bind g) := by
  cases h with
  | none => exact .none
  | some hst => exact hfg hst

theorem whitespace : ∀ {n : Nat} {s : σ} {t : τ}, R s t →
    Option.Rel R (cleanWhitespace str₁ fuel n s) (cleanWhitespace str₂ fuel n t) := by
  intro n
  induction n with
  | zero => intro s t _; exact .none
  | succ n ih =>
    intro s t h
    rw [cleanWhitespace, cleanWhitespace, hsim.peek h]
    split
    · exact rel_bind (hsim.comment h) ih
    · split
      · exact ih (hsim.drop h 1)
      · exact .some h

theorem nextToken (h : R s t) :
    Agree R (nextToken lib str₁ fuel s) (nextToken lib str₂ fuel t) := by
  rw [Tokpar.nextToken, Tokpar.nextToken, hsim.more h]
  refine Agree.ite ⟨rfl, h⟩ ?_
  have hclean := hsim.whitespace fuel (n := fuel) h
  revert hclean
  generalize cleanWhitespace str₁ fuel fuel s = x
  generalize cleanWhitespace str₂ fuel fuel t = y
  intro hclean
  cases hclean with
  | none => trivial
  | some hst =>
    simp only [Option.bind_eq_bind, Option.bind_some]
    rw [hsim.more hst]
    exact Agree.ite ⟨rfl, hst⟩ (firstOf (hsim.recognisers lib fuel) hst)

end Simulates

/-! ## The parser on streams that agree -/

/-- Results of the parser with related streams. -/
def SameProgram (R : σ → τ → Prop) (x : Option (VALUE × σ × ReaderState))
    (y : Option (VALUE × τ × ReaderState)) : Prop :=
  match x, y with
  | none, none => True
  | some (v, s, st), some (w, t, su) => v = w ∧ R s t ∧ st = su
  | none, some _ => False
  | some _, none => False

theorem SameProgram.bind {x : Option (VALUE × σ × ReaderState)}
    {y : Option (VALUE × τ × ReaderState)} (h : SameProgram R x y)
    {f : VALUE × σ × ReaderState → Option (VALUE × σ × ReaderState)}
    {g : VALUE × τ × ReaderState → Option (VALUE × τ × ReaderState)}
    (hfg : ∀ v s t st, R s t → SameProgram R (f (v, s, st)) (g (v, t, st))) :
    SameProgram R (x.bind f) (y.bind g) := by
  match x, y, h with
  | none, none, _ => trivial
  | some (v, s, st), some (_, t, _), ⟨rfl, hst, rfl⟩ => exact hfg v s t st hst

theorem SameProgram.bindToken {x : Option (Token × σ)} {y : Option (Token × τ)} (h : Agree R x y)
    {f : Token × σ → Option (VALUE × σ × ReaderState)}
    {g : Token × τ → Option (VALUE × τ × ReaderState)}
    (hfg : ∀ a s t, R s t → SameProgram R (f (a, s)) (g (a, t))) :
    SameProgram R (x.bind f) (y.bind g) := by
  match x, y, h with
  | none, none, _ => trivial
  | some (a, s), some (_, t), ⟨rfl, hst⟩ => exact hfg a s t hst

/-- A part that does not use the stream. -/
theorem SameProgram.bindState {x : Option (VALUE × ReaderState)} {s : σ} {t : τ} (h : R s t) :
    SameProgram R (x.bind fun (v, st) => some (v, s, st))
      (x.bind fun (v, st) => some (v, t, st)) := by
  cases x with
  | none => trivial
  | some r => exact ⟨rfl, h, rfl⟩

variable {next₁ : σ → Option (Token × σ)} {next₂ : τ → Option (Token × τ)}

/-- **The parser only sees the tokens.** -/
theorem parse_same (hnext : ∀ {s t}, R s t → Agree R (next₁ s) (next₂ t)) : ∀ n,
    (∀ {tok s t st}, R s t →
      SameProgram R (parseSexp next₁ n tok s st) (parseSexp next₂ n tok t st))
    ∧ (∀ {tok s t st}, R s t →
      SameProgram R (parseSexpList next₁ n tok s st) (parseSexpList next₂ n tok t st)) := by
  intro n
  induction n with
  | zero => exact ⟨fun _ => trivial, fun _ => trivial⟩
  | succ n ih =>
    obtain ⟨hsexp, hlist⟩ := ih
    refine ⟨fun {tok s t st} h => ?_, fun {tok s t st} h => ?_⟩
    · rw [parseSexp_succ, parseSexp_succ]
      cases tok.shape with
      | value f => exact SameProgram.bindState h
      | list => exact SameProgram.bindToken (hnext h) fun a s t h => hlist h
      | form f =>
        refine SameProgram.bindToken (hnext h) fun a s t h => ?_
        exact SameProgram.bind (hsexp h) fun q s t st h => SameProgram.bindState h
    · rw [parseSexpList_succ, parseSexpList_succ]
      cases tok.endsList with
      | some v => exact ⟨rfl, h, rfl⟩
      | none =>
        refine SameProgram.bind (hsexp h) fun head s t st h => ?_
        refine SameProgram.bindToken (hnext h) fun a s t h => ?_
        exact SameProgram.bind (hlist h) fun tail s t st h => ⟨rfl, h, rfl⟩

theorem parseProgram_same (hnext : ∀ {s t}, R s t → Agree R (next₁ s) (next₂ t)) {a : Nat} :
    ∀ {n : Nat} {s : σ} {t : τ} {st : ReaderState}, R s t →
    SameProgram R (parseProgram next₁ a n s st) (parseProgram next₂ a n t st) := by
  intro n
  induction n with
  | zero => intro s t st _; trivial
  | succ n ih =>
    intro s t st h
    rw [parseProgram_succ, parseProgram_succ]
    refine SameProgram.bindToken (hnext h) fun tok s t h => ?_
    simp only
    cases tok.endsProgram with
    | some v => exact ⟨rfl, h, rfl⟩
    | none =>
      refine SameProgram.bind ((parse_same hnext a).1 h) fun head s t st h => ?_
      exact SameProgram.bind (ih h) fun tail s t st h => ⟨rfl, h, rfl⟩

/-- The programs that are read are the same. -/
theorem SameProgram.program {x : Option (VALUE × σ × ReaderState)}
    {y : Option (VALUE × τ × ReaderState)} (h : SameProgram R x y) :
    (x.bind fun (v, _, st) => some (v, st)) = y.bind fun (v, _, st) => some (v, st) := by
  match x, y, h with
  | none, none, _ => rfl
  | some (v, s, st), some (_, t, _), ⟨rfl, _, rfl⟩ => rfl

end Simulation

/-! ## The compressed stream -/

section Compressed

/-- A state of the compressed stream and the characters it will deliver: those left in the buffer
and those of the items that were not read yet. -/
structure CompressedState.Holds (s : CompressedState) (text : List Byte) : Prop where
  holds : ∃ (n : Nat) (place : Place) (items : List Item), s.decompBytes = n ∧ s.buffPos ≤ n
    ∧ n ≤ s.decompBuff.length ∧ s.ds.Holds place items
    ∧ text = (s.decompBuff.take n).drop s.buffPos ++ items.flatMap Item.text

theorem bitsLeft_iff {s : CompressedState} {place : Place} {items : List Item}
    (h : s.ds.Holds place items) : s.bitsLeft = true ↔ items ≠ [] := by
  have hsize := h.size
  have hlt := h.lt
  rw [CompressedState.bitsLeft, decide_eq_true_eq, Nat.mod_eq_of_lt hlt]
  constructor
  · rintro hi rfl
    rw [List.flatMap_nil, List.length_nil] at hsize
    omega
  · intro hne
    have hle := h.reads.length_le
    have hpos := List.length_pos_iff.mpr hne
    omega

theorem moreCompressed_eq {s : CompressedState} {text : List Byte} (h : s.Holds text) :
    moreCompressed s = stringStream.more text := by
  obtain ⟨n, place, items, hn, hpos, hbuff, hds, rfl⟩ := h.holds
  have hlen : ((s.decompBuff.take n).drop s.buffPos).length = n - s.buffPos := by
    rw [List.length_drop, List.length_take, Nat.min_eq_left hbuff]
  rw [moreCompressed, hn]
  by_cases hlt : s.buffPos < n
  · have hne : (s.decompBuff.take n).drop s.buffPos ≠ [] := by
      rw [← List.length_pos_iff, hlen]
      omega
    have hmore : stringStream.more ((s.decompBuff.take n).drop s.buffPos
        ++ items.flatMap Item.text) = true := by
      show (!List.isEmpty _) = true
      simp [hne]
    rw [hmore, decide_eq_true (by exact_mod_cast hlt), Bool.or_true]
  · have hnil : (s.decompBuff.take n).drop s.buffPos = [] := by
      rw [← List.length_eq_zero_iff, hlen]
      omega
    rw [hnil, List.nil_append, decide_eq_false (by exact_mod_cast hlt), Bool.or_false]
    show _ = !List.isEmpty _
    cases items with
    | nil => exact Bool.eq_false_iff.mpr fun hb => (bitsLeft_iff hds).mp hb rfl
    | cons item items =>
      have hne := hds.reads.text_ne_nil
      rw [(bitsLeft_iff hds).mpr (by simp)]
      simp [hne]

/-- Taking a character from a buffer that has one. -/
theorem buffered_holds {s : CompressedState} {n : Nat} {place : Place} {items : List Item}
    (hn : s.decompBytes = n) (hpos : s.buffPos < n) (hbuff : n ≤ s.decompBuff.length)
    (hds : s.ds.Holds place items) :
    ∃ c cs, (s.decompBuff.take n).drop s.buffPos ++ items.flatMap Item.text = c :: cs
      ∧ s.buffered.1 = c ∧ s.buffered.2.Holds cs := by
  have hlt : s.buffPos < (s.decompBuff.take n).length := by
    rw [List.length_take, Nat.min_eq_left hbuff]
    exact hpos
  rw [List.drop_eq_getElem_cons hlt]
  refine ⟨_, _, rfl, ?_, ⟨n, place, items, hn, hpos, hbuff, hds, rfl⟩⟩
  rw [List.getElem_take]
  show s.decompBuff.getD s.buffPos 0#8 = _
  rw [List.getD_eq_getElem?_getD, List.getElem?_eq_getElem (by omega)]
  rfl

theorem getCompressed_holds {s : CompressedState} {text : List Byte} (h : s.Holds text) :
    (getCompressed s).1 = first text ∧ (getCompressed s).2.Holds text.tail := by
  obtain ⟨n, place, items, hn, hpos, hbuff, hds, rfl⟩ := h.holds
  unfold getCompressed
  rw [hn]
  by_cases hlt : s.buffPos < n
  · have hnle : ¬(n : Int) ≤ s.buffPos := by omega
    obtain ⟨c, cs, htext, hc, hcs⟩ := buffered_holds hn hlt hbuff hds
    rw [htext, decide_eq_false hnle, Bool.and_false, if_neg (by simp), if_neg hnle]
    exact ⟨hc, hcs⟩
  · have hle : (n : Int) ≤ s.buffPos := by omega
    have hnil : (s.decompBuff.take n).drop s.buffPos = [] := by
      rw [List.drop_eq_nil_of_le]
      rw [List.length_take, Nat.min_eq_left hbuff]
      omega
    rw [hnil, List.nil_append, decide_eq_true hle, Bool.and_true, if_pos hle]
    cases items with
    | nil =>
      have hbits : s.bitsLeft = false := Bool.eq_false_iff.mpr fun hb =>
        (bitsLeft_iff hds).mp hb rfl
      rw [hbits, if_pos (by rfl)]
      refine ⟨rfl, ⟨n, place, [], hn, hpos, hbuff, hds, ?_⟩⟩
      rw [hnil]
      rfl
    | cons item items =>
      have hbits : s.bitsLeft = true := (bitsLeft_iff hds).mpr (by simp)
      obtain ⟨ds', place', hincr, hds'⟩ := hds.next
      rw [hbits, if_neg (by simp), hincr]
      -- the buffer is filled with the text of the next item
      obtain ⟨d, ds, htext⟩ := List.exists_cons_of_ne_nil hds.reads.text_ne_nil
      rw [List.flatMap_cons, htext]
      simp only
      have hfill := @buffered_holds
        { ds := ds', decompBuff := (d :: ds) ++ List.replicate (32 - (d :: ds).length) 0#8,
          decompBytes := (d :: ds).length, buffPos := 0 } (d :: ds).length place' items rfl
        (by simp) (by simp) hds'
      obtain ⟨c, cs, hcs, hc, hholds⟩ := hfill
      rw [List.drop_zero, List.take_left] at hcs
      rw [hcs]
      exact ⟨hc, hholds⟩

theorem dropCompressed_holds : ∀ {n : Nat} {s : CompressedState} {text : List Byte},
    s.Holds text → (dropCompressed s n).Holds (text.drop n) := by
  intro n
  induction n with
  | zero => intro s text h; exact h
  | succ n ih =>
    intro s text h
    rw [dropCompressed, ← List.drop_tail]
    exact ih (getCompressed_holds h).2

/-- **The compressed stream delivers the characters that it holds.** -/
theorem simulates_compressed :
    Simulates compressedStream stringStream fun s text => CompressedState.Holds s text where
  more := moreCompressed_eq
  peek h := by
    funext n
    rw [peek_stringStream]
    exact (getCompressed_holds (dropCompressed_holds h)).1
  get h := by
    obtain ⟨hc, htail⟩ := getCompressed_holds h
    exact ⟨hc, htail⟩
  drop h n := dropCompressed_holds h

/-- No key is longer than its code word. -/
theorem length_keyOf_le {ix : Nat} (h : ix < 66) :
    (Compression.keyOf ix).length ≤ (Compression.codeOf ix).length := by
  have hall : Compression.codes.all (fun e => decide (e.1.length ≤ e.2.length)) = true := by
    decide +kernel
  have hmem := List.mem_of_getElem? (Compression.codes_getElem? h)
  exact of_decide_eq_true (List.all_eq_true.mp hall _ hmem)

/-- Every character takes at least one bit. -/
theorem length_text_le {place : Place} {items : List Item} (h : Compression.Reads place items) :
    (items.flatMap Item.text).length ≤ (items.flatMap Item.bits).length := by
  induction h with
  | nil => exact le_rfl
  | key hix h ih =>
    have hkey := length_keyOf_le hix
    rw [List.flatMap_cons, List.flatMap_cons, List.length_append, List.length_append, Item.text,
      Item.bits]
    omega
  | raw h ih =>
    rw [List.flatMap_cons, List.flatMap_cons, List.length_append, List.length_append, Item.text,
      Item.bits, Compression.charBits, List.length_map, List.length_range, List.length_singleton]
    omega

/-- At the beginning the stream holds the whole layout. -/
theorem holds_start {malloc : Nat → Bool} {string : CString} {comp : List Byte}
    (h : compress malloc string = some comp) :
    CompressedState.Holds
      { ds := initState comp, decompBuff := List.replicate 32 0#8, decompBytes := 0, buffPos := 0 }
      (layout string.chars) := by
  obtain ⟨items, hscans, hholds⟩ := Compression.holds_of_compress h
  refine ⟨0, .outside, items, rfl, le_rfl, Nat.zero_le _, hholds, ?_⟩
  rw [hscans.text string.no_nul]
  rfl

/-- **A compressed program is read as its layout.** -/
theorem tokparParseCompressed_eq {malloc : Nat → Bool} {string : CString} {comp : List Byte}
    (h : compress malloc string = some comp) (lib : Libc) (st : ReaderState) :
    tokparParseCompressed lib comp st = parseText lib (layout string.chars) st := by
  obtain ⟨items, hscans, hholds⟩ := Compression.holds_of_compress h
  have htext : items.flatMap Item.text = layout string.chars := hscans.text string.no_nul
  have hlen : (layout string.chars).length ≤ (initState comp).compressedBits := by
    have hle := length_text_le hholds.reads
    have hsize := hholds.size
    have hi : (initState comp).i = 32 := rfl
    rw [htext] at hle
    omega
  rw [← parseStream_string lib hlen]
  -- both streams are read with the same fuel
  exact (parseProgram_same (simulates_compressed.nextToken lib _) (holds_start h)).program

/-! ### Calls of the stream -/

/-- A call of one of the four functions of a stream. -/
inductive Call where
  | more
  | get
  | peek (n : Nat)
  | drop (n : Nat)

/-- What a call answers. -/
inductive Answer where
  | more (b : Bool)
  | char (c : Byte)
  | done
deriving DecidableEq, Repr

/-- The answers to a sequence of calls. -/
def answers {σ : Type} (str : CharStream σ) : List Call → σ → List Answer
  | [], _ => []
  | .more :: calls, s => .more (str.more s) :: answers str calls s
  | .get :: calls, s => .char (str.get s).1 :: answers str calls (str.get s).2
  | .peek n :: calls, s => .char (str.peek s n) :: answers str calls s
  | .drop n :: calls, s => .done :: answers str calls (str.drop s n)

theorem Simulates.answers_eq {σ τ : Type} {str₁ : CharStream σ} {str₂ : CharStream τ}
    {R : σ → τ → Prop} (hsim : Simulates str₁ str₂ R) : ∀ (calls : List Call) {s : σ} {t : τ},
    R s t → answers str₁ calls s = answers str₂ calls t := by
  intro calls
  induction calls with
  | nil => intro s t _; rfl
  | cons call calls ih =>
    intro s t h
    cases call with
    | more => rw [answers, answers, hsim.more h, ih h]
    | get =>
      obtain ⟨hc, hrest⟩ := hsim.get h
      rw [answers, answers, hc, ih hrest]
    | peek n => rw [answers, answers, hsim.peek h, ih h]
    | drop n => rw [answers, answers, ih (hsim.drop h n)]

/-- The layout of a text is not longer than the text. -/
theorem length_layoutFrom_le : ∀ (s : List Byte) (place : Place) (gap : Bool),
    (layoutFrom place gap s).length ≤ s.length + gap.toNat := by
  intro s
  induction s with
  | nil => intro place gap; cases place <;> exact Nat.zero_le _
  | cons c cs ih =>
    intro place gap
    cases place with
    | outside =>
      rw [layoutFrom]
      split
      · have h := ih .comment gap
        rw [List.length_cons]
        omega
      · split
        · have h := ih .outside true
          rw [List.length_cons]
          have htrue : true.toNat = 1 := rfl
          omega
        · have hgap : (if gap = true then [chr ' '] else []).length = gap.toNat := by
            cases gap <;> rfl
          rw [List.length_append, List.length_cons, List.length_cons, hgap]
          have hfalse : false.toNat = 0 := rfl
          split
          · have h := ih (.inside false) false
            omega
          · have h := ih .outside false
            omega
    | comment =>
      rw [layoutFrom]
      split
      · have h := ih .outside true
        have htrue : true.toNat = 1 := rfl
        rw [List.length_cons]
        omega
      · have h := ih .comment gap
        rw [List.length_cons]
        omega
    | inside escaped =>
      rw [layoutFrom, List.length_cons, List.length_cons]
      have hfalse : false.toNat = 0 := rfl
      split
      · have h := ih .outside false
        omega
      · have h := ih (.inside (c == chr '\\')) false
        omega

/-- The characters of the layout are those of the text, and spaces. -/
theorem mem_layoutFrom : ∀ {s : List Byte} {place : Place} {gap : Bool} {c : Byte},
    c ∈ layoutFrom place gap s → c ∈ s ∨ c = chr ' ' := by
  intro s
  induction s with
  | nil => intro place gap c h; cases place <;> exact absurd h (by simp [layoutFrom])
  | cons d cs ih =>
    intro place gap c h
    have hrest : ∀ {place gap}, c ∈ layoutFrom place gap cs → c ∈ d :: cs ∨ c = chr ' ' :=
      fun h => (ih h).imp (List.mem_cons_of_mem d) id
    cases place with
    | outside =>
      rw [layoutFrom] at h
      split at h
      · exact hrest h
      · split at h
        · exact hrest h
        · rcases List.mem_append.mp h with h | h
          · split at h
            · exact Or.inr (List.mem_singleton.mp h)
            · exact absurd h (by simp)
          · rcases List.mem_cons.mp h with rfl | h
            · exact Or.inl (by simp)
            · split at h <;> exact hrest h
    | comment =>
      rw [layoutFrom] at h
      split at h <;> exact hrest h
    | inside escaped =>
      rw [layoutFrom] at h
      rcases List.mem_cons.mp h with rfl | h
      · exact Or.inl (by simp)
      · split at h <;> exact hrest h

/-- The layout of a text, as a C string. -/
def layoutString (string : CString) : CString where
  chars := layout string.chars
  no_nul := by
    intro c hc
    rcases mem_layoutFrom hc with h | rfl
    · exact string.no_nul c h
    · decide
  length_lt := by
    have h := length_layoutFrom_le string.chars .outside false
    have hlt := string.length_lt
    exact lt_of_le_of_lt h hlt

/-- **The compressed stream behaves as the string stream over the decompressed text.** Any sequence
of calls is answered the same, so that the two readers do the same to the heap and the symbol table
and return the same value. -/
theorem compressedStream_answers {malloc : Nat → Bool} {string : CString} {comp : List Byte}
    (h : compress malloc string = some comp) {destN : Nat} (hdest : string.chars.length < destN) :
    ∃ text : CString,
      Compression.decompress destN comp
        = some (true, text.chars ++ 0#8 :: List.replicate (destN - text.chars.length - 1) 0#8)
      ∧ (∀ calls, answers compressedStream calls
          { ds := initState comp, decompBuff := List.replicate 32 0#8, decompBytes := 0,
            buffPos := 0 }
          = answers stringStream calls text.chars)
      ∧ ∀ lib st, tokparParseCompressed lib comp st = tokparParse lib text st := by
  have hle : (layout string.chars).length ≤ string.chars.length :=
    length_layoutFrom_le string.chars .outside false
  refine ⟨layoutString string, ?_, fun calls => ?_, fun lib st => ?_⟩
  · rw [Compression.decompress_compress h (by omega)]
    obtain ⟨k, hk⟩ : ∃ k, destN - (layout string.chars).length = k + 1 :=
      Nat.exists_eq_succ_of_ne_zero (by omega)
    show _ = some (true, layout string.chars ++ 0#8 :: List.replicate _ 0#8)
    rw [show destN - (layoutString string).chars.length - 1 = k from by
        show destN - (layout string.chars).length - 1 = k
        omega, hk, List.replicate_succ]
  · exact simulates_compressed.answers_eq calls (holds_start h)
  · rw [tokparParseCompressed_eq h, tokparParse_eq]
    rfl

end Compressed

/-! ## The tokens of a layout -/

section Layout

/-- A text begins with a character literal of one character. -/
def charLiteral (s : List Byte) : Bool :=
  (cstring "\\#").isPrefixOf s && isgraph (first (s.drop 2))

/-- The compressor and the tokenizer agree on the comments and the string literals of a text: no
character literal is a semicolon or a double quote, and no string literal ends with a backslash.
A double quote that is never closed begins no literal. -/
inductive Agrees : List Byte → Prop where
  | nil : Agrees []
  | comment {cs : List Byte} (h : Agrees (cs.dropWhile (· != chr '\n'))) : Agrees (chr ';' :: cs)
  | unclosed {cs : List Byte} (hcs : chr '"' ∉ cs) : Agrees (chr '"' :: cs)
  | string {text rest : List Byte} (htext : chr '"' ∉ text)
      (hlast : text.getLast? ≠ some (chr '\\')) (h : Agrees rest) :
      Agrees (chr '"' :: (text ++ chr '"' :: rest))
  | char {c : Byte} {cs : List Byte} (hgraph : isgraph c = true) (hcomment : c ≠ chr ';')
      (hquote : c ≠ chr '"') (h : Agrees cs) : Agrees (chr '\\' :: chr '#' :: c :: cs)
  | other {c : Byte} {cs : List Byte} (hcomment : c ≠ chr ';') (hquote : c ≠ chr '"')
      (hliteral : charLiteral (c :: cs) = false) (h : Agrees cs) : Agrees (c :: cs)

/-- The layout of a text outside of string literals. -/
def code (s : List Byte) : List Byte := layoutFrom .outside false s

/-- What is left of a gap is a space, or nothing at the end of the text. -/
def Blank (s : List Byte) : Prop := s = [] ∨ ∃ cs, s = chr ' ' :: cs

theorem blank_layoutFrom : ∀ {s : List Byte} {place : Place} {gap : Bool},
    place = .comment ∨ place = .outside ∧ gap = true → Blank (layoutFrom place gap s) := by
  intro s
  induction s with
  | nil =>
    intro place gap _
    exact Or.inl (by cases place <;> rfl)
  | cons c cs ih =>
    intro place gap hplace
    rcases hplace with rfl | ⟨rfl, rfl⟩
    · rw [layoutFrom]
      split
      · exact ih (Or.inr ⟨rfl, rfl⟩)
      · exact ih (Or.inl rfl)
    · rw [layoutFrom]
      split
      · exact ih (Or.inl rfl)
      · split
        · exact ih (Or.inr ⟨rfl, rfl⟩)
        · exact Or.inr ⟨_, rfl⟩

theorem code_append {w rest : List Byte} (hw : ∀ c ∈ w, Compression.isPlain c = true) :
    code (w ++ rest) = w ++ code rest := Compression.layoutFrom_plain hw

theorem drop_code {w s : List Byte} (hw : ∀ c ∈ w, Compression.isPlain c = true) (hs : w <+: s) :
    (code s).drop w.length = code (s.drop w.length) := by
  obtain ⟨rest, rfl⟩ := hs
  rw [code_append hw, List.drop_left, List.drop_left]

theorem take_code {w s : List Byte} (hw : ∀ c ∈ w, Compression.isPlain c = true) (hs : w <+: s) :
    (code s).take w.length = w := by
  obtain ⟨rest, rfl⟩ := hs
  rw [code_append hw, List.take_left]

/-- The layout of a text that is not empty: a gap, or the first character. -/
theorem code_cons (c : Byte) (cs : List Byte) :
    (Compression.isPlain c = false ∧ c ≠ chr '"' ∧ Blank (code (c :: cs)))
      ∨ (c = chr '"' ∧ code (c :: cs) = c :: layoutFrom (.inside false) false cs)
      ∨ (Compression.isPlain c = true ∧ code (c :: cs) = c :: code cs) := by
  by_cases hcomment : c = chr ';'
  · subst hcomment
    have hblank : Blank (layoutFrom .comment false cs) := blank_layoutFrom (Or.inl rfl)
    exact Or.inl ⟨by decide, by decide, hblank⟩
  · by_cases hspace : isWhitespace c = true
    · have hblank : Blank (code (c :: cs)) := by
        rw [code, Compression.layoutFrom_whitespace hspace]
        exact blank_layoutFrom (Or.inr ⟨rfl, rfl⟩)
      refine Or.inl ⟨?_, ?_, hblank⟩
      · simp [Compression.isPlain, hspace]
      · rintro rfl
        exact absurd hspace (by decide)
    · have hspace := Bool.eq_false_iff.mpr hspace
      by_cases hquote : c = chr '"'
      · subst hquote
        exact Or.inr (Or.inl ⟨rfl, rfl⟩)
      · have hplain : Compression.isPlain c = true := by
          simp [Compression.isPlain, hspace, hcomment, hquote]
        have hcode : code ([c] ++ cs) = [c] ++ code cs := code_append (by simpa using hplain)
        exact Or.inr (Or.inr ⟨hplain, hcode⟩)

/-- A word of plain characters is in front of a text or of its layout. -/
theorem isPrefixOf_code : ∀ {w s : List Byte}, (∀ c ∈ w, Compression.isPlain c = true) →
    w.isPrefixOf (code s) = w.isPrefixOf s := by
  intro w
  induction w with
  | nil => intro s _; simp
  | cons c w ih =>
    intro s hw
    have hc : Compression.isPlain c = true := hw c (by simp)
    cases s with
    | nil => rfl
    | cons d ds =>
      rcases code_cons d ds with ⟨hd, -, hblank⟩ | ⟨rfl, hcode⟩ | ⟨hd, hcode⟩
      · have hne : (c == d) = false := by
          rw [beq_eq_false_iff_ne]
          rintro rfl
          rw [hc] at hd
          exact absurd hd (by simp)
        have hspace : (c == chr ' ') = false := by
          rw [beq_eq_false_iff_ne]
          rintro rfl
          exact absurd hc (by decide)
        rcases hblank with hnil | ⟨cs, hcs⟩
        · rw [hnil]
          simp [List.isPrefixOf, hne]
        · rw [hcs]
          simp [List.isPrefixOf, hne, hspace]
      · have hne : (c == chr '"') = false := by
          rw [beq_eq_false_iff_ne]
          rintro rfl
          exact absurd hc (by decide)
        rw [hcode]
        simp [List.isPrefixOf, hne]
      · rw [hcode]
        show ((c == d) && w.isPrefixOf (code ds)) = ((c == d) && w.isPrefixOf ds)
        rw [ih fun x hx => hw x (List.mem_cons_of_mem c hx)]

/-- A kind of plain characters. -/
structure PlainKind (p : Byte → Bool) : Prop where
  plain : ∀ c, p c = true → Compression.isPlain c = true
  nul : p 0#8 = false

theorem PlainKind.first_code {p : Byte → Bool} (hp : PlainKind p) (s : List Byte) :
    p (first (code s)) = p (first s) := by
  cases s with
  | nil => rfl
  | cons c cs =>
    rcases code_cons c cs with ⟨hc, -, hblank⟩ | ⟨rfl, hcode⟩ | ⟨hc, hcode⟩
    · have hpc : p c = false := by
        rw [Bool.eq_false_iff]
        intro h
        rw [hp.plain c h] at hc
        exact absurd hc (by simp)
      have hspace : p (chr ' ') = false := by
        rw [Bool.eq_false_iff]
        intro h
        exact absurd (hp.plain _ h) (by decide)
      show _ = p c
      rw [hpc]
      rcases hblank with hnil | ⟨ds, hds⟩
      · rw [hnil]
        exact hp.nul
      · rw [hds]
        exact hspace
    · rw [hcode]
      rfl
    · rw [hcode]
      rfl

theorem PlainKind.takeWhile_code {p : Byte → Bool} (hp : PlainKind p) : ∀ s : List Byte,
    (code s).takeWhile p = s.takeWhile p := by
  intro s
  induction s with
  | nil => rfl
  | cons c cs ih =>
    have hfirst := hp.first_code (c :: cs)
    cases hc : p c with
    | false =>
      have hfirst : p (first (code (c :: cs))) = false := hfirst.trans hc
      rw [List.takeWhile_cons_of_neg (by simp [hc])]
      cases hcode : code (c :: cs) with
      | nil => rfl
      | cons d ds =>
        rw [hcode] at hfirst
        rw [List.takeWhile_cons_of_neg]
        rw [show p d = false from hfirst]
        simp
    | true =>
      have hplain := hp.plain c hc
      have hcode : code (c :: cs) = c :: code cs := code_append (w := [c]) (by simpa using hplain)
      rw [hcode, List.takeWhile_cons_of_pos hc, List.takeWhile_cons_of_pos hc, ih]

theorem PlainKind.plain_takeWhile {p : Byte → Bool} (hp : PlainKind p) (s : List Byte) :
    ∀ c ∈ s.takeWhile p, Compression.isPlain c = true := fun c hc =>
  hp.plain c (List.mem_takeWhile_imp hc)

theorem PlainKind.drop_code {p : Byte → Bool} (hp : PlainKind p) (s : List Byte) :
    (code s).drop (s.takeWhile p).length = code (s.drop (s.takeWhile p).length) :=
  Tokpar.drop_code (hp.plain_takeWhile s) (List.takeWhile_prefix p)

/-! ### Agreement goes on after a token -/

theorem Agrees.tail {c : Byte} {cs : List Byte} (h : Agrees (c :: cs)) (hcomment : c ≠ chr ';')
    (hquote : c ≠ chr '"') (hslash : c ≠ chr '\\') : Agrees cs := by
  cases h with
  | comment h => exact absurd rfl hcomment
  | unclosed h => exact absurd rfl hquote
  | string _ _ _ => exact absurd rfl hquote
  | char _ _ _ _ => exact absurd rfl hslash
  | other _ _ _ h => exact h

/-- Characters of tokens other than character and string literals. -/
def isWordChar (c : Byte) : Bool := Compression.isPlain c && c != chr '\\'

theorem Agrees.append {w rest : List Byte} (hw : ∀ c ∈ w, isWordChar c = true)
    (h : Agrees (w ++ rest)) : Agrees rest := by
  induction w with
  | nil => exact h
  | cons c w ih =>
    have hc := hw c (by simp)
    have hcomment : c ≠ chr ';' := by
      rintro rfl
      exact absurd hc (by decide)
    have hquote : c ≠ chr '"' := by
      rintro rfl
      exact absurd hc (by decide)
    have hslash : c ≠ chr '\\' := by
      rintro rfl
      exact absurd hc (by decide)
    exact ih (fun d hd => hw d (List.mem_cons_of_mem c hd)) (h.tail hcomment hquote hslash)

theorem Agrees.drop {w s : List Byte} (hw : ∀ c ∈ w, isWordChar c = true) (hs : w <+: s)
    (h : Agrees s) : Agrees (s.drop w.length) := by
  obtain ⟨rest, rfl⟩ := hs
  rw [List.drop_left]
  exact h.append hw

/-- White space and comments are skipped in a text as in its layout. -/
theorem skipBlanks_layoutFrom : ∀ (s : List Byte) (comment gap : Bool),
    skipBlanks false (layoutFrom (if comment then .comment else .outside) gap s)
      = code (skipBlanks comment s) := by
  intro s
  induction s with
  | nil => intro comment gap; cases comment <;> rfl
  | cons c cs ih =>
    intro comment gap
    cases comment with
    | true =>
      show skipBlanks false (layoutFrom .comment gap (c :: cs)) = _
      rw [layoutFrom, skipBlanks]
      split
      · exact ih false true
      · exact ih true gap
    | false =>
      show skipBlanks false (layoutFrom .outside gap (c :: cs)) = _
      by_cases hcomment : (c == chr ';') = true
      · rw [layoutFrom, skipBlanks, if_pos hcomment, if_pos hcomment]
        exact ih true gap
      by_cases hspace : isWhitespace c = true
      · have hisspace := Compression.isspace_of_isWhitespace hspace
        rw [Compression.layoutFrom_whitespace hspace, skipBlanks, if_neg hcomment, if_pos hisspace]
        exact ih false true
      have hspace := Bool.eq_false_iff.mpr hspace
      have hne : c ≠ chr ';' := by simpa using hcomment
      -- the gap in front of the character is skipped
      have hgap : skipBlanks false (layoutFrom .outside gap (c :: cs))
          = skipBlanks false (code (c :: cs)) := by
        cases gap with
        | false => rfl
        | true =>
          rw [Compression.layoutFrom_gap hne hspace]
          rfl
      rw [hgap]
      by_cases hisspace : isspace c = true
      · have hquote : c ≠ chr '"' := by
          rintro rfl
          exact absurd hisspace (by decide)
        have hcode : code (c :: cs) = c :: code cs := by
          have hplain : Compression.isPlain c = true := by
            simp [Compression.isPlain, hspace, hne, hquote]
          exact code_append (w := [c]) (by simpa using hplain)
        have hskip : ∀ ds, skipBlanks false (c :: ds) = skipBlanks false ds := fun ds => by
          rw [skipBlanks, if_neg hcomment, if_pos hisspace]
        rw [hcode, hskip, hskip]
        exact ih false false
      · have hskip : ∀ ds, skipBlanks false (c :: ds) = c :: ds := fun ds => by
          rw [skipBlanks, if_neg hcomment, if_neg hisspace]
        rw [hskip]
        rcases code_cons c cs with ⟨hc, hq, -⟩ | ⟨-, hcode⟩ | ⟨-, hcode⟩
        · have hplain : Compression.isPlain c = true := by
            simp [Compression.isPlain, hspace, hne, hq]
          rw [hplain] at hc
          exact absurd hc (by simp)
        · rw [hcode, hskip]
        · rw [hcode, hskip]

theorem skipBlanks_comment (cs : List Byte) :
    skipBlanks true cs = skipBlanks false (cs.dropWhile (· != chr '\n')) := by
  induction cs with
  | nil => rfl
  | cons c cs ih =>
    rw [skipBlanks]
    by_cases hc : c = chr '\n'
    · subst hc
      rfl
    · rw [if_neg (by simpa using hc), List.dropWhile_cons_of_pos (by simpa using hc), ih]

theorem Agrees.skipBlanks {s : List Byte} (h : Agrees s) : Agrees (skipBlanks false s) := by
  induction h with
  | nil => exact .nil
  | comment h ih =>
    show Agrees (Tokpar.skipBlanks true _)
    rw [skipBlanks_comment]
    exact ih
  | unclosed hcs => exact .unclosed hcs
  | string htext hlast h _ => exact .string htext hlast h
  | char hgraph hcomment hquote h _ => exact .char hgraph hcomment hquote h
  | @other c cs hcomment hquote hliteral h ih =>
    rw [Tokpar.skipBlanks, if_neg (by simpa using hcomment)]
    split
    · exact ih
    · exact .other hcomment hquote hliteral h

/-! ### Each recogniser -/

/-- On a text and on its layout a recogniser does the same, and the rest of the layout is the
layout of the rest. -/
structure Commutes (f : List Byte → Option Token × List Byte) (s : List Byte) : Prop where
  layout : f (code s) = ((f s).1, code (f s).2)
  agrees : Agrees (f s).2
  none : (f s).1 = none → (f s).2 = s

variable {lib : Libc} {s : List Byte}

/-- A recogniser that takes a word of the text or nothing. -/
theorem commutes_of_word {f : List Byte → Option Token × List Byte} (h : Agrees s)
    (hf : f s = (none, s) ∧ f (code s) = (none, code s)
      ∨ ∃ t w, (∀ c ∈ w, isWordChar c = true) ∧ w <+: s ∧ f s = (some t, s.drop w.length)
        ∧ f (code s) = (some t, (code s).drop w.length)) : Commutes f s := by
  rcases hf with ⟨h₁, h₂⟩ | ⟨t, w, hw, hs, h₁, h₂⟩
  · refine ⟨?_, ?_, fun _ => ?_⟩
    · rw [h₁, h₂]
    · rw [h₁]
      exact h
    · rw [h₁]
  · have hplain : ∀ c ∈ w, Compression.isPlain c = true := fun c hc =>
      (Bool.and_eq_true _ _ ▸ hw c hc).1
    refine ⟨?_, ?_, fun hnone => ?_⟩
    · rw [h₁, h₂, drop_code hplain hs]
    · rw [h₁]
      exact h.drop hw hs
    · rw [h₁] at hnone
      exact absurd hnone (by simp)

theorem plain_of_word {w : List Byte} (hw : ∀ c ∈ w, isWordChar c = true) :
    ∀ c ∈ w, Compression.isPlain c = true := fun c hc => (Bool.and_eq_true _ _ ▸ hw c hc).1

theorem commutes_lexFixed {text : String} {t : Token}
    (htext : ∀ c ∈ cstring text, isWordChar c = true) (h : Agrees s) :
    Commutes (lexFixed text t) s := by
  apply commutes_of_word h
  unfold lexFixed
  rw [isPrefixOf_code (plain_of_word htext)]
  split
  · next hp =>
    exact Or.inr ⟨t, cstring text, htext, List.isPrefixOf_iff_prefix.mp hp, rfl, rfl⟩
  · exact Or.inl ⟨rfl, rfl⟩

/-- A kind of characters of words. -/
structure WordKind (p : Byte → Bool) : Prop where
  word : ∀ c, p c = true → isWordChar c = true
  nul : p 0#8 = false

theorem WordKind.plainKind {p : Byte → Bool} (hp : WordKind p) : PlainKind p :=
  ⟨fun c hc => (Bool.and_eq_true _ _ ▸ hp.word c hc).1, hp.nul⟩

theorem WordKind.takeWhile {p : Byte → Bool} (hp : WordKind p) (s : List Byte) :
    ∀ c ∈ s.takeWhile p, isWordChar c = true := fun c hc =>
  hp.word c (List.mem_takeWhile_imp hc)

theorem wordKind_symchar : WordKind symchar := ⟨by decide, by decide⟩

theorem wordKind_symchar0 : WordKind symchar0 := ⟨by decide, by decide⟩

theorem wordKind_isDigit : WordKind isDigit := ⟨by decide, by decide⟩

theorem wordKind_isHexDigit : WordKind isHexDigit := ⟨by decide, by decide⟩

theorem commutes_lexSymbol (h : Agrees s) : Commutes (lexSymbol lib) s := by
  apply commutes_of_word h
  unfold lexSymbol
  rw [wordKind_symchar0.plainKind.first_code, wordKind_symchar.plainKind.takeWhile_code]
  split
  · exact Or.inl ⟨rfl, rfl⟩
  · simp only
    split
    · exact Or.inr ⟨.error, [], by simp, List.nil_prefix, rfl, rfl⟩
    · exact Or.inr ⟨_, s.takeWhile symchar, wordKind_symchar.takeWhile s,
        List.takeWhile_prefix symchar, rfl, rfl⟩

/-- The characters that continue other numbers. -/
theorem wordKind_continues : WordKind fun c => (cstring "Uu.I").contains c :=
  ⟨by decide, by decide⟩

theorem commutes_lexi (h : Agrees s) : Commutes lexi s := by
  have hdigits := wordKind_isDigit.plainKind
  apply commutes_of_word h
  unfold lexi
  simp only [hdigits.takeWhile_code, hdigits.drop_code]
  rw [wordKind_continues.plainKind.first_code]
  split
  · exact Or.inl ⟨rfl, rfl⟩
  · split
    · exact Or.inl ⟨rfl, rfl⟩
    · refine Or.inr ⟨.int (valueOf 10#32 digitValue (s.takeWhile isDigit)), s.takeWhile isDigit,
        wordKind_isDigit.takeWhile s, List.takeWhile_prefix isDigit, rfl, ?_⟩
      rw [hdigits.drop_code]

/-- Two words in front of a text. -/
theorem append_prefix {w v s : List Byte} (hw : w <+: s) (hv : v <+: s.drop w.length) :
    w ++ v <+: s := by
  obtain ⟨rest, rfl⟩ := hw
  rw [List.drop_left] at hv
  exact (List.prefix_append_right_inj w).mpr hv

theorem word_append {w v : List Byte} (hw : ∀ c ∈ w, isWordChar c = true)
    (hv : ∀ c ∈ v, isWordChar c = true) : ∀ c ∈ w ++ v, isWordChar c = true := by
  intro c hc
  rcases List.mem_append.mp hc with hc | hc
  · exact hw c hc
  · exact hv c hc

theorem commutes_lexSuffixed {suffix : String} {t : UINT → Token}
    (hsuffix : ∀ c ∈ cstring suffix, isWordChar c = true) (h : Agrees s) :
    Commutes (lexSuffixed suffix t) s := by
  have hdigits := wordKind_isDigit.plainKind
  apply commutes_of_word h
  unfold lexSuffixed
  simp only [hdigits.takeWhile_code, hdigits.drop_code]
  rw [isPrefixOf_code (plain_of_word hsuffix)]
  split
  · next hp =>
    refine Or.inr ⟨t (valueOf 10#32 digitValue (s.takeWhile isDigit)),
      s.takeWhile isDigit ++ cstring suffix,
      word_append (wordKind_isDigit.takeWhile s) hsuffix,
      append_prefix (List.takeWhile_prefix isDigit) (List.isPrefixOf_iff_prefix.mp hp), ?_, ?_⟩
    · rw [List.length_append, List.drop_drop]
    · rw [List.length_append, ← List.drop_drop, hdigits.drop_code]
  · exact Or.inl ⟨rfl, rfl⟩

theorem wordKind_eq {c : Byte} (hc : isWordChar c = true) (h0 : c ≠ 0#8) :
    WordKind fun d => d == c := by
  refine ⟨fun d hd => ?_, ?_⟩
  · rw [beq_iff_eq.mp hd]
    exact hc
  · rw [beq_eq_false_iff_ne]
    exact h0.symm

theorem hexPrefix_code (s : List Byte) : hexPrefix (code s) = hexPrefix s := by
  have hzero := (wordKind_eq (c := chr '0') (by decide) (by decide)).plainKind.first_code s
  unfold hexPrefix
  rw [hzero]
  cases hs : first s == chr '0' with
  | false => rfl
  | true =>
    cases s with
    | nil => exact absurd hs (by decide)
    | cons c cs =>
      obtain rfl : c = chr '0' := beq_iff_eq.mp hs
      have hdrop : (code (chr '0' :: cs)).drop 1 = code cs :=
        drop_code (w := [chr '0']) (by decide) (List.prefix_append [chr '0'] cs)
      have hx := (wordKind_eq (c := chr 'x') (by decide) (by decide)).plainKind.first_code cs
      have hX := (wordKind_eq (c := chr 'X') (by decide) (by decide)).plainKind.first_code cs
      rw [hdrop, hx, hX]
      rfl

/-- The two characters of a hexadecimal prefix. -/
theorem hexPrefix_word (hp : hexPrefix s = true) :
    (∀ c ∈ s.take 2, isWordChar c = true) ∧ (s.take 2).length = 2 := by
  unfold hexPrefix at hp
  rw [Bool.and_eq_true, Bool.or_eq_true] at hp
  match s with
  | [] => exact absurd hp.1 (by decide)
  | [c] =>
    have hnone : ¬((first [] == chr 'x') = true ∨ (first [] == chr 'X') = true) := by decide
    exact absurd hp.2 hnone
  | c :: d :: cs =>
    obtain rfl : c = chr '0' := beq_iff_eq.mp hp.1
    refine ⟨?_, rfl⟩
    rcases hp.2 with hd | hd
    · obtain rfl : d = chr 'x' := beq_iff_eq.mp hd
      show ∀ c ∈ [chr '0', chr 'x'], isWordChar c = true
      decide
    · obtain rfl : d = chr 'X' := beq_iff_eq.mp hd
      show ∀ c ∈ [chr '0', chr 'X'], isWordChar c = true
      decide

theorem commutes_lexU (h : Agrees s) : Commutes lexU s := by
  have hhex := wordKind_isHexDigit.plainKind
  by_cases hp : hexPrefix s = true
  · apply commutes_of_word h
    have hp' : hexPrefix (code s) = true := by rw [hexPrefix_code, hp]
    obtain ⟨hword, hlen⟩ := hexPrefix_word hp
    have hdrop : (code s).drop 2 = code (s.drop 2) := by
      have := drop_code (plain_of_word hword) (List.take_prefix 2 s)
      rwa [hlen] at this
    refine Or.inr ⟨.boxedUint (valueOf 0x10#32 hexValue ((s.drop 2).takeWhile isHexDigit)),
      s.take 2 ++ (s.drop 2).takeWhile isHexDigit,
      word_append hword (wordKind_isHexDigit.takeWhile _), ?_, ?_, ?_⟩
    · refine append_prefix (List.take_prefix 2 s) ?_
      rw [hlen]
      exact List.takeWhile_prefix isHexDigit
    · rw [lexU, if_pos hp, List.length_append, hlen, ← List.drop_drop]
    · rw [lexU, if_pos hp', List.length_append, hlen, hdrop, hhex.takeWhile_code,
        ← List.drop_drop, hdrop]
  · have hp' : ¬hexPrefix (code s) = true := by rw [hexPrefix_code]; exact hp
    have hsuffixed := @commutes_lexSuffixed s "u32" .boxedUint (by decide) h
    have hs : lexU s = lexSuffixed "u32" .boxedUint s := by rw [lexU, if_neg hp]
    have hcode : lexU (code s) = lexSuffixed "u32" .boxedUint (code s) := by rw [lexU, if_neg hp']
    refine ⟨?_, ?_, ?_⟩
    · rw [hs, hcode]
      exact hsuffixed.layout
    · rw [hs]
      exact hsuffixed.agrees
    · rw [hs]
      exact hsuffixed.none

/-- A text that begins with a character. -/
theorem eq_cons_of_first {c : Byte} (h0 : c ≠ 0#8) (h : (first s == c) = true) :
    s = c :: s.tail := by
  cases s with
  | nil => exact absurd (beq_iff_eq.mp h).symm h0
  | cons d ds =>
    obtain rfl : d = c := beq_iff_eq.mp h
    rfl

theorem floatLength_code (s : List Byte) : floatLength (code s) = floatLength s := by
  have hdigits := wordKind_isDigit.plainKind
  have hdot := (wordKind_eq (c := chr '.') (by decide) (by decide)).plainKind
  unfold floatLength
  simp only [hdigits.takeWhile_code, hdigits.drop_code]
  rw [hdot.first_code]
  cases hd : first (s.drop (s.takeWhile isDigit).length) == chr '.' with
  | false => rfl
  | true =>
    have hrest := eq_cons_of_first (by decide) hd
    have htail : (code (s.drop (s.takeWhile isDigit).length)).tail
        = code (s.drop (s.takeWhile isDigit).length).tail := by
      conv_lhs => rw [hrest]
      have hcode : code ([chr '.'] ++ (s.drop (s.takeWhile isDigit).length).tail)
          = [chr '.'] ++ code (s.drop (s.takeWhile isDigit).length).tail :=
        code_append (by decide)
      exact congrArg List.tail hcode
    rw [htail, hdigits.first_code, hdigits.takeWhile_code]

/-- The characters of a number with a decimal point. -/
theorem float_word (s : List Byte) : ∀ c ∈ s.take (floatLength s), isWordChar c = true := by
  unfold floatLength
  simp only
  split
  · simp
  · next hd =>
    have hd : (first (s.drop (s.takeWhile isDigit).length) == chr '.') = true := by simpa using hd
    have hrest := eq_cons_of_first (by decide) hd
    split
    · simp
    · obtain ⟨rest, hfraction⟩ := List.takeWhile_prefix
        (l := (s.drop (s.takeWhile isDigit).length).tail) isDigit
      have hs : s = (s.takeWhile isDigit ++ chr '.' ::
          (s.drop (s.takeWhile isDigit).length).tail.takeWhile isDigit) ++ rest := by
        rw [List.append_assoc, List.cons_append, hfraction, ← hrest,
          (List.prefix_iff_eq_append.mp (List.takeWhile_prefix isDigit))]
      have hlen : (s.takeWhile isDigit).length + 1
          + ((s.drop (s.takeWhile isDigit).length).tail.takeWhile isDigit).length
          = (s.takeWhile isDigit ++ chr '.' ::
            (s.drop (s.takeWhile isDigit).length).tail.takeWhile isDigit).length := by
        rw [List.length_append, List.length_cons]
        omega
      rw [hlen]
      intro c hc
      have htake := @List.take_left _ (s.takeWhile isDigit ++ chr '.' ::
        (s.drop (s.takeWhile isDigit).length).tail.takeWhile isDigit) rest
      rw [← hs] at htake
      rw [htake] at hc
      refine word_append (wordKind_isDigit.takeWhile s) ?_ c hc
      intro d hd
      rcases List.mem_cons.mp hd with rfl | hd
      · decide
      · exact wordKind_isDigit.takeWhile _ d hd

theorem commutes_lexF (h : Agrees s) : Commutes (lexF lib) s := by
  apply commutes_of_word h
  unfold lexF
  rw [floatLength_code]
  split
  · exact Or.inl ⟨rfl, rfl⟩
  · have hle := floatLength_le s
    have hlen : (s.take (min (floatLength s) 255)).length = min (floatLength s) 255 := by
      rw [List.length_take]
      omega
    have hword : ∀ c ∈ s.take (min (floatLength s) 255), isWordChar c = true := by
      intro c hc
      exact float_word s c ((List.take_prefix_take_left (Nat.min_le_left _ _)).subset hc)
    have htake : (code s).take (min (floatLength s) 255) = s.take (min (floatLength s) 255) := by
      have := take_code (plain_of_word hword) (List.take_prefix _ s)
      rwa [hlen] at this
    refine Or.inr ⟨.boxedFloat (lib.strtod (s.take (min (floatLength s) 255))),
      s.take (min (floatLength s) 255), hword, List.take_prefix _ s, ?_, ?_⟩
    · rw [hlen]
    · rw [hlen, htake]

theorem Agrees.charLiteral {c : Byte} {cs : List Byte} (hgraph : isgraph c = true)
    (h : Agrees (chr '\\' :: chr '#' :: c :: cs)) :
    c ≠ chr ';' ∧ c ≠ chr '"' ∧ Agrees cs := by
  cases h with
  | char _ hcomment hquote h => exact ⟨hcomment, hquote, h⟩
  | other _ _ hliteral _ =>
    have hlit : Tokpar.charLiteral (chr '\\' :: chr '#' :: c :: cs) = true := by
      rw [Tokpar.charLiteral, Bool.and_eq_true]
      exact ⟨by simp [cstring, chr], hgraph⟩
    rw [hlit] at hliteral
    exact absurd hliteral (by simp)

theorem plain_of_isgraph {c : Byte} (hgraph : isgraph c = true) (hcomment : c ≠ chr ';')
    (hquote : c ≠ chr '"') : Compression.isPlain c = true := by
  revert c
  decide

/-- The character after `\#` in a text and in its layout. -/
theorem isgraph_first_code {s : List Byte} (h : ∀ c cs, s = c :: cs → isgraph c = true →
    c ≠ chr ';' ∧ c ≠ chr '"') : isgraph (first (code s)) = isgraph (first s) := by
  cases s with
  | nil => rfl
  | cons c cs =>
    rcases code_cons c cs with ⟨hc, hq, hblank⟩ | ⟨rfl, hcode⟩ | ⟨hc, hcode⟩
    · have hgraph : isgraph c = false := by
        rw [Bool.eq_false_iff]
        intro hg
        rw [plain_of_isgraph hg (h c cs rfl hg).1 hq] at hc
        exact absurd hc (by simp)
      show _ = isgraph c
      rw [hgraph]
      rcases hblank with hnil | ⟨ds, hds⟩
      · rw [hnil]
        rfl
      · rw [hds]
        rfl
    · exact absurd rfl (h _ cs rfl (by decide)).2
    · rw [hcode]
      rfl

theorem commutes_lexChar (h : Agrees s) : Commutes lexChar s := by
  have hslash : ∀ c ∈ cstring "\\#", Compression.isPlain c = true := by decide
  have hnewline : ∀ c ∈ cstring "\\#newline", Compression.isPlain c = true := by decide
  by_cases hp : (cstring "\\#").isPrefixOf s = true
  · obtain ⟨rest, rfl⟩ := List.isPrefixOf_iff_prefix.mp hp
    have hlit : ∀ c cs, rest = c :: cs → isgraph c = true → c ≠ chr ';' ∧ c ≠ chr '"' := by
      rintro c cs rfl hg
      obtain ⟨h₁, h₂, -⟩ := Agrees.charLiteral hg h
      exact ⟨h₁, h₂⟩
    have hcode : code (cstring "\\#" ++ rest) = cstring "\\#" ++ code rest := code_append hslash
    have hgraph := isgraph_first_code hlit
    by_cases hn : (cstring "\\#newline").isPrefixOf (cstring "\\#" ++ rest) = true
    · -- the long literal begins with the short one for the character `n`
      have hn' : (cstring "\\#newline").isPrefixOf (code (cstring "\\#" ++ rest)) = true := by
        rw [isPrefixOf_code hnewline]
        exact hn
      have hlex : lexChar (cstring "\\#" ++ rest)
          = (some (.char (chr '\n')), (cstring "\\#" ++ rest).drop 9) := by
        rw [lexChar, if_pos hn]
      have hlex' : lexChar (code (cstring "\\#" ++ rest))
          = (some (.char (chr '\n')), (code (cstring "\\#" ++ rest)).drop 9) := by
        rw [lexChar, if_pos hn']
      have hdrop := drop_code hnewline (List.isPrefixOf_iff_prefix.mp hn)
      refine ⟨?_, ?_, ?_⟩
      · rw [hlex, hlex']
        exact congrArg _ hdrop
      · rw [hlex]
        obtain ⟨tail, htail⟩ := List.isPrefixOf_iff_prefix.mp hn
        rw [← htail] at h ⊢
        obtain ⟨-, -, hrest⟩ := Agrees.charLiteral (by decide) h
        exact Agrees.append (w := cstring "ewline") (by decide) hrest
      · rw [hlex]
        simp
    · have hn' : ¬(cstring "\\#newline").isPrefixOf (code (cstring "\\#" ++ rest)) = true := by
        rw [isPrefixOf_code hnewline]
        exact hn
      have hp' : (cstring "\\#").isPrefixOf (code (cstring "\\#" ++ rest)) = true := by
        rw [isPrefixOf_code hslash]
        exact hp
      have hfirst : first ((cstring "\\#" ++ rest).drop 2) = first rest := rfl
      have hfirst' : first ((code (cstring "\\#" ++ rest)).drop 2) = first (code rest) := by
        rw [hcode]
        rfl
      cases hg : isgraph (first rest) with
      | false =>
        refine commutes_of_word h (Or.inl ⟨?_, ?_⟩)
        · rw [lexChar, if_neg hn, hp, hfirst, hg]
          rfl
        · rw [lexChar, if_neg hn', hp', hfirst', hgraph, hg]
          rfl
      | true =>
        cases rest with
        | nil => exact absurd hg (by decide)
        | cons c cs =>
          obtain ⟨hcomment, hquote, hcs⟩ := Agrees.charLiteral hg h
          have hplain : Compression.isPlain c = true := plain_of_isgraph hg hcomment hquote
          have hcs' : code (c :: cs) = c :: code cs :=
            code_append (w := [c]) (by simpa using hplain)
          refine ⟨?_, ?_, ?_⟩
          · rw [lexChar, if_neg hn', hp', hfirst', hgraph, hg, lexChar, if_neg hn, hp, hfirst, hg,
              hcode, hcs']
            rfl
          · rw [lexChar, if_neg hn, hp, hfirst, hg]
            exact hcs
          · rw [lexChar, if_neg hn, hp, hfirst, hg]
            simp
  · have hp' : ¬(cstring "\\#").isPrefixOf (code s) = true := by
      rw [isPrefixOf_code hslash]
      exact hp
    have hno : ∀ {u : List Byte}, ¬(cstring "\\#").isPrefixOf u = true → lexChar u = (none, u) := by
      intro u hu
      have hlong : ¬(cstring "\\#newline").isPrefixOf u = true := by
        intro hl
        have hshort : cstring "\\#" <+: cstring "\\#newline" := by decide
        exact hu (List.isPrefixOf_iff_prefix.mpr
          (hshort.trans (List.isPrefixOf_iff_prefix.mp hl)))
      rw [lexChar, if_neg hlong, if_neg (by rw [Bool.and_eq_true]; exact fun hb => hu hb.1)]
    exact commutes_of_word h (Or.inl ⟨hno hp, hno hp'⟩)

theorem first_code_quote (h : first s ≠ chr '"') : first (code s) ≠ chr '"' := by
  cases s with
  | nil => exact h
  | cons c cs =>
    rcases code_cons c cs with ⟨-, -, hblank⟩ | ⟨rfl, -⟩ | ⟨-, hcode⟩
    · rcases hblank with hnil | ⟨ds, hds⟩
      · rw [hnil]
        decide
      · rw [hds]
        show chr ' ' ≠ chr '"'
        decide
    · exact absurd rfl h
    · rw [hcode]
      exact h

theorem commutes_lexString (hfirst : first s ≠ chr '"') (h : Agrees s) :
    Commutes (lexString lib) s := by
  have hno : ∀ {u : List Byte}, first u ≠ chr '"' → lexString lib u = (none, u) := by
    intro u hu
    rw [lexString, if_pos (by simpa using hu)]
  exact commutes_of_word h (Or.inl ⟨hno hfirst, hno (first_code_quote hfirst)⟩)

theorem commutes_lexers (hfirst : first s ≠ chr '"') (h : Agrees s) :
    ∀ f ∈ lexers lib, Commutes f s := by
  intro f hf
  simp only [lexers, List.mem_cons, List.not_mem_nil, or_false] at hf
  rcases hf with rfl | rfl | rfl | rfl | rfl | rfl | rfl | rfl | rfl | rfl | rfl | rfl | rfl | rfl
  · exact commutes_lexFixed (by decide) h
  · exact commutes_lexFixed (by decide) h
  · exact commutes_lexFixed (by decide) h
  · exact commutes_lexFixed (by decide) h
  · exact commutes_lexFixed (by decide) h
  · exact commutes_lexFixed (by decide) h
  · exact commutes_lexSymbol h
  · exact commutes_lexChar h
  · exact commutes_lexString hfirst h
  · exact commutes_lexF h
  · exact commutes_lexU h
  · exact commutes_lexSuffixed (by decide) h
  · exact commutes_lexSuffixed (by decide) h
  · exact commutes_lexi h

theorem lexFirst_code {fs : List (List Byte → Option Token × List Byte)}
    (hfs : ∀ f ∈ fs, Commutes f s) (h : Agrees s) :
    lexFirst fs (code s) = ((lexFirst fs s).1, code (lexFirst fs s).2)
      ∧ Agrees (lexFirst fs s).2 := by
  induction fs with
  | nil => exact ⟨rfl, h⟩
  | cons f fs ih =>
    have hf := hfs f (by simp)
    have hlayout := hf.layout
    rw [lexFirst, lexFirst, hlayout]
    rcases heq : f s with ⟨_ | t, s'⟩
    · have hs' : s' = s := by
        have := hf.none (by rw [heq])
        rwa [heq] at this
      subst hs'
      exact ih fun g hg => hfs g (List.mem_cons_of_mem f hg)
    · have hagrees := hf.agrees
      rw [heq] at hagrees
      exact ⟨rfl, hagrees⟩

/-! ### String literals -/

theorem layoutFrom_unclosed : ∀ {cs : List Byte} {escaped : Bool}, chr '"' ∉ cs →
    layoutFrom (.inside escaped) false cs = cs := by
  intro cs
  induction cs with
  | nil => intro escaped _; rfl
  | cons c cs ih =>
    intro escaped hcs
    have hc : (c == chr '"') = false := by
      rw [beq_eq_false_iff_ne]
      rintro rfl
      exact hcs (by simp)
    rw [layoutFrom, hc]
    show c :: layoutFrom (.inside (c == chr '\\')) false cs = c :: cs
    rw [ih fun h => hcs (List.mem_cons_of_mem c h)]

theorem layoutFrom_closed : ∀ {text rest : List Byte} {escaped : Bool}, chr '"' ∉ text →
    (text = [] → escaped = false) → text.getLast? ≠ some (chr '\\') →
    layoutFrom (.inside escaped) false (text ++ chr '"' :: rest)
      = text ++ chr '"' :: code rest := by
  intro text
  induction text with
  | nil =>
    intro rest escaped _ hescaped _
    rw [hescaped rfl]
    rfl
  | cons c text ih =>
    intro rest escaped htext _ hlast
    have hc : (c == chr '"') = false := by
      rw [beq_eq_false_iff_ne]
      rintro rfl
      exact htext (by simp)
    rw [List.cons_append, layoutFrom, hc]
    show c :: layoutFrom (.inside (c == chr '\\')) false (text ++ chr '"' :: rest) = _
    rw [ih (fun h => htext (List.mem_cons_of_mem c h)) ?_ ?_]
    · rfl
    · rintro rfl
      rw [beq_eq_false_iff_ne]
      rintro rfl
      exact hlast rfl
    · cases text with
      | nil => simp
      | cons d text => rwa [List.getLast?_cons_cons] at hlast

/-- The token at a closed string literal. -/
theorem lexFirst_string {text rest : List Byte} (hmalloc : lib.malloc (text.length + 1) = true)
    (htext : ∀ c ∈ text, inString c = true) :
    lexFirst (lexers lib) (chr '"' :: (text ++ chr '"' :: rest)) = (.string text, rest) := by
  have hfixed : ∀ {w : String} {t : Token}, (cstring w).headD 0#8 ≠ chr '"' → cstring w ≠ [] →
      lexFixed w t (chr '"' :: (text ++ chr '"' :: rest))
        = (none, chr '"' :: (text ++ chr '"' :: rest)) := by
    intro w t hw hne
    rw [lexFixed, if_neg]
    obtain ⟨c, cs, hcs⟩ := List.exists_cons_of_ne_nil hne
    rw [hcs] at hw ⊢
    simp only [List.isPrefixOf, Bool.and_eq_true, beq_iff_eq]
    exact fun h => hw h.1
  have htake : (text ++ chr '"' :: rest).takeWhile inString = text := by
    rw [List.takeWhile_append_of_pos htext, List.takeWhile_cons_of_neg (by decide), List.append_nil]
  have hstring : lexString lib (chr '"' :: (text ++ chr '"' :: rest))
      = (some (.string text), rest) := by
    have hq : (first (chr '"' :: (text ++ chr '"' :: rest)) == chr '"') = true := by
      show (chr '"' == chr '"') = true
      decide
    rw [lexString, hq]
    simp only [List.tail_cons, htake, List.drop_left, hmalloc]
    rfl
  have hsymbol : lexSymbol lib (chr '"' :: (text ++ chr '"' :: rest))
      = (none, chr '"' :: (text ++ chr '"' :: rest)) := rfl
  have hchar : lexChar (chr '"' :: (text ++ chr '"' :: rest))
      = (none, chr '"' :: (text ++ chr '"' :: rest)) := rfl
  simp only [lexers, lexFirst]
  rw [hfixed (by decide) (by decide)]
  simp only [hfixed (show (cstring "`").headD 0#8 ≠ chr '"' by decide) (by decide),
    hfixed (show (cstring ",@").headD 0#8 ≠ chr '"' by decide) (by decide),
    hfixed (show (cstring ",").headD 0#8 ≠ chr '"' by decide) (by decide),
    hfixed (show (cstring "(").headD 0#8 ≠ chr '"' by decide) (by decide),
    hfixed (show (cstring ")").headD 0#8 ≠ chr '"' by decide) (by decide), hsymbol, hchar, hstring]

/-! ### The whole text -/

/-- A text and what is left of its layout, and memory for its string literals. Within a string
literal that is never closed they are the same. -/
def SameText (lib : Libc) (s' s : List Byte) : Prop :=
  (∃ gap, s' = layoutFrom .outside gap s ∧ Agrees s ∧ (∀ c ∈ s, c ≠ 0#8)
    ∧ ∀ n ≤ s.length, lib.malloc n = true) ∨ s' = s

/-- What is not skipped is no white space and begins no comment. -/
theorem skipBlanks_head : ∀ {s : List Byte} {comment : Bool} (c : Byte) (cs : List Byte),
    skipBlanks comment s = c :: cs → c ≠ chr '"' → Compression.isPlain c = true := by
  intro s
  induction s with
  | nil => intro comment c cs h _; cases comment <;> exact absurd h (by simp [skipBlanks])
  | cons d ds ih =>
    intro comment c cs h hquote
    cases comment with
    | true =>
      rw [skipBlanks] at h
      split at h
      · exact ih c cs h hquote
      · exact ih c cs h hquote
    | false =>
      rw [skipBlanks] at h
      split at h
      · exact ih c cs h hquote
      · next hcomment =>
        split at h
        · exact ih c cs h hquote
        · next hspace =>
          obtain rfl : d = c := (List.cons.inj h).1
          have hwhite : isWhitespace d = false := by
            rw [Bool.eq_false_iff]
            exact fun hw => hspace (Compression.isspace_of_isWhitespace hw)
          have hcomment : d ≠ chr ';' := by simpa using hcomment
          simp [Compression.isPlain, hwhite, hcomment, hquote]

theorem agree_lex {s' : List Byte} (h : SameText lib s' s) :
    Agree (SameText lib) (lexNext lib s') (lexNext lib s) := by
  rcases h with ⟨gap, rfl, hagrees, hnul, hmalloc⟩ | rfl
  · have hskip : skipBlanks false (layoutFrom .outside gap s) = code (skipBlanks false s) :=
      skipBlanks_layoutFrom s false gap
    have hagrees := hagrees.skipBlanks
    have hnul : ∀ c ∈ skipBlanks false s, c ≠ 0#8 := fun c hc =>
      hnul c ((skipBlanks_suffix false s).subset hc)
    have hmalloc : ∀ n ≤ (skipBlanks false s).length, lib.malloc n = true := fun n hn =>
      hmalloc n (hn.trans (skipBlanks_suffix false s).length_le)
    have hhead := @skipBlanks_head s false
    unfold lexNext lex
    rw [hskip]
    revert hagrees hnul hmalloc hhead
    generalize skipBlanks false s = u
    intro hagrees hnul hmalloc hhead
    cases u with
    | nil => exact ⟨rfl, Or.inr rfl⟩
    | cons c cs =>
      by_cases hquote : c = chr '"'
      · subst hquote
        cases hagrees with
        | unclosed hcs =>
          have hcode : code (chr '"' :: cs) = chr '"' :: cs := by
            show chr '"' :: layoutFrom (.inside false) false cs = _
            rw [layoutFrom_unclosed hcs]
          rw [hcode]
          exact ⟨rfl, Or.inr rfl⟩
        | @string text rest htext hlast hrest =>
          have hcode : code (chr '"' :: (text ++ chr '"' :: rest))
              = chr '"' :: (text ++ chr '"' :: code rest) := by
            show chr '"' :: layoutFrom (.inside false) false (text ++ chr '"' :: rest) = _
            rw [layoutFrom_closed htext (fun _ => rfl) hlast]
          have hin : ∀ c ∈ text, inString c = true := by
            intro c hc
            have h₁ : c ≠ 0#8 := hnul c (by simp [hc])
            have h₂ : c ≠ chr '"' := fun he => htext (he ▸ hc)
            simp [inString, h₁, h₂]
          have hbuffer : lib.malloc (text.length + 1) = true := by
            refine hmalloc _ ?_
            simp only [List.length_cons, List.length_append]
            omega
          rw [hcode]
          simp only [lexFirst_string hbuffer hin]
          refine ⟨rfl, Or.inl ⟨false, rfl, hrest, fun c hc => hnul c ?_, fun n hn => hmalloc n ?_⟩⟩
          · exact List.mem_cons_of_mem _ (List.mem_append_right _ (List.mem_cons_of_mem _ hc))
          · simp only [List.length_cons, List.length_append]
            omega
        | other _ hq _ _ => exact absurd rfl hq
      · have hfirst : first (c :: cs) ≠ chr '"' := hquote
        have hcommutes : ∀ f ∈ lexers lib, Commutes f (c :: cs) := commutes_lexers hfirst hagrees
        obtain ⟨hlex, hrest⟩ := lexFirst_code hcommutes hagrees
        have hsuffix := (lexFirst_shortens (shortens_lexers lib) (c :: cs)).1
        obtain ⟨ds, hcode⟩ : ∃ ds, code (c :: cs) = c :: ds := by
          rcases code_cons c cs with ⟨hplain, -, -⟩ | ⟨-, hcode⟩ | ⟨-, hcode⟩
          · rw [hhead c cs rfl hquote] at hplain
            exact absurd hplain (by simp)
          · exact ⟨_, hcode⟩
          · exact ⟨_, hcode⟩
        rw [hcode] at hlex ⊢
        simp only [hlex]
        exact ⟨rfl, Or.inl ⟨false, rfl, hrest, fun x hx => hnul x (hsuffix.subset hx),
          fun n hn => hmalloc n (hn.trans hsuffix.length_le)⟩⟩
  · rcases hlex : lex lib s' with ⟨t, u⟩
    rw [lexNext, hlex]
    exact ⟨rfl, Or.inr rfl⟩

/-- The text and its layout are read with the same fuel. -/
theorem parseText_layout (hmalloc : ∀ n ≤ s.length, lib.malloc n = true) (hnul : ∀ c ∈ s, c ≠ 0#8)
    (h : Agrees s) (st : ReaderState) :
    parseText lib (layout s) st = parseText lib s st := by
  have hfuel : ∀ u : List Byte, u.length ≤ s.length + (layout s).length →
      parseProgram (lexNext lib) (2 * u.length + 2) (u.length + 1) u st
        = parseProgram (lexNext lib) (2 * (s.length + (layout s).length) + 2)
          (s.length + (layout s).length + 1) u st := by
    intro u hu
    have h₁ := @parseProgram_fuel lib (u.length + 1) (2 * u.length + 2) (2 * u.length + 2)
      (u.length + 1) (u.length + 1) u st (by omega) (by omega) (by omega) (by omega) (by omega)
    have h₂ := @parseProgram_fuel lib (u.length + 1) (2 * u.length + 2)
      (2 * (s.length + (layout s).length) + 2) (u.length + 1) (s.length + (layout s).length + 1)
      u st
      (by omega) (by omega) (by omega) (by omega) (by omega)
    rw [← h₁, h₂]
  rw [parseText, parseText, hfuel (layout s) (by omega), hfuel s (by omega)]
  exact (parseProgram_same agree_lex (Or.inl ⟨false, rfl, h, hnul, hmalloc⟩)).program

/-- **Compression is transparent to the reader** where its idea of comments and string literals is
that of the tokenizer. -/
theorem tokparParseCompressed_compress {malloc : Nat → Bool} {string : CString} {comp : List Byte}
    (h : compress malloc string = some comp)
    (hmalloc : ∀ n ≤ string.chars.length, lib.malloc n = true)
    (hagrees : Agrees string.chars) (st : ReaderState) :
    tokparParseCompressed lib comp st = tokparParse lib string st := by
  rw [tokparParseCompressed_eq h, tokparParse_eq, parseText_layout hmalloc string.no_nul hagrees]

end Layout

/-! ### Two programs -/

/-- A C library that always has memory; the programs below have no floats. -/
def ampleLibc : Libc := ⟨fun _ => true, fun _ => 0#32⟩

/-- Four cells, and no name but those of the language. -/
def fourCells : ReaderState :=
  ⟨heapInit 4 (List.replicate 4 ⟨0#32, 0#32⟩) ⟨[], [], 0#32, 0#32, 0#32⟩, ⟨0#32, 0#32⟩⟩

def sumText : CString := ⟨cstring "(+ 1  2) ; sum", by decide, by decide⟩

theorem agrees_sumText : Agrees sumText.chars := by
  have hcomment : Agrees (cstring "; sum") := .comment .nil
  show Agrees (cstring "(+ 1  2) " ++ cstring "; sum")
  repeat' first | exact hcomment | refine Agrees.other (by decide) (by decide) (by decide) ?_

/-- The extra space and the comment are not in the compressed program. -/
theorem tokparParseCompressed_sumText :
    (compress (fun _ => true) sumText).isSome = true
      ∧ (tokparParse ampleLibc sumText fourCells).isSome = true
      ∧ (compress (fun _ => true) sumText).bind (tokparParseCompressed ampleLibc · fourCells)
        = tokparParse ampleLibc sumText fourCells := by
  have hsome : (compress (fun _ => true) sumText).isSome = true := by decide +kernel
  refine ⟨hsome, by decide +kernel, ?_⟩
  obtain ⟨comp, hcomp⟩ := Option.isSome_iff_exists.mp hsome
  rw [hcomp, Option.bind_some]
  exact tokparParseCompressed_compress hcomp (fun _ _ => rfl) agrees_sumText fourCells

/-- The calls and the reader on the compressed sum. -/
theorem compressedStream_answers_sumText :
    ∃ comp text, compress (fun _ => true) sumText = some comp
      ∧ Compression.decompress 20 comp
        = some (true, CString.chars text ++ 0#8 :: List.replicate (20 - text.chars.length - 1) 0#8)
      ∧ answers compressedStream [.peek 2, .drop 3, .get, .more]
          { ds := initState comp, decompBuff := List.replicate 32 0#8, decompBytes := 0,
            buffPos := 0 }
        = answers stringStream [.peek 2, .drop 3, .get, .more] text.chars
      ∧ tokparParseCompressed ampleLibc comp fourCells = tokparParse ampleLibc text fourCells := by
  have hsome : (compress (fun _ => true) sumText).isSome = true := by decide +kernel
  obtain ⟨comp, hcomp⟩ := Option.isSome_iff_exists.mp hsome
  obtain ⟨text, hdecomp, hanswers, hparse⟩ :=
    compressedStream_answers hcomp (show sumText.chars.length < 20 by decide +kernel)
  exact ⟨comp, text, hcomp, hdecomp, hanswers _, hparse _ _⟩

def semicolonText : CString := ⟨cstring "\\#; 1", by decide, by decide⟩

/-- The character literal of a semicolon begins a comment for the compressor: the text is a
program of two elements, the compressed program does not read. -/
theorem tokparParseCompressed_semicolonText :
    ((compress (fun _ => true) semicolonText).bind
        (tokparParseCompressed ampleLibc · fourCells)).map (fun r => r.1)
      = some (encSym symreprRerror)
    ∧ (tokparParse ampleLibc semicolonText fourCells).map
        (fun r => (typeOf r.1, car r.2.heap r.1, car r.2.heap (cdr r.2.heap r.1)))
      = some (ptrTypeCons, encChar (chr ';'), encI 1#32) := by
  decide +kernel

end Tokpar

end LispBM
