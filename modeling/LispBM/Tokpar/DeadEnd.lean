import LispBM.Compression.Endings
import LispBM.Tokpar.Compressed
import LispBM.Tokpar.Reading

/-!
# LispBM — reading bits that do not decode

Where no code word begins with the bits that are left, the compressed stream goes on for ever: there
is always more, and it is always NUL. `next_token` returns from there, with the error token, unless
it is in a comment, which it would leave at a newline or where there is no more.

* `nextToken_deadEnd` — `next_token` on such a stream;
* `decompressesRobustly_iff` — for which bytes both decompression and the reader are robust.
-/

namespace LispBM

namespace Tokpar

open BitBuffer (Byte)
open Compression (chr isspace Place Item Ending Decodes DecompState decompressIncremental initState
  declaredBits DecompressesSafely)
open Cursor (Reader)

/-! ## A stream that goes on with NUL -/

/-- The string stream without an end. -/
def deadEnd : CharStream (List Byte) := { stringStream with more := fun _ => true }

/-- The text is nothing but white space and comments, the last of which is not closed by a newline;
`comment` says that the text begins within a comment. -/
def opensComment : Bool → List Byte → Bool
  | comment, [] => comment
  | true, c :: cs => if c == chr '\n' then opensComment false cs else opensComment true cs
  | false, c :: cs =>
      if c == chr ';' then opensComment true cs
      else if isspace c then opensComment false cs
      else false

/-- The next token of a text that is followed by NULs. -/
def lexDeadEnd (lib : Libc) (s : List Byte) : Token × List Byte :=
  match skipBlanks false s with
  | [] => (.error, [])
  | c :: cs => lexFirst (lexers lib) (c :: cs)

section DeadEnd

variable (lib : Libc)

theorem countWhile_deadEnd (p : Byte → Bool) (s : List Byte) (fuel n : Nat) :
    countWhile deadEnd p s fuel n = countWhile stringStream p s fuel n :=
  @countWhile_congr _ _ deadEnd stringStream s s rfl p fuel n

theorem getMany_deadEnd : ∀ n s, getMany deadEnd n s = getMany stringStream n s := by
  intro n
  induction n with
  | zero => intro s; rfl
  | succ n ih =>
    intro s
    show ((stringStream.get s).1 :: (getMany deadEnd n (stringStream.get s).2).1,
      (getMany deadEnd n (stringStream.get s).2).2) = _
    rw [ih]
    rfl

/-- The recognisers do not ask whether there is more. -/
theorem recognisers_deadEnd (fuel : Nat) :
    recognisers lib deadEnd fuel = recognisers lib stringStream fuel := by
  have hsuffixed : ∀ w t, tokSuffixed deadEnd fuel w t = tokSuffixed stringStream fuel w t := by
    intro w t
    funext s
    simp only [tokSuffixed, countWhile_deadEnd]
    rfl
  have hsymbol : tokSymbol lib deadEnd fuel = tokSymbol lib stringStream fuel := by
    funext s
    simp only [tokSymbol, countWhile_deadEnd, getMany_deadEnd]
    rfl
  have hstring : tokString lib deadEnd fuel = tokString lib stringStream fuel := by
    funext s
    simp only [tokString, countWhile_deadEnd, getMany_deadEnd]
    rfl
  have hfloat : tokF lib deadEnd fuel = tokF lib stringStream fuel := by
    funext s
    simp only [tokF, countWhile_deadEnd, getMany_deadEnd]
    rfl
  have hhex : tokU deadEnd fuel = tokU stringStream fuel := by
    funext s
    simp only [tokU, countWhile_deadEnd, hsuffixed]
    rfl
  have hint : toki deadEnd fuel = toki stringStream fuel := by
    funext s
    simp only [toki, countWhile_deadEnd]
    rfl
  rw [recognisers, hsymbol, hstring, hfloat, hhex, hint, toku, tokI, hsuffixed, hsuffixed]
  rfl

theorem dropComment_deadEnd_cons {c : Byte} (hc : c ≠ chr '\n') (n : Nat) (cs : List Byte) :
    dropComment deadEnd (n + 1) (c :: cs) = dropComment deadEnd n cs := by
  show (if (true && (c != chr '\n')) = true then dropComment deadEnd n cs else some (c :: cs)) = _
  rw [bne_iff_ne.mpr hc]
  rfl

/-- A comment that is not closed is never left. -/
theorem dropComment_deadEnd_nil : ∀ n, dropComment deadEnd n [] = none := by
  intro n
  induction n with
  | zero => rfl
  | succ n ih => exact ih

theorem dropComment_deadEnd : ∀ {n : Nat} {s : List Byte}, s.length < n →
    (dropComment deadEnd n s = none ∧ opensComment true s = true)
    ∨ ∃ s', dropComment deadEnd n s = some s' ∧ s' <:+ s ∧ skipBlanks true s = skipBlanks false s'
      ∧ opensComment true s = opensComment false s' := by
  intro n
  induction n with
  | zero => intro s hs; exact absurd hs (Nat.not_lt_zero _)
  | succ n ih =>
    intro s hs
    cases s with
    | nil => exact .inl ⟨dropComment_deadEnd_nil _, rfl⟩
    | cons c cs =>
      by_cases hc : c = chr '\n'
      · subst hc
        exact .inr ⟨_, rfl, List.suffix_refl _, rfl, rfl⟩
      · have hopen : opensComment true (c :: cs) = opensComment true cs := by
          rw [opensComment, if_neg (by simpa using hc)]
        have hskip : skipBlanks true (c :: cs) = skipBlanks true cs := by
          rw [skipBlanks, if_neg (by simpa using hc)]
        rw [dropComment_deadEnd_cons hc, hopen, hskip]
        rcases @ih cs (by simpa using hs) with hnone | ⟨s', hs', hsuf, hrest⟩
        · exact .inl hnone
        · exact .inr ⟨s', hs', hsuf.trans (List.suffix_cons c cs), hrest⟩

theorem cleanWhitespace_deadEnd {fuel : Nat} : ∀ {n : Nat} {s : List Byte}, s.length < fuel →
    s.length < n → cleanWhitespace deadEnd fuel n s
      = if opensComment false s then none else some (skipBlanks false s) := by
  intro n
  induction n with
  | zero => intro s _ hs; exact absurd hs (Nat.not_lt_zero _)
  | succ n ih =>
    intro s hfuel hs
    cases s with
    | nil => rfl
    | cons c cs =>
      rw [List.length_cons] at hfuel hs
      have hstep : cleanWhitespace deadEnd fuel (n + 1) (c :: cs) = if c == chr ';' then
          (dropComment deadEnd fuel (c :: cs)).bind (cleanWhitespace deadEnd fuel n)
        else if isspace c then cleanWhitespace deadEnd fuel n cs else some (c :: cs) := by
        rw [cleanWhitespace]
        rfl
      rw [hstep, skipBlanks, opensComment]
      cases hcomment : c == chr ';' with
      | true =>
        -- the semicolon is the first character of the comment
        have hne : c ≠ chr '\n' := by
          rw [beq_iff_eq.mp hcomment]
          decide
        simp only [if_true]
        cases fuel with
        | zero => exact absurd hfuel (Nat.not_lt_zero _)
        | succ k =>
          rw [dropComment_deadEnd_cons hne]
          rcases @dropComment_deadEnd k cs (by omega) with hnone | ⟨s', hs', hsuf, hskip, hopen⟩
          · rw [hnone.1, hnone.2]
            rfl
          · have hlen := hsuf.length_le
            rw [hs', hopen, hskip]
            exact ih (by omega) (by omega)
      | false =>
        simp only [Bool.false_eq_true, if_false]
        cases isspace c with
        | true => exact ih (s := cs) (by omega) (by omega)
        | false => rfl

/-- **`next_token` before a dead end.** It does not return from a comment. -/
theorem nextToken_deadEnd {fuel : Nat} {s : List Byte} (hfuel : s.length < fuel) :
    nextToken lib deadEnd fuel s
      = if opensComment false s then none else some (lexDeadEnd lib s) := by
  show (cleanWhitespace deadEnd fuel fuel s).bind
    (fun s => firstOf (recognisers lib deadEnd fuel) s) = _
  rw [cleanWhitespace_deadEnd hfuel hfuel, recognisers_deadEnd]
  cases opensComment false s with
  | true => rfl
  | false =>
    have hlen := (skipBlanks_suffix false s).length_le
    have hfirst := firstOf_eq (recognises_of_string lib fuel)
      (fun f hf s => ((shortens_lexers lib f hf).rest s).length_le)
      (s := skipBlanks false s) (by omega)
    show firstOf (recognisers lib stringStream fuel) (skipBlanks false s) = some (lexDeadEnd lib s)
    rw [hfirst, lexDeadEnd]
    cases skipBlanks false s with
    | nil => rfl
    | cons c cs => rfl

end DeadEnd

/-! ## The parser before a dead end -/

/-- `next_token` on a text, where a comment at the end of the text has to be closed. -/
def closedNext (lib : Libc) (s : List Byte) : Option (Token × List Byte) :=
  if opensComment false s then none else some (lex lib s)

/-- The parser reads the text to its end, or to an error, without calling `next_token` where a
comment is not closed. -/
def ReadsClosed (lib : Libc) (text : List Byte) : Prop :=
  ∃ n, ∀ m, n ≤ m → (treeProgram (closedNext lib) (2 * m + 3) (m + 2) text).isSome

/-- The parser does the same after both tokens. -/
def Token.Like (t t' : Token) : Prop := t = t' ∨ t = .eof ∧ t' = .error

/-- Results with the same rest, of at most `k` characters. -/
def SameRest {α β : Type} (R : α → β → Prop) (k : Nat) (x : Option (α × List Byte))
    (y : Option (β × List Byte)) : Prop :=
  x = none ∧ y = none ∨ ∃ a b s, x = some (a, s) ∧ y = some (b, s) ∧ R a b ∧ s.length ≤ k

section Like

variable {α β γ δ : Type} {R : α → β → Prop} {Q : γ → δ → Prop} {k : Nat}

theorem SameRest.bind {x : Option (α × List Byte)} {y : Option (β × List Byte)}
    (h : SameRest R k x y) {f : α × List Byte → Option (γ × List Byte)}
    {g : β × List Byte → Option (δ × List Byte)}
    (hfg : ∀ a b s, R a b → s.length ≤ k → SameRest Q k (f (a, s)) (g (b, s))) :
    SameRest Q k (x.bind f) (y.bind g) := by
  rcases h with ⟨hx, hy⟩ | ⟨a, b, s, hx, hy, hab, hs⟩
  · rw [hx, hy]
    exact .inl ⟨rfl, rfl⟩
  · rw [hx, hy]
    exact hfg a b s hab hs

theorem SameRest.map {x : Option (α × List Byte)} {y : Option (β × List Byte)}
    (h : SameRest R k x y) {f : α → γ} {g : β → δ} (hfg : ∀ a b, R a b → Q (f a) (g b)) :
    SameRest Q k (x.map fun (a, s) => (f a, s)) (y.map fun (b, s) => (g b, s)) := by
  rcases h with ⟨hx, hy⟩ | ⟨a, b, s, hx, hy, hab, hs⟩
  · rw [hx, hy]
    exact .inl ⟨rfl, rfl⟩
  · rw [hx, hy]
    exact .inr ⟨f a, g b, s, rfl, rfl, hfg a b hab, hs⟩

theorem SameRest.isSome_eq {x : Option (α × List Byte)} {y : Option (β × List Byte)}
    (h : SameRest R k x y) : x.isSome = y.isSome := by
  rcases h with ⟨hx, hy⟩ | ⟨a, b, s, hx, hy, -⟩
  · rw [hx, hy]
    rfl
  · rw [hx, hy]
    rfl

variable {next next' : List Byte → Option (Token × List Byte)}
  (hnext : ∀ s, s.length ≤ k → SameRest Token.Like k (next s) (next' s))

include hnext

/-- **Tokens that are alike lead the parser to the same rests.** -/
theorem treeSexp_like : ∀ n,
    (∀ t t' s, Token.Like t t' → s.length ≤ k →
      SameRest (fun _ _ => True) k (treeSexp next n t s) (treeSexp next' n t' s))
    ∧ (∀ t t' s, Token.Like t t' → s.length ≤ k →
      SameRest (fun _ _ => True) k (treeSexpList next n t s) (treeSexpList next' n t' s)) := by
  intro n
  induction n with
  | zero => exact ⟨fun _ _ _ _ _ => .inl ⟨rfl, rfl⟩, fun _ _ _ _ _ => .inl ⟨rfl, rfl⟩⟩
  | succ n ih =>
    obtain ⟨hsexp, hlist⟩ := ih
    refine ⟨fun t t' s ht hs => ?_, fun t t' s ht hs => ?_⟩
    · rcases ht with rfl | ⟨rfl, rfl⟩
      · rw [treeSexp, treeSexp]
        cases t.shape with
        | value f => exact .inr ⟨_, _, s, rfl, rfl, trivial, hs⟩
        | list =>
          refine (hnext s hs).bind fun u u' s' hu hs' => ?_
          exact (hlist u u' s' hu hs').map fun _ _ _ => trivial
        | form f =>
          refine (hnext s hs).bind fun u u' s' hu hs' => ?_
          exact (hsexp u u' s' hu hs').map fun _ _ _ => trivial
      · exact .inr ⟨_, _, s, rfl, rfl, trivial, hs⟩
    · rcases ht with rfl | ⟨rfl, rfl⟩
      · rw [treeSexpList, treeSexpList]
        cases t.endsList with
        | some v => exact .inr ⟨_, _, s, rfl, rfl, trivial, hs⟩
        | none =>
          refine (hsexp t t s (.inl rfl) hs).bind fun _ _ s₁ _ hs₁ => ?_
          refine (hnext s₁ hs₁).bind fun u u' s₂ hu hs₂ => ?_
          exact (hlist u u' s₂ hu hs₂).map fun _ _ _ => trivial
      · exact .inr ⟨_, _, s, rfl, rfl, trivial, hs⟩

theorem treeProgram_like {a : Nat} : ∀ n s, s.length ≤ k →
    SameRest (fun _ _ => True) k (treeProgram next a n s) (treeProgram next' a n s) := by
  intro n
  induction n with
  | zero => exact fun _ _ => .inl ⟨rfl, rfl⟩
  | succ n ih =>
    intro s hs
    refine (hnext s hs).bind fun t t' s₁ ht hs₁ => ?_
    dsimp only
    rcases ht with rfl | ⟨rfl, rfl⟩
    · cases t.endsProgram with
      | some v => exact .inr ⟨_, _, s₁, rfl, rfl, trivial, hs₁⟩
      | none =>
        refine ((treeSexp_like hnext a).1 t t s₁ (.inl rfl) hs₁).bind fun _ _ s₂ _ hs₂ => ?_
        exact (ih s₂ hs₂).map fun _ _ _ => trivial
    · exact .inr ⟨_, _, s₁, rfl, rfl, trivial, hs₁⟩

end Like

/-- The tokens before a dead end are those of the text, with an error for the end. -/
theorem lex_like (lib : Libc) (s : List Byte) :
    Token.Like (lex lib s).1 (lexDeadEnd lib s).1 ∧ (lex lib s).2 = (lexDeadEnd lib s).2 := by
  unfold lex lexDeadEnd
  cases skipBlanks false s with
  | nil => exact ⟨.inr ⟨rfl, rfl⟩, rfl⟩
  | cons c cs => exact ⟨.inl rfl, rfl⟩

/-- **The parser returns from a dead end** if and only if it meets no open comment. -/
theorem treeProgram_deadEnd (lib : Libc) {m : Nat} {text : List Byte} (hm : text.length ≤ m) :
    (treeProgram (nextToken lib deadEnd (m + 2)) (2 * m + 3) (m + 2) text).isSome
      = (treeProgram (closedNext lib) (2 * m + 3) (m + 2) text).isSome := by
  have hnext : ∀ s, s.length ≤ m →
      SameRest Token.Like m (closedNext lib s) (nextToken lib deadEnd (m + 2) s) := by
    intro s hs
    rw [nextToken_deadEnd lib (by omega), closedNext]
    cases opensComment false s with
    | true => exact .inl ⟨rfl, rfl⟩
    | false =>
      obtain ⟨hlike, hrest⟩ := lex_like lib s
      refine .inr ⟨(lex lib s).1, (lexDeadEnd lib s).1, (lex lib s).2, rfl, ?_, hlike, ?_⟩
      · rw [hrest]
        rfl
      · exact (lex_suffix lib s).length_le.trans hs
  exact (treeProgram_like hnext _ text hm).isSome_eq.symm

/-! ## The compressed stream -/

/-- A state of the compressed stream before bits that do not decode, and the characters before
them: those in the buffer and those of the items. After the failure nothing is in the buffer. -/
structure CompressedState.Blocked (s : CompressedState) (text : List Byte) : Prop where
  blocked : (∃ (n : Nat) (place : Place) (items : List Item), s.decompBytes = n ∧ s.buffPos ≤ n
      ∧ n ≤ s.decompBuff.length ∧ s.ds.Ahead place items .undecodable
      ∧ text = (s.decompBuff.take n).drop s.buffPos ++ items.flatMap Item.text)
    ∨ s.decompBytes = -1 ∧ s.ds.Ahead .outside [] .undecodable ∧ text = []

section Compressed

variable {s : CompressedState} {text : List Byte}

theorem bitsLeft_of_ahead {place : Place} {items : List Item}
    (h : s.ds.Ahead place items .undecodable) : s.bitsLeft = true := by
  rw [CompressedState.bitsLeft, decide_eq_true_eq]
  exact (h.more rfl h.decodes.ne_nil).1

theorem CompressedState.Blocked.bitsLeft (h : s.Blocked text) : s.bitsLeft = true := by
  rcases h.blocked with ⟨n, place, items, -, -, -, hds, -⟩ | ⟨-, hds, -⟩
  · exact bitsLeft_of_ahead hds
  · exact bitsLeft_of_ahead hds

theorem buffered_blocked {n : Nat} {place : Place} {items : List Item} (hn : s.decompBytes = n)
    (hpos : s.buffPos < n) (hbuff : n ≤ s.decompBuff.length)
    (hds : s.ds.Ahead place items .undecodable) :
    ∃ c cs, (s.decompBuff.take n).drop s.buffPos ++ items.flatMap Item.text = c :: cs
      ∧ s.buffered.1 = c ∧ s.buffered.2.Blocked cs := by
  have hlt : s.buffPos < (s.decompBuff.take n).length := by
    rw [List.length_take, Nat.min_eq_left hbuff]
    exact hpos
  rw [List.drop_eq_getElem_cons hlt]
  refine ⟨_, _, rfl, ?_, ⟨.inl ⟨n, place, items, hn, hpos, hbuff, hds, rfl⟩⟩⟩
  rw [List.getElem_take]
  show s.decompBuff.getD s.buffPos 0#8 = _
  rw [List.getD_eq_getElem?_getD, List.getElem?_eq_getElem (by omega)]
  rfl

/-- Where nothing decodes NUL is delivered. -/
theorem getCompressed_undecodable (hpos : s.decompBytes ≤ s.buffPos)
    (hds : s.ds.Ahead .outside [] .undecodable) :
    (getCompressed s).1 = 0#8 ∧ (getCompressed s).2.Blocked [] := by
  unfold getCompressed
  rw [bitsLeft_of_ahead hds, if_neg (by simp), if_pos hpos, hds.undecodable.2]
  exact ⟨rfl, ⟨.inr ⟨rfl, hds, rfl⟩⟩⟩

theorem getCompressed_blocked (h : s.Blocked text) :
    (getCompressed s).1 = first text ∧ (getCompressed s).2.Blocked text.tail := by
  have hbits := h.bitsLeft
  rcases h.blocked with ⟨n, place, items, hn, hpos, hbuff, hds, rfl⟩ | ⟨hn, hds, rfl⟩
  · by_cases hlt : s.buffPos < n
    · obtain ⟨c, cs, htext, hc, hcs⟩ := buffered_blocked hn hlt hbuff hds
      unfold getCompressed
      rw [htext, hbits, if_neg (by simp), if_neg (by omega)]
      exact ⟨hc, hcs⟩
    · have hle : s.decompBytes ≤ s.buffPos := by omega
      have hnil : (s.decompBuff.take n).drop s.buffPos = [] := by
        rw [List.drop_eq_nil_of_le]
        rw [List.length_take, Nat.min_eq_left hbuff]
        omega
      rw [hnil, List.nil_append]
      cases items with
      | nil =>
        obtain ⟨hplace, -⟩ := hds.undecodable
        subst hplace
        exact getCompressed_undecodable hle hds
      | cons item items =>
        obtain ⟨ds', place', hincr, hds'⟩ := hds.next
        unfold getCompressed
        rw [hbits, if_neg (by simp), if_pos hle, hincr]
        -- the buffer is filled with the text of the next item
        obtain ⟨d, ds, htext⟩ := List.exists_cons_of_ne_nil hds.text_ne_nil
        rw [List.flatMap_cons, htext]
        have hfill := @buffered_blocked
          { ds := ds', decompBuff := (d :: ds) ++ List.replicate (32 - (d :: ds).length) 0#8,
            decompBytes := (d :: ds).length, buffPos := 0 } (d :: ds).length place' items rfl
          (by simp) (by simp) hds'
        obtain ⟨c, cs, hcs, hc, hholds⟩ := hfill
        rw [List.drop_zero, List.take_left] at hcs
        rw [hcs]
        exact ⟨hc, hholds⟩
  · exact getCompressed_undecodable (by omega) hds

theorem dropCompressed_blocked : ∀ {n : Nat} {s : CompressedState} {text : List Byte},
    s.Blocked text → (dropCompressed s n).Blocked (text.drop n) := by
  intro n
  induction n with
  | zero => intro s text h; exact h
  | succ n ih =>
    intro s text h
    rw [dropCompressed, ← List.drop_tail]
    exact ih (getCompressed_blocked h).2

/-- **Before bits that do not decode the stream is a dead end.** -/
theorem simulates_deadEnd :
    Simulates compressedStream deadEnd fun s text => CompressedState.Blocked s text where
  more h := by
    show (CompressedState.bitsLeft _ || _) = true
    rw [h.bitsLeft]
    rfl
  peek h := by
    funext n
    exact (getCompressed_blocked (dropCompressed_blocked h)).1.trans (peek_stringStream _ _).symm
  get h := getCompressed_blocked h
  drop h n := dropCompressed_blocked h

end Compressed

/-! ## Any compressed program -/

/-- Readers do the same on streams that agree. -/
theorem Simulates.run {α σ τ : Type} {str₁ : CharStream σ} {str₂ : CharStream τ} {R : σ → τ → Prop}
    (hsim : Simulates str₁ str₂ R) (r : Reader Byte α) : ∀ {s : σ} {t : τ}, R s t →
    Agree R (r.run str₁.cursor s) (r.run str₂.cursor t) := by
  induction r with
  | done b => intro s t h; exact ⟨rfl, h⟩
  | stuck => intro s t h; trivial
  | more k ih =>
    intro s t h
    show Agree R ((k (str₁.more s)).run str₁.cursor s) ((k (str₂.more t)).run str₂.cursor t)
    rw [hsim.more h]
    exact ih _ h
  | peek n k ih =>
    intro s t h
    show Agree R ((k (str₁.peek s n)).run str₁.cursor s) ((k (str₂.peek t n)).run str₂.cursor t)
    rw [hsim.peek h]
    exact ih _ h
  | get k ih =>
    intro s t h
    obtain ⟨hc, hrest⟩ := hsim.get h
    show Agree R ((k (str₁.get s).1).run str₁.cursor _) ((k (str₂.get t).1).run str₂.cursor _)
    rw [hc]
    exact ih _ hrest
  | drop n k ih =>
    intro s t h
    exact ih (hsim.drop h n)

theorem Agree.isSome_eq {α σ τ : Type} {R : σ → τ → Prop} {x : Option (α × σ)}
    {y : Option (α × τ)} (h : Agree R x y) : x.isSome = y.isSome := by
  cases x with
  | none =>
    cases y with
    | none => rfl
    | some b => exact absurd h id
  | some a =>
    cases y with
    | none => exact absurd h id
    | some b => rfl

/-- The state in which `tokpar_parse_compressed` begins. -/
def startCompressed (bytes : List Byte) : CompressedState where
  ds := initState bytes
  decompBuff := List.replicate 32 0#8
  decompBytes := 0
  buffPos := 0

/-- Decompression and the reader of compressed programs on any bytes: `compression_decompress` ends,
stays within its two buffers and returns true only if all bits decode, and the loops of
`tokpar_parse_compressed` come to an end. -/
structure DecompressesRobustly (lib : Libc) (destN : Nat) (src : List Byte) : Prop where
  decompress : DecompressesSafely destN src
  parse : ∃ n, ∀ m, n ≤ m →
    ((readText lib m).run compressedStream.cursor (startCompressed src)).isSome

section Robust

variable {lib : Libc} {src : List Byte} {items : List Item}

/-- The parser ends where the bits decode. -/
theorem parse_complete (hbits : (initState src).compressedBits < 2 ^ 31)
    (h : Decodes .outside (declaredBits src) items .complete) {m : Nat}
    (hm : (items.flatMap Item.text).length ≤ m) :
    ((readText lib m).run compressedStream.cursor (startCompressed src)).isSome := by
  obtain ⟨hreads, hall⟩ := h.reads rfl
  have hlen := congrArg List.length hall
  rw [declaredBits, BitBuffer.length_readBits] at hlen
  have hi : (initState src).i = 32 := rfl
  have hholds : (initState src).Holds .outside items := by
    refine ⟨rfl, fun _ he => absurd he (by simp), hreads, ?_, ?_, ?_⟩
    · rw [hlen, hall]
      rfl
    · rw [hlen, hi, Nat.add_comm]
    · omega
  have hstart : (startCompressed src).Holds (items.flatMap Item.text) :=
    ⟨0, .outside, items, rfl, Nat.le_refl _, Nat.zero_le _, hholds, rfl⟩
  rw [(simulates_compressed.run (readText lib m) hstart).isSome_eq]
  have hwithin := @within_readProgram (items.flatMap Item.text) _
    (fun hp => within_readToken lib (show _ < m + 2 by omega) hp) _ (show _ ≤ 2 * m + 3 by omega)
    _ _ (Nat.zero_le _) (show _ - 0 < m + 2 by omega)
  obtain ⟨es, q, hrun, -⟩ := Reader.exists_run_of_within hwithin
  rw [List.drop_zero, ← cursor_stringStream] at hrun
  rw [readText, hrun]
  rfl

/-- The parser ends where the bits do not decode, if and only if no comment is open there. -/
theorem parse_undecodable (hbits : (initState src).compressedBits < 2 ^ 31)
    (h : Decodes .outside (declaredBits src) items .undecodable) {m : Nat}
    (hm : (items.flatMap Item.text).length ≤ m) :
    ((readText lib m).run compressedStream.cursor (startCompressed src)).isSome
      = (treeProgram (closedNext lib) (2 * m + 3) (m + 2) (items.flatMap Item.text)).isSome := by
  have hstart : (startCompressed src).Blocked (items.flatMap Item.text) :=
    ⟨.inl ⟨0, .outside, items, rfl, Nat.le_refl _, Nat.zero_le _,
      Compression.ahead_initState hbits h, rfl⟩⟩
  rw [(simulates_deadEnd.run (readText lib m) hstart).isSome_eq, readText,
    run_readProgram (run_readToken deadEnd lib _)]
  exact treeProgram_deadEnd lib hm

/-- **When decompression is robust**: no part of a character is left within a string literal, the
text fits into the destination, and the parser does not come to bits without a code word in a
comment. -/
theorem decompressesRobustly_iff {destN : Nat} (hbits : (initState src).compressedBits < 2 ^ 31)
    (hlen : src.length = 4 + ((initState src).compressedBits + 7) / 8) :
    DecompressesRobustly lib destN src
      ↔ ∃ items e, Decodes .outside (declaredBits src) items e ∧ e ≠ .truncated
        ∧ (items.flatMap Item.text).length ≤ destN
        ∧ (e = .undecodable → ReadsClosed lib (items.flatMap Item.text)) := by
  constructor
  · intro hrobust
    obtain ⟨items, e, h⟩ := Compression.exists_decodes (show Place.outside ≠ .comment by simp)
      (declaredBits src)
    obtain ⟨he, hfits⟩ := (Compression.decompressesSafely_iff hbits hlen h).mp hrobust.decompress
    refine ⟨items, e, h, he, hfits, ?_⟩
    rintro rfl
    obtain ⟨n, hn⟩ := hrobust.parse
    refine ⟨max n (items.flatMap Item.text).length, fun m hm => ?_⟩
    rw [← parse_undecodable hbits h (by omega)]
    exact hn m (by omega)
  · intro ⟨items, e, h, he, hfits, hclosed⟩
    refine ⟨(Compression.decompressesSafely_iff hbits hlen h).mpr ⟨he, hfits⟩, ?_⟩
    cases e with
    | truncated => exact absurd rfl he
    | complete => exact ⟨_, fun m hm => parse_complete hbits h hm⟩
    | undecodable =>
      obtain ⟨n, hn⟩ := hclosed rfl
      refine ⟨max n (items.flatMap Item.text).length, fun m hm => ?_⟩
      rw [parse_undecodable hbits h (by omega)]
      exact hn m (by omega)

end Robust

/-- The tokenizer ends a string literal at a double quote after a backslash, where the decompressor
goes on with it, and takes what follows for a comment. -/
example : ¬ReadsClosed ampleLibc (cstring "\"\\\";\"") := by
  intro ⟨n, h⟩
  have hnone : (treeProgram (closedNext ampleLibc) (2 * n + 3) (n + 2)
      (cstring "\"\\\";\"")).isSome = false := rfl
  exact absurd (h n (Nat.le_refl n)) (by rw [hnone]; decide)

/-- A bit that begins no code word of one bit, before which there is nothing to read. -/
theorem decompressesRobustly_oneBit :
    DecompressesRobustly ampleLibc 0 [1#8, 0#8, 0#8, 0#8, 0#8] := by
  refine (decompressesRobustly_iff (by decide) (by decide)).mpr
    ⟨[], .undecodable, .undecodable (by decide) (by decide +kernel), by decide, Nat.le_refl _, ?_⟩
  exact fun _ => ⟨0, fun m _ => rfl⟩

/-- A double quote and one bit of the character after it: the bits do not decode, and the result is
true. -/
theorem not_decompressesRobustly_quote :
    ¬DecompressesRobustly ampleLibc 8 [7#8, 0#8, 0#8, 0#8, 7#8] := by
  intro h
  have htrue : Compression.decompress 8 [7#8, 0#8, 0#8, 0#8, 7#8]
      = some (true, [chr '"', 0#8, 0#8, 0#8, 0#8, 0#8, 0#8, 0#8]) := by decide +kernel
  obtain ⟨items, hcomplete⟩ := h.decompress.result _ htrue
  have hbits : declaredBits [7#8, 0#8, 0#8, 0#8, 7#8] = Compression.codeOf 15 ++ [false] := by
    decide +kernel
  have hplace : Place.afterKey 15 = .inside false := by decide +kernel
  have htruncated : Decodes .outside (Compression.codeOf 15 ++ [false]) [.key 15] .truncated := by
    refine .key (by decide) ?_
    rw [hplace]
    exact .truncated (by decide) (by decide)
  rw [hbits] at hcomplete
  exact absurd (hcomplete.unique htruncated).2 (by decide)

end Tokpar

end LispBM
