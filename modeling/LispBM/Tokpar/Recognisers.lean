import LispBM.Tokpar.Compressed

/-!
# LispBM — what the recognisers take from the stream (`src/tokpar.c`)

`next_token` tries the recognisers one after the other, and each of them returns the number of
characters of the token that it found, or 0. `Tok.returns` is this number, or -1, and the stream
after the call. To see how many characters were really taken the stream is given a counter.

`tok_string` removes the double quote before it looks for the other one, and `tok_F` takes at most
255 characters of the number whose length it returns.

* `consumes_iff` — a recogniser takes as many characters as it says, and none when it says 0,
  exactly when it is neither `tok_string` on a string that is not closed nor `tok_F` on a number
  of more than 255 characters.
-/

namespace LispBM

namespace Tokpar

open Compression (chr)
open BitBuffer (Byte)

/-! ## The results of the recognisers -/

/-- The recognisers, by the last part of their names. -/
inductive Tok where
  | openpar
  | closepar
  | quote
  | backquote
  | commaat
  | comma
  | symbol
  | string
  | char
  | i
  | I
  | u
  | U
  | F
deriving DecidableEq

section Returns

variable (lib : Libc) {σ : Type} (str : CharStream σ) (fuel : Nat)

/-- The result of a recogniser of one or two fixed characters. -/
def returnsFixed (text : String) (s : σ) : Option (Int × σ) :=
  if peekIs str s 0 (cstring text) then
    some (((cstring text).length : Int), str.drop s (cstring text).length)
  else some (0, s)

def returnsSymbol (s : σ) : Option (Int × σ) :=
  if !symchar0 (str.peek s 0) then some (0, s)
  else do
    let len ← countWhile str symchar s fuel 1
    if !lib.malloc (len + 1) then some (-1, s) else some ((len : Int), (getMany str len s).2)

def returnsString (s : σ) : Option (Int × σ) :=
  if !(str.peek s 0 == chr '"') then some (0, s)
  else do
    let s := (str.get s).2
    let len ← countWhile str (fun c => c != 0#8 && c != chr '"') s fuel 0
    if str.peek s len != chr '"' then some (0, s)
    else if !lib.malloc (len + 1) then some (-1, s)
    else some (((1 + len + 1 : Nat) : Int), (str.get (getMany str len s).2).2)

def returnsChar (s : σ) : Option (Int × σ) :=
  if peekIs str s 0 (cstring "\\#newline") then some (9, str.drop s 9)
  else if peekIs str s 0 (cstring "\\#") && isgraph (str.peek s 2) then some (3, str.drop s 3)
  else some (0, s)

def returnsi (s : σ) : Option (Int × σ) := do
  let n ← countWhile str isDigit s fuel 0
  if (cstring "Uu.I").contains (str.peek s n) then some (0, s) else some ((n : Int), str.drop s n)

def returnsSuffixed (suffix : String) (s : σ) : Option (Int × σ) := do
  let n ← countWhile str isDigit s fuel 0
  if peekIs str s n (cstring suffix) then
    some (((n + (cstring suffix).length : Nat) : Int), str.drop s (n + (cstring suffix).length))
  else some (0, s)

def returnsU (s : σ) : Option (Int × σ) :=
  if str.peek s 0 == chr '0' && (str.peek s 1 == chr 'x' || str.peek s 1 == chr 'X') then do
    let n ← countWhile str isHexDigit s fuel 2
    some ((n : Int), str.drop s n)
  else returnsSuffixed str fuel "u32" s

def returnsF (s : σ) : Option (Int × σ) := do
  let n ← countWhile str isDigit s fuel 0
  if !(str.peek s n == chr '.') then some (0, s)
  else if !isDigit (str.peek s (n + 1)) then some (0, s)
  else
    let n ← countWhile str isDigit s fuel (n + 1)
    some ((n : Int), (getMany str (min n 255) s).2)

/-- The result of a recogniser, -1 when `malloc` fails, and the stream after the call. -/
def Tok.returns : Tok → σ → Option (Int × σ)
  | .openpar => returnsFixed str "("
  | .closepar => returnsFixed str ")"
  | .quote => returnsFixed str "'"
  | .backquote => returnsFixed str "`"
  | .commaat => returnsFixed str ",@"
  | .comma => returnsFixed str ","
  | .symbol => returnsSymbol lib str fuel
  | .string => returnsString lib str fuel
  | .char => returnsChar str
  | .i => returnsi str fuel
  | .I => returnsSuffixed str fuel "i32"
  | .u => returnsSuffixed str fuel "u28"
  | .U => returnsU str fuel
  | .F => returnsF str fuel

/-- The token of the same call. -/
def Tok.recogniser : Tok → Recogniser σ
  | .openpar => tokOpenpar str
  | .closepar => tokClosepar str
  | .quote => tokQuote str
  | .backquote => tokBackquote str
  | .commaat => tokCommaat str
  | .comma => tokComma str
  | .symbol => tokSymbol lib str fuel
  | .string => tokString lib str fuel
  | .char => tokChar str
  | .i => toki str fuel
  | .I => tokI str fuel
  | .u => toku str fuel
  | .U => tokU str fuel
  | .F => tokF lib str fuel

/-- The order in which `next_token` calls them. -/
def Tok.order : List Tok :=
  [.quote, .backquote, .commaat, .comma, .openpar, .closepar, .symbol, .char, .string,
    .F, .U, .u, .I, .i]

theorem recognisers_eq :
    recognisers lib str fuel = Tok.order.map fun r => r.recogniser lib str fuel := rfl

end Returns

/-! ## Taking characters -/

section

variable {σ : Type}

/-- The stream after `n` characters were taken. -/
def advance (str : CharStream σ) (n : Nat) (s : σ) : σ := (getMany str n s).2

/-- The stream with a counter of the characters that are taken. -/
def counted (str : CharStream σ) : CharStream (σ × Nat) where
  more s := str.more s.1
  get s := ((str.get s.1).1, ((str.get s.1).2, s.2 + 1))
  peek s n := str.peek s.1 n
  drop s n := (str.drop s.1 n, s.2 + n)

/-- The two streams of the reader. -/
inductive Implementation : (σ : Type) → CharStream σ → Prop where
  | string : Implementation (List Byte) stringStream
  | compressed : Implementation CompressedState compressedStream

variable {str : CharStream σ}

theorem advance_string : ∀ (n : Nat) (s : List Byte), advance stringStream n s = s.drop n
  | 0, _ => rfl
  | n + 1, s => by
    show advance stringStream n s.tail = s.drop (n + 1)
    rw [advance_string n, List.drop_tail]

theorem advance_compressed : ∀ (n : Nat) (s : CompressedState),
    advance compressedStream n s = dropCompressed s n
  | 0, _ => rfl
  | n + 1, s => advance_compressed n (getCompressed s).2

/-- Dropping characters is taking them. -/
theorem Implementation.drop_eq (h : Implementation σ str) (n : Nat) (s : σ) :
    str.drop s n = advance str n s := by
  cases h with
  | string => exact (advance_string n s).symm
  | compressed => exact (advance_compressed n s).symm

/-- A character is peeked at by taking those before it. -/
theorem Implementation.peek_eq (h : Implementation σ str) (n : Nat) (s : σ) :
    str.peek s n = (str.get (advance str n s)).1 := by
  cases h with
  | string =>
    rw [advance_string]
    exact getD_eq_first_drop s n
  | compressed =>
    rw [advance_compressed]
    rfl

/-- The next character but one is the next one after a character is taken. -/
theorem Implementation.peek_get (h : Implementation σ str) (n : Nat) (s : σ) :
    str.peek (str.get s).2 n = str.peek s (n + 1) := by
  rw [h.peek_eq, h.peek_eq]
  rfl

theorem advance_succ : ∀ (n : Nat) (s : σ), advance str (n + 1) s = (str.get (advance str n s)).2
  | 0, _ => rfl
  | n + 1, s => advance_succ n (str.get s).2

theorem getMany_counted : ∀ (n : Nat) (s : σ) (k : Nat),
    (getMany (counted str) n (s, k)).2 = (advance str n s, k + n)
  | 0, _, _ => rfl
  | n + 1, s, k => by
    show (getMany (counted str) n ((str.get s).2, k + 1)).2 = _
    rw [getMany_counted n, Nat.add_assoc, Nat.add_comm 1]
    rfl

@[simp] theorem peek_counted (s : σ × Nat) (n : Nat) :
    (counted str).peek s n = str.peek s.1 n := rfl

theorem countWhile_counted (p : Byte → Bool) (s : σ) (k fuel n : Nat) :
    countWhile (counted str) p (s, k) fuel n = countWhile str p s fuel n :=
  @countWhile_congr (σ × Nat) σ (counted str) str (s, k) s rfl p fuel n

theorem peekIs_counted (s : σ) (k start : Nat) (text : List Byte) :
    peekIs (counted str) (s, k) start text = peekIs str s start text :=
  peekIs_congr rfl start text

/-- The characters that a counting loop has passed, and the one where it stopped. -/
theorem countWhile_spec {p : Byte → Bool} {s : σ} : ∀ {fuel n m : Nat},
    countWhile str p s fuel n = some m →
    n ≤ m ∧ (∀ j, n ≤ j → j < m → p (str.peek s j) = true) ∧ p (str.peek s m) = false := by
  intro fuel
  induction fuel with
  | zero => intro n m h; cases h
  | succ fuel ih =>
    intro n m h
    rw [countWhile] at h
    split at h
    · next hp =>
      obtain ⟨hle, hall, hstop⟩ := ih h
      refine ⟨by omega, fun j hj hm => ?_, hstop⟩
      by_cases heq : j = n
      · rw [heq]
        exact hp
      · exact hall j (by omega) hm
    · next hp =>
      obtain rfl := Option.some.inj h
      refine ⟨le_refl _, fun j hj hm => by omega, by simpa using hp⟩

theorem peekIs_spec {s : σ} {start : Nat} {text : List Byte} (h : peekIs str s start text = true) :
    ∀ j, start ≤ j → j < start + text.length → str.peek s j ∈ text := by
  intro j hj hlt
  have hmem : (text.get ⟨j - start, by omega⟩, j - start) ∈ text.zipIdx := by
    rw [List.mem_zipIdx_iff_getElem?]
    exact List.getElem?_eq_getElem _
  have hpeek := List.all_eq_true.mp h _ hmem
  rw [beq_iff_eq, Nat.add_sub_cancel' hj] at hpeek
  rw [hpeek]
  exact List.get_mem _ _

end

/-! ## The results and the tokens -/

section

variable {σ : Type} {str : CharStream σ} {lib : Libc} {fuel : Nat}

/-- Two results are the same once `f` and `g` have forgotten a part of them. -/
def SameVia {α β γ : Type} (f : α → γ) (g : β → γ) (x : Option α) (y : Option β) : Prop :=
  x.map f = y.map g

namespace SameVia

variable {α β γ : Type} {f : α → γ} {g : β → γ}

theorem some {a : α} {b : β} (h : f a = g b) : SameVia f g (some a) (some b) :=
  congrArg Option.some h

theorem bind {x : Option Nat} {p : Nat → Option α} {q : Nat → Option β}
    (h : ∀ n, x = Option.some n → SameVia f g (p n) (q n)) : SameVia f g (x.bind p) (x.bind q) := by
  cases x with
  | none => rfl
  | some n => exact h n rfl

theorem ite {p : Prop} [Decidable p] {x x' : Option α} {y y' : Option β} (h : p → SameVia f g x y)
    (h' : ¬ p → SameVia f g x' y') : SameVia f g (if p then x else x') (if p then y else y') := by
  split
  · next hp => exact h hp
  · next hp => exact h' hp

end SameVia

/-- A call that finds a token or none, and its result other than 0 or 0, with the same stream
after it. -/
abbrev SameCall : Option (Option Token × σ) → Option (Int × σ) → Prop :=
  SameVia (fun p => (p.1.isNone, p.2)) fun p => (p.1 == 0, p.2)

theorem sameCall_none (s : σ) : SameCall (some (none, s)) (some (0, s)) := rfl

theorem sameCall_some {n : Int} (hn : n ≠ 0) (t : Token) (s : σ) :
    SameCall (some (some t, s)) (some (n, s)) := by
  apply SameVia.some
  show (false, s) = (n == 0, s)
  rw [beq_eq_false_iff_ne.mpr hn]

theorem sameCall_fixed {text : String} (htext : cstring text ≠ []) (tok : Token) (s : σ) :
    SameCall (tokFixed str text tok s) (returnsFixed str text s) := by
  have hpos := List.length_pos_iff.mpr htext
  rw [tokFixed, returnsFixed]
  exact .ite (fun _ => sameCall_some (by omega) _ _) fun _ => sameCall_none s

theorem sameCall_symbol (s : σ) :
    SameCall (tokSymbol lib str fuel s) (returnsSymbol lib str fuel s) := by
  rw [tokSymbol, returnsSymbol]
  refine .ite (fun _ => sameCall_none s) fun _ => .bind fun len hlen => ?_
  have hpos := (countWhile_spec hlen).1
  exact .ite (fun _ => sameCall_some (by decide) _ _) fun _ => sameCall_some (by omega) _ _

theorem sameCall_string (s : σ) :
    SameCall (tokString lib str fuel s) (returnsString lib str fuel s) := by
  rw [tokString, returnsString]
  refine .ite (fun _ => sameCall_none s) fun _ => .bind fun len _ => ?_
  exact .ite (fun _ => sameCall_none _) fun _ => .ite (fun _ => sameCall_some (by decide) _ _)
    fun _ => sameCall_some (by omega) _ _

theorem sameCall_char (s : σ) : SameCall (tokChar str s) (returnsChar str s) := by
  rw [tokChar, returnsChar]
  exact .ite (fun _ => sameCall_some (by decide) _ _) fun _ =>
    .ite (fun _ => sameCall_some (by decide) _ _)
    fun _ => sameCall_none s

/-- `tok_i` without a digit drops nothing and returns 0. -/
theorem sameCall_i (h : Implementation σ str) (s : σ) :
    SameCall (toki str fuel s) (returnsi str fuel s) := by
  refine .bind fun n _ => .ite (fun _ => sameCall_none s) fun _ => ?_
  by_cases hn : n = 0
  · subst hn
    rw [if_pos rfl, h.drop_eq]
    exact sameCall_none s
  · rw [if_neg hn]
    exact sameCall_some (by omega) _ _

theorem sameCall_suffixed {suffix : String} (hsuffix : cstring suffix ≠ []) (tok : UINT → Token)
    (s : σ) : SameCall (tokSuffixed str fuel suffix tok s) (returnsSuffixed str fuel suffix s) := by
  have hpos := List.length_pos_iff.mpr hsuffix
  exact .bind fun n _ => .ite (fun _ => sameCall_some (by omega) _ _) fun _ => sameCall_none s

theorem sameCall_U (s : σ) : SameCall (tokU str fuel s) (returnsU str fuel s) := by
  rw [tokU, returnsU]
  refine .ite (fun _ => .bind fun n hn => ?_) fun _ => sameCall_suffixed (by decide) _ s
  have hle := (countWhile_spec hn).1
  exact sameCall_some (by omega) _ _

theorem sameCall_F (s : σ) : SameCall (tokF lib str fuel s) (returnsF str fuel s) := by
  refine .bind fun n _ => .ite (fun _ => sameCall_none s) fun _ =>
    .ite (fun _ => sameCall_none s) fun _ => ?_
  refine .bind fun m hm => ?_
  have hle := (countWhile_spec hm).1
  exact sameCall_some (by omega) _ _

/-- The result is 0 exactly when no token was found, and the stream is the same. -/
theorem Tok.sameCall (h : Implementation σ str) (r : Tok) (s : σ) :
    SameCall (r.recogniser lib str fuel s) (r.returns lib str fuel s) := by
  cases r with
  | openpar => exact sameCall_fixed (by decide) _ s
  | closepar => exact sameCall_fixed (by decide) _ s
  | quote => exact sameCall_fixed (by decide) _ s
  | backquote => exact sameCall_fixed (by decide) _ s
  | commaat => exact sameCall_fixed (by decide) _ s
  | comma => exact sameCall_fixed (by decide) _ s
  | symbol => exact sameCall_symbol s
  | string => exact sameCall_string s
  | char => exact sameCall_char s
  | i => exact sameCall_i h s
  | I => exact sameCall_suffixed (by decide) _ s
  | u => exact sameCall_suffixed (by decide) _ s
  | U => exact sameCall_U s
  | F => exact sameCall_F s

/-- A counter makes no difference. -/
theorem Tok.returns_counted (r : Tok) (s : σ) (k : Nat) :
    SameVia (fun p => (p.1, p.2.1)) id (r.returns lib (counted str) fuel (s, k))
      (r.returns lib str fuel s) := by
  have hfixed : ∀ text : String, SameVia (fun p => (p.1, p.2.1)) id
      (returnsFixed (counted str) text (s, k)) (returnsFixed str text s) := by
    intro text
    rw [returnsFixed, returnsFixed, peekIs_counted]
    exact .ite (fun _ => .some rfl) fun _ => .some rfl
  have hsuffixed : ∀ suffix : String, SameVia (fun p => (p.1, p.2.1)) id
      (returnsSuffixed (counted str) fuel suffix (s, k)) (returnsSuffixed str fuel suffix s) := by
    intro suffix
    rw [returnsSuffixed, returnsSuffixed, countWhile_counted]
    refine .bind fun n _ => ?_
    rw [peekIs_counted]
    exact .ite (fun _ => .some rfl) fun _ => .some rfl
  cases r with
  | openpar => exact hfixed _
  | closepar => exact hfixed _
  | quote => exact hfixed _
  | backquote => exact hfixed _
  | commaat => exact hfixed _
  | comma => exact hfixed _
  | symbol =>
    simp only [Tok.returns, returnsSymbol, peek_counted, countWhile_counted, getMany_counted]
    refine .ite (fun _ => .some rfl) fun _ => .bind fun len _ => ?_
    exact .ite (fun _ => .some rfl) fun _ => .some rfl
  | string =>
    have hget : (counted str).get (s, k) = ((str.get s).1, ((str.get s).2, k + 1)) := rfl
    simp only [Tok.returns, returnsString, peek_counted, hget, countWhile_counted, getMany_counted]
    refine .ite (fun _ => .some rfl) fun _ => .bind fun len _ => ?_
    exact .ite (fun _ => .some rfl) fun _ => .ite (fun _ => .some rfl) fun _ => .some rfl
  | char =>
    simp only [Tok.returns, returnsChar, peek_counted, peekIs_counted]
    exact .ite (fun _ => .some rfl) fun _ => .ite (fun _ => .some rfl) fun _ => .some rfl
  | i =>
    simp only [Tok.returns, returnsi, peek_counted, countWhile_counted]
    exact .bind fun n _ => .ite (fun _ => .some rfl) fun _ => .some rfl
  | I => exact hsuffixed _
  | u => exact hsuffixed _
  | U =>
    simp only [Tok.returns, returnsU, peek_counted, countWhile_counted]
    exact .ite (fun _ => .bind fun n _ => .some rfl) fun _ => hsuffixed _
  | F =>
    simp only [Tok.returns, returnsF, peek_counted, countWhile_counted, getMany_counted]
    refine .bind fun n _ => .ite (fun _ => .some rfl) fun _ => .ite (fun _ => .some rfl) fun _ => ?_
    exact .bind fun m _ => .some rfl

end

/-! ## What is reported is what is taken -/

section

variable {σ : Type} {str : CharStream σ} {lib : Libc} {fuel : Nat}

/-- A call that returned `n` and led from `s` to `s'` while the counter went from `k` to `k'`: for
`n > 0` it took `n` characters, none of them behind the end, and for 0 it took none. -/
structure Consumes (str : CharStream σ) (s s' : σ) (k k' : Nat) (n : Int) : Prop where
  taken : 0 < n → s' = advance str n.toNat s ∧ k' = k + n.toNat
    ∧ ∀ j, j < n.toNat → str.peek s j ≠ 0#8
  untouched : n = 0 → s' = s ∧ k' = k

/-- A double quote and no other one up to the end. -/
def Unclosed (str : CharStream σ) (s : σ) : Prop :=
  str.peek s 0 = chr '"' ∧ ∃ len, str.peek s (len + 1) = 0#8
    ∧ ∀ j, j < len → str.peek s (j + 1) ≠ 0#8 ∧ str.peek s (j + 1) ≠ chr '"'

/-- A number with a point, of more than 255 characters: `a` digits, the point and `b` digits. -/
def LongFloat (str : CharStream σ) (s : σ) : Prop :=
  ∃ a b, (∀ j, j < a → isDigit (str.peek s j) = true) ∧ str.peek s a = chr '.' ∧ 0 < b
    ∧ (∀ j, j < b → isDigit (str.peek s (a + 1 + j)) = true)
    ∧ isDigit (str.peek s (a + 1 + b)) = false ∧ 255 < a + 1 + b

/-- The recogniser is not on one of the two inputs. -/
def Tok.Fits (r : Tok) (str : CharStream σ) (s : σ) : Prop :=
  (r = .string → ¬ Unclosed str s) ∧ (r = .F → ¬ LongFloat str s)

variable {s s' : σ} {k k' : Nat} {n : Int}

theorem consumes_zero : Consumes str s s k k 0 :=
  ⟨fun h => absurd h (by decide), fun _ => ⟨rfl, rfl⟩⟩

theorem consumes_error : Consumes str s s' k k' (-1) :=
  ⟨fun h => absurd h (by decide), fun h => absurd h (by decide)⟩

theorem consumes_advance {m : Nat} (hpeek : ∀ j, j < m → str.peek s j ≠ 0#8) :
    Consumes str s (advance str m s) k (k + m) m := by
  refine ⟨fun _ => ⟨rfl, rfl, hpeek⟩, fun h => ?_⟩
  obtain rfl : m = 0 := by exact_mod_cast h
  exact ⟨rfl, rfl⟩

theorem ne_nul_of {p : Byte → Bool} (hp : p 0#8 = false) {c : Byte} (h : p c = true) : c ≠ 0#8 := by
  rintro rfl
  rw [hp] at h
  cases h

/-- A recogniser on a stream with a counter: it has taken what it reports. -/
def Honest (str : CharStream σ) (returns : σ × Nat → Option (Int × (σ × Nat))) (s : σ) : Prop :=
  ∀ k n s' k', returns (s, k) = some (n, (s', k')) → Consumes str s s' k k' n

theorem honest_fixed (h : Implementation σ str) {text : String}
    (htext : ∀ c ∈ cstring text, c ≠ 0#8) (s : σ) :
    Honest str (returnsFixed (counted str) text) s := by
  intro k n s' k' hr
  rw [returnsFixed, peekIs_counted] at hr
  split at hr
  · next hpeek =>
    cases hr
    rw [h.drop_eq]
    apply consumes_advance
    intro j hj
    exact htext _ (peekIs_spec hpeek j (Nat.zero_le _) (by omega))
  · cases hr
    exact consumes_zero

theorem honest_symbol (s : σ) : Honest str (returnsSymbol lib (counted str) fuel) s := by
  intro k n s' k' hr
  rw [returnsSymbol] at hr
  split at hr
  · cases hr
    exact consumes_zero
  · next hfirst =>
    obtain ⟨len, hlen, hr⟩ := Option.bind_eq_some_iff.mp hr
    rw [countWhile_counted] at hlen
    split at hr
    · cases hr
      exact consumes_error
    · rw [getMany_counted] at hr
      cases hr
      obtain ⟨-, hall, -⟩ := countWhile_spec hlen
      apply consumes_advance
      intro j hj
      by_cases h0 : j = 0
      · subst h0
        have hsym : symchar0 (str.peek s 0) = true := by
          simpa only [peek_counted, Bool.not_eq_true',
          Bool.not_eq_false] using hfirst
        exact ne_nul_of (by decide) hsym
      · exact ne_nul_of (by decide) (hall j (by omega) hj)

theorem honest_char (h : Implementation σ str) (s : σ) :
    Honest str (returnsChar (counted str)) s := by
  intro k n s' k' hr
  rw [returnsChar, peekIs_counted, peekIs_counted] at hr
  split at hr
  · next hpeek =>
    cases hr
    rw [h.drop_eq]
    apply consumes_advance
    intro j hj
    have htext : ∀ c ∈ cstring "\\#newline", c ≠ 0#8 := by decide
    exact htext _ (peekIs_spec hpeek j (Nat.zero_le _) (by rw [Nat.zero_add]; exact hj))
  · split at hr
    · next hpeek =>
      cases hr
      rw [Bool.and_eq_true] at hpeek
      rw [h.drop_eq]
      apply consumes_advance
      intro j hj
      by_cases h2 : j = 2
      · subst h2
        exact ne_nul_of (by decide) hpeek.2
      · have htext : ∀ c ∈ cstring "\\#", c ≠ 0#8 := by decide
        have hlen : (cstring "\\#").length = 2 := by decide
        exact htext _ (peekIs_spec hpeek.1 j (Nat.zero_le _) (by omega))
    · cases hr
      exact consumes_zero

theorem honest_i (h : Implementation σ str) (s : σ) :
    Honest str (returnsi (counted str) fuel) s := by
  intro k n s' k' hr
  obtain ⟨m, hm, hr⟩ := Option.bind_eq_some_iff.mp hr
  rw [countWhile_counted] at hm
  split at hr
  · cases hr
    exact consumes_zero
  · cases hr
    obtain ⟨-, hall, -⟩ := countWhile_spec hm
    rw [h.drop_eq]
    apply consumes_advance
    intro j hj
    exact ne_nul_of (by decide) (hall j (Nat.zero_le _) hj)

theorem honest_suffixed (h : Implementation σ str) {suffix : String}
    (hsuffix : ∀ c ∈ cstring suffix, c ≠ 0#8) (s : σ) :
    Honest str (returnsSuffixed (counted str) fuel suffix) s := by
  intro k n s' k' hr
  obtain ⟨m, hm, hr⟩ := Option.bind_eq_some_iff.mp hr
  rw [countWhile_counted] at hm
  rw [peekIs_counted] at hr
  split at hr
  · next hpeek =>
    cases hr
    obtain ⟨-, hall, -⟩ := countWhile_spec hm
    rw [h.drop_eq]
    apply consumes_advance
    intro j hj
    by_cases hlt : j < m
    · exact ne_nul_of (by decide) (hall j (Nat.zero_le _) hlt)
    · exact hsuffix _ (peekIs_spec hpeek j (by omega) hj)
  · cases hr
    exact consumes_zero

theorem honest_U (h : Implementation σ str) (s : σ) :
    Honest str (returnsU (counted str) fuel) s := by
  intro k n s' k' hr
  rw [returnsU] at hr
  split at hr
  · next hhex =>
    obtain ⟨m, hm, hr⟩ := Option.bind_eq_some_iff.mp hr
    rw [countWhile_counted] at hm
    cases hr
    obtain ⟨-, hall, -⟩ := countWhile_spec hm
    simp only [peek_counted, Bool.and_eq_true, Bool.or_eq_true, beq_iff_eq] at hhex
    rw [h.drop_eq]
    apply consumes_advance
    intro j hj
    by_cases h2 : 2 ≤ j
    · exact ne_nul_of (by decide) (hall j h2 hj)
    · have hcase : j = 0 ∨ j = 1 := by omega
      rcases hcase with rfl | rfl
      · rw [hhex.1]
        decide
      · rcases hhex.2 with hx | hx
        · rw [hx]
          decide
        · rw [hx]
          decide
  · exact honest_suffixed h (by decide) s k n s' k' hr

/-- A string literal that ends is no unclosed one. -/
theorem not_unclosed {len : Nat} (hclose : str.peek s (len + 1) = chr '"')
    (hall : ∀ j, j < len → str.peek s (j + 1) ≠ 0#8) : ¬ Unclosed str s := by
  rintro ⟨-, len', hend, hin⟩
  rcases Nat.lt_trichotomy len' len with hlt | rfl | hgt
  · exact hall len' hlt hend
  · rw [hend] at hclose
    exact absurd hclose (by decide)
  · exact (hin len hgt).2 hclose

/-- `tok_string` has taken what it reports, unless the string is not closed: then it reports 0 and
has taken the double quote. -/
theorem returnsString_cases (h : Implementation σ str)
    (hr : returnsString lib (counted str) fuel (s, k) = some (n, (s', k'))) :
    (Unclosed str s ∧ n = 0 ∧ k' = k + 1) ∨ (¬ Unclosed str s ∧ Consumes str s s' k k' n) := by
  rw [returnsString] at hr
  split at hr
  · next hquote =>
    cases hr
    have hne : str.peek s 0 ≠ chr '"' := by simpa using hquote
    exact .inr ⟨fun hun => hne hun.1, consumes_zero⟩
  · next hquote =>
    have hq : str.peek s 0 = chr '"' := by simpa using hquote
    obtain ⟨len, hlen, hr⟩ := Option.bind_eq_some_iff.mp hr
    have hlen' : countWhile str (fun c => c != 0#8 && c != chr '"') (str.get s).2 fuel 0
        = some len := (countWhile_counted _ (str.get s).2 (k + 1) fuel 0).symm.trans hlen
    obtain ⟨-, hall, hstop⟩ := countWhile_spec hlen'
    -- the characters behind the double quote, as they are seen from it
    have hin : ∀ j, j < len → str.peek s (j + 1) ≠ 0#8 ∧ str.peek s (j + 1) ≠ chr '"' := by
      intro j hj
      have hc := hall j (Nat.zero_le _) hj
      rw [h.peek_get] at hc
      simpa using hc
    split at hr
    · next hopen =>
      cases hr
      have hne : str.peek s (len + 1) ≠ chr '"' := by
        rw [← h.peek_get]
        simpa [counted] using hopen
      rw [h.peek_get] at hstop
      have hend : str.peek s (len + 1) = 0#8 := by
        by_contra h0
        simp [h0, hne] at hstop
      exact .inl ⟨⟨hq, len, hend, hin⟩, rfl, rfl⟩
    · next hclose =>
      have hc : str.peek s (len + 1) = chr '"' := by
        rw [← h.peek_get]
        simpa [counted] using hclose
      refine .inr ⟨not_unclosed hc fun j hj => (hin j hj).1, ?_⟩
      split at hr
      · cases hr
        exact consumes_error
      · have hstate : (counted str).get (getMany (counted str) len ((counted str).get (s, k)).2).2
            = ((str.get (advance str len (str.get s).2)).1,
              (advance str (1 + len + 1) s, k + (1 + len + 1))) := by
          show (counted str).get (getMany (counted str) len ((str.get s).2, k + 1)).2 = _
          rw [getMany_counted]
          have hadv : advance str (1 + len + 1) s
              = (str.get (advance str len (str.get s).2)).2 := by
            rw [advance_succ, Nat.add_comm 1 len]
            rfl
          rw [hadv]
          show (_, (_, k + 1 + len + 1)) = _
          congr 2
          omega
        rw [hstate] at hr
        cases hr
        apply consumes_advance
        intro j hj
        by_cases h0 : j = 0
        · rw [h0, hq]
          decide
        · obtain ⟨i, rfl⟩ := Nat.exists_eq_succ_of_ne_zero h0
          by_cases hi : i < len
          · exact (hin i hi).1
          · obtain rfl : i = len := by omega
            rw [hc]
            decide

/-- The parts of a number with a point are where the digits end. -/
theorem longFloat_iff {a b : Nat} (ha : ∀ j, j < a → isDigit (str.peek s j) = true)
    (hpoint : str.peek s a = chr '.') (hb : 0 < b)
    (hdigits : ∀ j, j < b → isDigit (str.peek s (a + 1 + j)) = true)
    (hend : isDigit (str.peek s (a + 1 + b)) = false) : LongFloat str s ↔ 255 < a + 1 + b := by
  have hpoint' : isDigit (chr '.') = false := by decide
  constructor
  · rintro ⟨a', b', ha', hpa, -, hb', hend', hlong⟩
    obtain rfl : a' = a := by
      rcases Nat.lt_trichotomy a' a with hlt | heq | hgt
      · have := ha a' hlt
        rw [hpa, hpoint'] at this
        cases this
      · exact heq
      · have := ha' a hgt
        rw [hpoint, hpoint'] at this
        cases this
    rcases Nat.lt_trichotomy b' b with hlt | rfl | hgt
    · have := hdigits b' hlt
      rw [hend'] at this
      cases this
    · exact hlong
    · have := hb' b hgt
      rw [hend] at this
      cases this
  · intro hlong
    exact ⟨a, b, ha, hpoint, hb, hdigits, hend, hlong⟩

/-- `tok_F` has taken what it reports, unless the number has more than 255 characters: then it
has taken 255. -/
theorem returnsF_cases (hr : returnsF (counted str) fuel (s, k) = some (n, (s', k'))) :
    (LongFloat str s ∧ 255 < n ∧ k' = k + 255)
      ∨ (¬ LongFloat str s ∧ Consumes str s s' k k' n) := by
  obtain ⟨a, ha, hr⟩ := Option.bind_eq_some_iff.mp hr
  rw [countWhile_counted] at ha
  obtain ⟨-, hdigits, hstop⟩ := countWhile_spec ha
  have hpoint' : isDigit (chr '.') = false := by decide
  have hfirst : LongFloat str s → str.peek s a = chr '.' ∧ isDigit (str.peek s (a + 1)) = true := by
    rintro ⟨a', b', ha', hpa, hb, hb', -⟩
    obtain rfl : a' = a := by
      rcases Nat.lt_trichotomy a' a with hlt | heq | hgt
      · have := hdigits a' (Nat.zero_le _) hlt
        rw [hpa, hpoint'] at this
        cases this
      · exact heq
      · have := ha' a hgt
        rw [hstop] at this
        cases this
    exact ⟨hpa, hb' 0 hb⟩
  split at hr
  · next hp =>
    cases hr
    have hne : str.peek s a ≠ chr '.' := by simpa using hp
    exact .inr ⟨fun hlong => hne (hfirst hlong).1, consumes_zero⟩
  · next hp =>
    have hpoint : str.peek s a = chr '.' := by simpa using hp
    split at hr
    · next hd =>
      cases hr
      have hnot : isDigit (str.peek s (a + 1)) = false := by simpa using hd
      refine .inr ⟨fun hlong => ?_, consumes_zero⟩
      rw [(hfirst hlong).2] at hnot
      cases hnot
    · next hd =>
      have hdigit : isDigit (str.peek s (a + 1)) = true := by simpa using hd
      obtain ⟨m, hm, hr⟩ := Option.bind_eq_some_iff.mp hr
      rw [countWhile_counted] at hm
      rw [getMany_counted] at hr
      cases hr
      obtain ⟨hle, hall, hend⟩ := countWhile_spec hm
      have hlt : a + 1 < m := by
        by_contra hge
        obtain rfl : m = a + 1 := by omega
        rw [hdigit] at hend
        cases hend
      obtain ⟨b, rfl⟩ : ∃ b, m = a + 1 + b := ⟨m - (a + 1), by omega⟩
      have hlong := longFloat_iff (fun j hj => hdigits j (Nat.zero_le _) hj) hpoint (by omega)
        (fun j hj => hall (a + 1 + j) (by omega) (by omega)) hend
      by_cases h255 : 255 < a + 1 + b
      · rw [Nat.min_eq_right (by omega)]
        exact .inl ⟨hlong.mpr h255, by exact_mod_cast h255, rfl⟩
      · rw [Nat.min_eq_left (by omega)]
        refine .inr ⟨mt hlong.mp h255, consumes_advance fun j hj => ?_⟩
        rcases Nat.lt_trichotomy j a with hlt | rfl | hgt
        · exact ne_nul_of (by decide) (hdigits j (Nat.zero_le _) hlt)
        · rw [hpoint]
          decide
        · exact ne_nul_of (by decide) (hall j (by omega) hj)

/-- The recognisers other than `tok_string` and `tok_F`. -/
theorem honest_of_ne (h : Implementation σ str) {r : Tok} (hstring : r ≠ .string) (hF : r ≠ .F)
    (s : σ) : Honest str (r.returns lib (counted str) fuel) s := by
  cases r with
  | openpar => exact honest_fixed h (by decide) s
  | closepar => exact honest_fixed h (by decide) s
  | quote => exact honest_fixed h (by decide) s
  | backquote => exact honest_fixed h (by decide) s
  | commaat => exact honest_fixed h (by decide) s
  | comma => exact honest_fixed h (by decide) s
  | symbol => exact honest_symbol s
  | string => exact absurd rfl hstring
  | char => exact honest_char h s
  | i => exact honest_i h s
  | I => exact honest_suffixed h (by decide) s
  | u => exact honest_suffixed h (by decide) s
  | U => exact honest_U h s
  | F => exact absurd rfl hF

/-- **A recogniser takes what it reports**, on both streams and whatever they hold, exactly when it
is neither `tok_string` on a string that is not closed nor `tok_F` on a number of more than 255
characters. -/
theorem consumes_iff (h : Implementation σ str) {r : Tok}
    (hr : r.returns lib (counted str) fuel (s, k) = some (n, (s', k'))) :
    Consumes str s s' k k' n ↔ r.Fits str s := by
  by_cases hstring : r = .string
  · subst hstring
    have hfits : Tok.Fits .string str s ↔ ¬ Unclosed str s :=
      ⟨fun hf => hf.1 rfl, fun hun => ⟨fun _ => hun, fun hF => by cases hF⟩⟩
    rw [hfits]
    rcases returnsString_cases h hr with ⟨hun, hn, hk⟩ | ⟨hun, hc⟩
    · refine iff_of_false (fun hc => ?_) (not_not.mpr hun)
      have hsame := (hc.untouched hn).2
      omega
    · exact iff_of_true hc hun
  · by_cases hF : r = .F
    · subst hF
      have hfits : Tok.Fits .F str s ↔ ¬ LongFloat str s :=
        ⟨fun hf => hf.2 rfl, fun hlong => ⟨fun hs => (by cases hs), fun _ => hlong⟩⟩
      rw [hfits]
      rcases returnsF_cases hr with ⟨hlong, hn, hk⟩ | ⟨hlong, hc⟩
      · refine iff_of_false (fun hc => ?_) (not_not.mpr hlong)
        have hsame := (hc.taken (by omega)).2.1
        omega
      · exact iff_of_true hc hlong
    · refine iff_of_true (honest_of_ne h hstring hF s k n s' k' hr) ?_
      exact ⟨fun hs => absurd hs hstring, fun hf => absurd hf hF⟩

/-- `tok_symbol` on `ab)`. -/
theorem consumes_iff_symbol :
    Consumes stringStream (cstring "ab)") (cstring ")") 0 2 2
      ↔ Tok.Fits .symbol stringStream (cstring "ab)") :=
  @consumes_iff _ stringStream ⟨fun _ => true, fun _ => 0#32⟩ 4 _ _ 0 2 2 .string .symbol
    (by decide +kernel)

/-- `tok_string` on a double quote and an `a` returns 0 and has taken the double quote. -/
theorem not_consumes_unclosed :
    Tok.returns ⟨fun _ => true, fun _ => 0#32⟩ stringStream 4 .string (cstring "\"a")
        = some (0, cstring "a")
      ∧ ¬ ∀ (lib : Libc) (fuel : Nat) (σ : Type) (str : CharStream σ), Implementation σ str →
          ∀ (r : Tok) (s s' : σ) (k k' : Nat) (n : Int),
            r.returns lib (counted str) fuel (s, k) = some (n, (s', k')) →
            Consumes str s s' k k' n := by
  refine ⟨by decide +kernel, fun hall => ?_⟩
  have hc := hall ⟨fun _ => true, fun _ => 0#32⟩ 4 _ stringStream .string .string (cstring "\"a")
    (cstring "a") 0 1 0 (by decide +kernel)
  exact absurd (hc.untouched rfl).2 (by decide)

/-- The ordered choice: when a recogniser has found nothing, the next ones see the same input. -/
theorem firstOf_of_fits (h : Implementation σ str) {r : Tok} (hfits : r.Fits str s)
    (hr : r.recogniser lib str fuel s = some (none, s')) (rs : List (Recogniser σ)) :
    firstOf (r.recogniser lib str fuel :: rs) s = firstOf rs s := by
  have hcall := @Tok.sameCall σ str lib fuel h r s
  rw [hr] at hcall
  obtain ⟨⟨n, t⟩, hret, heq⟩ := Option.map_eq_some_iff.mp hcall.symm
  obtain ⟨hn, ht⟩ : (n == 0) = true ∧ t = s' := Prod.mk.inj heq
  have hplain : (r.returns lib (counted str) fuel (s, 0)).map (fun p => (p.1, p.2.1))
      = (r.returns lib str fuel s).map id := r.returns_counted s 0
  rw [hret] at hplain
  obtain ⟨⟨n', t', k'⟩, hcounted, heq'⟩ := Option.map_eq_some_iff.mp hplain
  obtain ⟨hn', ht'⟩ : n' = n ∧ t' = t := Prod.mk.inj heq'
  have hc := (consumes_iff h hcounted).mpr hfits
  have hsame : t' = s := (hc.untouched (by rw [hn']; exact beq_iff_eq.mp hn)).1
  rw [firstOf, hr]
  show firstOf rs s' = firstOf rs s
  rw [← ht, ← ht', hsame]

end

end Tokpar

end LispBM
