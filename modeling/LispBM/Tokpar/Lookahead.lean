import LispBM.Lib.Cursor
import LispBM.Tokpar.Text

/-!
# LispBM — what the tokenizer looks at

The recognisers of `LispBM.Tokpar` once more, with each `more`, `peek`, `get` and `drop` in the
order of the source: a condition that is decided by its first part does not look at what its second
part is about.

* `run_readToken` — the reader of a token is `next_token`, on any stream;
* `within_readToken` — on a NUL-terminated string it neither looks nor moves behind the NUL.
-/

namespace LispBM

namespace Tokpar

open Compression (chr isspace)
open BitBuffer (Byte)
open Cursor (Reader)
open Cursor.Reader (done stuck more peek get drop lookWhile takeMany)

/-- The stream as the readers use it. -/
def CharStream.cursor {σ : Type} (str : CharStream σ) : Cursor.Stream σ Byte :=
  ⟨str.more, str.get, str.peek, str.drop⟩

/-! ## The recognisers -/

/-- The conditions `peek(str,n) == c && peek(str,n+1) == d && ..`. -/
def looksAt : List Byte → Nat → Reader Byte Bool
  | [], _ => done true
  | c :: cs, n => peek n fun d => if d == c then looksAt cs (n + 1) else done false

section Readers

variable (lib : Libc) (fuel : Nat)

def readFixed (text : String) (t : Token) : Reader Byte (Option Token) :=
  (looksAt (cstring text) 0).bind fun b =>
    if b then drop (cstring text).length (done (some t)) else done none

def readSymbol : Reader Byte (Option Token) :=
  peek 0 fun c =>
    if !symchar0 c then done none
    else (lookWhile symchar (fun _ _ => ()) fuel 1 ()).bind fun r =>
      if !lib.malloc (r.1 + 1) then done (some .error)
      else (takeMany r.1).bind fun text => done (some (.symbol (text.map tolower)))

def readString : Reader Byte (Option Token) :=
  peek 0 fun c =>
    if !(c == chr '"') then done none
    else get fun _ => (lookWhile inString (fun _ _ => ()) fuel 0 ()).bind fun r =>
      peek r.1 fun d =>
        if d != chr '"' then done none
        else if !lib.malloc (r.1 + 1) then done (some .error)
        else (takeMany r.1).bind fun text => get fun _ => done (some (.string text))

def readChar : Reader Byte (Option Token) :=
  (looksAt (cstring "\\#newline") 0).bind fun b =>
    if b then drop 9 (done (some (.char (chr '\n'))))
    else (looksAt (cstring "\\#") 0).bind fun b =>
      if b then peek 2 fun c =>
        if isgraph c then drop 3 (done (some (.char c))) else done none
      else done none

/-- The digits of a number, and their value. -/
def readDigits (p : Byte → Bool) (base : UINT) (value : Byte → UINT) (start : Nat) :
    Reader Byte (Nat × UINT) :=
  lookWhile p (fun acc c => acc * base + value c) fuel start 0#32

def readi : Reader Byte (Option Token) :=
  (readDigits fuel isDigit 10#32 digitValue 0).bind fun r =>
    peek r.1 fun c =>
      if (cstring "Uu.I").contains c then done none
      else if r.1 = 0 then done none
      else drop r.1 (done (some (.int r.2)))

def readSuffixed (suffix : String) (t : UINT → Token) : Reader Byte (Option Token) :=
  (readDigits fuel isDigit 10#32 digitValue 0).bind fun r =>
    (looksAt (cstring suffix) r.1).bind fun b =>
      if b then drop (r.1 + (cstring suffix).length) (done (some (t r.2))) else done none

def readU : Reader Byte (Option Token) :=
  peek 0 fun c =>
    if c == chr '0' then peek 1 fun d =>
      if d == chr 'x' || d == chr 'X' then
        (readDigits fuel isHexDigit 0x10#32 hexValue 2).bind fun r =>
          drop r.1 (done (some (.boxedUint r.2)))
      else readSuffixed fuel "u32" .boxedUint
    else readSuffixed fuel "u32" .boxedUint

def readF : Reader Byte (Option Token) :=
  (lookWhile isDigit (fun _ _ => ()) fuel 0 ()).bind fun r =>
    peek r.1 fun c =>
      if !(c == chr '.') then done none
      else peek (r.1 + 1) fun d =>
        if !isDigit d then done none
        else (lookWhile isDigit (fun _ _ => ()) fuel (r.1 + 1) ()).bind fun r =>
          (takeMany (min r.1 255)).bind fun fbuf => done (some (.boxedFloat (lib.strtod fbuf)))

/-! ## `next_token` -/

def readers : List (Reader Byte (Option Token)) :=
  [readFixed "'" .quote, readFixed "`" .backquote, readFixed ",@" .commaat, readFixed "," .comma,
    readFixed "(" .openpar, readFixed ")" .closepar, readSymbol lib fuel, readChar,
    readString lib fuel, readF lib fuel, readU fuel, readSuffixed fuel "u28" .uint,
    readSuffixed fuel "i32" .boxedInt, readi fuel]

def readFirst : List (Reader Byte (Option Token)) → Reader Byte Token
  | [] => done .error
  | r :: rs => r.bind fun t => t.elim (readFirst rs) done

def readComment : Nat → Reader Byte Unit
  | 0 => stuck
  | n + 1 => more fun b =>
      if b then peek 0 fun c => if c != chr '\n' then drop 1 (readComment n) else done ()
      else done ()

def readBlanks : Nat → Reader Byte Unit
  | 0 => stuck
  | n + 1 => peek 0 fun c =>
      if c == chr ';' then (readComment fuel).bind fun _ => readBlanks n
      else if isspace c then drop 1 (readBlanks n)
      else done ()

/-- `next_token`. -/
def readToken : Reader Byte Token :=
  more fun b =>
    if !b then done .eof
    else (readBlanks fuel fuel).bind fun _ => more fun b =>
      if !b then done .eof else readFirst (readers lib fuel)

end Readers

/-! ## The readers and the recognisers -/

section Run

variable {σ : Type} (str : CharStream σ) (lib : Libc) (fuel : Nat)

theorem run_looksAt (s : σ) : ∀ (text : List Byte) (n : Nat),
    (looksAt text n).run str.cursor s = some (peekIs str s n text, s) := by
  intro text
  induction text with
  | nil => intro n; rfl
  | cons c cs ih =>
    intro n
    have hpeek : peekIs str s n (c :: cs) = (str.peek s n == c && peekIs str s (n + 1) cs) := by
      simp only [peekIs, List.zipIdx_cons, List.all_cons, Nat.add_zero]
      rw [List.zipIdx_succ, List.all_map]
      simp [Function.comp_def, Nat.add_assoc, Nat.add_comm 1]
    show (if (str.peek s n == c) = true then looksAt cs (n + 1) else done false).run str.cursor s
      = _
    rw [hpeek]
    cases str.peek s n == c with
    | true => exact ih (n + 1)
    | false => rfl

theorem countWhile_le {p : Byte → Bool} {s : σ} : ∀ {fuel n m : Nat},
    countWhile str p s fuel n = some m → n ≤ m := by
  intro fuel
  induction fuel with
  | zero => intro n m h; exact absurd h (by simp [countWhile])
  | succ fuel ih =>
    intro n m h
    rw [countWhile] at h
    split at h
    · have := ih h
      omega
    · exact Nat.le_of_eq (Option.some.inj h)

theorem run_lookWhile {γ : Type} (p : Byte → Bool) (step : γ → Byte → γ) (s : σ) :
    ∀ (fuel n : Nat) (acc : γ), (lookWhile p step fuel n acc).run str.cursor s
      = (countWhile str p s fuel n).map fun m =>
        ((m, (List.range' n (m - n)).foldl (fun acc i => step acc (str.peek s i)) acc), s) := by
  intro fuel
  induction fuel with
  | zero => intro n acc; rfl
  | succ fuel ih =>
    intro n acc
    rw [countWhile]
    show (if p (str.peek s n) = true then lookWhile p step fuel (n + 1) (step acc (str.peek s n))
      else done (n, acc)).run str.cursor s = _
    by_cases hp : p (str.peek s n) = true
    · rw [if_pos hp, if_pos hp, ih]
      cases hcount : countWhile str p s fuel (n + 1) with
      | none => rfl
      | some m =>
        have hle := countWhile_le str hcount
        have hrange : List.range' n (m - n) = n :: List.range' (n + 1) (m - (n + 1)) := by
          rw [show m - n = m - (n + 1) + 1 by omega, List.range'_succ]
        rw [Option.map_some, Option.map_some, hrange, List.foldl_cons]
    · rw [if_neg hp, if_neg hp, Option.map_some, Nat.sub_self]
      rfl

theorem run_takeMany : ∀ (n : Nat) (s : σ),
    (takeMany n).run str.cursor s = some (getMany str n s) := by
  intro n
  induction n with
  | zero => intro s; rfl
  | succ n ih =>
    intro s
    show ((takeMany n).bind fun as => done ((str.get s).1 :: as)).run str.cursor (str.get s).2 = _
    rw [Reader.run_bind, ih]
    rfl

theorem run_readFixed (text : String) (t : Token) (s : σ) :
    (readFixed text t).run str.cursor s = tokFixed str text t s := by
  rw [readFixed, Reader.run_bind, run_looksAt, tokFixed]
  cases peekIs str s 0 (cstring text) <;> rfl

theorem run_readSymbol (s : σ) :
    (readSymbol lib fuel).run str.cursor s = tokSymbol lib str fuel s := by
  unfold readSymbol tokSymbol
  show (if (!symchar0 (str.peek s 0)) = true then done none else _).run str.cursor s = _
  cases symchar0 (str.peek s 0) with
  | false => rfl
  | true =>
    show ((lookWhile symchar (fun _ _ => ()) fuel 1 ()).bind _).run str.cursor s = _
    rw [Reader.run_bind, run_lookWhile]
    cases countWhile str symchar s fuel 1 with
    | none => rfl
    | some len =>
      show (if (!lib.malloc (len + 1)) = true then done (some Token.error) else _).run str.cursor s
        = _
      cases hmalloc : lib.malloc (len + 1) with
      | false => simp [hmalloc, Reader.run]
      | true =>
        show ((takeMany len).bind _).run str.cursor s = _
        rw [Reader.run_bind, run_takeMany]
        simp [hmalloc, Reader.run]

theorem run_readDigits (p : Byte → Bool) (base : UINT) (value : Byte → UINT) (start : Nat) (s : σ) :
    (readDigits fuel p base value start).run str.cursor s
      = (countWhile str p s fuel start).map fun n =>
        ((n, numeral str base value s start (n - start)), s) := by
  have hnumeral : ∀ n, numeral str base value s start n
      = (List.range' start n).foldl (fun acc i => acc * base + value (str.peek s i)) 0#32 := by
    intro n
    rw [numeral, List.range'_eq_map_range, List.foldl_map]
  simp only [readDigits, run_lookWhile, hnumeral]

theorem run_readSuffixed (suffix : String) (t : UINT → Token) (s : σ) :
    (readSuffixed fuel suffix t).run str.cursor s = tokSuffixed str fuel suffix t s := by
  unfold readSuffixed tokSuffixed
  rw [Reader.run_bind, run_readDigits]
  cases countWhile str isDigit s fuel 0 with
  | none => rfl
  | some n =>
    show ((looksAt (cstring suffix) n).bind _).run str.cursor s = _
    rw [Reader.run_bind, run_looksAt]
    cases hsuffix : peekIs str s n (cstring suffix) with
    | false => simp [hsuffix, Reader.run]
    | true =>
      simp only [Option.bind_eq_bind, Option.bind_some, hsuffix, if_true, Nat.sub_zero]
      rfl

theorem run_readString (s : σ) :
    (readString lib fuel).run str.cursor s = tokString lib str fuel s := by
  unfold readString tokString
  show (if (!(str.peek s 0 == chr '"')) = true then done none else _).run str.cursor s = _
  cases hquote : str.peek s 0 == chr '"' with
  | false => simp [Reader.run]
  | true =>
    generalize hs' : (str.get s).2 = s'
    have hin : (fun c : Byte => c != 0#8 && c != chr '"') = inString := rfl
    show ((lookWhile inString (fun _ _ => ()) fuel 0 ()).bind _).run str.cursor (str.get s).2 = _
    rw [hs', Reader.run_bind, run_lookWhile]
    simp only [hin, Bool.not_true, Bool.false_eq_true, if_false]
    cases countWhile str inString s' fuel 0 with
    | none => rfl
    | some len =>
      show (if (str.peek s' len != chr '"') = true then done none else _).run str.cursor s' = _
      cases hend : str.peek s' len != chr '"' with
      | true =>
        simp only [Option.bind_eq_bind, Option.bind_some, hend, if_true]
        rfl
      | false =>
        simp only [Option.bind_eq_bind, Option.bind_some, hend, Bool.false_eq_true, if_false]
        cases hmalloc : lib.malloc (len + 1) with
        | false => rfl
        | true =>
          show ((takeMany len).bind _).run str.cursor s' = _
          rw [Reader.run_bind, run_takeMany]
          rfl

theorem run_readChar (s : σ) : readChar.run str.cursor s = tokChar str s := by
  unfold readChar tokChar
  rw [Reader.run_bind, run_looksAt]
  cases hnewline : peekIs str s 0 (cstring "\\#newline") with
  | true => rfl
  | false =>
    show ((looksAt (cstring "\\#") 0).bind _).run str.cursor s = _
    rw [Reader.run_bind, run_looksAt]
    cases hchar : peekIs str s 0 (cstring "\\#") with
    | false => rfl
    | true =>
      show (if isgraph (str.peek s 2) = true then drop 3 (done (some (Token.char (str.peek s 2))))
        else done none).run str.cursor s = _
      cases isgraph (str.peek s 2) with
      | false => rfl
      | true => rfl

theorem run_readi (s : σ) : (readi fuel).run str.cursor s = toki str fuel s := by
  unfold readi toki
  rw [Reader.run_bind, run_readDigits]
  cases countWhile str isDigit s fuel 0 with
  | none => rfl
  | some n =>
    show (if (cstring "Uu.I").contains (str.peek s n) = true then done none else _).run str.cursor s
      = _
    simp only [Option.bind_eq_bind, Option.bind_some, Nat.sub_zero]
    split
    · rfl
    · split <;> rfl

theorem run_readU (s : σ) : (readU fuel).run str.cursor s = tokU str fuel s := by
  unfold readU tokU
  show Reader.run str.cursor (if (str.peek s 0 == chr '0') = true then _ else _) s = _
  cases hzero : str.peek s 0 == chr '0' with
  | false => exact run_readSuffixed str fuel "u32" .boxedUint s
  | true =>
    show Reader.run str.cursor
      (if (str.peek s 1 == chr 'x' || str.peek s 1 == chr 'X') = true then _ else _) s = _
    cases hx : str.peek s 1 == chr 'x' || str.peek s 1 == chr 'X' with
    | false => exact run_readSuffixed str fuel "u32" .boxedUint s
    | true =>
      show ((readDigits fuel isHexDigit 0x10#32 hexValue 2).bind _).run str.cursor s = _
      rw [Reader.run_bind, run_readDigits]
      cases countWhile str isHexDigit s fuel 2 with
      | none => rfl
      | some n => rfl

theorem run_readF (s : σ) : (readF lib fuel).run str.cursor s = tokF lib str fuel s := by
  unfold readF tokF
  rw [Reader.run_bind, run_lookWhile]
  cases countWhile str isDigit s fuel 0 with
  | none => rfl
  | some n =>
    show (if (!(str.peek s n == chr '.')) = true then done none else _).run str.cursor s = _
    cases hpoint : str.peek s n == chr '.' with
    | false =>
      simp only [Option.bind_eq_bind, Option.bind_some, hpoint, Bool.not_false, if_true]
      rfl
    | true =>
      show (if (!isDigit (str.peek s (n + 1))) = true then done none else _).run str.cursor s = _
      cases hdigit : isDigit (str.peek s (n + 1)) with
      | false =>
        simp only [Option.bind_eq_bind, Option.bind_some, hpoint, hdigit, Bool.not_true,
          Bool.not_false, Bool.false_eq_true, if_false, if_true]
        rfl
      | true =>
        show ((lookWhile isDigit (fun _ _ => ()) fuel (n + 1) ()).bind _).run str.cursor s = _
        rw [Reader.run_bind, run_lookWhile]
        simp only [Option.bind_eq_bind, Option.bind_some, hpoint, hdigit, Bool.not_true,
          Bool.false_eq_true, if_false]
        cases countWhile str isDigit s fuel (n + 1) with
        | none => rfl
        | some m =>
          show ((takeMany (min m 255)).bind _).run str.cursor s = _
          rw [Reader.run_bind, run_takeMany]
          rfl

theorem run_readFirst {rs : List (Reader Byte (Option Token))} {ts : List (Recogniser σ)}
    (h : List.Forall₂ (fun r t => ∀ s, r.run str.cursor s = t s) rs ts) (s : σ) :
    (readFirst rs).run str.cursor s = firstOf ts s := by
  induction h generalizing s with
  | nil => rfl
  | @cons r t rs ts hr _ ih =>
    rw [readFirst, Reader.run_bind, hr, firstOf]
    cases t s with
    | none => rfl
    | some x =>
      obtain ⟨tok, s'⟩ := x
      cases tok with
      | none => exact ih s'
      | some tok => rfl

theorem run_readComment : ∀ (n : Nat) (s : σ),
    (readComment n).run str.cursor s = (dropComment str n s).map fun s => ((), s) := by
  intro n
  induction n with
  | zero => intro s; rfl
  | succ n ih =>
    intro s
    rw [dropComment]
    show (if str.more s = true then peek 0 _ else done ()).run str.cursor s = _
    cases hmore : str.more s with
    | false => rfl
    | true =>
      show (if (str.peek s 0 != chr '\n') = true then drop 1 (readComment n) else done ()).run
        str.cursor s = _
      cases hnewline : str.peek s 0 != chr '\n' with
      | false => rfl
      | true => exact ih (str.drop s 1)

theorem run_readBlanks : ∀ (n : Nat) (s : σ),
    (readBlanks fuel n).run str.cursor s = (cleanWhitespace str fuel n s).map fun s => ((), s) := by
  intro n
  induction n with
  | zero => intro s; rfl
  | succ n ih =>
    intro s
    rw [cleanWhitespace]
    show Reader.run str.cursor (if (str.peek s 0 == chr ';') = true then _ else _) s = _
    cases hcomment : str.peek s 0 == chr ';' with
    | true =>
      show ((readComment fuel).bind _).run str.cursor s = _
      rw [Reader.run_bind, run_readComment]
      cases dropComment str fuel s with
      | none => rfl
      | some s' => exact ih s'
    | false =>
      show (if isspace (str.peek s 0) = true then drop 1 (readBlanks fuel n) else done ()).run
        str.cursor s = _
      cases hspace : isspace (str.peek s 0) with
      | true => exact ih (str.drop s 1)
      | false => rfl

/-- **The reader of a token is `next_token`.** -/
theorem run_readToken (s : σ) :
    (readToken lib fuel).run str.cursor s = nextToken lib str fuel s := by
  unfold readToken nextToken
  show (if (!str.more s) = true then done Token.eof else _).run str.cursor s = _
  cases hmore : str.more s with
  | false => rfl
  | true =>
    show ((readBlanks fuel fuel).bind _).run str.cursor s = _
    rw [Reader.run_bind, run_readBlanks]
    cases cleanWhitespace str fuel fuel s with
    | none => rfl
    | some s' =>
      show (if (!str.more s') = true then done Token.eof else _).run str.cursor s' = _
      cases hmore' : str.more s' with
      | false =>
        simp only [Option.bind_eq_bind, Option.bind_some, hmore', Bool.not_false, if_true]
        rfl
      | true =>
        simp only [Option.bind_eq_bind, Option.bind_some, hmore', Bool.not_true,
          Bool.false_eq_true, if_false]
        apply run_readFirst
        refine .cons ?_ (.cons ?_ (.cons ?_ (.cons ?_ (.cons ?_ (.cons ?_ (.cons ?_ (.cons ?_
          (.cons ?_ (.cons ?_ (.cons ?_ (.cons ?_ (.cons ?_ (.cons ?_ .nil)))))))))))))
        · exact run_readFixed str _ _
        · exact run_readFixed str _ _
        · exact run_readFixed str _ _
        · exact run_readFixed str _ _
        · exact run_readFixed str _ _
        · exact run_readFixed str _ _
        · exact run_readSymbol str lib fuel
        · exact run_readChar str
        · exact run_readString str lib fuel
        · exact run_readF str lib fuel
        · exact run_readU str fuel
        · exact run_readSuffixed str fuel _ _
        · exact run_readSuffixed str fuel _ _
        · exact run_readi str fuel

end Run

/-! ## Strings -/

section Within

variable {text : List Byte} {p : Nat}

/-- What a recogniser does on a string: it does not move behind the NUL, and a token other than the
error token takes a character at least. -/
structure Steps (text : List Byte) (p : Nat) (r : Option Token) (q : Nat) : Prop where
  le : p ≤ q
  inside : q ≤ text.length
  advances : ∀ t, r = some t → t.isEnd = false → p < q

theorem Steps.none (hp : p ≤ text.length) : Steps text p none p :=
  ⟨le_refl p, hp, fun _ h => absurd h (by simp)⟩

theorem Steps.error {q : Nat} (hpq : p ≤ q) (hq : q ≤ text.length) :
    Steps text p (some .error) q :=
  ⟨hpq, hq, fun t h ht => by
    obtain rfl := Option.some.inj h
    exact absurd ht (by simp [Token.isEnd])⟩

theorem Steps.some {t : Token} {q : Nat} (hpq : p < q) (hq : q ≤ text.length) :
    Steps text p (some t) q := ⟨le_of_lt hpq, hq, fun _ _ _ => hpq⟩

theorem lt_length_of_ne {c : Byte} (hc : c ≠ 0#8) (h : text.getD p 0#8 = c) : p < text.length := by
  by_contra hle
  rw [List.getD_eq_default _ _ (Nat.not_lt.mp hle)] at h
  exact hc h.symm

/-- Characters other than NUL that are there are not behind it. -/
theorem within_looksAt : ∀ {cs : List Byte} {n : Nat}, (∀ c ∈ cs, c ≠ 0#8) →
    p + n ≤ text.length → (looksAt cs n).Within text 0#8
      (fun b q => q = p ∧ (b = true → p + n + cs.length ≤ text.length)) p := by
  intro cs
  induction cs with
  | nil => intro n _ hn; exact ⟨rfl, fun _ => hn⟩
  | cons c cs ih =>
    intro n hcs hn
    refine ⟨hn, ?_⟩
    dsimp only
    by_cases hc : (text.getD (p + n) 0#8 == c) = true
    · rw [if_pos hc]
      have hlt := lt_length_of_ne (hcs c (by simp)) (by simpa using hc)
      refine (ih (n := n + 1) (fun d hd => hcs d (List.mem_cons_of_mem c hd)) (by omega)).mono ?_
      intro b q ⟨hq, hb⟩
      refine ⟨hq, fun htrue => ?_⟩
      have := hb htrue
      rw [List.length_cons]
      omega
    · rw [if_neg hc]
      exact ⟨rfl, fun h => absurd h (by simp)⟩

variable (lib : Libc) {fuel : Nat} (hfuel : text.length < fuel) (hp : p ≤ text.length)

section Recognisers

include hp

theorem within_readFixed {w : String} (hw : ∀ c ∈ cstring w, c ≠ 0#8) (hne : cstring w ≠ [])
    (t : Token) : (readFixed w t).Within text 0#8 (Steps text p) p := by
  refine Reader.within_bind.mpr ((within_looksAt (n := 0) hw hp).mono fun b q ⟨hq, hb⟩ => ?_)
  subst hq
  cases b with
  | false => exact .none hp
  | true =>
    have hlen := List.length_pos_of_ne_nil hne
    have hle := hb rfl
    exact ⟨by omega, .some (by omega) (by omega)⟩

theorem within_readChar : readChar.Within text 0#8 (Steps text p) p := by
  refine Reader.within_bind.mpr ((within_looksAt (n := 0) (by decide) hp).mono ?_)
  intro b q ⟨hq, hb⟩
  subst hq
  cases b with
  | true =>
    have hle : q + 0 + 9 ≤ text.length := hb rfl
    exact ⟨by omega, .some (by omega) (by omega)⟩
  | false =>
    refine Reader.within_bind.mpr ((within_looksAt (n := 0) (by decide) hp).mono ?_)
    intro b q' ⟨hq, hb⟩
    subst hq
    cases b with
    | false => exact .none hp
    | true =>
      have hle : q' + 0 + 2 ≤ text.length := hb rfl
      refine ⟨by omega, ?_⟩
      dsimp only
      by_cases hgraph : isgraph (text.getD (q' + 2) 0#8) = true
      · -- NUL is not a graphical character
        have hlt : q' + 2 < text.length := by
          by_contra hge
          rw [List.getD_eq_default _ _ (Nat.not_lt.mp hge)] at hgraph
          exact absurd hgraph (by decide)
        rw [if_pos hgraph]
        exact ⟨by omega, .some (by omega) (by omega)⟩
      · rw [if_neg hgraph]
        exact .none hp

include hfuel

theorem within_readSymbol : (readSymbol lib fuel).Within text 0#8 (Steps text p) p := by
  show p ≤ text.length ∧ (if !symchar0 (text.getD p 0#8) then done none
    else _ : Reader Byte (Option Token)).Within text 0#8 (Steps text p) p
  refine ⟨hp, ?_⟩
  cases hsym : symchar0 (text.getD p 0#8) with
  | false => exact .none hp
  | true =>
    have hlt : p < text.length := by
      apply lt_length_of_ne _ rfl
      intro h
      rw [h] at hsym
      exact absurd hsym (by decide)
    have hloop : (lookWhile symchar (fun (_ : Unit) _ => ()) fuel 1 ()).Within text 0#8 _ p :=
      Reader.within_lookWhile (by decide) hlt (by omega)
    refine Reader.within_bind.mpr (hloop.mono fun r q ⟨hq, hn, hle, _, _⟩ => ?_)
    subst hq
    cases lib.malloc (r.1 + 1) with
    | false => exact .error (le_refl _) hp
    | true =>
      refine Reader.within_bind.mpr ((Reader.within_takeMany hle).mono fun _ q' hq' => ?_)
      subst hq'
      exact .some (by omega) hle

theorem within_readString : (readString lib fuel).Within text 0#8 (Steps text p) p := by
  show p ≤ text.length ∧ (if !(text.getD p 0#8 == chr '"') then done none
    else _ : Reader Byte (Option Token)).Within text 0#8 (Steps text p) p
  refine ⟨hp, ?_⟩
  by_cases hquote : text.getD p 0#8 = chr '"'
  · have hlt := lt_length_of_ne (by decide) hquote
    rw [beq_iff_eq.mpr hquote]
    refine ⟨hlt, ?_⟩
    have hloop : (lookWhile inString (fun (_ : Unit) _ => ()) fuel 0 ()).Within text 0#8 _
        (p + 1) := Reader.within_lookWhile (by decide) hlt (by omega)
    refine Reader.within_bind.mpr (hloop.mono fun r q ⟨hq, _, hle, _, _⟩ => ?_)
    subst hq
    refine ⟨hle, ?_⟩
    dsimp only
    by_cases hclosed : text.getD (p + 1 + r.1) 0#8 = chr '"'
    · -- the string is closed, so the second quote is there
      have hend := lt_length_of_ne (by decide) hclosed
      rw [if_neg (by simpa using hclosed)]
      cases lib.malloc (r.1 + 1) with
      | false => exact .error (by omega) (by omega)
      | true =>
        refine Reader.within_bind.mpr ((Reader.within_takeMany hle).mono fun _ q' hq' => ?_)
        subst hq'
        exact ⟨hend, .some (by omega) hend⟩
    · rw [if_pos (by simpa using hclosed)]
      exact ⟨by omega, by omega, fun _ h => absurd h (by simp)⟩
  · rw [if_pos (by simpa using hquote)]
    exact .none hp

omit hp in
/-- Digits are looked at up to the first character behind them. -/
theorem within_readDigits {c : Byte → Bool} (hnul : c 0#8 = false) {base : UINT}
    {value : Byte → UINT} {n : Nat} (hn : p + n ≤ text.length) :
    (readDigits fuel c base value n).Within text 0#8
      (fun r q => q = p ∧ n ≤ r.1 ∧ p + r.1 ≤ text.length) p :=
  (Reader.within_lookWhile hnul hn (by omega)).mono fun _ _ ⟨hq, hr, hle, _, _⟩ => ⟨hq, hr, hle⟩

theorem within_readi : (readi fuel).Within text 0#8 (Steps text p) p := by
  refine Reader.within_bind.mpr ((within_readDigits hfuel (by decide) hp).mono ?_)
  intro r q ⟨hq, _, hle⟩
  subst hq
  refine ⟨hle, ?_⟩
  dsimp only
  by_cases hother : (cstring "Uu.I").contains (text.getD (q + r.1) 0#8) = true
  · rw [if_pos hother]
    exact .none hp
  · rw [if_neg hother]
    by_cases hnone : r.1 = 0
    · rw [if_pos hnone]
      exact .none hp
    · rw [if_neg hnone]
      exact ⟨hle, .some (by omega) hle⟩

theorem within_readSuffixed {w : String} (hw : ∀ c ∈ cstring w, c ≠ 0#8) (hne : cstring w ≠ [])
    (t : UINT → Token) : (readSuffixed fuel w t).Within text 0#8 (Steps text p) p := by
  refine Reader.within_bind.mpr ((within_readDigits hfuel (by decide) hp).mono ?_)
  intro r q ⟨hq, _, hle⟩
  subst hq
  refine Reader.within_bind.mpr ((within_looksAt hw hle).mono fun b q' ⟨hq, hb⟩ => ?_)
  subst hq
  cases b with
  | false => exact .none hp
  | true =>
    have hlen := List.length_pos_of_ne_nil hne
    have hend := hb rfl
    exact ⟨by omega, .some (by omega) (by omega)⟩

theorem within_readU : (readU fuel).Within text 0#8 (Steps text p) p := by
  have hdecimal := within_readSuffixed hfuel hp (w := "u32") (by decide) (by decide) .boxedUint
  show p ≤ text.length ∧ (if text.getD p 0#8 == chr '0' then _ else readSuffixed fuel "u32" _
    : Reader Byte (Option Token)).Within text 0#8 (Steps text p) p
  refine ⟨hp, ?_⟩
  by_cases hzero : text.getD p 0#8 = chr '0'
  · have hlt := lt_length_of_ne (by decide) hzero
    rw [if_pos (by simpa using hzero)]
    refine ⟨hlt, ?_⟩
    dsimp only
    by_cases hx : (text.getD (p + 1) 0#8 == chr 'x' || text.getD (p + 1) 0#8 == chr 'X') = true
    · have hend : p + 1 < text.length := by
        apply lt_length_of_ne _ rfl
        intro h
        rw [h] at hx
        exact absurd hx (by decide)
      rw [if_pos hx]
      refine Reader.within_bind.mpr ((within_readDigits hfuel (by decide) hend).mono ?_)
      intro r q ⟨hq, hn, hle⟩
      subst hq
      exact ⟨hle, .some (by omega) hle⟩
    · rw [if_neg hx]
      exact hdecimal
  · rw [if_neg (by simpa using hzero)]
    exact hdecimal

theorem within_readF : (readF lib fuel).Within text 0#8 (Steps text p) p := by
  have hloop : ∀ {n : Nat}, p + n ≤ text.length →
      (lookWhile isDigit (fun (_ : Unit) _ => ()) fuel n ()).Within text 0#8
        (fun r q => q = p ∧ n ≤ r.1 ∧ p + r.1 ≤ text.length) p := fun hn =>
    (Reader.within_lookWhile (by decide) hn (by omega)).mono
      fun _ _ ⟨hq, hr, hle, _, _⟩ => ⟨hq, hr, hle⟩
  refine Reader.within_bind.mpr ((hloop (n := 0) hp).mono fun r q ⟨hq, _, hle⟩ => ?_)
  subst hq
  refine ⟨hle, ?_⟩
  dsimp only
  by_cases hdot : text.getD (q + r.1) 0#8 = chr '.'
  · have hlt := lt_length_of_ne (by decide) hdot
    rw [if_neg (by simpa using hdot)]
    refine ⟨hlt, ?_⟩
    dsimp only
    cases isDigit (text.getD (q + (r.1 + 1)) 0#8) with
    | false => exact .none hp
    | true =>
      refine Reader.within_bind.mpr ((hloop (n := r.1 + 1) hlt).mono fun r' q' ⟨hq, hn, hle⟩ => ?_)
      subst hq
      -- not all of a long number is taken, but some of it is
      have hmin : min r'.1 255 ≤ r'.1 := Nat.min_le_left _ _
      have hpos : 0 < min r'.1 255 := Nat.lt_min.mpr ⟨by omega, by decide⟩
      refine Reader.within_bind.mpr ((Reader.within_takeMany (by omega)).mono fun _ q hq => ?_)
      subst hq
      exact .some (by omega) (by omega)
  · rw [if_pos (by simpa using hdot)]
    exact .none hp

end Recognisers

/-! ## Tokens -/

/-- A comment ends at the newline or at the NUL. -/
theorem within_readComment : ∀ {n p : Nat}, p ≤ text.length → text.length - p < n →
    (readComment n).Within text 0#8 (fun _ q => p ≤ q ∧ q ≤ text.length
      ∧ (p < text.length → text.getD p 0#8 ≠ chr '\n' → p < q)) p := by
  intro n
  induction n with
  | zero => intro p _ hn; exact absurd hn (Nat.not_lt_zero _)
  | succ n ih =>
    intro p hp hn
    refine ⟨hp, ?_⟩
    dsimp only
    by_cases hlt : p < text.length
    · rw [if_pos (by simpa using hlt)]
      refine ⟨hp, ?_⟩
      dsimp only
      by_cases hline : text.getD (p + 0) 0#8 = chr '\n'
      · rw [if_neg (by simpa using hline)]
        exact ⟨le_refl p, hp, fun _ h => absurd hline h⟩
      · rw [if_pos (by simpa using hline)]
        refine ⟨hlt, (ih hlt (by omega)).mono fun _ q ⟨hq, hle, _⟩ => ?_⟩
        exact ⟨by omega, hle, fun _ _ => by omega⟩
    · rw [if_neg (by simpa using hlt)]
      exact ⟨le_refl p, hp, fun h => absurd h hlt⟩

/-- White space and comments end, because each takes a character. -/
theorem within_readBlanks (hfuel : text.length < fuel) : ∀ {n p : Nat}, p ≤ text.length →
    text.length - p < n →
    (readBlanks fuel n).Within text 0#8 (fun _ q => p ≤ q ∧ q ≤ text.length) p := by
  intro n
  induction n with
  | zero => intro p _ hn; exact absurd hn (Nat.not_lt_zero _)
  | succ n ih =>
    intro p hp hn
    show p ≤ text.length ∧ (if text.getD p 0#8 == chr ';' then _
      else if isspace (text.getD p 0#8) then _ else done () : Reader Byte Unit).Within text 0#8 _ p
    refine ⟨hp, ?_⟩
    by_cases hcomment : text.getD p 0#8 = chr ';'
    · have hlt := lt_length_of_ne (by decide) hcomment
      have hline : text.getD p 0#8 ≠ chr '\n' := by
        rw [hcomment]
        decide
      rw [if_pos (by simpa using hcomment)]
      refine Reader.within_bind.mpr ((within_readComment hp (by omega)).mono ?_)
      intro _ q ⟨_, hle, hq⟩
      have hpq := hq hlt hline
      exact (ih hle (by omega)).mono fun _ _ ⟨hq, hle⟩ => ⟨by omega, hle⟩
    · rw [if_neg (by simpa using hcomment)]
      by_cases hspace : isspace (text.getD p 0#8) = true
      · have hlt : p < text.length := by
          apply lt_length_of_ne _ rfl
          intro h
          rw [h] at hspace
          exact absurd hspace (by decide)
        rw [if_pos hspace]
        exact ⟨hlt, (ih hlt (by omega)).mono fun _ _ ⟨hq, hle⟩ => ⟨by omega, hle⟩⟩
      · rw [if_neg hspace]
        exact ⟨le_refl p, hp⟩

/-- The recognisers after one that has found nothing go on where it stopped. -/
theorem Steps.trans {q q' : Nat} {r : Option Token} (h : Steps text p Option.none q)
    (h' : Steps text q r q') : Steps text p r q' :=
  ⟨h.le.trans h'.le, h'.inside, fun t hr ht => lt_of_le_of_lt h.le (h'.advances t hr ht)⟩

theorem within_readFirst : ∀ {rs : List (Reader Byte (Option Token))} {p : Nat},
    (∀ r ∈ rs, ∀ {p}, p ≤ text.length → r.Within text 0#8 (Steps text p) p) → p ≤ text.length →
    (readFirst rs).Within text 0#8 (fun t => Steps text p (some t)) p := by
  intro rs
  induction rs with
  | nil => intro p _ hp; exact .error (le_refl p) hp
  | cons r rs ih =>
    intro p hrs hp
    refine Reader.within_bind.mpr ((hrs r (by simp) hp).mono fun t q hstep => ?_)
    cases t with
    | some t => exact hstep
    | none =>
      have hrest := ih (fun r hr => hrs r (List.mem_cons_of_mem _ hr)) hstep.inside
      exact hrest.mono fun t q' h => hstep.trans h

theorem within_readers (hfuel : text.length < fuel) : ∀ r ∈ readers lib fuel, ∀ {p : Nat},
    p ≤ text.length → r.Within text 0#8 (Steps text p) p := by
  intro r hr p hp
  simp only [readers, List.mem_cons, List.not_mem_nil, or_false] at hr
  rcases hr with h | h | h | h | h | h | h | h | h | h | h | h | h | h <;> subst h
  · exact within_readFixed hp (by decide) (by decide) _
  · exact within_readFixed hp (by decide) (by decide) _
  · exact within_readFixed hp (by decide) (by decide) _
  · exact within_readFixed hp (by decide) (by decide) _
  · exact within_readFixed hp (by decide) (by decide) _
  · exact within_readFixed hp (by decide) (by decide) _
  · exact within_readSymbol lib hfuel hp
  · exact within_readChar hp
  · exact within_readString lib hfuel hp
  · exact within_readF lib hfuel hp
  · exact within_readU hfuel hp
  · exact within_readSuffixed hfuel hp (by decide) (by decide) _
  · exact within_readSuffixed hfuel hp (by decide) (by decide) _
  · exact within_readi hfuel hp

/-- **A token is read within the string.** -/
theorem within_readToken (hfuel : text.length < fuel) (hp : p ≤ text.length) :
    (readToken lib fuel).Within text 0#8 (fun t => Steps text p (some t)) p := by
  have heof : ∀ {q : Nat}, p ≤ q → q ≤ text.length → Steps text p (some .eof) q :=
    fun hpq hq => ⟨hpq, hq, fun t h ht => by
      cases Option.some.inj h
      exact absurd ht (by simp [Token.isEnd])⟩
  refine ⟨hp, ?_⟩
  dsimp only
  cases decide (p < text.length) with
  | false => exact heof (le_refl p) hp
  | true =>
    refine Reader.within_bind.mpr ((within_readBlanks hfuel hp (by omega)).mono ?_)
    intro _ q hpq
    obtain ⟨hpq, hq⟩ := hpq
    refine ⟨hq, ?_⟩
    dsimp only
    cases decide (q < text.length) with
    | false => exact heof hpq hq
    | true =>
      refine (within_readFirst (within_readers lib hfuel) hq).mono fun t q' hstep => ?_
      exact ⟨hpq.trans hstep.le, hstep.inside,
        fun t ht hend => lt_of_le_of_lt hpq (hstep.advances t ht hend)⟩

end Within

end Tokpar

end LispBM
