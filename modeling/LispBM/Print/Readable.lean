import LispBM.Fundamental.Encodings
import LispBM.Print.Rendering
import LispBM.Symrepr.Intern
import LispBM.Tokpar.Sexp

/-!
# LispBM — printing expressions

Symbols, numbers of 28 bits, characters, strings and lists of these are printed as a text that says
what they are, `Sexp.text`. If the lists are not nested too deep for the stack of `print_value` and
the text fits the buffer, the whole of it is printed.

* `render_readable` — the rendering of an expression is its text;
* `printValue_readable` — the text is in the buffer afterwards.
-/

namespace LispBM

namespace Tokpar

open Compression (chr)
open BitBuffer (Byte)
open Print (Buffer PrintState printStep printLoop printValue Task restTasks Printed atomText render
  renderRest HoldsString)

/-! ## Expressions that say what they are -/

/-- A text that is the name of a symbol: the characters of names, in lower case. -/
structure IsName (text : List Byte) : Prop where
  begins : symchar0 (text.headD 0#8) = true
  chars : ∀ c ∈ text, symchar c = true
  lower : text.map tolower = text

namespace Sexp

/-- Expressions that can be printed and read. -/
inductive Readable : Sexp → Prop where
  | int {i : UINT} (hi : i.toNat < 2 ^ 27) : Readable (.atom (encI i))
  | char {c : Byte} (hc : isgraph c = true) : Readable (.atom (encChar c))
  | special {text : List Byte} {id : UINT} (hname : IsName text) (hid : specialId text = some id) :
      Readable (.sym id)
  | name {text : List Byte} (hname : IsName text) (hid : specialId text = none) :
      Readable (.name text)
  | string {text : List Byte} (hchars : ∀ c ∈ text, c ≠ 0#8 ∧ c ≠ chr '"') :
      Readable (.string text)
  | pair {a d : Sexp} (ha : Readable a) (hd : Readable d) (hlist : d.isPair = true ∨ d = nil) :
      Readable (.pair a d)

/-- The text of a value without a cell. -/
def atomChars (v : VALUE) : List Byte :=
  if typeOf v == valTypeSymbol then (specialName (decSym v)).getD []
  else if typeOf v == valTypeI then Print.formatD (decI v)
  else cstring "\\#" ++ [decChar v]

mutual

/-- The text of an expression. -/
def text : Sexp → List Byte
  | atom v => atomChars v
  | name text => text
  | boxed _ _ => []
  | string text => cstring "\"" ++ text ++ cstring "\""
  | pair a d => cstring "(" ++ (a.text ++ d.restText)

/-- The text of the rest of a list. -/
def restText : Sexp → List Byte
  | pair a d => cstring " " ++ (a.text ++ d.restText)
  | _ => cstring ")"

end

/-- How deep lists are nested. -/
def nest : Sexp → Nat
  | pair a d => max (a.nest + 1) d.nest
  | _ => 0

end Sexp

variable {n : Nat} {w : World n} {v : VALUE} {e a d : Sexp}

/-! ### Atoms -/

theorem toInt_of_lt {i : UINT} (hi : i.toNat < 2 ^ 27) : i.toInt = i.toNat := by
  rw [BitVec.toInt_eq_toNat_of_lt (by omega)]

theorem typeOf_encI (i : UINT) : typeOf (encI i) = valTypeI := typeOf_shift i (by decide)

theorem typeOf_encChar (c : Byte) : typeOf (encChar c) = valTypeChar := typeOf_shift _ (by decide)

theorem findId_symbolId {names newer older : List (List Byte)} {text : List Byte}
    (hnames : names = newer ++ text :: older) (hlen : 5 * names.length ≤ 2 ^ 30) :
    findId (symbolId older.length) names = some text := by
  subst hnames
  induction newer with
  | nil => rw [List.nil_append, findId, if_pos rfl]
  | cons t ts ih =>
    rw [List.length_append, List.length_cons, List.length_cons] at hlen
    rw [List.cons_append, findId, if_neg, ih (by rw [List.length_append, List.length_cons]; omega)]
    intro heq
    have hlt := symbolId_inj (by omega) (by rw [List.length_append, List.length_cons]; omega) heq
    rw [List.length_append, List.length_cons] at hlt
    omega

/-- **The text of an atom** is what is printed for it. -/
theorem atomText_readable (formatF : UINT → List Byte) (h : Encodes w v e) (he : e.Readable)
    (hp : e.isPair = false) :
    atomText formatF w.st.heap w.st.symtab v = some (.ok e.text) := by
  have haddr := w.holds.represents.addressable
  have hnames := w.table.five_mul_length_le
  cases he with
  | int hi =>
    cases h with
    | atom hv =>
      unfold atomText
      rw [Sexp.text, Sexp.atomChars, typeOf_encI]
      rfl
  | char hc =>
    cases h with
    | atom hv =>
      unfold atomText
      rw [Sexp.text, Sexp.atomChars, typeOf_encChar]
      rfl
  | @special text id hname hid =>
    have hlt := specialId_lt hid
    have hlt' : id.toNat < 4096 := hlt
    have hspecial := (specialId_iff_specialName text id).mp hid
    cases h with
    | atom hv =>
      have hlookup := symreprLookupName_eq w.holds w.table id
      rw [hspecial] at hlookup
      have htext : (Sexp.sym id).text = Sexp.atomChars (encSym id) := rfl
      unfold atomText
      rw [htext, Sexp.atomChars, typeOf_encSym, decSym_encSym (by omega), hlookup, hspecial]
      rfl
  | @name text hname hid =>
    cases h with
    | @name newer older _ hmem =>
      obtain ⟨hid, hsmall⟩ := World.toNat_symbolId hmem
      have hlookup := symreprLookupName_eq w.holds w.table (symbolId older.length)
      have hspecial : specialName (symbolId older.length) = none := by
        rw [specialName, if_neg]
        intro hlt
        have hlt' : (symbolId older.length).toNat < 4096 := hlt
        omega
      rw [hspecial, findId_symbolId hmem (by omega)] at hlookup
      unfold atomText
      rw [typeOf_encSym, decSym_encSym (by omega), hlookup]
      rfl
  | @string text hchars =>
    cases h with
    | @string _ i b _ hp hi hb htext =>
      have hfits := htext.fits
      have hlast := w.holds.lt_length hb (i := b.start + b.len - 1) (by have := b.pos; omega)
      have hcar : car w.st.heap v = byteAddr w.memory (4 * b.start) := by
        rw [car_of_isPtr hp.isPtr, hp.ptrIx]
        exact congrArg ConsCell.car hi.cell
      have hword := w.holds.region.readWord_byteAddr (i := b.start) (by omega)
      have hread := w.holds.region.readCString_byteAddr (k := 4 * (b.start + 2)) (by omega)
        htext.text.noNul htext.text.bytes htext.text.nul
      have haddr' : byteAddr w.memory (4 * b.start) + 8#32
          = byteAddr w.memory (4 * (b.start + 2)) := byteAddr_add w.memory (4 * b.start) 8
      rw [show wordAt w.st.heap.memory b.start = valTypeChar from htext.type] at hword
      unfold atomText
      rw [hp.typeOf, hcar, haddr']
      simp only [World.memory, hword, hread]
      rfl
  | pair _ _ _ => exact absurd hp (by simp [Sexp.isPair])

/-! ### The rendering -/

theorem isNil_of_encodes (h : Encodes w v e) (he : e = .nil) : Print.isNil v = true := by
  have hnil := h.isSymbolOf_eq (s := symreprNil) (by decide)
  rw [he] at hnil
  exact hnil

/-- **The rendering of an expression** is its text, as soon as it is deep enough. -/
theorem render_readable (formatF : UINT → List Byte) : ∀ {e : Sexp} {v : VALUE} {k : Nat},
    Encodes w v e → e.Readable → e.depth < k →
    render formatF w.st.heap w.st.symtab k v = Draft.whole e.text
      ∧ (e.isPair = true ∨ e = .nil →
        renderRest formatF w.st.heap w.st.symtab k v = Draft.whole e.restText) := by
  intro e
  induction e with
  | pair a d iha ihd =>
    intro v k h he hk
    obtain ⟨k, rfl⟩ := Nat.exists_eq_succ_of_ne_zero (Nat.ne_of_gt (Nat.zero_lt_of_lt hk))
    have hmax : max a.depth d.depth < k := Nat.lt_of_succ_lt_succ hk
    obtain ⟨-, -, ha, hd⟩ := h.pair_inv
    have hcons : (typeOf v == ptrTypeCons) = true := h.typeOf_eq_cons
    cases he with
    | pair hra hrd hlist =>
      have hcar := (iha ha hra (by omega : a.depth < k)).1
      have hcdr := (ihd hd hrd (by omega : d.depth < k)).2 hlist
      simp only [World.heap] at hcar hcdr
      refine ⟨?_, fun _ => ?_⟩
      · rw [render, hcons, if_pos rfl, hcar, hcdr]
        rfl
      · rw [renderRest, hcons, if_pos rfl, hcar, hcdr]
        rfl
  | _ =>
    intro v k h he hk
    obtain ⟨k, rfl⟩ := Nat.exists_eq_succ_of_ne_zero (Nat.ne_of_gt hk)
    have hcons : (typeOf v == ptrTypeCons) = false := h.typeOf_eq_cons
    refine ⟨?_, fun hlist => ?_⟩
    · rw [render, hcons, atomText_readable formatF h he rfl]
      rfl
    · obtain hp | hnil := hlist
      · exact absurd hp (by simp [Sexp.isPair])
      · rw [renderRest, hcons, isNil_of_encodes h hnil]
        rfl

/-! ## The loop -/

section Loop

variable {formatF : UINT → List Byte} {h : HeapState} {st : SymbolTable} {len : Nat}
  {s s' s'' : PrintState} {words more : List UINT} {text text' : List Byte} {room room' : Nat}

/-- Some iterations lead from `s` to `s'`. -/
def Passes (formatF : UINT → List Byte) (h : HeapState) (st : SymbolTable) (len : Nat)
    (s s' : PrintState) : Prop :=
  ∃ j, ∀ k, printLoop formatF h st len (k + j) s = printLoop formatF h st len k s'

theorem Passes.trans (h₁ : Passes formatF h st len s s') (h₂ : Passes formatF h st len s' s'') :
    Passes formatF h st len s s'' := by
  obtain ⟨i, hi⟩ := h₁
  obtain ⟨j, hj⟩ := h₂
  refine ⟨j + i, fun k => ?_⟩
  rw [← Nat.add_assoc, hi, hj]

theorem Passes.step (hne : s.stack ≠ []) (hroom : s.offset + 5 ≤ len)
    (hstep : printStep formatF h st len s = .next s') : Passes formatF h st len s s' := by
  refine ⟨1, fun k => ?_⟩
  have hguard : (!s.stack.isEmpty && decide (s.offset + 5 ≤ len)) = true := by
    rw [decide_eq_true hroom, Bool.and_true, Bool.not_eq_true', List.isEmpty_eq_false_iff]
    exact hne
  rw [printLoop, hguard, hstep]
  rfl

/-- The words on top of the stack are worked off, which prints the text, if there are `room` places
on the stack. -/
def Emits (formatF : UINT → List Byte) (h : HeapState) (st : SymbolTable) (len : Nat)
    (words : List UINT) (text : List Byte) (room : Nat) : Prop :=
  ∀ (s : PrintState) (below : List UINT), s.stack = words ++ below →
    below.length + room ≤ Print.printStackSize → s.offset + text.length + 5 ≤ len →
    ∃ s', Passes formatF h st len s s' ∧ s'.stack = below ∧ s'.offset = s.offset + text.length

theorem Emits.append (h₁ : Emits formatF h st len words text room)
    (h₂ : Emits formatF h st len more text' room') :
    Emits formatF h st len (words ++ more) (text ++ text') (max (more.length + room) room') := by
  intro s below hstack hroom hlen
  rw [List.length_append] at hlen
  rw [List.append_assoc] at hstack
  have hplaces : (more ++ below).length + room ≤ Print.printStackSize := by
    rw [List.length_append]
    omega
  obtain ⟨s₁, hpass₁, hstack₁, hoffset₁⟩ := h₁ _ _ hstack hplaces (by omega)
  obtain ⟨s₂, hpass₂, hstack₂, hoffset₂⟩ := h₂ _ _ hstack₁ (by omega) (by omega)
  refine ⟨s₂, hpass₁.trans hpass₂, hstack₂, ?_⟩
  rw [hoffset₂, hoffset₁, List.length_append, Nat.add_assoc]

theorem Emits.mono (hemits : Emits formatF h st len words text room) (hle : room ≤ room') :
    Emits formatF h st len words text room' :=
  fun s below hstack hroom hlen => hemits s below hstack (by omega) hlen

/-- Pushes do what they should if there are places for them. -/
theorem pushes_of_room {vs : List UINT}
    (hroom : s.stack.length + vs.length ≤ Print.printStackSize) :
    Print.pushes s vs = .next { s with stack := vs.reverse ++ s.stack } := by
  have hfold : ∀ {vs stack : List UINT}, stack.length + vs.length ≤ Print.printStackSize →
      vs.foldl Print.push (true, stack) = (true, vs.reverse ++ stack) := by
    intro vs
    induction vs with
    | nil => exact fun _ => rfl
    | cons v vs ih =>
      intro stack hlen
      rw [List.length_cons] at hlen
      have hpush : Print.push (true, stack) v = (true, v :: stack) := by
        rw [Print.push, if_neg (by simp only; omega)]
      rw [List.foldl_cons, hpush, ih (by rw [List.length_cons]; omega), List.reverse_cons,
        List.append_assoc]
      rfl
  unfold Print.pushes
  rw [hfold hroom]
  rfl

/-- An atom is printed in one iteration. -/
theorem Emits.atom (hcons : (typeOf v == ptrTypeCons) = false)
    (hatom : atomText formatF h st v = some (.ok text)) :
    Emits formatF h st len [Print.print, v] text 0 := by
  intro s below hstack _ hlen
  have hstep := @Print.printStep_value formatF h st len s v below hstack
  rw [hcons, hatom] at hstep
  exact ⟨_, .step (by rw [hstack]; simp) (by omega) hstep, rfl, rfl⟩

/-- The parenthesis at the end of a list. -/
theorem Emits.close : Emits formatF h st len [Print.endList] (cstring ")") 0 := by
  intro s below hstack _ hlen
  have hstep : printStep formatF h st len s
      = .next (Print.out len (cstring ")") { s with stack := below }) := by
    rw [printStep, hstack]
    rfl
  exact ⟨_, .step (by rw [hstack]; simp) (by omega) hstep, rfl, rfl⟩

/-- A cell is taken apart, after a parenthesis or a space. -/
theorem Emits.cell {first : Bool} (hcons : typeOf v = ptrTypeCons)
    (hparts : Emits formatF h st len (Print.cellInstrs h v).reverse text room) :
    Emits formatF h st len (Task.words (.cell first v)) (Print.opening first ++ text)
      (max (Print.cellInstrs h v).length room) := by
  intro s below hstack hroom hlen
  rw [List.length_append] at hlen
  have hstep := @Print.printStep_cell formatF h st len s first v below hcons hstack
  rw [pushes_of_room (by show below.length + _ ≤ _; omega)] at hstep
  obtain ⟨s', hpass, hstack', hoffset⟩ := hparts { Print.out len (Print.opening first)
    { s with stack := below } with stack := (Print.cellInstrs h v).reverse ++ below } below rfl
    (by omega) (by show s.offset + (Print.opening first).length + text.length + 5 ≤ len; omega)
  have hne : s.stack ≠ [] := by
    rw [hstack]
    cases first <;> exact List.cons_ne_nil _ _
  refine ⟨s', (Passes.step hne (by omega) hstep).trans hpass, hstack', ?_⟩
  rw [hoffset, List.length_append, ← Nat.add_assoc]
  rfl

/-- A list is taken up. -/
theorem Emits.list (hcons : typeOf v = ptrTypeCons)
    (hcell : Emits formatF h st len (Task.words (.cell true v)) text room) :
    Emits formatF h st len [Print.print, v] text (max 2 room) := by
  intro s below hstack hroom hlen
  have hstep := @Print.printStep_value formatF h st len s v below hstack
  rw [beq_iff_eq.mpr hcons, if_pos rfl,
    pushes_of_room (by show below.length + 2 ≤ _; omega)] at hstep
  obtain ⟨s', hpass, hstack', hoffset⟩ :=
    hcell { s with stack := [Print.startList, v] ++ below } below rfl (by omega) hlen
  exact ⟨s', (Passes.step (by rw [hstack]; simp) (by omega) hstep).trans hpass, hstack', hoffset⟩

theorem printLoop_mono {j : Nat} {r : Print.Step} : ∀ {k : Nat} {s : PrintState},
    printLoop formatF h st len k s = some r → printLoop formatF h st len (k + j) s = some r := by
  intro k
  induction k with
  | zero => exact fun hrun => absurd hrun (by simp [printLoop])
  | succ k ih =>
    intro s hrun
    rw [Nat.succ_add, printLoop]
    rw [printLoop] at hrun
    split at hrun
    · next hguard =>
      rw [if_pos hguard]
      cases hstep : printStep formatF h st len s with
      | next s' =>
        rw [hstep] at hrun
        exact ih hrun
      | error message s' =>
        rw [hstep] at hrun
        exact hrun
      | undefined s' =>
        rw [hstep] at hrun
        exact hrun
    · next hguard =>
      rw [if_neg hguard]
      exact hrun

end Loop

/-- The words for the rest of a list. -/
theorem restTasks_words (h : Encodes w v e) (hlist : e.isPair = true ∨ e = .nil) :
    (restTasks v).flatMap Task.words
      = if e.isPair then Task.words (.cell false v) else [Print.endList] := by
  unfold restTasks
  cases hp : e.isPair with
  | true =>
    rw [show (typeOf v == ptrTypeCons) = true from h.typeOf_eq_cons.trans hp]
    rfl
  | false =>
    obtain hp' | hnil := hlist
    · rw [hp] at hp'
      exact absurd hp' (by decide)
    · rw [show (typeOf v == ptrTypeCons) = false from h.typeOf_eq_cons.trans hp,
        isNil_of_encodes h hnil]
      rfl

/-- **An expression is printed**, if there are two places on the stack for each level of lists and
two more. The induction is on the expression: the car of a cell is printed above the word for the
rest of the list. -/
theorem emits_readable (formatF : UINT → List Byte) (len : Nat) : ∀ {e : Sexp} {v : VALUE},
    Encodes w v e → e.Readable →
    Emits formatF w.st.heap w.st.symtab len [Print.print, v] e.text (2 * e.nest + 2)
      ∧ (e.isPair = true ∨ e = .nil → Emits formatF w.st.heap w.st.symtab len
          ((restTasks v).flatMap Task.words) e.restText (2 * e.nest + 2)) := by
  intro e
  induction e with
  | pair a d iha ihd =>
    intro v h he
    obtain ⟨-, -, ha, hd⟩ := h.pair_inv
    have hcons : typeOf v = ptrTypeCons := beq_iff_eq.mp h.typeOf_eq_cons
    cases he with
    | pair hra hrd hlist =>
      have hcar := (iha ha hra).1
      have hcdr := (ihd hd hrd).2 hlist
      have hwords := restTasks_words hd hlist
      have hshort : ((restTasks (cdr w.st.heap v)).flatMap Task.words).length ≤ 2 := by
        rw [show cdr w.st.heap v = cdr w.heap v from rfl, hwords]
        split <;> simp [Task.words]
      have hparts := hcar.append hcdr
      have hinstrs := Print.cellInstrs_reverse w.st.heap v []
      rw [List.flatMap_nil, List.append_nil, List.append_nil, List.flatMap_cons] at hinstrs
      have hlength : (Print.cellInstrs w.st.heap v).length
          = 2 + ((restTasks (cdr w.st.heap v)).flatMap Task.words).length := by
        rw [← List.length_reverse, hinstrs, List.length_append]
        rfl
      have hcell : ∀ first, Emits formatF w.st.heap w.st.symtab len (Task.words (.cell first v))
          (Print.opening first ++ (a.text ++ d.restText)) (2 * (Sexp.pair a d).nest + 2) := by
        intro first
        have hnest : (Sexp.pair a d).nest = max (a.nest + 1) d.nest := rfl
        refine (Emits.cell hcons (hinstrs ▸ hparts)).mono ?_
        rw [hlength, hnest]
        simp only [World.heap] at hshort ⊢
        omega
      refine ⟨((hcell true).list hcons).mono (by omega), fun _ => ?_⟩
      rw [restTasks_words h (.inl rfl)]
      exact hcell false
  | _ =>
    intro v h he
    have hcons : (typeOf v == ptrTypeCons) = false := h.typeOf_eq_cons
    refine ⟨(Emits.atom hcons (atomText_readable formatF h he rfl)).mono (Nat.zero_le _), ?_⟩
    intro hlist
    rw [restTasks_words h hlist]
    exact Emits.close.mono (Nat.zero_le _)

/-- **Printing an expression.** If its lists are nested at most 127 deep and its text is at least
five bytes shorter than the buffer, all of the text is in the buffer afterwards. -/
theorem printValue_readable (formatF : UINT → List Byte) (h : Encodes w v e) (he : e.Readable)
    (hnest : e.nest ≤ 127) {len : Nat} (hlen : e.text.length + 5 ≤ len) (buf : Buffer) :
    ∃ res buf', printValue formatF w.st.heap w.st.symtab buf len v = some (.whole res buf')
      ∧ HoldsString buf' e.text := by
  obtain ⟨r, hrun, hprints⟩ := Print.printValue_spec formatF w.st.heap w.st.symtab v buf
    (show 5 ≤ len by omega)
  have hroom : ([] : List UINT).length + (2 * e.nest + 2) ≤ Print.printStackSize := by
    show 0 + (2 * e.nest + 2) ≤ 256
    omega
  obtain ⟨s', ⟨j, hpass⟩, hstack, hoffset⟩ := (emits_readable formatF len h he).1
    ⟨[Print.print, v], buf, 0, 0⟩ [] rfl hroom (by show 0 + _ + 5 ≤ _; omega)
  -- after the iterations for the expression the stack is empty
  have hstop : printLoop formatF w.st.heap w.st.symtab len (1 + j) ⟨[Print.print, v], buf, 0, 0⟩
      = some (.next s') := by
    rw [hpass 1, printLoop, hstack]
    rfl
  obtain ⟨step, hloop, hfinish⟩ := Option.map_eq_some_iff.mp hrun
  have hstep : step = .next s' := by
    have h₁ := @printLoop_mono formatF w.st.heap w.st.symtab len (1 + j) step _ _ hloop
    have h₂ := @printLoop_mono formatF w.st.heap w.st.symtab len (8 * len + 16) _ _ _ hstop
    rw [Nat.add_comm] at h₁
    exact Option.some.inj (h₁.symm.trans h₂)
  subst hstep
  have hr : r = .whole s'.n s'.buf := by
    rw [← hfinish]
    show (if s'.stack.isEmpty then _ else _) = _
    rw [hstack]
    rfl
  subst hr
  refine ⟨_, _, hrun, ?_⟩
  cases hprints with
  | whole hb htext hbuf =>
    have hrender := (render_readable formatF h he (Nat.lt_succ_self _)).1
    obtain rfl := (htext e.text).mp ⟨_, hrender⟩
    rw [List.take_of_length_le (by omega)] at hbuf
    exact hbuf

end Tokpar

end LispBM
