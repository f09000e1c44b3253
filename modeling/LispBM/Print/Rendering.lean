import LispBM.Lib.Draft
import LispBM.Print
import Mathlib.Data.List.GetD

/-!
# LispBM — what `print_value` prints

The rendering of a value is a text that has no end if the value goes around in a circle. `render`
gives it down to a depth. The work stack of `print_value` holds what is still to be rendered, so
that the text in the buffer and the renderings on the stack make up the rendering of the value.

* `printStep_shows` — what an iteration does to the buffer and to the stack;
* `printLoop_ends` — the loop ends, because there is more text with every two iterations;
* `printValue_spec` — what is in the buffer afterwards.
-/

namespace LispBM

namespace Print

open Draft (whole blank)

section

variable (formatF : UINT → List Byte) (h : HeapState) (st : SymbolTable)

/-! ## The rendering -/

def isNil (v : VALUE) : Bool := typeOf v == valTypeSymbol && decSym v == symreprNil

mutual

/-- The rendering of a value down to a depth. An improper list has its last cdr as one more
element. -/
def render : Nat → VALUE → Draft Byte
  | 0, _ => blank
  | n + 1, v =>
      if typeOf v == ptrTypeCons then
        (whole (cstring "(")).append ((render n (car h v)).append (renderRest n (cdr h v)))
      else
        match atomText formatF h st v with
        | some (.ok text) => whole text
        | _ => blank

/-- The rendering of the rest of a list, with the parenthesis. -/
def renderRest : Nat → VALUE → Draft Byte
  | 0, _ => blank
  | n + 1, d =>
      if typeOf d == ptrTypeCons then
        (whole (cstring " ")).append ((render n (car h d)).append (renderRest n (cdr h d)))
      else if isNil d then whole (cstring ")")
      else (whole (cstring " ")).append ((render n d).append (whole (cstring ")")))

end

theorem render_grows_aux : ∀ n, (∀ v, (render formatF h st n v).Le (render formatF h st (n + 1) v))
    ∧ ∀ d, (renderRest formatF h st n d).Le (renderRest formatF h st (n + 1) d) := by
  intro n
  induction n with
  | zero => exact ⟨fun _ => Draft.blank_le _, fun _ => Draft.blank_le _⟩
  | succ n ih =>
    obtain ⟨hvalue, hrest⟩ := ih
    refine ⟨fun v => ?_, fun d => ?_⟩
    · rw [render, render]
      split
      · exact Draft.append_mono (.refl _) (Draft.append_mono (hvalue _) (hrest _))
      · exact .refl _
    · rw [renderRest, renderRest]
      split
      · exact Draft.append_mono (.refl _) (Draft.append_mono (hvalue _) (hrest _))
      · split
        · exact .refl _
        · exact Draft.append_mono (.refl _) (Draft.append_mono (hvalue _) (.refl _))

/-- Deeper renderings say more. -/
theorem render_grows (v : VALUE) : Draft.Grows fun n => render formatF h st n v :=
  fun n => (render_grows_aux formatF h st n).1 v

/-! ## The stack as renderings -/

/-- What the stack asks for: a value, a space, a cell of a list, or a parenthesis. -/
inductive Task where
  | value (v : VALUE)
  | space
  | cell (first : Bool) (v : VALUE)
  | close

/-- The words of a task on the stack. -/
def Task.words : Task → List UINT
  | .value v => [print, v]
  | .space => [printSpace]
  | .cell true v => [startList, v]
  | .cell false v => [continueList, v]
  | .close => [endList]

/-- What is printed before the first or another element of a list. -/
def opening (first : Bool) : List Byte := if first then cstring "(" else cstring " "

def Task.draft (n : Nat) : Task → Draft Byte
  | .value v => render formatF h st n v
  | .space => whole (cstring " ")
  | .cell first v => (whole (opening first)).append
      ((render formatF h st n (car h v)).append (renderRest formatF h st n (cdr h v)))
  | .close => whole (cstring ")")

def drafts (n : Nat) (ts : List Task) : Draft Byte :=
  ts.foldr (fun t d => (t.draft formatF h st n).append d) (whole [])

theorem drafts_cons (n : Nat) (t : Task) (ts : List Task) :
    drafts formatF h st n (t :: ts)
      = (t.draft formatF h st n).append (drafts formatF h st n ts) := rfl

theorem draft_grows (n : Nat) (t : Task) :
    (t.draft formatF h st n).Le (t.draft formatF h st (n + 1)) := by
  obtain ⟨hvalue, hrest⟩ := render_grows_aux formatF h st n
  cases t with
  | value v => exact hvalue v
  | space => exact .refl _
  | cell first v => exact Draft.append_mono (.refl _) (Draft.append_mono (hvalue _) (hrest _))
  | close => exact .refl _

theorem drafts_grows (n : Nat) : ∀ ts : List Task,
    (drafts formatF h st n ts).Le (drafts formatF h st (n + 1) ts) := by
  intro ts
  induction ts with
  | nil => exact .refl _
  | cons t ts ih => exact Draft.append_mono (draft_grows formatF h st n t) ih

/-- The tasks for the rest of a list. -/
def restTasks (d : VALUE) : List Task :=
  if typeOf d == ptrTypeCons then [.cell false d]
  else if isNil d then [.close]
  else [.space, .value d, .close]

/-- What is pushed for a cell are the tasks of its parts. -/
theorem cellInstrs_reverse (v : VALUE) (ts : List Task) :
    (cellInstrs h v).reverse ++ ts.flatMap Task.words
      = (.value (car h v) :: (restTasks (cdr h v) ++ ts)).flatMap Task.words := by
  have hinstrs : cellInstrs h v = (if typeOf (cdr h v) == ptrTypeCons then [cdr h v, continueList]
      else if isNil (cdr h v) then [endList] else [endList, cdr h v, print, printSpace])
        ++ [car h v, print] := rfl
  rw [hinstrs, List.flatMap_cons, List.flatMap_append, restTasks]
  cases typeOf (cdr h v) == ptrTypeCons with
  | true => rfl
  | false =>
    cases isNil (cdr h v) with
    | true => rfl
    | false => rfl

theorem drafts_restTasks (n : Nat) (d : VALUE) (ts : List Task) :
    drafts formatF h st n (restTasks d ++ ts)
      = (renderRest formatF h st (n + 1) d).append (drafts formatF h st n ts) := by
  unfold restTasks
  rw [renderRest]
  cases typeOf d == ptrTypeCons with
  | true => rfl
  | false =>
    cases isNil d with
    | true => rfl
    | false =>
      show (whole (cstring " ")).append ((render formatF h st n d).append
        ((whole (cstring ")")).append (drafts formatF h st n ts))) = _
      rw [← Draft.append_assoc, ← Draft.append_assoc, Draft.append_assoc (whole (cstring " "))]
      rfl

/-! ## The buffer -/

end

/-- The buffer holds the characters of a text, as far as they fit before the last byte, and nothing
behind its end was changed. -/
structure HoldsChars (buf₀ : Buffer) (len : Nat) (buf : Buffer) (text : List Byte) : Prop where
  chars : ∀ i, i < text.length → i < len - 1 → buf i = text.getD i 0#8
  frame : ∀ i, len ≤ i → buf i = buf₀ i

/-- The text in the buffer ends with NUL. -/
def EndsText (len : Nat) (buf : Buffer) (text : List Byte) : Prop :=
  buf (min text.length (len - 1)) = 0#8

section Buffer

variable {buf₀ buf : Buffer} {len : Nat} {text more : List Byte}

theorem write_of_lt {pos i : Nat} {bytes : List Byte} (hi : i < pos) :
    buf.write pos bytes i = buf i := by
  rw [Buffer.write, if_neg (by omega)]

theorem write_of_ge {pos i : Nat} {bytes : List Byte} (hi : pos + bytes.length ≤ i) :
    buf.write pos bytes i = buf i := by
  rw [Buffer.write, if_neg (by omega)]

theorem write_of_mem {pos k : Nat} {bytes : List Byte} (hk : k < bytes.length) :
    buf.write pos bytes (pos + k) = bytes.getD k 0#8 := by
  rw [Buffer.write, if_pos (by omega), Nat.add_sub_cancel_left]

theorem length_snprintf (size : Nat) (text : List Byte) :
    (text.take (size - 1) ++ [0#8]).length = min text.length (size - 1) + 1 := by
  rw [List.length_append, List.length_take, List.length_singleton, Nat.min_comm]

/-- `snprintf` behind a text makes it longer. -/
theorem snprintf_holds (hb : HoldsChars buf₀ len buf text) (hroom : text.length + 5 ≤ len) :
    HoldsChars buf₀ len (snprintf buf text.length (len - text.length) more) (text ++ more)
      ∧ EndsText len (snprintf buf text.length (len - text.length) more) (text ++ more) := by
  have hlen := length_snprintf (len - text.length) more
  refine ⟨⟨fun i hi hlt => ?_, fun i hi => ?_⟩, ?_⟩
  · rw [List.length_append] at hi
    by_cases hold : i < text.length
    · rw [snprintf, write_of_lt hold, hb.chars i hold hlt, List.getD_append _ _ _ _ hold]
    · obtain ⟨k, rfl⟩ := Nat.exists_eq_add_of_le (Nat.not_lt.mp hold)
      have hk : k < (more.take (len - text.length - 1)).length := by
        rw [List.length_take]
        omega
      rw [snprintf, write_of_mem (by rw [hlen]; omega), List.getD_append _ _ _ _ hk,
        List.getD_append_right _ _ _ _ (Nat.le_add_right _ _), Nat.add_sub_cancel_left,
        List.getD_eq_getElem?_getD, List.getD_eq_getElem?_getD, List.getElem?_take_of_lt (by omega)]
  · rw [snprintf, write_of_ge (by rw [hlen]; omega)]
    exact hb.frame i hi
  · -- the NUL is behind what was written
    have hk : min (text ++ more).length (len - 1)
        = text.length + (more.take (len - text.length - 1)).length := by
      rw [List.length_take, List.length_append]
      omega
    rw [EndsText, hk, snprintf, write_of_mem (by rw [List.length_append]; simp),
      List.getD_append_right _ _ _ _ (Nat.le_refl _), Nat.sub_self]
    rfl

end Buffer

/-! ## An iteration -/

/-- The values that are reached from a value by `car` and `cdr`. -/
inductive Part (h : HeapState) (t : VALUE) : VALUE → Prop where
  | self : Part h t t
  | car {v : VALUE} (hv : Part h t v) : Part h t (car h v)
  | cdr {v : VALUE} (hv : Part h t v) : Part h t (cdr h v)

/-- The task is about a part of the value, and a cell is one. -/
def Task.About (h : HeapState) (t : VALUE) : Task → Prop
  | .value v => Part h t v
  | .space => True
  | .cell _ v => Part h t v ∧ typeOf v = ptrTypeCons
  | .close => True

/-- The value `t` has been printed as far as `text`, and `ts` are the tasks that are left. -/
structure Shows (formatF : UINT → List Byte) (h : HeapState) (st : SymbolTable) (t : VALUE)
    (buf₀ : Buffer) (len : Nat) (s : PrintState) (text : List Byte) (ts : List Task) : Prop where
  stack : s.stack = ts.flatMap Task.words
  about : ∀ task ∈ ts, task.About h t
  offset : s.offset = text.length
  draft : ∀ n, ∃ m, ((whole text).append (drafts formatF h st n ts)).Le (render formatF h st m t)
  holds : HoldsChars buf₀ len s.buf text
  ends : ts = [] → EndsText len s.buf text

/-- How much is left to do. Every word on the stack is there because of a character. -/
def Task.weight : Task → Nat
  | .value _ => 3
  | .space => 1
  | .cell _ _ => 2
  | .close => 1

def weight (len : Nat) (s : PrintState) (ts : List Task) : Nat :=
  8 * (len + 1 - s.offset) + (ts.map Task.weight).sum

/-- What an iteration leads to. -/
inductive Steps (formatF : UINT → List Byte) (h : HeapState) (st : SymbolTable) (t : VALUE)
    (buf₀ : Buffer) (len bound : Nat) : Step → Prop where
  | next {s : PrintState} {text : List Byte} {ts : List Task}
      (hs : Shows formatF h st t buf₀ len s text ts) (hlt : weight len s ts < bound) :
      Steps formatF h st t buf₀ len bound (.next s)
  | error {message : List Byte} {s : PrintState} (hb : ∀ i, len ≤ i → s.buf i = buf₀ i) :
      Steps formatF h st t buf₀ len bound (.error message s)
  | undefined {s : PrintState} {v : VALUE} (hb : ∀ i, len ≤ i → s.buf i = buf₀ i)
      (hv : Part h t v) (hnone : atomText formatF h st v = none) :
      Steps formatF h st t buf₀ len bound (.undefined s)

section Iteration

variable {formatF : UINT → List Byte} {h : HeapState} {st : SymbolTable} {t : VALUE}
  {buf₀ : Buffer} {len : Nat} {s : PrintState} {text : List Byte} {task : Task} {ts : List Task}

/-- A push that has failed is not made up for. -/
theorem foldl_push : ∀ {vs : List UINT} {b : Bool} {stack stack' : List UINT},
    vs.foldl push (b, stack) = (true, stack') → b = true ∧ stack' = vs.reverse ++ stack := by
  intro vs
  induction vs with
  | nil =>
    intro b stack stack' heq
    cases heq
    exact ⟨rfl, rfl⟩
  | cons v vs ih =>
    intro b stack stack' heq
    rw [List.foldl_cons, push] at heq
    by_cases hfull : stack.length = printStackSize
    · rw [if_pos hfull] at heq
      exact absurd (ih heq).1 (by simp)
    · rw [if_neg hfull] at heq
      obtain ⟨hb, hstack⟩ := ih heq
      refine ⟨hb, ?_⟩
      rw [hstack, List.reverse_cons, List.append_assoc]
      rfl

/-- Pushes fail, or put their words on the stack. -/
theorem pushes_cases (s : PrintState) (vs : List UINT) :
    pushes s vs = .next { s with stack := vs.reverse ++ s.stack }
      ∨ ∃ message stack, pushes s vs = .error message { s with stack := stack } := by
  unfold pushes
  rcases hres : vs.foldl push (true, s.stack) with ⟨_ | _, stack⟩
  · exact .inr ⟨_, stack, rfl⟩
  · left
    rw [(foldl_push hres).2]
    rfl

/-- Text that belongs to the first task is printed, and the other tasks take its place. -/
theorem Shows.out (hs : Shows formatF h st t buf₀ len s text (task :: ts))
    (hroom : s.offset + 5 ≤ len) (more : List Byte) (ts' : List Task) {stack : List UINT}
    (hstack : stack = ts'.flatMap Task.words) (habout : ∀ u ∈ ts', u.About h t)
    (hdraft : ∀ n, ((whole more).append (drafts formatF h st n ts')).Le
      (drafts formatF h st (n + 1) (task :: ts))) :
    Shows formatF h st t buf₀ len { Print.out len more s with stack := stack } (text ++ more)
      ts' := by
  have hoffset := hs.offset
  rw [hoffset] at hroom
  obtain ⟨hholds, hends⟩ := @snprintf_holds buf₀ s.buf len text more hs.holds hroom
  refine ⟨hstack, habout, ?_, fun n => ?_, ?_, fun _ => ?_⟩
  · show s.offset + more.length = _
    rw [hoffset, List.length_append]
  · obtain ⟨m, hm⟩ := hs.draft (n + 1)
    refine ⟨m, Draft.Le.trans ?_ hm⟩
    have hsplit : (whole (text ++ more)).append (drafts formatF h st n ts')
        = (whole text).append ((whole more).append (drafts formatF h st n ts')) := by
      rw [← Draft.append_assoc]
      rfl
    rw [hsplit]
    exact Draft.append_mono (.refl _) (hdraft n)
  · show HoldsChars buf₀ len (snprintf s.buf s.offset (len - s.offset) more) _
    rw [hoffset]
    exact hholds
  · show EndsText len (snprintf s.buf s.offset (len - s.offset) more) _
    rw [hoffset]
    exact hends

/-- The first task becomes others without any text. -/
theorem Shows.turn (hs : Shows formatF h st t buf₀ len s text (task :: ts)) (ts' : List Task)
    {stack : List UINT} (hstack : stack = ts'.flatMap Task.words)
    (habout : ∀ u ∈ ts', u.About h t) (hne : ts' ≠ [])
    (hdraft : ∀ n, (drafts formatF h st n ts').Le (drafts formatF h st (n + 1) (task :: ts))) :
    Shows formatF h st t buf₀ len { s with stack := stack } text ts' := by
  refine ⟨hstack, habout, hs.offset, fun n => ?_, hs.holds, fun hnil => absurd hnil hne⟩
  obtain ⟨m, hm⟩ := hs.draft (n + 1)
  exact ⟨m, (Draft.append_mono (.refl _) (hdraft n)).trans hm⟩

theorem Shows.about_tail (hs : Shows formatF h st t buf₀ len s text (task :: ts)) :
    ∀ u ∈ ts, u.About h t := fun u hu => hs.about u (List.mem_cons_of_mem _ hu)

theorem weight_restTasks (d : VALUE) : ((restTasks d).map Task.weight).sum ≤ 5 := by
  unfold restTasks
  split
  · exact Nat.le_of_ble_eq_true rfl
  · split
    · exact Nat.le_of_ble_eq_true rfl
    · exact Nat.le_of_ble_eq_true rfl

theorem about_restTasks {d : VALUE} (hd : Part h t d) : ∀ u ∈ restTasks d, u.About h t := by
  unfold restTasks
  intro u hu
  by_cases hcons : (typeOf d == ptrTypeCons) = true
  · rw [if_pos hcons, List.mem_singleton] at hu
    subst hu
    exact ⟨hd, beq_iff_eq.mp hcons⟩
  · rw [if_neg hcons] at hu
    by_cases hnil : isNil d = true
    · rw [if_pos hnil, List.mem_singleton] at hu
      subst hu
      trivial
    · rw [if_neg hnil] at hu
      simp only [List.mem_cons, List.not_mem_nil, or_false] at hu
      rcases hu with hu | hu | hu
      · subst hu
        trivial
      · subst hu
        exact hd
      · subst hu
        trivial

theorem printStep_value (v : VALUE) (stack : List UINT) (hstack : s.stack = print :: v :: stack) :
    printStep formatF h st len s =
      if typeOf v == ptrTypeCons then pushes { s with stack := stack } [v, startList]
      else
        match atomText formatF h st v with
        | none => .undefined { s with stack := stack }
        | some (.error message) => .error message { s with stack := stack }
        | some (.ok text) => .next (Print.out len text { s with stack := stack }) := by
  rw [printStep, hstack]
  rfl

theorem printStep_cell {first : Bool} {v : VALUE} {stack : List UINT}
    (hv : typeOf v = ptrTypeCons) (hstack : s.stack = Task.words (.cell first v) ++ stack) :
    printStep formatF h st len s
      = pushes (Print.out len (opening first) { s with stack := stack }) (cellInstrs h v) := by
  rw [printStep, hstack]
  cases first with
  | true => rfl
  | false =>
    show (if (typeOf v == valTypeSymbol && decSym v == symreprNil) = true then _ else _) = _
    rw [hv]
    rfl

/-- What an iteration does for a value that is not a list. -/
theorem step_atom {v : VALUE} (hs : Shows formatF h st t buf₀ len s text (.value v :: ts))
    (hroom : s.offset + 5 ≤ len) (hcons : typeOf v ≠ ptrTypeCons) :
    Steps formatF h st t buf₀ len (weight len s (.value v :: ts))
      (printStep formatF h st len s) := by
  have hframe := hs.holds.frame
  have hcons' : (typeOf v == ptrTypeCons) = false := beq_eq_false_iff_ne.mpr hcons
  rw [printStep_value v _ hs.stack, hcons']
  cases hatom : atomText formatF h st v with
  | none => exact .undefined hframe (hs.about (.value v) (by simp)) hatom
  | some r =>
    cases r with
    | error message => exact .error hframe
    | ok more =>
      refine .next (hs.out hroom more ts rfl hs.about_tail fun n => ?_) ?_
      · have hrender : render formatF h st (n + 1) v = whole more := by
          rw [render, hcons', hatom]
          rfl
        have hdrafts : drafts formatF h st (n + 1) (.value v :: ts)
            = (whole more).append (drafts formatF h st (n + 1) ts) := by
          rw [drafts_cons, ← hrender]
          rfl
        rw [hdrafts]
        exact Draft.append_mono (.refl _) (drafts_grows formatF h st n ts)
      · show 8 * (len + 1 - (s.offset + more.length)) + (ts.map Task.weight).sum
          < 8 * (len + 1 - s.offset) + (3 + (ts.map Task.weight).sum)
        omega

/-- A list is taken up. -/
theorem step_list {v : VALUE} (hs : Shows formatF h st t buf₀ len s text (.value v :: ts))
    (hcons : typeOf v = ptrTypeCons) :
    Steps formatF h st t buf₀ len (weight len s (.value v :: ts))
      (printStep formatF h st len s) := by
  rw [printStep_value v _ hs.stack, beq_iff_eq.mpr hcons]
  rcases pushes_cases { s with stack := ts.flatMap Task.words } [v, startList] with
    hnext | ⟨message, stack, herror⟩
  · show Steps formatF h st t buf₀ len _ (pushes { s with stack := ts.flatMap Task.words }
      [v, startList])
    rw [hnext]
    have hpart : Part h t v := hs.about (.value v) (by simp)
    refine .next (hs.turn (.cell true v :: ts) rfl ?_ (List.cons_ne_nil _ _) fun n => ?_) ?_
    · intro u hu
      rcases List.mem_cons.mp hu with hu | hu
      · subst hu
        exact ⟨hpart, hcons⟩
      · exact hs.about_tail u hu
    · have hrender : render formatF h st (n + 1) v
          = Task.draft formatF h st n (.cell true v) := by
        rw [render, beq_iff_eq.mpr hcons]
        rfl
      rw [drafts_cons, drafts_cons, ← hrender]
      exact Draft.append_mono (.refl _) (drafts_grows formatF h st n ts)
    · show 8 * (len + 1 - s.offset) + (2 + (ts.map Task.weight).sum)
        < 8 * (len + 1 - s.offset) + (3 + (ts.map Task.weight).sum)
      omega
  · show Steps formatF h st t buf₀ len _ (pushes { s with stack := ts.flatMap Task.words }
      [v, startList])
    rw [herror]
    exact .error hs.holds.frame

/-- A cell of a list: a character, and the tasks of its parts. -/
theorem step_cell {first : Bool} {v : VALUE}
    (hs : Shows formatF h st t buf₀ len s text (.cell first v :: ts))
    (hroom : s.offset + 5 ≤ len) :
    Steps formatF h st t buf₀ len (weight len s (.cell first v :: ts))
      (printStep formatF h st len s) := by
  obtain ⟨hpart, hcons⟩ : Part h t v ∧ typeOf v = ptrTypeCons :=
    hs.about (.cell first v) (by simp)
  have hopen : (opening first).length = 1 := by cases first <;> rfl
  have hstep := @printStep_cell formatF h st len s first v (ts.flatMap Task.words) hcons hs.stack
  -- the character, and everything that was pushed
  have habout : ∀ u ∈ Task.value (car h v) :: (restTasks (cdr h v) ++ ts), u.About h t := by
    intro u hu
    rcases List.mem_cons.mp hu with hu | hu
    · subst hu
      exact .car hpart
    · rcases List.mem_append.mp hu with hu | hu
      · exact about_restTasks (.cdr hpart) u hu
      · exact hs.about_tail u hu
  have hshows := hs.out hroom (opening first) _ (cellInstrs_reverse h v ts) habout fun n => by
    rw [drafts_cons, drafts_restTasks, drafts_cons, Task.draft, Task.draft, Draft.append_assoc,
      Draft.append_assoc]
    exact Draft.append_mono (.refl _) (Draft.append_mono (draft_grows formatF h st n (.value _))
      (Draft.append_mono (.refl _) (drafts_grows formatF h st n ts)))
  rw [hstep]
  rcases pushes_cases (Print.out len (opening first) { s with stack := ts.flatMap Task.words })
    (cellInstrs h v) with hnext | ⟨message, stack, herror⟩
  · rw [hnext]
    refine .next hshows ?_
    have hrest := weight_restTasks (cdr h v)
    show 8 * (len + 1 - (s.offset + (opening first).length))
        + (3 + ((restTasks (cdr h v) ++ ts).map Task.weight).sum)
      < 8 * (len + 1 - s.offset) + (2 + (ts.map Task.weight).sum)
    rw [hopen, List.map_append, List.sum_append]
    omega
  · rw [herror]
    exact .error hshows.holds.frame

/-- **An iteration.** The text and the tasks on the stack still make up the rendering, and there is
less to do. -/
theorem printStep_shows (hs : Shows formatF h st t buf₀ len s text (task :: ts))
    (hroom : s.offset + 5 ≤ len) :
    Steps formatF h st t buf₀ len (weight len s (task :: ts)) (printStep formatF h st len s) := by
  have hgrows := fun n => drafts_grows formatF h st n ts
  cases task with
  | value v =>
    by_cases hcons : typeOf v = ptrTypeCons
    · exact step_list hs hcons
    · exact step_atom hs hroom hcons
  | cell first v => exact step_cell hs hroom
  | space =>
    have hstep : printStep formatF h st len s
        = .next (Print.out len (cstring " ") { s with stack := ts.flatMap Task.words }) := by
      rw [printStep, hs.stack]
      rfl
    rw [hstep]
    refine .next (hs.out hroom _ ts rfl hs.about_tail fun n => ?_) ?_
    · exact Draft.append_mono (.refl _) (hgrows n)
    show 8 * (len + 1 - (s.offset + 1)) + (ts.map Task.weight).sum
      < 8 * (len + 1 - s.offset) + (1 + (ts.map Task.weight).sum)
    omega
  | close =>
    have hstep : printStep formatF h st len s
        = .next (Print.out len (cstring ")") { s with stack := ts.flatMap Task.words }) := by
      rw [printStep, hs.stack]
      rfl
    rw [hstep]
    refine .next (hs.out hroom _ ts rfl hs.about_tail fun n => ?_) ?_
    · exact Draft.append_mono (.refl _) (hgrows n)
    show 8 * (len + 1 - (s.offset + 1)) + (ts.map Task.weight).sum
      < 8 * (len + 1 - s.offset) + (1 + (ts.map Task.weight).sum)
    omega

/-! ## The run -/

/-- The loop is not continued: the stack is empty, or there is not enough room. -/
def Stopped (len : Nat) (s : PrintState) : Prop := s.stack = [] ∨ len < s.offset + 5

theorem stopped_iff :
    (!s.stack.isEmpty && decide (s.offset + 5 ≤ len)) = false ↔ Stopped len s := by
  rw [Bool.and_eq_false_iff, Bool.not_eq_false', List.isEmpty_iff, decide_eq_false_iff_not,
    Nat.not_le, Stopped]

/-- The stack is empty when there are no tasks. -/
theorem Shows.stack_eq_nil (hs : Shows formatF h st t buf₀ len s text ts) :
    s.stack = [] ↔ ts = [] := by
  rw [hs.stack]
  cases ts with
  | nil => exact iff_of_true rfl rfl
  | cons task ts =>
    have hwords : task.words ≠ [] := by
      cases task with
      | cell first v => cases first <;> exact List.cons_ne_nil _ _
      | _ => exact List.cons_ne_nil _ _
    refine iff_of_false (fun hnil => ?_) (List.cons_ne_nil _ _)
    rw [List.flatMap_cons] at hnil
    exact hwords (List.append_eq_nil_iff.mp hnil).1

/-- **The loop ends.** There are at most as many iterations as there is to do, and where it stops
the text and the tasks make up the rendering. -/
theorem printLoop_ends {bound : Nat} : ∀ (fuel : Nat) {s : PrintState} {text : List Byte}
    {ts : List Task}, Shows formatF h st t buf₀ len s text ts → weight len s ts < fuel →
    weight len s ts < bound → ∃ step, printLoop formatF h st len fuel s = some step ∧
      Steps formatF h st t buf₀ len bound step ∧ ∀ s', step = .next s' → Stopped len s' := by
  intro fuel
  induction fuel with
  | zero =>
    intro s text ts _ hfuel
    exact absurd hfuel (Nat.not_lt_zero _)
  | succ fuel ih =>
    intro s text ts hs hfuel hbound
    rw [printLoop]
    by_cases hstop : Stopped len s
    · rw [stopped_iff.mpr hstop]
      refine ⟨.next s, rfl, .next hs hbound, fun s' heq => ?_⟩
      cases heq
      exact hstop
    · have hguard : (!s.stack.isEmpty && decide (s.offset + 5 ≤ len)) = true := by
        rw [← Bool.not_eq_false, stopped_iff]
        exact hstop
      rw [hguard]
      have hroom : s.offset + 5 ≤ len := Nat.not_lt.mp fun hlt => hstop (.inr hlt)
      cases ts with
      | nil => exact absurd (.inl (hs.stack_eq_nil.mpr rfl)) hstop
      | cons task ts =>
        have hstep := printStep_shows hs hroom
        generalize printStep formatF h st len s = step at hstep
        cases hstep with
        | next hs' hlt =>
          -- the next state has less to do, so that the rest of the fuel is enough
          exact ih hs' (by omega) (by omega)
        | error hb => exact ⟨_, rfl, .error hb, fun s' heq => nomatch heq⟩
        | undefined hb hv hnone => exact ⟨_, rfl, .undefined hb hv hnone, fun s' heq => nomatch heq⟩

end Iteration

/-! ## What is in the buffer -/

/-- The buffer begins with a string, which ends with NUL. -/
def HoldsString (buf : Buffer) (text : List Byte) : Prop :=
  (∀ i, i < text.length → buf i = text.getD i 0#8) ∧ buf text.length = 0#8

/-- What `print_value` does to the buffer. It says whether the stack was empty after the loop; if it
was not, three dots follow on the beginning of the rendering. -/
inductive Prints (formatF : UINT → List Byte) (h : HeapState) (st : SymbolTable) (t : VALUE)
    (buf₀ : Buffer) (len : Nat) : Printed → Prop where
  | whole {res : Nat} {buf : Buffer} {text : List Byte} (hb : ∀ i, len ≤ i → buf i = buf₀ i)
      (htext : Draft.HasText (fun n => render formatF h st n t) text)
      (hbuf : HoldsString buf (text.take (len - 1))) :
      Prints formatF h st t buf₀ len (.whole res buf)
  | cut {res : Nat} {buf : Buffer} {pre : List Byte} (hb : ∀ i, len ≤ i → buf i = buf₀ i)
      (hpre : Draft.HasFirst (fun n => render formatF h st n t) (len - 5) pre)
      (hbuf : HoldsString buf (pre ++ cstring "...")) :
      Prints formatF h st t buf₀ len (.cut res buf)
  | error {message : List Byte} {buf : Buffer} (hb : ∀ i, len ≤ i → buf i = buf₀ i) :
      Prints formatF h st t buf₀ len (.error message buf)
  | undefined {buf : Buffer} {v : VALUE} (hb : ∀ i, len ≤ i → buf i = buf₀ i)
      (hv : Part h t v) (hnone : atomText formatF h st v = none) :
      Prints formatF h st t buf₀ len (.undefined buf)

section Spec

variable {formatF : UINT → List Byte} {h : HeapState} {st : SymbolTable} {t : VALUE}
  {buf₀ buf : Buffer} {len : Nat} {s : PrintState} {text : List Byte} {ts : List Task}

/-- Before the loop there is one task. -/
theorem shows_start (buf₀ : Buffer) (len : Nat) :
    Shows formatF h st t buf₀ len ⟨[print, t], buf₀, 0, 0⟩ [] [.value t] where
  stack := rfl
  about := fun u hu => by
    rw [List.mem_singleton] at hu
    subst hu
    exact .self
  offset := rfl
  draft := fun n => ⟨n, by
    have hwhole : (whole []).append (drafts formatF h st n [.value t])
        = render formatF h st n t := by
      show (whole []).append ((render formatF h st n t).append (whole [])) = _
      rw [Draft.append_whole_nil]
      rfl
    rw [hwhole]
    exact .refl _⟩
  holds := ⟨fun i hi => absurd hi (Nat.not_lt_zero _), fun _ _ => rfl⟩
  ends := fun hnil => absurd hnil (List.cons_ne_nil _ _)

/-- After the last task the buffer holds the whole text, as far as it fits. -/
theorem Shows.whole (hs : Shows formatF h st t buf₀ len s text []) (hlen : 0 < len) (res : Nat) :
    Prints formatF h st t buf₀ len (.whole res s.buf) := by
  have hgrows : Draft.Grows fun n => render formatF h st n t := render_grows formatF h st t
  have hwhole : Draft.IsWhole (fun n => render formatF h st n t) text := by
    obtain ⟨m, hm⟩ := hs.draft 0
    refine ⟨m, ?_⟩
    have htext : (Draft.whole text).append (drafts formatF h st 0 []) = Draft.whole text :=
      Draft.append_whole_nil _
    rw [htext] at hm
    exact (hm.eq_of_complete rfl).symm
  apply Prints.whole hs.holds.frame (hwhole.hasText hgrows)
  have hlength : (text.take (len - 1)).length = min text.length (len - 1) := by
    rw [List.length_take, Nat.min_comm]
  constructor
  · intro i hi
    rw [hlength] at hi
    rw [hs.holds.chars i (by omega) (by omega), List.getD_eq_getElem?_getD,
      List.getD_eq_getElem?_getD, List.getElem?_take_of_lt (by omega)]
  · rw [hlength]
    exact hs.ends rfl

/-- Where there is no more room, the last characters give way to three dots. -/
theorem Shows.cut (hs : Shows formatF h st t buf₀ len s text ts) (hlen : 5 ≤ len)
    (hfull : len < s.offset + 5) (res : Nat) :
    Prints formatF h st t buf₀ len
      (.cut res ((snprintf s.buf (len - 5) 4 (cstring "...")).write (len - 1) [0#8])) := by
  have hgrows : Draft.Grows fun n => render formatF h st n t := render_grows formatF h st t
  rw [hs.offset] at hfull
  have hbegins : Draft.Begins (fun n => render formatF h st n t) text := by
    obtain ⟨m, hm⟩ := hs.draft 0
    exact ⟨m, (List.prefix_append _ _).trans hm.begins⟩
  apply Prints.cut ?_ (hbegins.hasFirst hgrows (k := len - 5) (by omega))
  · -- the text, then the dots, then the byte behind the NUL of the dots
    have hlength : (text.take (len - 5)).length = len - 5 := List.length_take_of_le (by omega)
    have hdots : ∀ k, k < 4 → ((snprintf s.buf (len - 5) 4 (cstring "...")).write (len - 1) [0#8])
        (len - 5 + k) = (cstring "..." ++ [0#8]).getD k 0#8 := by
      intro k hk
      rw [write_of_lt (by omega)]
      exact @write_of_mem _ _ _ (cstring "..." ++ [0#8]) hk
    constructor
    · intro i hi
      rw [List.length_append, hlength] at hi
      by_cases hold : i < len - 5
      · rw [write_of_lt (by omega), snprintf, write_of_lt hold,
          hs.holds.chars i (by omega) (by omega),
          List.getD_append _ _ _ _ (by rw [hlength]; exact hold), List.getD_eq_getElem?_getD,
          List.getD_eq_getElem?_getD, List.getElem?_take_of_lt hold]
      · obtain ⟨k, rfl⟩ := Nat.exists_eq_add_of_le (Nat.not_lt.mp hold)
        have hk : k < (cstring "...").length := by omega
        rw [hdots k (Nat.lt_succ_of_lt hk), List.getD_append _ _ _ _ hk,
          List.getD_append_right _ _ _ _ (by rw [hlength]; exact Nat.le_add_right _ _), hlength,
          Nat.add_sub_cancel_left]
    · rw [List.length_append, hlength]
      exact hdots 3 (by decide)
  · intro i hi
    rw [write_of_ge (by show len - 1 + 1 ≤ i; omega),
      snprintf, write_of_ge (by show len - 5 + 4 ≤ i; omega)]
    exact hs.holds.frame i hi

/-- **Printing ends within the buffer.** For every heap, `print_value` comes to an end and changes
no byte behind the first `len`; if there is no error, what it leaves is the value's text as far as
it fits, or the beginning of the text followed by dots. Nothing is said to be undefined in C but the
text of a string or of the symbol table that leaves the memory. -/
theorem printValue_spec (formatF : UINT → List Byte) (h : HeapState) (st : SymbolTable) (t : VALUE)
    (buf : Buffer) {len : Nat} (hlen : 5 ≤ len) :
    ∃ r, printValue formatF h st buf len t = some r ∧ Prints formatF h st t buf len r := by
  have hstart : Shows formatF h st t buf len ⟨[print, t], buf, 0, 0⟩ [] [.value t] :=
    shows_start buf len
  have hweight : weight len ⟨[print, t], buf, 0, 0⟩ [.value t] < 8 * len + 16 := by
    show 8 * (len + 1 - 0) + 3 < 8 * len + 16
    omega
  obtain ⟨step, hrun, hstep, hstopped⟩ := printLoop_ends _ hstart hweight hweight
  refine ⟨finish len step, by rw [printValue, hrun]; rfl, ?_⟩
  cases hstep with
  | error hb => exact .error hb
  | undefined hb hv hnone => exact .undefined hb hv hnone
  | @next s text ts hs hlt =>
    show Prints formatF h st t buf len (if s.stack.isEmpty then _ else _)
    by_cases hempty : s.stack = []
    · rw [if_pos (List.isEmpty_iff.mpr hempty)]
      obtain rfl := hs.stack_eq_nil.mp hempty
      exact hs.whole (by omega) _
    · rw [if_neg fun hnil => hempty (List.isEmpty_iff.mp hnil)]
      have hfull : len < s.offset + 5 := (hstopped s rfl).resolve_left hempty
      exact hs.cut hlen hfull _

/-- A list of ones that goes around in a circle. -/
def circleHeap : HeapState :=
  { heapInit 1 [⟨0#32, 0#32⟩] ⟨[], [], 0#32, 0#32, 0#32⟩ with
    heap := [⟨encI 1#32, encConsPtr 0#32⟩] }

/-- The circle is printed into 16 bytes. -/
theorem printValue_spec_circle :
    ∃ r, printValue (fun _ => []) circleHeap ⟨0#32, 0#32⟩ (fun _ => 0xFF#8) 16 (encConsPtr 0#32)
      = some r ∧ Prints (fun _ => []) circleHeap ⟨0#32, 0#32⟩ (encConsPtr 0#32)
        (fun _ => 0xFF#8) 16 r :=
  printValue_spec (fun _ => []) circleHeap ⟨0#32, 0#32⟩ (encConsPtr 0#32)
    (fun _ => 0xFF#8) (by decide)

example : ((printValue (fun _ => []) circleHeap ⟨0#32, 0#32⟩ (fun _ => 0xFF#8) 16
    (encConsPtr 0#32)).map
    fun r => (List.range 17).map r.buf)
      = some (cstring "(1 1 1 1 1 ..." ++ [0#8, 0#8, 0xFF#8]) := by decide +kernel

end Spec

end Print

end LispBM
