import LispBM.Heap.Run
import LispBM.Semantics.Operations

/-!
# LispBM — the memory before a program

On a new heap there is nothing but the global environment, which binds `nil`, and the program that
the reader has built.

* `sound_initial` — a new heap stands for the initial memory;
* `Sound.leaves_build` — a program in the heap stands for its expressions.
-/

namespace LispBM

namespace Datum

/-- The expression that is built. -/
def val : Datum → Semantics.Val
  | atom w => .word w
  | pair a d => .pair a.val d.val

/-- The cells it takes. -/
def cells : Datum → Nat
  | atom _ => 0
  | pair a d => a.cells + d.cells + 1

/-- There are no pointers in it. -/
def isText : Datum → Bool
  | atom w => Semantics.isImmediate w
  | pair a d => a.isText && d.isText

theorem val_list (ds : List Datum) : (list ds).val = .list (ds.map val) := by
  induction ds with
  | nil => rfl
  | cons d ds ih =>
    rw [list, val, ih]
    rfl

end Datum

theorem freeList_heapInit {n : Nat} (hn : 1 ≤ n) (hmax : n ≤ 2 ^ 23) {malloced : List ConsCell}
    (hlen : malloced.length = n) (memory : MemoryState) :
    FreeList (heapInit n malloced memory) (List.range' 0 n) := by
  have hinv := heapInv_heapInit hn hmax hlen memory
  exact ⟨hinv.freeChain, hinv.nodup, hinv.fits, hinv.addressable⟩

namespace Semantics

/-- Only `nil` is defined. -/
def Memory.initial : Memory := ⟨[some .nil], [(NIL, 0)]⟩

section

variable {h : HeapState} {Λ : Layout} {m : Memory} {g : VALUE} {l : List Nat}

/-- Nothing is in use. -/
theorem sound_of_freeList (hl : FreeList h l) : Sound h ⟨l, []⟩ ⟨[], []⟩ NIL :=
  ⟨hl, .nil, by simp, rfl, by simp, by simp, isEnv_nil⟩

/-- **A new heap** with the global environment. -/
theorem sound_initial (hl : FreeList h l) (hlen : 2 ≤ l.length) :
    ∃ Λ, Λ.free = l.drop 2
      ∧ Sound (LispBM.cons (LispBM.cons NIL NIL h).1 NIL (LispBM.cons NIL NIL h).2).2
      Λ .initial (LispBM.cons (LispBM.cons NIL NIL h).1 NIL (LispBM.cons NIL NIL h).2).1 := by
  have hs := sound_of_freeList hl
  obtain ⟨p, env, h₁, h₂, hp⟩ := @Sound.pushes _ _ _ _ NIL _ _ NIL (some .nil) hs hlen (by decide)
    (fun v hv => Option.some.inj hv ▸ .word (by decide)) isEnv_nil
  obtain ⟨Λ, hs₂, hk, hE⟩ := hp.leaves
  rw [hp.binding]
  show ∃ Λ : Layout, Λ.free = l.drop 2
    ∧ Sound (LispBM.cons p NIL h₁).2 Λ .initial (LispBM.cons p NIL h₁).1
  rw [hp.env]
  exact ⟨Λ, hk.free, hs₂.withGlobals hE⟩

/-- **A program in the heap.** -/
theorem Sound.leaves_build : ∀ {d : Datum} {h : HeapState} {Λ : Layout}, Sound h Λ m g →
    d.isText = true → d.cells ≤ Λ.free.length →
    Leaves h Λ d.cells (d.build h).2 m g fun h' Λ' => Holds h' Λ' (d.build h).1 d.val := by
  intro d
  induction d with
  | atom w =>
    intro h Λ hs htext _
    exact ⟨Λ, hs, .refl h Λ, .word htext⟩
  | pair a d iha ihd =>
    intro h Λ hs htext hfree
    rw [Datum.isText, Bool.and_eq_true] at htext
    rw [Datum.cells] at hfree
    obtain ⟨Λ₁, hs₁, hk₁, ha⟩ := iha hs htext.1 (by omega)
    obtain ⟨⟨free, ls⟩, hs₂, hk₂, hd⟩ := ihd hs₁ htext.2 (by rw [hk₁.free, List.length_drop]; omega)
    have hk := hk₁.trans hk₂
    have hlen : free.length = Λ.free.length - (a.cells + d.cells) := by
      rw [← List.length_drop]
      exact congrArg List.length hk.free
    cases free with
    | nil =>
      rw [List.length_nil] at hlen
      omega
    | cons i l =>
      obtain ⟨h', hc⟩ := hs₂.free.conses (a.build h).1 (d.build (a.build h).2).1
      obtain ⟨hs', hk'⟩ := hs₂.take hc
      rw [Datum.build]
      show Leaves h Λ (a.cells + d.cells + 1)
        (LispBM.cons (a.build h).1 (d.build (a.build h).2).1 (d.build (a.build h).2).2).2 m g
          fun h' Λ' =>
          Holds h' Λ'
            (LispBM.cons (a.build h).1 (d.build (a.build h).2).1 (d.build (a.build h).2).2).1 _
      rw [hc.eq]
      exact ⟨_, hs', hk.trans hk', holds_conses hs₂ hc (hk₂.holds ha) hd⟩

end

/-! ## A program -/

/-- `(define f (lambda (x) (cons x 2))) (f 40)`, with the first two symbols of the program. -/
def pairWithTwo : List Datum :=
  let f := Datum.sym maxSpecialSymbols
  let x := Datum.sym (maxSpecialSymbols + 1#32)
  [.list [.sym symreprDefine, f, .list [.sym symreprLambda, .list [x],
    .list [.sym symCons, x, .int 2#32]]], .list [f, .int 40#32]]

/-- It comes to a pair, and takes ten cells. -/
theorem evalProgram_pairWithTwo {T : Target} (hT : ∀ id, T.isExtension id = false) :
    ∃ m E, EvalProgram T .initial [] (pairWithTwo.map Datum.val) (4 + 2 + (1 + 2 + 1)) m
      (.pair (.word (encI 40#32)) (.word (encI 2#32))) E := by
  let f := encSym maxSpecialSymbols
  let x := encSym (maxSpecialSymbols + 1#32)
  let body := Val.list [.sym symCons, .word x, .word (encI 2#32)]
  let m₁ : Memory := ⟨[some .nil, some (.closure [x] body [])], [(f, 1), (NIL, 0)]⟩
  let m₂ : Memory := m₁.allocate [some (.word (encI 40#32))]
  have hvariable : ∀ w, typeOf w = valTypeSymbol → isSpecial w = false →
      isVariable T w = true := by
    intro w hty hspecial
    rw [isVariable, hty, hspecial, hT]
    rfl
  have hlambda : Eval T .initial []
      (.pair (.sym symreprLambda) (.pair (.list [.word x]) (.pair body .nil))) 4
      .initial (.closure [x] body []) [] :=
    @Eval.lambda _ _ [] [x] body .nil
      fun p hp => (List.mem_singleton.mp hp).symm ▸ typeOf_encSym _
  have hdefine : Eval T .initial []
      (.pair (.sym symreprDefine) (.pair (.word f) (.pair _ .nil))) (4 + 2) m₁ (.word f) [] :=
    .define (typeOf_encSym _) (by decide) hlambda
  have hx : Eval T m₂ [(x, 2)] (.word x) 0 m₂ (.word (encI 40#32)) [(x, 2)] :=
    .var (l := 2) (hvariable _ (typeOf_encSym _) (by decide)) rfl rfl rfl
  have hargs : EvalArgs T [(x, 2)] m₂ [(x, 2)] [.word x, .word (encI 2#32)] 0 m₂
      [.word (encI 40#32), .word (encI 2#32)] [(x, 2)] :=
    .cons hx rfl (.cons (.constant rfl) rfl .nil)
  have hbody : Eval T m₂ [(x, 2)] body (0 + 0 + 1) m₂
      (.pair (.word (encI 40#32)) (.word (encI 2#32))) [(x, 2)] :=
    .application rfl (.constant rfl) rfl hargs (.fundamental (.cons _ _) rfl)
  have hfun : Eval T m₁ [] (.word f) 0 m₁ (.closure [x] body []) [] :=
    .var (l := 1) (hvariable _ (typeOf_encSym _) (by decide)) rfl rfl rfl
  have hcall : Eval T m₁ [] (.pair (.word f) (.list [.word (encI 40#32)]))
      (0 + 0 + (1 + 2 + (0 + 0 + 1))) m₂
      (.pair (.word (encI 40#32)) (.word (encI 2#32))) [(x, 2)] :=
    .application (by decide) hfun rfl (.cons (.constant rfl) rfl .nil) (.closure rfl hbody)
  simp only [Nat.zero_add] at hcall
  exact ⟨_, _, .next hdefine (.last hcall)⟩

end Semantics

end LispBM
