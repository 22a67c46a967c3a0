import Seanet.Parser.Expr
import Seanet.Proofs.Grammar.Types

set_option autoImplicit false

namespace Seanet

open TokenView (kind)

def BinaryLevel.Has (i : Nat) (logical : Bool) (k : Kind) : Prop :=
  ∃ level, BinaryLevel.all[i]? = some level ∧ level.logical = logical ∧ k ∈ level.operators

namespace Expr

variable {τ : Type} [TokenView τ]

/-- An expression that binds as tight as the operators of level `i`, or tighter. An assignment binds
looser than all levels, an expression without binary operator tighter. -/
def BindsFrom (i : Nat) : Expr τ → Prop
  | .assign _ _ _ | .assignProperty _ _ _ _ => False
  | .binary operator _ _ => ∃ j, i ≤ j ∧ BinaryLevel.Has j false (kind operator)
  | .logical operator _ _ => ∃ j, i ≤ j ∧ BinaryLevel.Has j true (kind operator)
  | _ => True

def IsUnary : Expr τ → Prop
  | .assign _ _ _ | .assignProperty _ _ _ _ | .binary _ _ _ | .logical _ _ _ => False
  | _ => True

def IsPostfix : Expr τ → Prop
  | .unary _ _ => False
  | e => e.IsUnary

def IsNewArray : Expr τ → Prop
  | .newArray _ _ => True
  | _ => False

mutual

/-- The trees that are spelled without parentheses of their own: parentheses are nodes. -/
inductive Canonical : Expr τ → Prop where
  | literal {t : τ} (ht : (kind t).isLiteral = true) : Canonical (.literal t)
  | grouped {e : Expr τ} (h : Canonical e) : Canonical (.grouped e)
  | unary {op : τ} {e : Expr τ} (ho : (kind op).isUnaryOperator = true) (hu : e.IsUnary)
      (h : Canonical e) : Canonical (.unary op e)
  | binary {i : Nat} {op : τ} {l r : Expr τ} (ho : BinaryLevel.Has i false (kind op))
      (hl : l.BindsFrom i) (hr : r.BindsFrom (i + 1)) (h : Canonical l) (h' : Canonical r) :
      Canonical (.binary op l r)
  | logical {i : Nat} {op : τ} {l r : Expr τ} (ho : BinaryLevel.Has i true (kind op))
      (hl : l.BindsFrom i) (hr : r.BindsFrom (i + 1)) (h : Canonical l) (h' : Canonical r) :
      Canonical (.logical op l r)
  | assign {name op : τ} {e : Expr τ} (hn : kind name = .identifier)
      (ho : (kind op).isAssignment = true) (h : Canonical e) : Canonical (.assign name op e)
  | assignProperty {o : Expr τ} {name op : τ} {e : Expr τ} (hp : o.IsPostfix) (h : Canonical o)
      (hn : kind name = .identifier) (ho : (kind op).isAssignment = true) (h' : Canonical e) :
      Canonical (.assignProperty o name op e)
  | call {f : Expr τ} {args : List (Expr τ)} {paren : τ} (hp : f.IsPostfix) (h : Canonical f)
      (ha : ∀ a ∈ args, CanonicalArgument a) (hc : kind paren = .rightParen) :
      Canonical (.call f args paren)
  | property {o : Expr τ} {name : τ} (hp : o.IsPostfix) (h : Canonical o)
      (hn : kind name = .identifier) : Canonical (.property o name)
  | variable {name : τ} (hn : kind name = .identifier) : Canonical (.variable name false)
  | increment {name op : τ} (hn : kind name = .identifier) (ho : kind op = .plusPlus) :
      Canonical (.increment name op)
  | decrement {name op : τ} (hn : kind name = .identifier) (ho : kind op = .minusMinus) :
      Canonical (.decrement name op)
  /-- The sizes of a new array are as many as can be, so an index behind them is a size. -/
  | index {a i : Expr τ} (hp : a.IsPostfix) (hn : ¬ a.IsNewArray) (h : Canonical a)
      (h' : Canonical i) : Canonical (.index a i)
  | newArray {type : TypeExpr τ} {sizes : List (Expr τ)} (hn : sizes ≠ [])
      (hs : ∀ s ∈ sizes, Canonical s) : Canonical (.newArray type sizes)
  | newStruct {type : TypeExpr τ} : Canonical (.newStruct type)
  | functionType {type : TypeExpr τ} : Canonical (.functionType type)

/-- Arguments are expressions, or variables with a `ref`, which stand nowhere else. -/
inductive CanonicalArgument : Expr τ → Prop where
  | value {e : Expr τ} (h : Canonical e) : CanonicalArgument e
  | ref {name : τ} (hn : kind name = .identifier) : CanonicalArgument (.variable name true)

end

end Expr

namespace Grammar

variable {τ : Type} [SplitView τ]

/-- An argument: an expression, or `ref` and a name. -/
inductive ArgumentOver (inner : Expr τ → List τ → Prop) : Expr τ → List τ → Prop where
  | value {e : Expr τ} {us : List τ} (h : inner e us) : ArgumentOver inner e us
  | ref {t name : τ} (ht : kind t = .refWord) : ArgumentOver inner (.variable name true) [t, name]

/-- An expression in brackets. -/
inductive BracketedOver (inner : Expr τ → List τ → Prop) : Expr τ → List τ → Prop where
  | mk {l r : τ} {e : Expr τ} {us : List τ} (hl : kind l = .leftBracket) (h : inner e us)
      (hr : kind r = .rightBracket) : BracketedOver inner e (l :: us ++ [r])

/-- The type of a new array's elements. -/
inductive ElementOver (function : TypeExpr τ → List τ → Prop) : TypeExpr τ → List τ → Prop where
  | name {t : τ} (ht : namesType false (kind t) = true) : ElementOver function (.named t false) [t]
  | function {f : TypeExpr τ} {us : List τ} (h : function f us) : ElementOver function f us

/-- The tokens of an expression whose nested expressions are spelled by `inner`, and its function
types by `function`. -/
inductive YieldsOver (inner : Expr τ → List τ → Prop) (function : TypeExpr τ → List τ → Prop) :
    Expr τ → List τ → Prop where
  | literal (t : τ) : YieldsOver inner function (.literal t) [t]
  | grouped {l r : τ} {e : Expr τ} {us : List τ} (hl : kind l = .leftParen) (h : inner e us)
      (hr : kind r = .rightParen) : YieldsOver inner function (.grouped e) (l :: us ++ [r])
  | unary (op : τ) {e : Expr τ} {us : List τ} (h : inner e us) :
      YieldsOver inner function (.unary op e) (op :: us)
  /-- A bare `fun` is not followed by `<`. -/
  | binary {op : τ} {l r : Expr τ} {us vs : List τ} (h : YieldsOver inner function l us)
      (h' : YieldsOver inner function r vs) (hg : Guarded us [op]) :
      YieldsOver inner function (.binary op l r) (us ++ op :: vs)
  | logical {op : τ} {l r : Expr τ} {us vs : List τ} (h : YieldsOver inner function l us)
      (h' : YieldsOver inner function r vs) (hg : Guarded us [op]) :
      YieldsOver inner function (.logical op l r) (us ++ op :: vs)
  | assign (name op : τ) {e : Expr τ} {us : List τ} (h : inner e us) :
      YieldsOver inner function (.assign name op e) (name :: op :: us)
  | assignProperty {d : τ} (name op : τ) {o e : Expr τ} {us vs : List τ}
      (h : YieldsOver inner function o us) (hd : kind d = .dot) (h' : inner e vs) :
      YieldsOver inner function (.assignProperty o name op e) (us ++ d :: name :: op :: vs)
  | call {l : τ} (paren : τ) {f : Expr τ} {args : List (Expr τ)} {us vs : List τ}
      (h : YieldsOver inner function f us) (hl : kind l = .leftParen)
      (ha : Listed (ArgumentOver inner) args vs) :
      YieldsOver inner function (.call f args paren) (us ++ l :: vs ++ [paren])
  | property {d : τ} (name : τ) {o : Expr τ} {us : List τ} (h : YieldsOver inner function o us)
      (hd : kind d = .dot) : YieldsOver inner function (.property o name) (us ++ [d, name])
  | variable (name : τ) : YieldsOver inner function (.variable name false) [name]
  | increment (name op : τ) : YieldsOver inner function (.increment name op) [name, op]
  | decrement (name op : τ) : YieldsOver inner function (.decrement name op) [name, op]
  | index {a i : Expr τ} {us vs : List τ} (h : YieldsOver inner function a us)
      (hi : BracketedOver inner i vs) : YieldsOver inner function (.index a i) (us ++ vs)
  | newArray {t : τ} {element : TypeExpr τ} {sizes : List (Expr τ)} {us vs : List τ}
      (ht : kind t = .newWord) (h : ElementOver function element us)
      (hs : Sequence (BracketedOver inner) sizes vs) :
      YieldsOver inner function (.newArray (element.arrays sizes.length false) sizes)
        (t :: us ++ vs)
  | newStruct {t name l r : τ} (ht : kind t = .newWord) (hn : namesType false (kind name) = true)
      (hl : kind l = .leftParen) (hr : kind r = .rightParen) :
      YieldsOver inner function (.newStruct (.named name false)) [t, name, l, r]
  | functionType {f : TypeExpr τ} {us : List τ} (h : function f us) :
      YieldsOver inner function (.functionType f) us

/-- The tokens of an expression that nests at most so many levels deep. The expression itself is one
level, and every expression and every operand of a prefix operator within it is one more. -/
def Yields : Nat → Expr τ → List τ → Prop
  | 0 => fun _ _ => False
  | n + 1 => YieldsOver (Yields n) (IsFunctionType n)

def Spells (levels : Nat) (e : Expr τ) (us : List τ) : Prop := e.Canonical ∧ Yields levels e us

end Grammar

namespace BinaryLevel

theorem all_pairwise : all.Pairwise fun l m => ∀ k ∈ l.operators, k ∉ m.operators := by decide

theorem Has.unique {i j : Nat} {b c : Bool} {k : Kind} (h : Has i b k) (h' : Has j c k) :
    i = j := by
  obtain ⟨l, hl, -, hk⟩ := h
  obtain ⟨m, hm, -, hk'⟩ := h'
  obtain ⟨hi, rfl⟩ := List.getElem?_eq_some_iff.1 hl
  obtain ⟨hj, rfl⟩ := List.getElem?_eq_some_iff.1 hm
  have hp := List.pairwise_iff_getElem.1 all_pairwise
  rcases Nat.lt_trichotomy i j with hlt | rfl | hlt
  · exact absurd hk' (hp i j hi hj hlt k hk)
  · rfl
  · exact absurd hk (hp j i hj hi hlt k hk')

def anyHas (levels : List BinaryLevel) (k : Kind) : Bool := levels.any (·.operators.contains k)

theorem anyHas_drop_iff {i : Nat} {k : Kind} :
    anyHas (all.drop i) k = true ↔ ∃ j b, i ≤ j ∧ Has j b k := by
  simp only [anyHas, List.any_eq_true, List.contains_iff_mem]
  constructor
  · rintro ⟨level, hm, hk⟩
    obtain ⟨n, hn⟩ := List.mem_iff_getElem?.1 hm
    rw [List.getElem?_drop] at hn
    exact ⟨i + n, level.logical, by omega, level, hn, rfl, hk⟩
  · rintro ⟨j, b, hij, level, hl, -, hk⟩
    refine ⟨level, List.mem_iff_getElem?.2 ⟨j - i, ?_⟩, hk⟩
    rw [List.getElem?_drop, show i + (j - i) = j by omega, hl]

theorem Has.not_anyHas {i : Nat} {b : Bool} {k : Kind} (h : Has i b k) :
    anyHas (all.drop (i + 1)) k = false := by
  rw [Bool.eq_false_iff]
  intro ha
  obtain ⟨j, c, hj, h'⟩ := anyHas_drop_iff.1 ha
  have := h.unique h'
  omega

theorem Has.anyHas {i : Nat} {b : Bool} {k : Kind} (h : Has i b k) : anyHas all k = true :=
  anyHas_drop_iff.2 ⟨i, b, Nat.zero_le i, h⟩

theorem drop_cons {i : Nat} {level : BinaryLevel} {tighter : List BinaryLevel}
    (h : all.drop i = level :: tighter) : all[i]? = some level ∧ all.drop (i + 1) = tighter := by
  constructor
  · rw [← List.head?_drop, h, List.head?_cons]
  · rw [← List.tail_drop, h, List.tail_cons]

end BinaryLevel

namespace Expr

variable {τ : Type} [TokenView τ] {e : Expr τ} {i j : Nat}

omit [TokenView τ] in
theorem IsPostfix.isUnary (h : e.IsPostfix) : e.IsUnary := by
  cases e <;> first | exact h | exact trivial

theorem IsUnary.bindsFrom (h : e.IsUnary) (i : Nat) : e.BindsFrom i := by
  cases e <;> first | exact h.elim | exact trivial

theorem BindsFrom.mono (h : e.BindsFrom j) (hij : i ≤ j) : e.BindsFrom i := by
  cases e with
  | binary _ _ _ | logical _ _ _ =>
    obtain ⟨k, hk, ho⟩ := h
    exact ⟨k, by omega, ho⟩
  | assign _ _ _ | assignProperty _ _ _ _ => exact h.elim
  | _ => trivial

theorem BindsFrom.isUnary (h : e.BindsFrom i) (hi : BinaryLevel.all.drop i = []) : e.IsUnary := by
  have hnone : ∀ {j : Nat} {b : Bool} {k : Kind}, i ≤ j → ¬ BinaryLevel.Has j b k := by
    intro j b k hij ho
    have ha := BinaryLevel.anyHas_drop_iff.2 ⟨j, b, hij, ho⟩
    rw [hi] at ha
    cases ha
  cases e with
  | binary _ _ _ | logical _ _ _ =>
    obtain ⟨k, hk, ho⟩ := h
    exact hnone hk ho
  | assign _ _ _ | assignProperty _ _ _ _ => exact h.elim
  | _ => trivial

end Expr

namespace Grammar

variable {τ : Type} [SplitView τ] {inner : Expr τ → List τ → Prop}
  {function : TypeExpr τ → List τ → Prop} {e : Expr τ} {us : List τ}

/-- A canonical expression of some shape, its tokens, and what comes behind them. -/
structure Phrase (inner : Expr τ → List τ → Prop) (function : TypeExpr τ → List τ → Prop)
    (Shape : Expr τ → Prop) (e : Expr τ) (us rest : List τ) : Prop where
  canonical : e.Canonical
  shape : Shape e
  yields : YieldsOver inner function e us
  guarded : Guarded us rest

theorem Phrase.imp {Shape Shape' : Expr τ → Prop} {rest : List τ}
    (h : Phrase inner function Shape e us rest) (hs : ∀ e, Shape e → Shape' e) :
    Phrase inner function Shape' e us rest :=
  ⟨h.canonical, hs e h.shape, h.yields, h.guarded⟩

def startsPrimary (k : Kind) : Bool :=
  k.isLiteral || k == .leftParen || k == .identifier || k == .newWord || k == .funWord

def startsExpression (k : Kind) : Bool := startsPrimary k || k.isUnaryOperator

theorem YieldsOver.ne_nil (hf : BeginsFun function)
    (h : YieldsOver inner function e us) : us ≠ [] := by
  cases h with
  | index _ hi => cases hi; simp
  | functionType h => exact (hf _ _ h).ne_nil
  | _ => simp

theorem YieldsOver.begins_primary (hf : BeginsFun function)
    (h : YieldsOver inner function e us) (hc : e.Canonical) (hp : e.IsPostfix) :
    Begins startsPrimary us := by
  induction h with
  | literal t =>
    cases hc with
    | literal ht => exact ⟨t, [], rfl, by simp [startsPrimary, ht]⟩
  | grouped hl _ _ => exact ⟨_, _, rfl, by simp [startsPrimary, hl]⟩
  | call _ _ _ _ ih =>
    cases hc with
    | call hp hc _ _ => simpa using (ih hc hp).append _
  | property _ _ _ ih =>
    cases hc with
    | property hp hc _ => exact (ih hc hp).append _
  | «variable» name =>
    cases hc with
    | «variable» hn => exact ⟨name, [], rfl, by simp [startsPrimary, hn]⟩
  | increment name op =>
    cases hc with
    | increment hn _ => exact ⟨name, [op], rfl, by simp [startsPrimary, hn]⟩
  | decrement name op =>
    cases hc with
    | decrement hn _ => exact ⟨name, [op], rfl, by simp [startsPrimary, hn]⟩
  | index _ _ ih =>
    cases hc with
    | index hp _ hc _ => exact (ih hc hp).append _
  | newArray ht _ _ => exact ⟨_, _, rfl, by simp [startsPrimary, ht]⟩
  | newStruct ht _ _ _ => exact ⟨_, _, rfl, by simp [startsPrimary, ht]⟩
  | functionType h =>
    refine (hf _ _ h).imp fun k hk => ?_
    simp only [beq_iff_eq] at hk
    simp [startsPrimary, hk]
  | unary _ _ | binary _ _ _ _ _ | logical _ _ _ _ _ | assign _ _ _
    | assignProperty _ _ _ _ _ _ => exact hp.elim

theorem YieldsOver.begins (hf : BeginsFun function)
    (h : YieldsOver inner function e us) (hc : e.Canonical) : Begins startsExpression us := by
  have primary : ∀ {e : Expr τ} {us : List τ}, YieldsOver inner function e us → e.Canonical →
      e.IsPostfix → Begins startsExpression us := by
    intro e us h hc hp
    exact (h.begins_primary hf hc hp).imp fun k hk => by simp [startsExpression, hk]
  induction h with
  | unary op _ =>
    cases hc with
    | unary ho _ _ => exact ⟨op, _, rfl, by simp [startsExpression, ho]⟩
  | binary _ _ _ ih _ =>
    cases hc with
    | binary _ _ _ hl _ => exact (ih hl).append _
  | logical _ _ _ ih _ =>
    cases hc with
    | logical _ _ _ hl _ => exact (ih hl).append _
  | assign name op _ =>
    cases hc with
    | assign hn _ _ => exact ⟨name, _, rfl, by simp [startsExpression, startsPrimary, hn]⟩
  | assignProperty _ _ h _ _ _ =>
    cases hc with
    | assignProperty hp hc _ _ _ => exact (primary h hc hp).append _
  | _ =>
    refine primary ?_ hc trivial
    constructor <;> assumption

theorem Spells.begins {n : Nat} (h : Spells n e us) : Begins startsExpression us := by
  cases n with
  | zero => exact h.2.elim
  | succ n => exact YieldsOver.begins (beginsFun n) h.2 h.1

end Grammar

end Seanet
