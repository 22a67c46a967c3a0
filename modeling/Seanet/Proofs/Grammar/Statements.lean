import Seanet.Parser.Stmt
import Seanet.Proofs.Grammar.ExpressionComplete

set_option autoImplicit false

namespace Seanet

namespace Grammar

open TokenView (kind unwrittenTrue)
open Seanet.Parser

variable {τ : Type} [SplitView τ]

/-- An expression in parentheses: a condition. -/
inductive ParenthesizedOver (E : Expr τ → List τ → Prop) : Expr τ → List τ → Prop where
  | mk {l r : τ} {e : Expr τ} {us : List τ} (hl : kind l = .leftParen) (h : E e us)
      (hr : kind r = .rightParen) : ParenthesizedOver E e (l :: us ++ [r])

/-- A declaration, or an expression that does not begin with `fun`, and a `;`. -/
inductive SimpleOver (E : Expr τ → List τ → Prop) (T : TypeExpr τ → List τ → Prop) :
    Stmt τ → List τ → Prop where
  | var {t name q s : τ} {e : Expr τ} {us : List τ} (ht : kind t = .varWord)
      (hn : kind name = .identifier) (hq : kind q = .equal) (h : E e us)
      (hs : kind s = .semicolon) :
      SimpleOver E T (.define (.named t false) name e) (t :: name :: q :: us ++ [s])
  | declare {name s : τ} {type : TypeExpr τ} {us : List τ} (h : T type us)
      (hn : kind name = .identifier) (hs : kind s = .semicolon) :
      SimpleOver E T (.declare type name) (us ++ [name, s])
  | define {name q s : τ} {type : TypeExpr τ} {e : Expr τ} {us vs : List τ} (h : T type us)
      (hn : kind name = .identifier) (hq : kind q = .equal) (he : E e vs)
      (hs : kind s = .semicolon) :
      SimpleOver E T (.define type name e) (us ++ name :: q :: vs ++ [s])
  | expr {s : τ} {e : Expr τ} {us : List τ} (h : E e us) (hf : ¬ Begins (· == .funWord) us)
      (hs : kind s = .semicolon) : SimpleOver E T (.expr e) (us ++ [s])

/-- What a `for` begins with, up to the first `;`. -/
inductive InitializerOver (E : Expr τ → List τ → Prop) (T : TypeExpr τ → List τ → Prop) :
    Option (Stmt τ) → List τ → Prop where
  | none {s : τ} (hs : kind s = .semicolon) : InitializerOver E T none [s]
  | some {s : Stmt τ} {us : List τ} (h : SimpleOver E T s us) : InitializerOver E T (some s) us

/-- The condition of a `for`, and the `;` behind it. A missing one is a `true` that is not written,
at the place of the `;`. -/
inductive LoopConditionOver (E : Expr τ → List τ → Prop) : Expr τ → List τ → Prop where
  | missing {s : τ} (hs : kind s = .semicolon) :
      LoopConditionOver E (.literal (unwrittenTrue s)) [s]
  | written {s : τ} {e : Expr τ} {us : List τ} (h : E e us) (hs : kind s = .semicolon) :
      LoopConditionOver E e (us ++ [s])

/-- The last part of a `for`. -/
inductive IncrementOver (E : Expr τ → List τ → Prop) : Option (Expr τ) → List τ → Prop where
  | none : IncrementOver E none []
  | some {e : Expr τ} {us : List τ} (h : E e us) : IncrementOver E (some e) us

/-- An `if`, its condition and its block, and perhaps an `else` with a block or with another
conditional. -/
inductive ConditionalOver (E : Expr τ → List τ → Prop) (B : List (Stmt τ) → List τ → Prop)
    (C : Stmt τ → List τ → Prop) : Stmt τ → List τ → Prop where
  | ifThen {t : τ} {e : Expr τ} {body : List (Stmt τ)} {us vs : List τ} (ht : kind t = .ifWord)
      (h : ParenthesizedOver E e us) (hb : B body vs) :
      ConditionalOver E B C (.ifThen e body) (t :: us ++ vs)
  | ifElse {t w : τ} {e : Expr τ} {body other : List (Stmt τ)} {us vs ws : List τ}
      (ht : kind t = .ifWord) (h : ParenthesizedOver E e us) (hb : B body vs)
      (hw : kind w = .elseWord) (ho : B other ws) :
      ConditionalOver E B C (.ifElse e body (.block other)) (t :: us ++ vs ++ w :: ws)
  | elseIf {t w : τ} {e : Expr τ} {body : List (Stmt τ)} {other : Stmt τ} {us vs ws : List τ}
      (ht : kind t = .ifWord) (h : ParenthesizedOver E e us) (hb : B body vs)
      (hw : kind w = .elseWord) (ho : C other ws) :
      ConditionalOver E B C (.ifElse e body other) (t :: us ++ vs ++ w :: ws)

/-- A statement over expressions, types, blocks and conditionals. -/
inductive StatementOver (E : Expr τ → List τ → Prop) (T : TypeExpr τ → List τ → Prop)
    (B : List (Stmt τ) → List τ → Prop) (C : Stmt τ → List τ → Prop) :
    Stmt τ → List τ → Prop where
  | simple {s : Stmt τ} {us : List τ} (h : SimpleOver E T s us) : StatementOver E T B C s us
  | block {body : List (Stmt τ)} {us : List τ} (h : B body us) :
      StatementOver E T B C (.block body) us
  | conditional {s : Stmt τ} {us : List τ} (h : C s us) : StatementOver E T B C s us
  | whileLoop {t : τ} {e : Expr τ} {body : List (Stmt τ)} {us vs : List τ}
      (ht : kind t = .whileWord) (h : ParenthesizedOver E e us) (hb : B body vs) :
      StatementOver E T B C (.whileLoop e body) (t :: us ++ vs)
  /-- The increment is spelled before the body and comes behind it in the tree. -/
  | forLoop {t l r : τ} {initializer : Option (Stmt τ)} {test : Expr τ}
      {increment : Option (Expr τ)} {body : List (Stmt τ)} {us vs ws xs : List τ}
      (ht : kind t = .forWord) (hl : kind l = .leftParen) (hi : InitializerOver E T initializer us)
      (hc : LoopConditionOver E test vs) (hn : IncrementOver E increment ws)
      (hr : kind r = .rightParen) (hb : B body xs) :
      StatementOver E T B C
        (.block (initializer.toList ++ [.whileLoop test (body ++ increment.toList.map .expr)]))
        (t :: l :: us ++ vs ++ ws ++ r :: xs)
  | returnVoid {t s : τ} (ht : kind t = .returnWord) (hs : kind s = .semicolon) :
      StatementOver E T B C (.returnVoid t) [t, s]
  | returnValue {t s : τ} {e : Expr τ} {us : List τ} (ht : kind t = .returnWord) (h : E e us)
      (hs : kind s = .semicolon) : StatementOver E T B C (.returnValue t e) (t :: us ++ [s])

/-- Statements in braces. -/
inductive BlockOver (S : Stmt τ → List τ → Prop) : List (Stmt τ) → List τ → Prop where
  | mk {l r : τ} {body : List (Stmt τ)} {us : List τ} (hl : kind l = .leftBrace)
      (h : Sequence S body us) (hr : kind r = .rightBrace) : BlockOver S body (l :: us ++ [r])

def StatementBelow (n : Nat) (B : List (Stmt τ) → List τ → Prop) (C : Stmt τ → List τ → Prop) :
    Stmt τ → List τ → Prop :=
  StatementOver (Spells n) (IsType n false) B C

mutual

def IsBlock : Nat → List (Stmt τ) → List τ → Prop
  | 0 => fun _ _ => False
  | n + 1 => BlockOver (StatementBelow n (IsBlock n) (IsConditional n))

/-- The conditionals that nest at most so many levels deep. Their blocks are one level, and so is a
conditional behind an `else`. -/
def IsConditional : Nat → Stmt τ → List τ → Prop
  | 0 => fun _ _ => False
  | n + 1 => ConditionalOver (Spells (n + 1))
      (BlockOver (StatementBelow n (IsBlock n) (IsConditional n))) (IsConditional n)

end

def IsStatement (n : Nat) : Stmt τ → List τ → Prop :=
  StatementBelow n (IsBlock n) (IsConditional n)

variable {E : Expr τ → List τ → Prop} {T : TypeExpr τ → List τ → Prop}
  {B : List (Stmt τ) → List τ → Prop} {C : Stmt τ → List τ → Prop} {expression : Parser τ (Expr τ)}
  {type : Parser τ (TypeExpr τ)} {block : Parser τ (List (Stmt τ))}
  {conditional : Parser τ (Stmt τ)}

theorem varDeclaration_sound (he : Sound expression fun e us _ => E e us) {t : τ}
    (ht : kind t = .varWord) :
    Sound (varDeclaration expression t) fun s us _ => SimpleOver E T s (t :: us) := by
  intro ts rest s h
  simp only [varDeclaration, bind_ok_iff, pure_ok_iff] at h
  obtain ⟨name, m₁, h₁, q, m₂, h₂, e, m₃, h₃, s, m₄, h₄, rfl, rfl⟩ := h
  obtain ⟨rfl, hn⟩ := expect_ok h₁
  obtain ⟨rfl, hq⟩ := expect_ok h₂
  obtain ⟨us, hu, hE⟩ := he h₃
  obtain ⟨rfl, hs⟩ := expect_ok h₄
  exact ⟨name :: q :: us ++ [s], .token name (.token q (hu.append (.single s _))),
    .var ht hn hq hE hs⟩

theorem declaration_sound (he : Sound expression fun e us _ => E e us)
    (ht : Sound type fun t us _ => T t us) :
    Sound (declaration expression type) fun s us _ => SimpleOver E T s us := by
  intro ts rest s h
  rw [declaration, bind_ok_iff] at h
  obtain ⟨t, m₁, h₁, h⟩ := h
  obtain ⟨us, hu, hT⟩ := ht h₁
  rw [bind_ok_iff] at h
  obtain ⟨name, m₂, h₂, h⟩ := h
  obtain ⟨rfl, hn⟩ := expect_ok h₂
  rw [bind_ok_iff] at h
  obtain ⟨o, m₃, h₃, h⟩ := h
  obtain ⟨rfl, rfl, -⟩ | ⟨q, rfl, rfl, hq⟩ := accept_ok h₃
  · simp only [bind_ok_iff, pure_ok_iff] at h
    obtain ⟨s, m₄, h₄, rfl, rfl⟩ := h
    obtain ⟨rfl, hs⟩ := expect_ok h₄
    exact ⟨us ++ [name, s], hu.append (.token name (.single s _)), .declare hT hn hs⟩
  · simp only [bind_ok_iff, pure_ok_iff] at h
    obtain ⟨e, m₄, h₄, s, m₅, h₅, rfl, rfl⟩ := h
    obtain ⟨vs, hv, hE⟩ := he h₄
    obtain ⟨rfl, hs⟩ := expect_ok h₅
    refine ⟨us ++ name :: q :: vs ++ [s], ?_, .define hT hn (by simpa using hq) hE hs⟩
    exact (hu.append (.token name (.token q hv))).append (.single s _)

theorem beginsDeclaration_fun {t : τ} {ts : List τ} (ht : kind t = .funWord) :
    beginsDeclaration ((t :: ts).map kind) = true := by
  rw [List.map_cons, ht]
  rfl

theorem expressionStatement_sound (he : Sound expression fun e us _ => E e us) {ts rest : List τ}
    {s : Stmt τ} (hd : beginsDeclaration (ts.map kind) = false)
    (h : expressionStatement expression ts = .ok (s, rest)) :
    ∃ us, Reads ts us rest ∧ SimpleOver E T s us := by
  simp only [expressionStatement, bind_ok_iff, pure_ok_iff] at h
  obtain ⟨e, m₁, h₁, s, m₂, h₂, rfl, rfl⟩ := h
  obtain ⟨us, hu, hE⟩ := he h₁
  obtain ⟨rfl, hs⟩ := expect_ok h₂
  refine ⟨us ++ [s], hu.append (.single s _), .expr hE ?_ hs⟩
  intro hf
  obtain ⟨t, mid, rfl, ht⟩ := hf.stream hu rfl
  rw [beginsDeclaration_fun (by simpa using ht)] at hd
  cases hd

theorem simpleStatement_sound (he : Sound expression fun e us _ => E e us)
    (ht : Sound type fun t us _ => T t us) :
    Sound (simpleStatement expression type) fun s us _ => SimpleOver E T s us := by
  intro ts rest s h
  rw [simpleStatement, bind_ok_iff] at h
  obtain ⟨o, m₁, h₁, h⟩ := h
  obtain ⟨rfl, rfl, -⟩ | ⟨t, rfl, rfl, hv⟩ := accept_ok h₁
  · obtain ⟨b, m₂, h₂, h⟩ := bind_ok_iff.1 h
    simp only [seesDeclaration, Except.ok.injEq, Prod.mk.injEq] at h₂
    obtain ⟨rfl, rfl⟩ := h₂
    cases hd : beginsDeclaration (m₁.map kind) with
    | true =>
      rw [hd] at h
      exact declaration_sound he ht h
    | false =>
      rw [hd] at h
      exact expressionStatement_sound he hd h
  · obtain ⟨us, hu, hs⟩ := varDeclaration_sound he (by simpa using hv) h
    exact ⟨t :: us, .token t hu, hs⟩

theorem condition_sound (he : Sound expression fun e us _ => E e us) (keyword : String) :
    Sound (condition expression keyword) fun e us _ => ParenthesizedOver E e us := by
  intro ts rest e h
  simp only [condition, bind_ok_iff, pure_ok_iff] at h
  obtain ⟨l, m₁, h₁, e, m₂, h₂, r, m₃, h₃, rfl, rfl⟩ := h
  obtain ⟨rfl, hl⟩ := expect_ok h₁
  obtain ⟨us, hu, hE⟩ := he h₂
  obtain ⟨rfl, hr⟩ := expect_ok h₃
  exact ⟨l :: us ++ [r], .token l (hu.append (.single r _)), .mk hl hE hr⟩

theorem whileOver_sound (he : Sound expression fun e us _ => E e us)
    (hb : Sound block fun b us _ => B b us) {t : τ} (ht : kind t = .whileWord) :
    Sound (whileOver expression block) fun s us _ => StatementOver E T B C s (t :: us) := by
  intro ts rest s h
  simp only [whileOver, bind_ok_iff, pure_ok_iff] at h
  obtain ⟨e, m₁, h₁, body, m₂, h₂, rfl, rfl⟩ := h
  obtain ⟨us, hu, hE⟩ := condition_sound he _ h₁
  obtain ⟨vs, hv, hB⟩ := hb h₂
  exact ⟨us ++ vs, hu.append hv, .whileLoop ht hE hB⟩

theorem returnOver_sound (he : Sound expression fun e us _ => E e us) {t : τ}
    (ht : kind t = .returnWord) :
    Sound (returnOver expression t) fun s us _ => StatementOver E T B C s (t :: us) := by
  intro ts rest s h
  rw [returnOver, bind_ok_iff] at h
  obtain ⟨o, m₁, h₁, h⟩ := h
  obtain ⟨rfl, rfl, -⟩ | ⟨s, rfl, rfl, hs⟩ := accept_ok h₁
  · simp only [bind_ok_iff, pure_ok_iff] at h
    obtain ⟨e, m₂, h₂, s, m₃, h₃, rfl, rfl⟩ := h
    obtain ⟨us, hu, hE⟩ := he h₂
    obtain ⟨rfl, hs⟩ := expect_ok h₃
    exact ⟨us ++ [s], hu.append (.single s _), .returnValue ht hE hs⟩
  · obtain ⟨rfl, rfl⟩ := pure_ok_iff.1 h
    exact ⟨[s], .single s _, .returnVoid ht (by simpa using hs)⟩

theorem ifWith_sound (he : Sound expression fun e us _ => E e us)
    (hb : Sound block fun b us _ => B b us)
    (hc : SoundFrom (· == .ifWord) conditional fun s us _ => C s us) :
    SoundFrom (· == .ifWord) (ifWith expression block conditional) fun s us _ =>
      ConditionalOver E B C s us := by
  intro ts rest s hif h
  obtain ⟨t, ts, rfl, ht⟩ := not_stops_iff.1 hif
  have ht : kind t = .ifWord := by simpa using ht
  rw [ifWith, bind_of_ok (accept_cons (by simp [ht])), ifOver, bind_ok_iff] at h
  obtain ⟨e, m₁, h₁, h⟩ := h
  obtain ⟨us, hu, hE⟩ := condition_sound he _ h₁
  rw [bind_ok_iff] at h
  obtain ⟨body, m₂, h₂, h⟩ := h
  obtain ⟨vs, hv, hB⟩ := hb h₂
  have hread : Reads (t :: ts) (t :: us ++ vs) m₂ := .token t (hu.append hv)
  rw [bind_ok_iff] at h
  obtain ⟨o, m₃, h₃, h⟩ := h
  obtain ⟨rfl, rfl, -⟩ | ⟨w, rfl, rfl, hw⟩ := accept_ok h₃
  · obtain ⟨rfl, rfl⟩ := pure_ok_iff.1 h
    exact ⟨t :: us ++ vs, hread, .ifThen ht hE hB⟩
  have hw : kind w = .elseWord := by simpa using hw
  obtain ⟨b, m₄, h₄, h⟩ := bind_ok_iff.1 h
  obtain ⟨rfl, ⟨rfl, hif⟩ | ⟨rfl, -⟩⟩ := sees_ok h₄
  · simp only [if_true, bind_ok_iff, pure_ok_iff] at h
    obtain ⟨other, m₅, h₅, rfl, rfl⟩ := h
    obtain ⟨ws, hw', hC⟩ := hc hif h₅
    exact ⟨_, hread.append (.token w hw'), .elseIf ht hE hB hw hC⟩
  · simp only [Bool.false_eq_true, if_false, bind_ok_iff, pure_ok_iff] at h
    obtain ⟨other, m₅, h₅, rfl, rfl⟩ := h
    obtain ⟨ws, hw', hB'⟩ := hb h₅
    exact ⟨_, hread.append (.token w hw'), .ifElse ht hE hB hw hB'⟩

def forInitializer (expression : Parser τ (Expr τ)) (type : Parser τ (TypeExpr τ)) :
    Parser τ (Option (Stmt τ)) := do
  match ← accept (· == .semicolon) with
  | some _ => pure none
  | none => some <$> simpleStatement expression type

def forIncrement (expression : Parser τ (Expr τ)) : Parser τ (Option (Expr τ)) := do
  if ← sees (· == .rightParen) then pure none else some <$> expression

theorem forInitializer_bind {α : Type} (expression : Parser τ (Expr τ))
    (type : Parser τ (TypeExpr τ)) (k : Option (Stmt τ) → Parser τ α) :
    forInitializer expression type >>= k = (do
      match ← accept (· == .semicolon) with
      | some _ => pure none >>= k
      | none => (some <$> simpleStatement expression type) >>= k) := by
  rw [forInitializer, bind_bind]
  congr 1
  funext o
  cases o <;> rfl

theorem forIncrement_bind {α : Type} (expression : Parser τ (Expr τ))
    (k : Option (Expr τ) → Parser τ α) :
    forIncrement expression >>= k = (do
      if ← sees (· == .rightParen) then pure none >>= k else (some <$> expression) >>= k) := by
  rw [forIncrement, bind_bind]
  congr 1
  funext b
  cases b <;> rfl

theorem forOver_eq (expression : Parser τ (Expr τ)) (type : Parser τ (TypeExpr τ))
    (block : Parser τ (List (Stmt τ))) : forOver expression type block = (do
      let _ ← expect .leftParen .forOpening
      let initializer ← forInitializer expression type
      let test ← forCondition expression
      let _ ← expect .semicolon .loopConditionEnd
      let increment ← forIncrement expression
      let _ ← expect .rightParen .forClosing
      let body ← block
      return forTree initializer test increment body) := by
  simp only [forInitializer_bind, forIncrement_bind]
  rfl

omit [SplitView τ] in
theorem forTree_eq (initializer : Option (Stmt τ)) (test : Expr τ) (increment : Option (Expr τ))
    (body : List (Stmt τ)) : forTree initializer test increment body =
      .block (initializer.toList ++ [.whileLoop test (body ++ increment.toList.map .expr)]) := by
  cases increment <;> rfl

theorem forCondition_missing (expression : Parser τ (Expr τ)) {s : τ} {ts : List τ}
    (hs : kind s = .semicolon) :
    forCondition expression (s :: ts) = .ok (.literal (unwrittenTrue s), s :: ts) := by
  refine (@bind_of_ok _ _ _ _ _ _ (s :: ts) (some s) ?_).trans rfl
  change Except.ok (if kind s = .semicolon then some s else none, s :: ts) = _
  rw [if_pos hs]

theorem forCondition_written (expression : Parser τ (Expr τ)) {ts : List τ}
    (hs : Stops (· == .semicolon) ts) : forCondition expression ts = expression ts := by
  cases ts with
  | nil => rfl
  | cons t ts =>
    have ht : kind t ≠ .semicolon := by simpa using hs
    refine (@bind_of_ok _ _ _ _ _ _ (t :: ts) none ?_).trans rfl
    change Except.ok (if kind t = .semicolon then some t else none, t :: ts) = _
    rw [if_neg ht]

theorem forInitializer_sound (he : Sound expression fun e us _ => E e us)
    (ht : Sound type fun t us _ => T t us) :
    Sound (forInitializer expression type) fun o us _ => InitializerOver E T o us := by
  intro ts rest o h
  rw [forInitializer, bind_ok_iff] at h
  obtain ⟨s, m, hs, h⟩ := h
  obtain ⟨rfl, rfl, -⟩ | ⟨s, rfl, rfl, hk⟩ := accept_ok hs
  · obtain ⟨i, hi, rfl⟩ := map_ok_iff.1 h
    obtain ⟨us, hu, hi⟩ := simpleStatement_sound he ht hi
    exact ⟨us, hu, .some hi⟩
  · obtain ⟨rfl, rfl⟩ := pure_ok_iff.1 h
    exact ⟨[s], .single s _, .none (by simpa using hk)⟩

theorem forCondition_sound (he : Sound expression fun e us _ => E e us) {ts mid rest : List τ}
    {test : Expr τ} {s : τ} {what : Expected} (h : forCondition expression ts = .ok (test, mid))
    (h' : expect .semicolon what mid = .ok (s, rest)) :
    ∃ us, Reads ts us rest ∧ LoopConditionOver E test us := by
  obtain ⟨rfl, hs⟩ := expect_ok h'
  by_cases hw : Stops (· == .semicolon) ts
  · rw [forCondition_written expression hw] at h
    obtain ⟨us, hu, hE⟩ := he h
    exact ⟨us ++ [s], hu.append (.single s rest), .written hE hs⟩
  · obtain ⟨t, ts, rfl, ht⟩ := not_stops_iff.1 hw
    rw [forCondition_missing expression (by simpa using ht)] at h
    simp only [Except.ok.injEq, Prod.mk.injEq, List.cons.injEq] at h
    obtain ⟨rfl, rfl, rfl⟩ := h
    exact ⟨[t], .single t ts, .missing hs⟩

theorem forIncrement_sound (he : Sound expression fun e us _ => E e us) :
    Sound (forIncrement expression) fun o us _ => IncrementOver E o us := by
  intro ts rest o h
  rw [forIncrement, bind_ok_iff] at h
  obtain ⟨b, m, hb, h⟩ := h
  obtain ⟨rfl, ⟨rfl, -⟩ | ⟨rfl, -⟩⟩ := sees_ok hb
  · obtain ⟨rfl, rfl⟩ := pure_ok_iff.1 h
    exact ⟨[], .nil _, .none⟩
  · obtain ⟨e, he', rfl⟩ := map_ok_iff.1 h
    obtain ⟨us, hu, hE⟩ := he he'
    exact ⟨us, hu, .some hE⟩

theorem forOver_sound (he : Sound expression fun e us _ => E e us)
    (htype : Sound type fun t us _ => T t us) (hb : Sound block fun b us _ => B b us) {t : τ}
    (ht : kind t = .forWord) :
    Sound (forOver expression type block) fun s us _ => StatementOver E T B C s (t :: us) := by
  intro ts rest s h
  rw [forOver_eq] at h
  simp only [bind_ok_iff, pure_ok_iff] at h
  obtain ⟨l, m₁, h₁, initializer, m₂, h₂, test, m₃, h₃, s, m₄, h₄, increment, m₅, h₅, r, m₆, h₆,
    body, m₇, h₇, rfl, rfl⟩ := h
  obtain ⟨rfl, hl⟩ := expect_ok h₁
  obtain ⟨us, hu, hi⟩ := forInitializer_sound he htype h₂
  obtain ⟨vs, hv, hc⟩ := forCondition_sound he h₃ h₄
  obtain ⟨ws, hw, hn⟩ := forIncrement_sound he h₅
  obtain ⟨rfl, hr⟩ := expect_ok h₆
  obtain ⟨xs, hx, hB⟩ := hb h₇
  refine ⟨l :: us ++ vs ++ ws ++ r :: xs, ?_, ?_⟩
  · exact (((hu.token l).append hv).append hw).append (.token r hx)
  · rw [forTree_eq]
    exact .forLoop ht hl hi hc hn hr hB

theorem statementOver_sound (he : Sound expression fun e us _ => E e us)
    (htype : Sound type fun t us _ => T t us) (hb : Sound block fun b us _ => B b us)
    (hc : SoundFrom (· == .ifWord) conditional fun s us _ => C s us) :
    Sound (statementOver expression type block conditional) fun s us _ =>
      StatementOver E T B C s us := by
  have simple : ∀ {ts rest s}, simpleStatement expression type ts = .ok (s, rest) →
      ∃ us, Reads ts us rest ∧ StatementOver E T B C s us := by
    intro ts rest s h
    obtain ⟨us, hu, hs⟩ := simpleStatement_sound he htype h
    exact ⟨us, hu, .simple hs⟩
  intro ts rest s h
  cases ts with
  | nil => exact simple h
  | cons t ts =>
    simp only [statementOver] at h
    split at h
    · obtain ⟨body, hbody, rfl⟩ := map_ok_iff.1 h
      obtain ⟨us, hu, hB⟩ := hb hbody
      exact ⟨us, hu, .block hB⟩
    · next hk =>
      obtain ⟨us, hu, hC⟩ := hc (by simp [hk]) h
      exact ⟨us, hu, .conditional hC⟩
    · next hk =>
      obtain ⟨us, hu, hs⟩ := whileOver_sound he hb hk h
      exact ⟨t :: us, .token t hu, hs⟩
    · next hk =>
      obtain ⟨us, hu, hs⟩ := forOver_sound he htype hb hk h
      exact ⟨t :: us, .token t hu, hs⟩
    · next hk =>
      obtain ⟨us, hu, hs⟩ := returnOver_sound he hk h
      exact ⟨t :: us, .token t hu, hs⟩
    · exact simple h

theorem IsBlock.begins {n : Nat} {body : List (Stmt τ)} {us : List τ} (h : IsBlock n body us) :
    Begins (· == .leftBrace) us := by
  cases n with
  | zero => exact h.elim
  | succ n =>
    obtain ⟨hl, -, -⟩ := h
    exact ⟨_, _, rfl, by simp [hl]⟩

theorem IsConditional.begins {n : Nat} {s : Stmt τ} {us : List τ} (h : IsConditional n s us) :
    Begins (· == .ifWord) us := by
  cases n with
  | zero => exact h.elim
  | succ n =>
    cases h with
    | ifThen ht _ _ => exact ⟨_, _, rfl, by simp [ht]⟩
    | ifElse ht _ _ _ _ => exact ⟨_, _, rfl, by simp [ht]⟩
    | elseIf ht _ _ _ _ => exact ⟨_, _, rfl, by simp [ht]⟩

theorem IsStatement.ne_nil {n : Nat} {s : Stmt τ} {us : List τ} (h : IsStatement n s us) :
    us ≠ [] := by
  cases h with
  | simple h => cases h <;> simp
  | block h => exact h.begins.ne_nil
  | conditional h => exact h.begins.ne_nil
  | _ => simp

theorem blockOver_sound {S : Stmt τ → List τ → Prop} {statement : Parser τ (Stmt τ)}
    (hs : Sound statement fun s us _ => S s us ∧ us ≠ []) :
    Sound (blockOver statement) fun b us _ => BlockOver S b us := by
  intro ts rest body h
  simp only [blockOver, bind_ok_iff, pure_ok_iff] at h
  obtain ⟨l, m₁, h₁, body, m₂, h₂, r, m₃, h₃, rfl, rfl⟩ := h
  obtain ⟨rfl, hl⟩ := expect_ok h₁
  obtain ⟨us, hu, hS, -⟩ := manyWhile_sound (hs.soundFrom _) h₂
  obtain ⟨rfl, hr⟩ := expect_ok h₃
  exact ⟨l :: us ++ [r], .token l (hu.append (.single r _)), .mk hl hS hr⟩

theorem ifWith_zero_sound (block : Parser τ (List (Stmt τ))) (conditional : Parser τ (Stmt τ)) :
    SoundFrom (· == .ifWord) (ifWith (Parser.expression 0) block conditional) fun s us _ =>
      IsConditional 0 s us := by
  intro ts rest s hif h
  obtain ⟨t, ts, rfl, ht⟩ := not_stops_iff.1 hif
  rw [ifWith, bind_of_ok (accept_cons ht), ifOver, bind_ok_iff] at h
  obtain ⟨e, m, he, -⟩ := h
  obtain ⟨us, -, ⟨-, hE, -⟩⟩ := condition_sound (expression_sound 0) _ he
  exact hE.2.elim

theorem stmtLayer_sound (n : Nat) :
    Sound (stmtLayer n : StmtLayer τ).block (fun b us _ => IsBlock n b us) ∧
      SoundFrom (· == .ifWord) (stmtLayer n : StmtLayer τ).conditional fun s us _ =>
        IsConditional n s us := by
  induction n with
  | zero => exact ⟨tooDeep_sound _, ifWith_zero_sound _ _⟩
  | succ n ih =>
    have hblock : Sound (stmtLayer (n + 1) : StmtLayer τ).block fun b us _ =>
        IsBlock (n + 1) b us := by
      apply blockOver_sound
      intro ts rest s h
      obtain ⟨us, hu, hs⟩ :=
        statementOver_sound (expression_sound n) (typeExpr_sound n false) ih.1 ih.2 h
      exact ⟨us, hu, hs, IsStatement.ne_nil hs⟩
    exact ⟨hblock, ifWith_sound (expression_sound (n + 1)) hblock ih.2⟩

theorem block_sound (n : Nat) :
    Sound (Parser.block n : Parser τ (List (Stmt τ))) fun b us _ => IsBlock n b us :=
  (stmtLayer_sound n).1

end Grammar

end Seanet
