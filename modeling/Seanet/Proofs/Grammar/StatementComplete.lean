import Seanet.Proofs.Grammar.Statements

set_option autoImplicit false

namespace Seanet

namespace Grammar

open TokenView (kind kind_secondHalf)
open SplitView (firstHalf kind_firstHalf)
open Seanet.Parser

variable {τ : Type} [SplitView τ]

def opensName : List Kind → Bool
  | .identifier :: _ => true
  | .leftBracket :: .rightBracket :: _ => true
  | _ => false

theorem beginsDeclaration_identifier (ks : List Kind) :
    beginsDeclaration (.identifier :: ks) = opensName ks := by
  match ks with
  | [] => rfl
  | [k] => cases k <;> rfl
  | k :: k' :: ks =>
    cases k with
    | leftBracket => cases k' <;> rfl
    | _ => rfl

theorem beginsDeclaration_of_ne {k : Kind} (hk : k ≠ .identifier) (ks : List Kind) :
    beginsDeclaration (k :: ks) = (k.isBuiltinType || k == .refWord || k == .funWord) := by
  cases k <;> first | rfl | exact absurd rfl hk

theorem opensName_of_ne {k : Kind} (hi : k ≠ .identifier) (hb : k ≠ .leftBracket) (ks : List Kind) :
    opensName (k :: ks) = false := by
  cases k <;> first | rfl | exact absurd rfl hi | exact absurd rfl hb

theorem opensName_pair (k k' : Kind) (ks ks' : List Kind) :
    opensName (k :: k' :: ks) = opensName (k :: k' :: ks') := by
  cases k with
  | leftBracket => cases k' <;> rfl
  | _ => rfl

theorem opensName_iff (ks : List Kind) :
    opensName ks = true ↔ ks[0]? = some .identifier ∨
      ks[0]? = some .leftBracket ∧ ks[1]? = some .rightBracket := by
  fun_cases opensName ks with
  | case1 => simp
  | case2 => simp
  | case3 ks hname hpair =>
    cases ks with
    | nil => simp
    | cons k ks =>
      have hk : k ≠ .identifier := fun h => hname ks (by rw [h])
      cases ks with
      | nil => simp [hk]
      | cons k' ks =>
        have hkk : k = .leftBracket → k' ≠ .rightBracket := by
          rintro rfl rfl
          exact hpair ks rfl
        simpa [hk] using hkk

theorem opensName_reads {ts us rest : List τ} (h : Reads ts us rest) :
    opensName (ts.map kind) = opensName ((us ++ rest).map kind) := by
  cases h with
  | nil => rfl
  | token t h =>
    cases h with
    | nil => rfl
    | token t' h => exact opensName_pair _ _ _ _
    | half ht' _ =>
      simp only [List.map_cons, List.cons_append, ht', kind_firstHalf]
      cases kind t <;> rfl
  | half ht _ =>
    simp only [List.map_cons, List.cons_append, ht, kind_firstHalf]
    rfl

theorem beginsDeclaration_reads {ts us rest : List τ} (h : Reads ts us rest) :
    beginsDeclaration (ts.map kind) = beginsDeclaration ((us ++ rest).map kind) := by
  cases h with
  | nil => rfl
  | token t h =>
    simp only [List.map_cons, List.cons_append]
    by_cases hk : kind t = .identifier
    · rw [hk, beginsDeclaration_identifier, beginsDeclaration_identifier, opensName_reads h]
    · rw [beginsDeclaration_of_ne hk, beginsDeclaration_of_ne hk]
  | half ht _ =>
    simp only [List.map_cons, List.cons_append, ht, kind_firstHalf]
    rfl

theorem beginsDeclaration_type {n : Nat} {type : TypeExpr τ} {us : List τ} {name : τ}
    (h : IsType n false type us) (hn : kind name = .identifier) (tail : List τ) :
    beginsDeclaration ((us ++ name :: tail).map kind) = true := by
  cases h with
  | @name isRef rs bs t n hr ht hb =>
    cases hr with
    | present hr =>
      simp only [List.cons_append, List.map_cons, hr]
      rfl
    | absent =>
      simp only [List.nil_append, List.cons_append, List.map_cons]
      by_cases hk : kind t = .identifier
      · rw [hk, beginsDeclaration_identifier]
        cases hb with
        | nil =>
          simp only [List.nil_append, List.map_cons, hn]
          rfl
        | cons hl hr _ =>
          simp only [List.cons_append, List.map_cons, hl, hr]
          rfl
      · have hbuiltin : (kind t).isBuiltinType = true := by
          simpa [namesType, isTypeName, hk] using ht
        rw [beginsDeclaration_of_ne hk, hbuiltin]
        rfl
  | function h _ =>
    obtain ⟨t, vs, rfl, ht⟩ := h.begins
    exact beginsDeclaration_fun (by simpa using ht)

theorem beginsDeclaration_of_starts {k : Kind} (h : startsExpression k = true)
    (hi : k ≠ .identifier) (hf : k ≠ .funWord) (ks : List Kind) :
    beginsDeclaration (k :: ks) = false := by
  rw [beginsDeclaration_of_ne hi]
  revert h hi hf
  cases k <;> decide

theorem opensName_operator {i : Nat} {b : Bool} {k : Kind} (h : BinaryLevel.Has i b k)
    (ks : List Kind) : opensName (k :: ks) = false := by
  have hk := h.anyHas
  apply opensName_of_ne <;>
  · rintro rfl
    revert hk
    decide

theorem opensName_assignment {k : Kind} (h : k.isAssignment = true) (ks : List Kind) :
    opensName (k :: ks) = false := by
  apply opensName_of_ne <;>
  · rintro rfl
    cases h

section

variable {inner : Expr τ → List τ → Prop} {function : TypeExpr τ → List τ → Prop}

/-- An expression looks like a declaration only if it begins with `fun`. What comes behind it must
not open a name, because a lone identifier may be a type. -/
theorem YieldsOver.not_declaration (hf : BeginsFun function)
    (hi : ∀ e us, e.Canonical → inner e us → Begins startsExpression us) {e : Expr τ}
    {us tail : List τ} (h : YieldsOver inner function e us) (hc : e.Canonical)
    (ht : opensName (tail.map kind) = false) (hfun : ¬ Begins (· == .funWord) us) :
    beginsDeclaration ((us ++ tail).map kind) = false := by
  -- The first token decides, unless it is an identifier; then the token behind it does. Each case
  -- moves its own tokens behind the first operand to the tail.
  have named : ∀ {name : τ} {ts : List τ}, kind name = .identifier →
      opensName (ts.map kind) = false → beginsDeclaration ((name :: ts).map kind) = false := by
    intro name ts hn ho
    rw [List.map_cons, hn, beginsDeclaration_identifier, ho]
  have marked : ∀ {t : τ} {ts : List τ} {k : Kind}, kind t = k → startsExpression k = true →
      k ≠ .identifier → k ≠ .funWord → beginsDeclaration ((t :: ts).map kind) = false := by
    intro t ts k hk hs hi hf
    rw [List.map_cons, hk, beginsDeclaration_of_starts hs hi hf]
  have before : ∀ {us vs : List τ}, ¬ Begins (· == .funWord) (us ++ vs) →
      ¬ Begins (· == .funWord) us := fun hn hb => hn (hb.append _)
  induction h generalizing tail with
  | literal t =>
    cases hc with
    | literal hl =>
      refine marked rfl (by simp [startsExpression, startsPrimary, hl]) ?_ ?_ <;>
      · intro hk
        rw [hk] at hl
        cases hl
  | grouped hl _ _ => exact marked hl (by decide) (by decide) (by decide)
  | unary op _ =>
    cases hc with
    | unary ho _ _ =>
      refine marked rfl (by simp [startsExpression, ho]) ?_ ?_ <;>
      · intro hk
        rw [hk] at ho
        cases ho
  | binary _ _ _ ih _ =>
    cases hc with
    | binary ho _ _ hc _ =>
      rw [List.append_assoc]
      exact ih hc (opensName_operator ho _) (before hfun)
  | logical _ _ _ ih _ =>
    cases hc with
    | logical ho _ _ hc _ =>
      rw [List.append_assoc]
      exact ih hc (opensName_operator ho _) (before hfun)
  | assign name op _ =>
    cases hc with
    | assign hn ho _ => exact named hn (opensName_assignment ho _)
  | assignProperty _ _ _ hd _ ih =>
    cases hc with
    | assignProperty _ hc _ _ _ =>
      rw [List.append_assoc]
      exact ih hc (opensName_of_ne (by simp [hd]) (by simp [hd]) _) (before hfun)
  | call _ _ hl _ ih =>
    cases hc with
    | call _ hc _ _ =>
      simp only [List.append_assoc] at hfun ⊢
      exact ih hc (opensName_of_ne (by simp [hl]) (by simp [hl]) _) (before hfun)
  | property _ _ hd ih =>
    cases hc with
    | property _ hc _ =>
      rw [List.append_assoc]
      exact ih hc (opensName_of_ne (by simp [hd]) (by simp [hd]) _) (before hfun)
  | «variable» name =>
    cases hc with
    | «variable» hn => exact named hn ht
  | increment name op =>
    cases hc with
    | increment hn ho => exact named hn (opensName_of_ne (by simp [ho]) (by simp [ho]) _)
  | decrement name op =>
    cases hc with
    | decrement hn ho => exact named hn (opensName_of_ne (by simp [ho]) (by simp [ho]) _)
  | index _ hb ih =>
    cases hc with
    | index _ _ hc hci =>
      rw [List.append_assoc]
      refine ih hc ?_ (before hfun)
      cases hb with
      | mk hl h _ =>
        obtain ⟨t, vs, rfl, hs⟩ := hi _ _ hci h
        simp only [List.cons_append, List.map_cons, hl]
        revert hs
        cases kind t <;> first | (intro _; rfl) | (intro hs; cases hs)
  | newArray hnew _ _ => exact marked hnew (by decide) (by decide) (by decide)
  | newStruct hnew _ _ _ => exact marked hnew (by decide) (by decide) (by decide)
  | functionType h => exact absurd (hf _ _ h) hfun

end

theorem Spells.not_declaration {n : Nat} {e : Expr τ} {us tail : List τ} (h : Spells n e us)
    (ht : opensName (tail.map kind) = false) (hfun : ¬ Begins (· == .funWord) us) :
    beginsDeclaration ((us ++ tail).map kind) = false := by
  cases n with
  | zero => exact h.2.elim
  | succ n =>
    exact YieldsOver.not_declaration (beginsFun n) (fun _ _ hc hy => Spells.begins ⟨hc, hy⟩)
      h.2 h.1 ht hfun

variable {n : Nat}

theorem expression_before {k : Kind} {t : τ} {e : Expr τ} {ts us vs rest : List τ}
    (h : Spells n e us) (ht : kind t = k) (hu : Reads ts (us ++ t :: vs) rest)
    (hk : lengthensExpression k = false) (hg : k ≠ .greater) :
    ∃ mid, expression n ts = .ok (e, t :: mid) ∧ Reads mid vs rest := by
  obtain ⟨mid, hus, hmid⟩ := hu.append_inv
  obtain ⟨mid, rfl, hvs⟩ := hmid.cons_inv ht hg
  exact ⟨mid, expression_complete n hus ⟨h, by rw [stops_cons, ht, hk]⟩, hvs⟩

theorem typeExpr_before {allowVoid : Bool} {name : τ} {type : TypeExpr τ} {ts us vs rest : List τ}
    (h : IsType n allowVoid type us) (hn : kind name = .identifier)
    (hu : Reads ts (us ++ name :: vs) rest) :
    ∃ mid, typeExpr n allowVoid ts = .ok (type, name :: mid) ∧ Reads mid vs rest := by
  obtain ⟨mid, hus, hmid⟩ := hu.append_inv
  obtain ⟨mid, rfl, hvs⟩ := hmid.cons_inv hn (by decide)
  refine ⟨mid, typeExpr_complete n allowVoid hus ⟨h, ?_⟩, hvs⟩
  rw [stops_cons, hn]
  decide

theorem varDeclaration_complete {t name q s : τ} {e : Expr τ} {ts us rest : List τ}
    (hn : kind name = .identifier) (hq : kind q = .equal) (h : Spells n e us)
    (hs : kind s = .semicolon) (hu : Reads ts (name :: q :: us ++ [s]) rest) :
    varDeclaration (expression n) t ts = .ok (.define (.named t false) name e, rest) := by
  obtain ⟨ts, rfl, hu₁⟩ := hu.cons_inv hn (by decide)
  obtain ⟨ts, rfl, hu₂⟩ := hu₁.cons_inv hq (by decide)
  obtain ⟨mid, he, hnil⟩ := expression_before h hs hu₂ (by decide) (by decide)
  obtain rfl := hnil.nil_inv
  rw [varDeclaration, bind_of_ok (expect_cons _ hn), bind_of_ok (expect_cons _ hq), bind_of_ok he,
    bind_of_ok (expect_cons _ hs)]
  rfl

theorem declare_complete {name s : τ} {type : TypeExpr τ} {ts us rest : List τ}
    (h : IsType n false type us) (hn : kind name = .identifier) (hs : kind s = .semicolon)
    (hu : Reads ts (us ++ [name, s]) rest) :
    declaration (expression n) (typeExpr n false) ts = .ok (.declare type name, rest) := by
  obtain ⟨mid, htype, hu₁⟩ := typeExpr_before h hn hu
  obtain rfl := hu₁.single_inv hs (by decide)
  rw [declaration, bind_of_ok htype, bind_of_ok (expect_cons _ hn),
    bind_of_ok (accept_of_stops (by simp [hs]))]
  exact bind_of_ok (expect_cons _ hs)

theorem define_complete {name q s : τ} {type : TypeExpr τ} {e : Expr τ} {ts us vs rest : List τ}
    (h : IsType n false type us) (hn : kind name = .identifier) (hq : kind q = .equal)
    (he : Spells n e vs) (hs : kind s = .semicolon)
    (hu : Reads ts (us ++ name :: q :: vs ++ [s]) rest) :
    declaration (expression n) (typeExpr n false) ts = .ok (.define type name e, rest) := by
  rw [List.append_assoc] at hu
  obtain ⟨mid, htype, hu₁⟩ := typeExpr_before h hn hu
  obtain ⟨mid, rfl, hu₂⟩ := hu₁.cons_inv hq (by decide)
  obtain ⟨mid, hvalue, hnil⟩ := expression_before he hs hu₂ (by decide) (by decide)
  obtain rfl := hnil.nil_inv
  rw [declaration, bind_of_ok htype, bind_of_ok (expect_cons _ hn),
    bind_of_ok (accept_cons (by simp [hq]))]
  refine (bind_of_ok hvalue).trans ?_
  exact bind_of_ok (expect_cons _ hs)

def startsType (k : Kind) : Bool :=
  isTypeName k || k == .void || k == .refWord || k == .funWord

def startsSimple (k : Kind) : Bool := k == .varWord || startsType k || startsExpression k

def startsStatement (k : Kind) : Bool :=
  startsSimple k || k == .leftBrace || k == .ifWord || k == .whileWord || k == .forWord ||
    k == .returnWord

theorem startsType_of_namesType {allowVoid : Bool} {k : Kind} (h : namesType allowVoid k = true) :
    startsType k = true := by
  simp only [namesType, Bool.or_eq_true, Bool.and_eq_true] at h
  obtain ⟨-, hv⟩ | ht := h
  · simp [startsType, hv]
  · simp [startsType, ht]

theorem startsType_of_beginsDeclaration {k : Kind} {ks : List Kind}
    (h : beginsDeclaration (k :: ks) = true) : startsType k = true := by
  by_cases hk : k = .identifier
  · simp [startsType, isTypeName, hk]
  · rw [beginsDeclaration_of_ne hk] at h
    revert h
    cases k <;> decide

theorem IsType.begins {allowVoid : Bool} {type : TypeExpr τ} {us : List τ}
    (h : IsType n allowVoid type us) : Begins startsType us := by
  cases h with
  | name hr ht _ =>
    cases hr with
    | present hr => exact ⟨_, _, rfl, by simp [startsType, hr]⟩
    | absent => exact ⟨_, _, rfl, startsType_of_namesType ht⟩
  | function h _ =>
    refine (h.begins.imp fun k hk => ?_).append _
    simp only [beq_iff_eq] at hk
    simp [startsType, hk]

theorem SimpleOver.begins {s : Stmt τ} {us : List τ}
    (h : SimpleOver (Spells n) (IsType n false) s us) : Begins startsSimple us := by
  cases h with
  | var ht _ _ _ _ => exact ⟨_, _, rfl, by simp [startsSimple, ht]⟩
  | declare h _ _ => exact (h.begins.imp fun k hk => by simp [startsSimple, hk]).append _
  | define h _ _ _ _ =>
    rw [List.append_assoc]
    exact (h.begins.imp fun k hk => by simp [startsSimple, hk]).append _
  | expr h _ _ => exact (h.begins.imp fun k hk => by simp [startsSimple, hk]).append _

theorem simpleStatement_declaration {E : Parser τ (Expr τ)} {T : Parser τ (TypeExpr τ)}
    {ts : List τ} (h : beginsDeclaration (ts.map kind) = true) :
    simpleStatement E T ts = declaration E T ts := by
  have hvar : Stops (· == .varWord) ts := by
    cases ts with
    | nil => exact stops_nil _
    | cons t ts =>
      rw [stops_cons]
      refine beq_false_of_ne fun hk => ?_
      rw [List.map_cons, hk] at h
      cases h
  have hsees : seesDeclaration ts = .ok (true, ts) := by rw [seesDeclaration, h]
  rw [simpleStatement, bind_of_ok (accept_of_stops hvar)]
  exact bind_of_ok hsees

theorem simpleStatement_expression {E : Parser τ (Expr τ)} {T : Parser τ (TypeExpr τ)}
    {ts : List τ} (hv : Stops (· == .varWord) ts) (hd : beginsDeclaration (ts.map kind) = false) :
    simpleStatement E T ts = expressionStatement E ts := by
  have hsees : seesDeclaration ts = .ok (false, ts) := by rw [seesDeclaration, hd]
  rw [simpleStatement, bind_of_ok (accept_of_stops hv)]
  exact bind_of_ok hsees

theorem simpleStatement_complete :
    Complete (simpleStatement (expression n) (typeExpr n false) : Parser τ (Stmt τ))
      fun s us _ => SimpleOver (Spells n) (IsType n false) s us := by
  intro ts us rest s hu h
  cases h with
  | var ht hn hq h hs =>
    obtain ⟨ts, rfl, hu'⟩ := hu.cons_inv ht (by decide)
    rw [simpleStatement, bind_of_ok (accept_cons (by simp [ht]))]
    exact varDeclaration_complete hn hq h hs hu'
  | declare h hn hs =>
    have hd : beginsDeclaration (ts.map kind) = true := by
      rw [beginsDeclaration_reads hu, List.append_assoc]
      exact beginsDeclaration_type h hn _
    rw [simpleStatement_declaration hd]
    exact declare_complete h hn hs hu
  | define h hn hq he hs =>
    have hd : beginsDeclaration (ts.map kind) = true := by
      rw [beginsDeclaration_reads hu, List.append_assoc, List.append_assoc]
      exact beginsDeclaration_type h hn _
    rw [simpleStatement_declaration hd]
    exact define_complete h hn hq he hs hu
  | @expr s e us h hf hs =>
    have hd : beginsDeclaration (ts.map kind) = false := by
      rw [beginsDeclaration_reads hu, List.append_assoc]
      exact h.not_declaration (opensName_of_ne (by simp [hs]) (by simp [hs]) _) hf
    have hvar : Stops (· == .varWord) ts :=
      (h.begins.append _).stops_kind hu rfl rfl
    obtain ⟨mid, he, hnil⟩ := expression_before h hs hu (by decide) (by decide)
    obtain rfl := hnil.nil_inv
    rw [simpleStatement_expression hvar hd, expressionStatement, bind_of_ok he]
    exact bind_of_ok (expect_cons _ hs)

variable {B : List (Stmt τ) → List τ → Prop} {C : Stmt τ → List τ → Prop}
  {block : Parser τ (List (Stmt τ))} {conditional : Parser τ (Stmt τ)}

theorem condition_complete (keyword : String) :
    Complete (condition (expression n) keyword : Parser τ (Expr τ))
      fun e us _ => ParenthesizedOver (Spells n) e us := by
  intro ts us rest e hu h
  cases h with
  | mk hl h hr =>
    obtain ⟨ts, rfl, hu'⟩ := hu.cons_inv hl (by decide)
    obtain ⟨mid, he, hnil⟩ := expression_before h hr hu' (by decide) (by decide)
    obtain rfl := hnil.nil_inv
    rw [condition, bind_of_ok (expect_cons _ hl), bind_of_ok he, bind_of_ok (expect_cons _ hr)]
    rfl

theorem whileOver_complete (hb : Complete block fun b us _ => B b us) {e : Expr τ}
    {body : List (Stmt τ)} {ts us vs rest : List τ} (h : ParenthesizedOver (Spells n) e us)
    (hB : B body vs) (hu : Reads ts (us ++ vs) rest) :
    whileOver (expression n) block ts = .ok (.whileLoop e body, rest) := by
  obtain ⟨mid, hus, hvs⟩ := hu.append_inv
  rw [whileOver, bind_of_ok (condition_complete _ hus h), bind_of_ok (hb hvs hB)]
  rfl

theorem forInitializer_complete :
    Complete (forInitializer (expression n) (typeExpr n false) : Parser τ (Option (Stmt τ)))
      fun o us _ => InitializerOver (Spells n) (IsType n false) o us := by
  intro ts us rest o hu h
  cases h with
  | none hs =>
    obtain rfl := hu.single_inv hs (by decide)
    rw [forInitializer, bind_of_ok (accept_cons (by simp [hs]))]
    rfl
  | some h =>
    have hstop : Stops (· == .semicolon) ts :=
      h.begins.stops_kind hu rfl rfl
    rw [forInitializer, bind_of_ok (accept_of_stops hstop)]
    exact map_of_ok _ (simpleStatement_complete hu h)

theorem forCondition_complete {test : Expr τ} {ts us rest : List τ}
    (h : LoopConditionOver (Spells n) test us) (hu : Reads ts us rest) :
    ∃ s, kind s = .semicolon ∧ forCondition (expression n) ts = .ok (test, s :: rest) := by
  cases h with
  | @missing s hs =>
    obtain rfl := hu.single_inv hs (by decide)
    exact ⟨s, hs, forCondition_missing _ hs⟩
  | @written s e us h hs =>
    have hstop : Stops (· == .semicolon) ts :=
      (h.begins.append _).stops_kind hu rfl rfl
    obtain ⟨mid, he, hnil⟩ := expression_before h hs hu (by decide) (by decide)
    obtain rfl := hnil.nil_inv
    exact ⟨s, hs, (forCondition_written _ hstop).trans he⟩

theorem forIncrement_complete {increment : Option (Expr τ)} {r : τ} {ts us vs rest : List τ}
    (h : IncrementOver (Spells n) increment us) (hr : kind r = .rightParen)
    (hu : Reads ts (us ++ r :: vs) rest) :
    ∃ mid, forIncrement (expression n) ts = .ok (increment, r :: mid) ∧ Reads mid vs rest := by
  cases h with
  | none =>
    obtain ⟨mid, rfl, hvs⟩ := Reads.cons_inv hu hr (by decide)
    refine ⟨mid, ?_, hvs⟩
    rw [forIncrement, bind_of_ok (sees_cons (by simp [hr]))]
    rfl
  | some h =>
    have hstop : Stops (· == .rightParen) ts :=
      (h.begins.append _).stops_kind hu rfl rfl
    obtain ⟨mid, he, hvs⟩ := expression_before h hr hu (by decide) (by decide)
    refine ⟨mid, ?_, hvs⟩
    rw [forIncrement, bind_of_ok (sees_of_stops hstop)]
    exact map_of_ok _ he

theorem forOver_complete (hb : Complete block fun b us _ => B b us) {l r : τ}
    {initializer : Option (Stmt τ)} {test : Expr τ} {increment : Option (Expr τ)}
    {body : List (Stmt τ)} {ts us vs ws xs rest : List τ} (hl : kind l = .leftParen)
    (hi : InitializerOver (Spells n) (IsType n false) initializer us)
    (hc : LoopConditionOver (Spells n) test vs) (hn : IncrementOver (Spells n) increment ws)
    (hr : kind r = .rightParen) (hB : B body xs)
    (hu : Reads ts (l :: us ++ vs ++ ws ++ r :: xs) rest) :
    forOver (expression n) (typeExpr n false) block ts =
      .ok (.block (initializer.toList ++ [.whileLoop test (body ++ increment.toList.map .expr)]),
        rest) := by
  simp only [List.append_assoc] at hu
  obtain ⟨ts, rfl, hu₁⟩ := hu.cons_inv hl (by decide)
  obtain ⟨m₁, hus, hu₂⟩ := hu₁.append_inv
  obtain ⟨m₂, hvs, hu₃⟩ := hu₂.append_inv
  obtain ⟨s, hs, htest⟩ := forCondition_complete hc hvs
  obtain ⟨m₃, hincrement, hxs⟩ := forIncrement_complete hn hr hu₃
  rw [forOver_eq, bind_of_ok (expect_cons _ hl), bind_of_ok (forInitializer_complete hus hi),
    bind_of_ok htest, bind_of_ok (expect_cons _ hs), bind_of_ok hincrement,
    bind_of_ok (expect_cons _ hr), bind_of_ok (hb hxs hB), forTree_eq]
  rfl

theorem returnOver_complete {t s : τ} {e : Expr τ} {ts us rest : List τ} (h : Spells n e us)
    (hs : kind s = .semicolon) (hu : Reads ts (us ++ [s]) rest) :
    returnOver (expression n) t ts = .ok (.returnValue t e, rest) := by
  have hstop : Stops (· == .semicolon) ts :=
    (h.begins.append _).stops_kind hu rfl rfl
  obtain ⟨mid, he, hnil⟩ := expression_before h hs hu (by decide) (by decide)
  obtain rfl := hnil.nil_inv
  rw [returnOver, bind_of_ok (accept_of_stops hstop)]
  refine (bind_of_ok he).trans ?_
  exact bind_of_ok (expect_cons _ hs)

/-- A conditional without `else` is only read to its end when no `else` comes behind it. -/
theorem ifWith_complete (hb : Complete block fun b us _ => B b us)
    (hbrace : ∀ b us, B b us → Begins (· == .leftBrace) us)
    (hc : Complete conditional fun s us rest => C s us ∧ Stops (· == .elseWord) rest)
    (hif : ∀ s us, C s us → Begins (· == .ifWord) us) :
    Complete (ifWith (expression n) block conditional) fun s us rest =>
      ConditionalOver (Spells n) B C s us ∧ Stops (· == .elseWord) rest := by
  rintro ts us rest s hu ⟨h, hs⟩
  cases h with
  | ifThen ht h hB =>
    obtain ⟨ts, rfl, hu₁⟩ := hu.cons_inv ht (by decide)
    obtain ⟨mid, hus, hvs⟩ := hu₁.append_inv
    rw [ifWith, bind_of_ok (accept_cons (by simp [ht])), ifOver,
      bind_of_ok (condition_complete _ hus h), bind_of_ok (hb hvs hB)]
    exact bind_of_ok (accept_of_stops hs)
  | ifElse ht h hB hw ho =>
    rw [List.append_assoc] at hu
    obtain ⟨ts, rfl, hu₁⟩ := hu.cons_inv ht (by decide)
    obtain ⟨m₁, hus, hu₂⟩ := hu₁.append_inv
    obtain ⟨m₂, hvs, hu₃⟩ := hu₂.append_inv
    obtain ⟨m₃, rfl, hws⟩ := hu₃.cons_inv hw (by decide)
    have hstop : Stops (· == .ifWord) m₃ := (hbrace _ _ ho).stops hws rfl fun k hk => by
      simp only [beq_iff_eq] at hk
      simp [hk]
    rw [ifWith, bind_of_ok (accept_cons (by simp [ht])), ifOver,
      bind_of_ok (condition_complete _ hus h), bind_of_ok (hb hvs hB),
      bind_of_ok (accept_cons (by simp [hw]))]
    refine (bind_of_ok (sees_of_stops hstop)).trans ?_
    exact bind_of_ok (hb hws ho)
  | elseIf ht h hB hw ho =>
    rw [List.append_assoc] at hu
    obtain ⟨ts, rfl, hu₁⟩ := hu.cons_inv ht (by decide)
    obtain ⟨m₁, hus, hu₂⟩ := hu₁.append_inv
    obtain ⟨m₂, hvs, hu₃⟩ := hu₂.append_inv
    obtain ⟨m₃, rfl, hws⟩ := hu₃.cons_inv hw (by decide)
    obtain ⟨t', m₃, rfl, ht'⟩ := (hif _ _ ho).stream hws rfl
    rw [ifWith, bind_of_ok (accept_cons (by simp [ht])), ifOver,
      bind_of_ok (condition_complete _ hus h), bind_of_ok (hb hvs hB),
      bind_of_ok (accept_cons (by simp [hw]))]
    refine (bind_of_ok (sees_cons ht')).trans ?_
    exact bind_of_ok (hc hws ⟨ho, hs⟩)

theorem StatementOver.begins {E : Expr τ → List τ → Prop} {T : TypeExpr τ → List τ → Prop}
    (hsimple : ∀ s us, SimpleOver E T s us → Begins startsSimple us)
    (hbrace : ∀ b us, B b us → Begins (· == .leftBrace) us)
    (hif : ∀ s us, C s us → Begins (· == .ifWord) us) {s : Stmt τ} {us : List τ}
    (h : StatementOver E T B C s us) : Begins startsStatement us := by
  cases h with
  | simple h => exact (hsimple _ _ h).imp fun k hk => by simp [startsStatement, hk]
  | block h =>
    refine (hbrace _ _ h).imp fun k hk => ?_
    simp only [beq_iff_eq] at hk
    simp [startsStatement, hk]
  | conditional h =>
    refine (hif _ _ h).imp fun k hk => ?_
    simp only [beq_iff_eq] at hk
    simp [startsStatement, hk]
  | whileLoop ht _ _ => exact ⟨_, _, rfl, by simp [startsStatement, ht]⟩
  | forLoop ht _ _ _ _ _ _ => exact ⟨_, _, rfl, by simp [startsStatement, ht]⟩
  | returnVoid ht _ => exact ⟨_, _, rfl, by simp [startsStatement, ht]⟩
  | returnValue ht _ _ => exact ⟨_, _, rfl, by simp [startsStatement, ht]⟩

theorem statementOver_simple {expression : Parser τ (Expr τ)} {type : Parser τ (TypeExpr τ)}
    {t : τ} (h : startsSimple (kind t) = true) (ts : List τ) :
    statementOver expression type block conditional (t :: ts) =
      simpleStatement expression type (t :: ts) := by
  simp only [statementOver]
  split <;> first | rfl | (next hk => rw [hk] at h; cases h)

theorem statementOver_declaration {expression : Parser τ (Expr τ)} {type : Parser τ (TypeExpr τ)}
    {ts : List τ} (h : beginsDeclaration (ts.map kind) = true) :
    statementOver expression type block conditional ts = declaration expression type ts := by
  rw [← simpleStatement_declaration h]
  cases ts with
  | nil => rfl
  | cons t ts =>
    refine statementOver_simple ?_ ts
    simp [startsSimple, startsType_of_beginsDeclaration h]

theorem statementOver_complete (hb : Complete block fun b us _ => B b us)
    (hbrace : ∀ b us, B b us → Begins (· == .leftBrace) us)
    (hc : Complete conditional fun s us rest => C s us ∧ Stops (· == .elseWord) rest)
    (hif : ∀ s us, C s us → Begins (· == .ifWord) us) :
    Complete (statementOver (expression n) (typeExpr n false) block conditional) fun s us rest =>
      StatementOver (Spells n) (IsType n false) B C s us ∧ Stops (· == .elseWord) rest := by
  rintro ts us rest s hu ⟨h, hs⟩
  cases h with
  | simple h =>
    obtain ⟨t, ts, rfl, ht⟩ := h.begins.stream hu rfl
    rw [statementOver_simple ht]
    exact simpleStatement_complete hu h
  | block h =>
    obtain ⟨t, ts, rfl, ht⟩ := (hbrace _ _ h).stream hu rfl
    have ht : kind t = .leftBrace := by simpa using ht
    simp only [statementOver, ht]
    exact map_of_ok _ (hb hu h)
  | conditional h =>
    obtain ⟨t, ts, rfl, ht⟩ := (hif _ _ h).stream hu rfl
    have ht : kind t = .ifWord := by simpa using ht
    simp only [statementOver, ht]
    exact hc hu ⟨h, hs⟩
  | whileLoop ht h hB =>
    obtain ⟨ts, rfl, hu'⟩ := hu.cons_inv ht (by decide)
    simp only [statementOver, ht]
    exact whileOver_complete hb h hB hu'
  | forLoop ht hl hi htest hn hr hB =>
    obtain ⟨ts, rfl, hu'⟩ := hu.cons_inv ht (by decide)
    simp only [statementOver, ht]
    exact forOver_complete hb hl hi htest hn hr hB hu'
  | returnVoid ht hs =>
    obtain ⟨ts, rfl, hu'⟩ := hu.cons_inv ht (by decide)
    obtain rfl := hu'.single_inv hs (by decide)
    simp only [statementOver, ht]
    rw [returnOver]
    exact bind_of_ok (accept_cons (by simp [hs]))
  | returnValue ht h hs =>
    obtain ⟨ts, rfl, hu'⟩ := hu.cons_inv ht (by decide)
    simp only [statementOver, ht]
    exact returnOver_complete h hs hu'

theorem blockOver_complete {S : Stmt τ → List τ → Prop} {statement : Parser τ (Stmt τ)}
    (hs : Complete statement fun s us rest => S s us ∧ Stops (· == .elseWord) rest)
    (hb : ∀ s us, S s us → Begins startsStatement us) :
    Complete (blockOver statement) fun b us _ => BlockOver S b us := by
  intro ts us rest body hu h
  cases h with
  | mk hl h hr =>
    obtain ⟨ts, rfl, hu₁⟩ := hu.cons_inv hl (by decide)
    obtain ⟨mid, hus, hu₂⟩ := hu₁.append_inv
    obtain rfl := hu₂.single_inv hr (by decide)
    have hfirst : ∀ k, startsStatement k = true → (k != .rightBrace) = true ∧
        (k == .elseWord) = false := by
      intro k hk
      revert hk
      cases k <;> decide
    have hbody := manyWhile_complete startsStatement rfl hfirst hs hb hus
      ⟨h, by simp [hr], by simp [hr]⟩
    rw [blockOver, bind_of_ok (expect_cons _ hl), bind_of_ok hbody, bind_of_ok (expect_cons _ hr)]
    rfl

theorem IsStatement.begins {s : Stmt τ} {us : List τ} (h : IsStatement n s us) :
    Begins startsStatement us :=
  StatementOver.begins (fun _ _ hs => hs.begins) (fun _ _ hb => hb.begins)
    (fun _ _ hc => hc.begins) h

theorem stmtLayer_complete (n : Nat) :
    Complete (stmtLayer n : StmtLayer τ).block (fun b us _ => IsBlock n b us) ∧
      Complete (stmtLayer n : StmtLayer τ).conditional fun s us rest =>
        IsConditional n s us ∧ Stops (· == .elseWord) rest := by
  induction n with
  | zero =>
    constructor
    · intro ts us rest body _ h
      exact h.elim
    · intro ts us rest s _ h
      exact h.1.elim
  | succ n ih =>
    have hstatement := statementOver_complete (n := n) ih.1 (fun _ _ h => h.begins) ih.2
      (fun _ _ h => h.begins)
    have hblock : Complete (stmtLayer (n + 1) : StmtLayer τ).block fun b us _ =>
        IsBlock (n + 1) b us := blockOver_complete hstatement fun _ _ h => IsStatement.begins h
    refine ⟨hblock, ifWith_complete hblock ?_ ih.2 (fun _ _ h => h.begins)⟩
    intro b us h
    exact IsBlock.begins (n := n + 1) h

theorem block_complete (n : Nat) :
    Complete (Parser.block n : Parser τ (List (Stmt τ))) fun b us _ => IsBlock n b us :=
  (stmtLayer_complete n).1

end Grammar

end Seanet
