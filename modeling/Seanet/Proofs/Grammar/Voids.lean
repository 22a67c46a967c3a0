import Mathlib.Data.List.Chain
import Seanet.Lexical.Scan
import Seanet.Proofs.Grammar.Programs

/-!
# Where void stands

The name `void` is no type of its own: it is the result of a function, an entry of a function type,
or a type that is parsed by itself. The parser asks for the name only, so what it accepts there goes
with a `ref` before it and brackets behind it too; every tree keeps to the strict rule if the tokens
have neither.
-/

set_option autoImplicit false

namespace Seanet

open TokenView (kind)

section

variable {τ : Type}

mutual

def Expr.types : Expr τ → List (TypeExpr τ)
  | .literal _ | .variable _ _ | .increment _ _ | .decrement _ _ => []
  | .grouped e | .unary _ e | .assign _ _ e | .property e _ => e.types
  | .binary _ l r | .logical _ l r | .assignProperty l _ _ r | .index l r => l.types ++ r.types
  | .call callee arguments _ => callee.types ++ listTypes arguments
  | .newArray type sizes => type :: listTypes sizes
  | .newStruct type | .functionType type => [type]

def Expr.listTypes : List (Expr τ) → List (TypeExpr τ)
  | [] => []
  | e :: rest => e.types ++ listTypes rest

end

mutual

def Stmt.types : Stmt τ → List (TypeExpr τ)
  | .block statements => listTypes statements
  | .expr value | .returnValue _ value => value.types
  | .declare type _ => [type]
  | .define type _ initializer => type :: initializer.types
  | .ifThen condition body | .whileLoop condition body => condition.types ++ listTypes body
  | .ifElse condition body other => condition.types ++ listTypes body ++ other.types
  | .returnVoid _ => []

def Stmt.listTypes : List (Stmt τ) → List (TypeExpr τ)
  | [] => []
  | s :: rest => s.types ++ listTypes rest

end

theorem Expr.listTypes_eq (es : List (Expr τ)) : listTypes es = es.flatMap types := by
  induction es with
  | nil => rfl
  | cons e es ih => rw [listTypes, ih, List.flatMap_cons]

theorem Stmt.listTypes_eq (ss : List (Stmt τ)) : listTypes ss = ss.flatMap types := by
  induction ss with
  | nil => rfl
  | cons s ss ih => rw [listTypes, ih, List.flatMap_cons]

end

section

variable {τ : Type} [TokenView τ]

/-- Where a type may be `void` if `allowed` says whether it may be so as a whole: as a whole, and as
a whole entry of a function type. By the strict rule it has no `ref` then and is no element of an
array; else a type may be `void` with either. -/
inductive TypeExpr.VoidPlaced (strict : Bool) : Bool → TypeExpr τ → Prop where
  | name {allowed : Bool} {t : τ} (isRef : Bool) (h : kind t ≠ .void) :
      VoidPlaced strict allowed (.named t isRef)
  | void {t : τ} {isRef : Bool} (hr : strict = true → isRef = false) :
      VoidPlaced strict true (.named t isRef)
  | array {allowed : Bool} {element : TypeExpr τ} (isRef : Bool)
      (h : VoidPlaced strict (allowed && !strict) element) :
      VoidPlaced strict allowed (.array element isRef)
  | function {allowed : Bool} {parameters : List (TypeExpr τ)} {result : TypeExpr τ}
      (hp : ∀ p ∈ parameters, VoidPlaced strict true p) (hr : VoidPlaced strict true result) :
      VoidPlaced strict allowed (.function parameters result)

/-- Only the result of a function may be `void`: no field, no parameter, and no type in the body. -/
def Declaration.VoidPlaced (strict : Bool) : Declaration τ → Prop
  | .struct _ fields => ∀ f ∈ fields, f.type.VoidPlaced strict false
  | .function result _ parameters body => result.VoidPlaced strict true ∧
      (∀ f ∈ parameters, f.type.VoidPlaced strict false) ∧
      ∀ t ∈ Stmt.listTypes body, t.VoidPlaced strict false

def Program.VoidPlaced (strict : Bool) (p : Program τ) : Prop :=
  ∀ d ∈ p.declarations, d.VoidPlaced strict

/-- No `void` right behind a `ref`, and no bracket right behind a `void`. -/
def Apart (t u : τ) : Prop :=
  (kind t = .refWord → kind u ≠ .void) ∧ (kind t = .void → kind u ≠ .leftBracket)

instance (t u : τ) : Decidable (Apart t u) := inferInstanceAs (Decidable (_ ∧ _))

def VoidsApart (strict : Bool) (us : List τ) : Prop := strict = true → us.IsChain Apart

theorem VoidsApart.part {strict : Bool} {us vs : List τ} (h : VoidsApart strict us)
    (hi : vs <:+: us) : VoidsApart strict vs := by
  obtain ⟨before, behind, rfl⟩ := hi
  exact fun hs => (h hs).left_of_append.right_of_append

theorem TypeExpr.VoidPlaced.arrays {strict allowed : Bool} {t : TypeExpr τ}
    (h : t.VoidPlaced strict (allowed && !strict)) (n : Nat) (isRef : Bool) :
    (t.arrays (n + 1) isRef).VoidPlaced strict allowed := by
  induction n generalizing isRef allowed with
  | zero => exact .array isRef h
  | succ n ih => exact .array isRef (ih (by simpa [Bool.and_assoc] using h) false)

end

namespace Grammar

variable {τ : Type} [SplitView τ] {strict : Bool}

theorem isChain_halves {t : τ} {ts : List τ} (h : (t :: ts).IsChain Apart) :
    (SplitView.firstHalf t :: TokenView.secondHalf t :: ts).IsChain Apart := by
  have hsecond (u : τ) : Apart (TokenView.secondHalf t) u := by
    simp [Apart, TokenView.kind_secondHalf]
  refine List.isChain_cons_cons.2 ⟨?_, h.tail.cons fun u _ => hsecond u⟩
  simp [Apart, SplitView.kind_firstHalf]

theorem Reads.isChain_cons {ts us rest : List τ} (h : Reads ts us rest) (t : τ)
    (hc : (t :: ts).IsChain Apart) : (t :: us).IsChain Apart := by
  induction h generalizing t with
  | nil _ => exact .singleton t
  | token u _ ih =>
    rw [List.isChain_cons_cons] at hc ⊢
    exact ⟨hc.1, ih u hc.2⟩
  | @half u ts us rest hu _ ih =>
    have hfirst : Apart t (SplitView.firstHalf u) := by simp [Apart, SplitView.kind_firstHalf]
    exact List.isChain_cons_cons.2 ⟨hfirst, ih _ (isChain_halves hc.tail)⟩

theorem Reads.voidsApart {ts us rest : List τ} (h : Reads ts us rest)
    (ht : VoidsApart strict ts) : VoidsApart strict us := by
  intro hs
  cases h with
  | nil _ => exact .nil
  | token u h => exact h.isChain_cons u (ht hs)
  | half _ h => exact h.isChain_cons _ (isChain_halves (ht hs))

def TypesPlaced (strict allowed : Bool) (T : TypeExpr τ → List τ → Prop) : Prop :=
  ∀ ⦃t us⦄, T t us → VoidsApart strict us → t.VoidPlaced strict allowed

theorem ne_void_of_namesType {k : Kind} (h : namesType false k = true) : k ≠ .void := by
  rintro rfl
  cases h

theorem nameArrays_placed {allowVoid isRef : Bool} {rs bs : List τ} {t : τ} {n : Nat}
    (hr : RefMark isRef rs) (ht : namesType allowVoid (kind t) = true) (hb : Brackets n bs)
    (hu : VoidsApart strict (rs ++ t :: bs)) :
    (nameArrays t n isRef).VoidPlaced strict allowVoid := by
  -- A `void` by itself is placed well. With a `ref` or brackets it does not stand apart.
  by_cases hv : kind t = .void
  · obtain rfl : allowVoid = true := by
      cases allowVoid with
      | true => rfl
      | false => exact absurd hv (ne_void_of_namesType ht)
    cases hb with
    | nil =>
      refine .void fun hs => ?_
      cases hr with
      | absent => rfl
      | present hk =>
        exact absurd hv ((List.isChain_cons_cons.1 (hu hs)).1.1 hk)
    | cons hl _ _ =>
      refine TypeExpr.VoidPlaced.arrays ?_ _ isRef
      cases strict with
      | false => exact .void nofun
      | true =>
        have hbehind := (hu rfl).right_of_append
        exact absurd hl ((List.isChain_cons_cons.1 hbehind).1.2 hv)
  · cases n with
    | zero => exact .name isRef hv
    | succ n => exact TypeExpr.VoidPlaced.arrays (.name false hv) n isRef

theorem typeOver_placed {F : TypeExpr τ → List τ → Prop}
    (hf : ∀ allowed, TypesPlaced strict allowed F) (allowVoid : Bool) :
    TypesPlaced strict allowVoid (TypeOver F allowVoid) := by
  intro t us h hu
  cases h with
  | name hr ht hb => exact nameArrays_placed hr ht hb hu
  | @function f us bs n h hb =>
    have hplaced := fun allowed => hf allowed h (hu.part ⟨[], bs, rfl⟩)
    cases n with
    | zero => exact hplaced allowVoid
    | succ n => exact (hplaced _).arrays n false

theorem functionOver_placed {E : TypeExpr τ → List τ → Prop} (he : TypesPlaced strict true E)
    (allowed : Bool) : TypesPlaced strict allowed (FunctionOver E) := by
  intro f us h hu
  cases h with
  | bare _ => exact .function (by simp) (.void fun _ => rfl)
  | @list t l r parameters result us _ _ h _ =>
    have hentries : ∀ e ∈ parameters ++ [result], e.VoidPlaced strict true := by
      intro e hm
      obtain ⟨vs, hv, hi⟩ := h.phrase_of_mem e hm
      exact he hv ((hu.part ⟨[t, l], [r], rfl⟩).part hi)
    rw [List.forall_mem_append, List.forall_mem_singleton] at hentries
    exact .function hentries.1 hentries.2

theorem isFunctionType_placed (n : Nat) (allowed : Bool) :
    TypesPlaced strict allowed (IsFunctionType n : TypeExpr τ → List τ → Prop) := by
  induction n generalizing allowed with
  | zero => exact functionOver_placed (fun _ _ h => h.elim) allowed
  | succ n ih => exact functionOver_placed (typeOver_placed ih true) allowed

theorem isType_placed (n : Nat) (allowVoid : Bool) :
    TypesPlaced strict allowVoid (IsType n allowVoid : TypeExpr τ → List τ → Prop) :=
  typeOver_placed (isFunctionType_placed n) allowVoid

def ExprsPlaced (strict : Bool) (E : Expr τ → List τ → Prop) : Prop :=
  ∀ ⦃e us⦄, E e us → VoidsApart strict us → ∀ t ∈ e.types, t.VoidPlaced strict false

theorem argument_placed {inner : Expr τ → List τ → Prop} (hi : ExprsPlaced strict inner) :
    ExprsPlaced strict (ArgumentOver inner) := by
  intro e us h hu
  cases h with
  | value h => exact hi h hu
  | ref _ => simp [Expr.types]

theorem bracketed_placed {inner : Expr τ → List τ → Prop} (hi : ExprsPlaced strict inner) :
    ExprsPlaced strict (BracketedOver inner) := by
  intro e us h hu
  cases h with
  | @mk l r _ us _ h _ => exact hi h (hu.part ⟨[l], [r], rfl⟩)

theorem element_placed (n : Nat) (allowed : Bool) :
    TypesPlaced strict allowed (ElementOver (IsFunctionType n : TypeExpr τ → List τ → Prop)) := by
  intro t us h hu
  cases h with
  | name ht => exact .name false (ne_void_of_namesType ht)
  | function h => exact isFunctionType_placed n allowed h hu

theorem listTypes_placed {G : Expr τ → List τ → Prop} (hg : ExprsPlaced strict G)
    {es : List (Expr τ)} {us : List τ} (h : ∀ e ∈ es, ∃ vs, G e vs ∧ vs <:+: us)
    (hu : VoidsApart strict us) : ∀ t ∈ Expr.listTypes es, t.VoidPlaced strict false := by
  rw [Expr.listTypes_eq, List.forall_mem_flatMap]
  intro e he
  obtain ⟨vs, hv, hi⟩ := h e he
  exact hg hv (hu.part hi)

theorem yieldsOver_placed {inner : Expr τ → List τ → Prop} (hi : ExprsPlaced strict inner)
    (n : Nat) : ExprsPlaced strict (YieldsOver inner (IsFunctionType n)) := by
  intro e us h hu
  induction h with
  | literal _ | «variable» _ | increment _ _ | decrement _ _ => simp [Expr.types]
  | @grouped l r _ us _ h _ =>
    have hinner := hi h (hu.part ⟨[l], [r], rfl⟩)
    exact hinner
  | @unary op _ us h =>
    have hoperand := hi h (hu.part ⟨[op], [], by simp⟩)
    exact hoperand
  | @binary op _ _ us vs _ _ _ ihl ihr | @logical op _ _ us vs _ _ _ ihl ihr =>
    refine List.forall_mem_append.2 ⟨ihl (hu.part ⟨[], op :: vs, rfl⟩), ihr (hu.part ?_)⟩
    exact ⟨us ++ [op], [], by simp⟩
  | @assign name op _ us h =>
    have hvalue := hi h (hu.part ⟨[name, op], [], by simp⟩)
    exact hvalue
  | @assignProperty d name op _ _ us vs _ _ h' ih =>
    refine List.forall_mem_append.2 ⟨ih (hu.part ⟨[], d :: name :: op :: vs, rfl⟩), ?_⟩
    exact hi h' (hu.part ⟨us ++ [d, name, op], [], by simp⟩)
  | @call l paren _ _ us vs _ _ ha ih =>
    refine List.forall_mem_append.2 ⟨ih (hu.part ⟨[], l :: vs ++ [paren], by simp⟩), ?_⟩
    exact listTypes_placed (argument_placed hi) ha.phrase_of_mem
      (hu.part ⟨us ++ [l], [paren], by simp⟩)
  | @property d name _ us _ _ ih => exact ih (hu.part ⟨[], [d, name], rfl⟩)
  | @index _ _ us vs _ hb ih =>
    refine List.forall_mem_append.2 ⟨ih (hu.part ⟨[], vs, rfl⟩), ?_⟩
    exact bracketed_placed hi hb (hu.part ⟨us, [], by simp⟩)
  | @newArray t element sizes us vs _ h hs =>
    have helement (allowed : Bool) : element.VoidPlaced strict allowed :=
      element_placed n allowed h (hu.part ⟨[t], vs, rfl⟩)
    refine List.forall_mem_cons.2 ⟨?_, listTypes_placed (bracketed_placed hi) hs.phrase_of_mem
      (hu.part ⟨t :: us, [], by simp⟩)⟩
    cases sizes.length with
    | zero => exact helement false
    | succ n => exact (helement _).arrays n false
  | newStruct _ hn _ _ =>
    exact List.forall_mem_singleton.2 (.name false (ne_void_of_namesType hn))
  | functionType h => exact List.forall_mem_singleton.2 (isFunctionType_placed n false h hu)

theorem yields_placed (n : Nat) : ExprsPlaced strict (Yields n : Expr τ → List τ → Prop) := by
  induction n with
  | zero => exact fun _ _ h => h.elim
  | succ n ih => exact yieldsOver_placed ih n

theorem spells_placed (n : Nat) : ExprsPlaced strict (Spells n : Expr τ → List τ → Prop) :=
  fun _ _ h => yields_placed n h.2

def StmtsPlaced (strict : Bool) (S : Stmt τ → List τ → Prop) : Prop :=
  ∀ ⦃s us⦄, S s us → VoidsApart strict us → ∀ t ∈ s.types, t.VoidPlaced strict false

def BlocksPlaced (strict : Bool) (B : List (Stmt τ) → List τ → Prop) : Prop :=
  ∀ ⦃b us⦄, B b us → VoidsApart strict us → ∀ t ∈ Stmt.listTypes b, t.VoidPlaced strict false

theorem parenthesized_placed (n : Nat) :
    ExprsPlaced strict (ParenthesizedOver (Spells n : Expr τ → List τ → Prop)) := by
  intro e us h hu
  cases h with
  | @mk l r _ us _ h _ => exact spells_placed n h (hu.part ⟨[l], [r], rfl⟩)

theorem simple_placed (n : Nat) :
    StmtsPlaced strict (SimpleOver (Spells n) (IsType n false) : Stmt τ → List τ → Prop) := by
  intro s us h hu
  cases h with
  | @var t name q s _ us ht _ _ h _ =>
    have hvar : (TypeExpr.named t false).VoidPlaced strict false := .name false (by simp [ht])
    exact List.forall_mem_cons.2 ⟨hvar, spells_placed n h (hu.part ⟨[t, name, q], [s], rfl⟩)⟩
  | @declare name s _ us h _ _ =>
    exact List.forall_mem_singleton.2 (isType_placed n false h (hu.part ⟨[], [name, s], rfl⟩))
  | @define name q s _ _ us vs h _ _ he _ =>
    refine List.forall_mem_cons.2 ⟨isType_placed n false h (hu.part ?_),
      spells_placed n he (hu.part ?_)⟩
    · exact ⟨[], name :: q :: vs ++ [s], by simp⟩
    · exact ⟨us ++ [name, q], [s], by simp⟩
  | @expr s _ us h _ _ => exact spells_placed n h (hu.part ⟨[], [s], rfl⟩)

theorem conditional_placed {n : Nat} {B : List (Stmt τ) → List τ → Prop}
    {C : Stmt τ → List τ → Prop} (hb : BlocksPlaced strict B) (hc : StmtsPlaced strict C) :
    StmtsPlaced strict (ConditionalOver (Spells n) B C) := by
  intro s us h hu
  cases h with
  | @ifThen t _ _ us vs _ h hB =>
    exact List.forall_mem_append.2 ⟨parenthesized_placed n h (hu.part ⟨[t], vs, rfl⟩),
      hb hB (hu.part ⟨t :: us, [], by simp⟩)⟩
  | @ifElse t w _ _ _ us vs ws _ h hB _ ho =>
    refine List.forall_mem_append.2 ⟨List.forall_mem_append.2 ⟨?_, ?_⟩, ?_⟩
    · exact parenthesized_placed n h (hu.part ⟨[t], vs ++ w :: ws, by simp⟩)
    · exact hb hB (hu.part ⟨t :: us, w :: ws, by simp⟩)
    · exact hb ho (hu.part ⟨t :: us ++ vs ++ [w], [], by simp⟩)
  | @elseIf t w _ _ _ us vs ws _ h hB _ ho =>
    refine List.forall_mem_append.2 ⟨List.forall_mem_append.2 ⟨?_, ?_⟩, ?_⟩
    · exact parenthesized_placed n h (hu.part ⟨[t], vs ++ w :: ws, by simp⟩)
    · exact hb hB (hu.part ⟨t :: us, w :: ws, by simp⟩)
    · exact hc ho (hu.part ⟨t :: us ++ vs ++ [w], [], by simp⟩)

/-- The parts of a `for` come in another order in the tree. -/
theorem forLoop_placed {n : Nat} {B : List (Stmt τ) → List τ → Prop} (hb : BlocksPlaced strict B)
    {initializer : Option (Stmt τ)} {test : Expr τ} {increment : Option (Expr τ)}
    {body : List (Stmt τ)} {us vs ws xs : List τ}
    (hi : InitializerOver (Spells n) (IsType n false) initializer us)
    (hc : LoopConditionOver (Spells n) test vs) (hn : IncrementOver (Spells n) increment ws)
    (hB : B body xs) (hus : VoidsApart strict us) (hvs : VoidsApart strict vs)
    (hws : VoidsApart strict ws) (hxs : VoidsApart strict xs) :
    ∀ t ∈ Stmt.listTypes
      (initializer.toList ++ [.whileLoop test (body ++ increment.toList.map .expr)]),
      t.VoidPlaced strict false := by
  have hinitializer : ∀ s ∈ initializer.toList, ∀ t ∈ s.types, t.VoidPlaced strict false := by
    cases hi with
    | none _ => simp
    | some h => exact List.forall_mem_singleton.2 (simple_placed n h hus)
  have htest : ∀ t ∈ test.types, t.VoidPlaced strict false := by
    cases hc with
    | missing _ => simp [Expr.types]
    | @written s _ us h _ => exact spells_placed n h (hvs.part ⟨[], [s], rfl⟩)
  have hincrement : ∀ s ∈ increment.toList.map Stmt.expr, ∀ t ∈ s.types,
      t.VoidPlaced strict false := by
    cases hn with
    | none => simp
    | some h => exact List.forall_mem_singleton.2 (spells_placed n h hws)
  have hbody := hb hB hxs
  simp only [Stmt.listTypes_eq, List.forall_mem_flatMap, List.forall_mem_append,
    List.forall_mem_singleton, Stmt.types] at hbody ⊢
  exact ⟨hinitializer, htest, hbody, hincrement⟩

theorem statement_placed {n : Nat} {B : List (Stmt τ) → List τ → Prop}
    {C : Stmt τ → List τ → Prop} (hb : BlocksPlaced strict B) (hc : StmtsPlaced strict C) :
    StmtsPlaced strict (StatementBelow n B C) := by
  intro s us h hu
  cases h with
  | simple h => exact simple_placed n h hu
  | block h => exact hb h hu
  | conditional h => exact hc h hu
  | @whileLoop t _ _ us vs _ h hB =>
    exact List.forall_mem_append.2 ⟨parenthesized_placed n h (hu.part ⟨[t], vs, rfl⟩),
      hb hB (hu.part ⟨t :: us, [], by simp⟩)⟩
  | @forLoop t l r _ _ _ _ us vs ws xs _ _ hi htest hn _ hB =>
    refine forLoop_placed hb hi htest hn hB (hu.part ?_) (hu.part ?_) (hu.part ?_) (hu.part ?_)
    · exact ⟨[t, l], vs ++ ws ++ r :: xs, by simp⟩
    · exact ⟨t :: l :: us, ws ++ r :: xs, by simp⟩
    · exact ⟨t :: l :: us ++ vs, r :: xs, by simp⟩
    · exact ⟨t :: l :: us ++ vs ++ ws ++ [r], [], by simp⟩
  | returnVoid _ _ => simp [Stmt.types]
  | @returnValue t s _ us _ h _ => exact spells_placed n h (hu.part ⟨[t], [s], rfl⟩)

theorem block_placed {S : Stmt τ → List τ → Prop} (hs : StmtsPlaced strict S) :
    BlocksPlaced strict (BlockOver S) := by
  intro b us h hu
  cases h with
  | @mk l r _ us _ h _ =>
    rw [Stmt.listTypes_eq, List.forall_mem_flatMap]
    intro s hm
    obtain ⟨vs, hv, hi⟩ := h.phrase_of_mem s hm
    exact hs hv ((hu.part ⟨[l], [r], rfl⟩).part hi)

theorem stmtLayer_placed (n : Nat) :
    BlocksPlaced strict (IsBlock n : List (Stmt τ) → List τ → Prop) ∧
      StmtsPlaced strict (IsConditional n : Stmt τ → List τ → Prop) := by
  induction n with
  | zero => exact ⟨fun _ _ h => h.elim, fun _ _ h => h.elim⟩
  | succ n ih =>
    have hblock : BlocksPlaced strict (IsBlock (n + 1) : List (Stmt τ) → List τ → Prop) :=
      block_placed (statement_placed ih.1 ih.2)
    exact ⟨hblock, conditional_placed hblock ih.2⟩

theorem field_placed {n : Nat} {f : Field τ} {us : List τ} (h : FieldOver (IsType n false) f us)
    (hu : VoidsApart strict us) : f.type.VoidPlaced strict false := by
  cases h with
  | @mk name _ us h _ => exact isType_placed n false h (hu.part ⟨[], [name], rfl⟩)

theorem isDeclaration_placed {n : Nat} {d : Declaration τ} {us : List τ}
    (h : IsDeclaration n d us) (hu : VoidsApart strict us) : d.VoidPlaced strict := by
  cases h with
  | @struct t name l r _ us _ _ _ h _ =>
    intro f hm
    obtain ⟨vs, ⟨hf, _⟩, hi⟩ := h.phrase_of_mem f hm
    have hmember := (hu.part ⟨[t, name, l], [r], rfl⟩).part hi
    exact field_placed hf (hmember.part ⟨[], [_], rfl⟩)
  | @function name l r _ _ _ us vs ws h _ _ hp _ hb =>
    refine ⟨isType_placed n true h (hu.part ?_), fun f hm => ?_, ?_⟩
    · exact ⟨[], name :: l :: vs ++ r :: ws, by simp⟩
    · obtain ⟨xs, hx, hi⟩ := hp.phrase_of_mem f hm
      exact field_placed hx ((hu.part ⟨us ++ [name, l], r :: ws, by simp⟩).part hi)
    · exact (stmtLayer_placed n).1 hb (hu.part ⟨us ++ name :: l :: vs ++ [r], [], by simp⟩)

theorem isProgram_placed {n : Nat} {p : Program τ} {us : List τ} (h : IsProgram n p us)
    (hu : VoidsApart strict us) : p.VoidPlaced strict := by
  cases h with
  | mk h =>
    intro d hm
    obtain ⟨vs, hv, hi⟩ := h.phrase_of_mem d hm
    exact isDeclaration_placed hv (hu.part hi)

end Grammar

open Grammar Seanet.Parser

/-- In every tree that is parsed, whatever the tokens, `void` stands only where it may: in the
result of a function, in the entries of function types, and in a type that is parsed by itself. If
no `void` follows a `ref` or is followed by a bracket, it does so by the strict rule: as the whole
result, the whole entry or the whole type. -/
theorem voids_placed (strict : Bool) (file : Text) (tokens : List Token)
    (h : VoidsApart strict (Stream.ofTokens tokens).tokens) :
    (∀ p, parseProgram file tokens = .ok p → p.VoidPlaced strict) ∧
    (∀ e, parseExpr file tokens = .ok e → ∀ t ∈ e.types, t.VoidPlaced strict false) ∧
    ∀ t, parseType file tokens = .ok t → t.VoidPlaced strict true := by
  refine ⟨fun p hp => ?_, fun e he => ?_, fun t ht => ?_⟩
  · obtain ⟨rest, hp⟩ := run_ok_iff.1 hp
    obtain ⟨us, hu, hprogram, -⟩ := program_sound hp
    exact isProgram_placed hprogram (hu.voidsApart h)
  · obtain ⟨us, hu, he⟩ := expression_sound maxNesting (run_whole_ok_iff.1 he)
    exact spells_placed maxNesting he (hu.voidsApart h)
  · obtain ⟨us, hu, ht⟩ := typeExpr_sound maxNesting true (run_whole_ok_iff.1 ht)
    exact isType_placed maxNesting true ht (hu.voidsApart h)

/-- A function that gives back a function type, whose entries are `void` and a function type again.
-/
theorem voids_placed_entries :
    let tokens := (Source.scan ⟨"main.sn", "fun<void, fun<int[], void>> f(fun g) { }"⟩).tokens
    VoidsApart true (Stream.ofTokens tokens).tokens ∧
      ∃ p, parseProgram "main.sn" tokens = .ok p ∧ p.VoidPlaced true := by
  intro tokens
  have happart : VoidsApart true (Stream.ofTokens tokens).tokens := fun _ => by decide +kernel
  have hparsed : (parseProgram "main.sn" tokens).toOption.isSome = true := by decide +kernel
  refine ⟨happart, ?_⟩
  cases hp : parseProgram "main.sn" tokens with
  | ok p => exact ⟨p, rfl, (voids_placed true "main.sn" tokens happart).1 p hp⟩
  | error r =>
    rw [hp] at hparsed
    cases hparsed

/-- A function may give back an array of `void`. -/
theorem void_array_result :
    ∃ p, parseProgram "main.sn" (Source.scan ⟨"main.sn", "void[] f() { }"⟩).tokens = .ok p ∧
      ¬ p.VoidPlaced true := by
  have hkinds : (Stream.ofTokens (Source.scan ⟨"main.sn", "void[] f() { }"⟩).tokens).tokens.map
      kind = [.void, .leftBracket, .rightBracket, .identifier, .leftParen, .rightParen, .leftBrace,
        .rightBrace] := by decide +kernel
  simp only [List.map_eq_cons_iff, List.map_eq_nil_iff] at hkinds
  obtain ⟨v, _, htokens, hv, l, _, rfl, hl, r, _, rfl, hr, f, _, rfl, hf, l', _, rfl, hl', r', _,
    rfl, hr', l'', _, rfl, hl'', r'', _, rfl, hr'', rfl⟩ := hkinds
  have hresult : IsType maxNesting true (.array (.named v false) false) [v, l, r] :=
    TypeOver.name .absent (by rw [hv]; rfl) (.cons hl hr .nil)
  have hblock : IsBlock maxNesting [] [l'', r''] := .mk hl'' .nil hr''
  have hfunction := IsDeclaration.function hresult hf hl' .none hr' hblock
  refine ⟨⟨[.function (.array (.named v false) false) f [] []]⟩, run_ok_iff.2 ⟨[], ?_⟩, fun h => ?_⟩
  · rw [htokens]
    exact program_complete (Splits.refl _) ⟨.mk (.cons hfunction .nil), rfl⟩
  · obtain ⟨hplaced, -⟩ := h _ (List.mem_singleton_self _)
    cases hplaced with
    | array _ helement =>
      cases helement with
      | name _ hk => exact hk hv

end Seanet
