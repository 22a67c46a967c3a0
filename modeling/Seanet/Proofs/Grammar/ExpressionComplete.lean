import Seanet.Proofs.Grammar.ExpressionSound

set_option autoImplicit false

namespace Seanet

namespace Grammar

open TokenView (kind kind_secondHalf)
open SplitView (kind_firstHalf)
open Seanet.Parser

variable {τ : Type} [SplitView τ] {inner : Expr τ → List τ → Prop}
  {function : TypeExpr τ → List τ → Prop} {expression operand : Parser τ (Expr τ)}
  {functionType : Parser τ (TypeExpr τ)}

def startsChain (k : Kind) : Bool := k == .leftParen || k == .dot || k == .leftBracket

def lengthensChain (k : Kind) : Bool := startsChain k || k == .plusPlus || k == .minusMinus

def lengthensFrom (i : Nat) (k : Kind) : Bool :=
  lengthensChain k || BinaryLevel.anyHas (BinaryLevel.all.drop i) k

def lengthensExpression (k : Kind) : Bool := lengthensFrom 0 k || k.isAssignment

theorem lengthensChain_of_has {i : Nat} {b : Bool} {k : Kind} (h : BinaryLevel.Has i b k) :
    lengthensChain k = false := by
  have hk := h.anyHas
  revert hk
  cases k <;> decide

theorem lengthensFrom_of_has {i : Nat} {b : Bool} {k : Kind} (h : BinaryLevel.Has i b k) :
    lengthensFrom (i + 1) k = false := by
  rw [lengthensFrom, lengthensChain_of_has h, h.not_anyHas, Bool.or_false]

theorem lengthensFrom_of_isAssignment {k : Kind} (h : k.isAssignment = true) :
    lengthensFrom 0 k = false := by
  revert h
  cases k <;> decide

theorem stops_chain {i : Nat} {rest : List τ} (h : Stops (lengthensFrom i) rest) :
    Stops lengthensChain rest :=
  h.imp fun _ hk => (Bool.or_eq_false_iff.1 hk).1

theorem stops_from {i j : Nat} {rest : List τ} (h : Stops (lengthensFrom i) rest) (hij : i ≤ j) :
    Stops (lengthensFrom j) rest := by
  refine h.imp fun k hk => ?_
  obtain ⟨hc, ha⟩ := Bool.or_eq_false_iff.1 hk
  rw [lengthensFrom, hc, Bool.false_or, Bool.eq_false_iff]
  intro ha'
  obtain ⟨l, b, hl, ho⟩ := BinaryLevel.anyHas_drop_iff.1 ha'
  have := BinaryLevel.anyHas_drop_iff.2 ⟨l, b, Nat.le_trans hij hl, ho⟩
  rw [ha] at this
  cases this

theorem stops_expression {rest : List τ} (h : Stops lengthensExpression rest) :
    Stops (lengthensFrom 0) rest ∧ Stops Kind.isAssignment rest :=
  ⟨h.imp fun _ hk => (Bool.or_eq_false_iff.1 hk).1, h.imp fun _ hk => (Bool.or_eq_false_iff.1 hk).2⟩

theorem guarded_of_stops_expression {us rest : List τ} (h : Stops lengthensExpression rest) :
    Guarded us rest := by
  refine guarded_of_stops (h.imp fun k hk => beq_false_of_ne ?_)
  rintro rfl
  revert hk
  decide

/-- What the parser of nested expressions is known to do: it reads the canonical trees that `inner`
spells. -/
structure Covers (expression : Parser τ (Expr τ)) (inner : Expr τ → List τ → Prop) : Prop where
  complete : Complete expression fun e us rest =>
    (e.Canonical ∧ inner e us) ∧ Stops lengthensExpression rest
  begins : ∀ ⦃e us⦄, e.Canonical → inner e us → Begins startsExpression us
  plain : ∀ ⦃name us⦄, ¬ inner (.variable name true) us

def startsArgument (k : Kind) : Bool := startsExpression k || k == .refWord

theorem argumentOver_begins (he : Covers expression inner) {a : Expr τ} {us : List τ}
    (hc : a.CanonicalArgument) (h : ArgumentOver inner a us) : Begins startsArgument us := by
  cases h with
  | value h =>
    cases hc with
    | value hc => exact (he.begins hc h).imp fun k hk => by simp [startsArgument, hk]
    | ref hn => exact (he.plain h).elim
  | ref ht => exact ⟨_, _, rfl, by simp [startsArgument, ht]⟩

theorem argumentOver_complete (he : Covers expression inner) :
    Complete (argumentOver expression) fun a us rest =>
      (a.CanonicalArgument ∧ ArgumentOver inner a us) ∧ Stops lengthensExpression rest := by
  rintro ts us rest a hu ⟨⟨hc, ha⟩, hs⟩
  cases ha with
  | value h =>
    cases hc with
    | value hc =>
      have href : Stops (· == .refWord) ts :=
        (he.begins hc h).stops_kind hu rfl rfl
      rw [argumentOver, bind_of_ok (accept_of_stops href)]
      exact he.complete hu ⟨⟨hc, h⟩, hs⟩
    | ref hn => exact (he.plain h).elim
  | @ref t name ht =>
    cases hc with
    | value hc => cases hc
    | ref hn =>
      obtain ⟨ts, rfl, hu₁⟩ := hu.cons_inv ht (by decide)
      obtain rfl := hu₁.single_inv hn (by decide)
      rw [argumentOver, bind_of_ok (accept_cons (by simp [ht]))]
      exact bind_of_ok (expect_cons _ hn)

theorem callOver_complete (he : Covers expression inner) {ts us rest : List τ} {paren : τ}
    {args : List (Expr τ)} (ha : ∀ a ∈ args, a.CanonicalArgument)
    (hl : Listed (ArgumentOver inner) args us) (hp : kind paren = .rightParen)
    (hu : Reads ts (us ++ [paren]) rest) (f : Expr τ) :
    callOver expression f ts = .ok (.call f args paren, rest) := by
  obtain ⟨mid, hargs, hmid⟩ := hu.append_inv
  obtain rfl := hmid.single_inv hp (by decide)
  have hlist : separatedUntil .rightParen (argumentOver expression) ts =
      .ok (args, paren :: rest) := by
    refine listed_complete startsArgument rfl rfl rfl (argumentOver_complete he)
      (fun a us h => argumentOver_begins he h.1 h.2) hargs ⟨listed_and_iff.2 ⟨ha, hl⟩, ?_, ?_, ?_⟩
    · exact ⟨paren, rest, rfl, by simp [hp]⟩
    · rw [stops_cons, hp]
      decide
    · simp [hp]
  rw [callOver, bind_of_ok hlist, bind_of_ok (expect_cons _ hp)]
  rfl

theorem bracketed_complete (he : Covers expression inner) {ts us rest : List τ} {e : Expr τ}
    (hc : e.Canonical) (h : BracketedOver inner e us) (hu : Reads ts us rest) (what : Expected) :
    ∃ l mid, ts = l :: mid ∧ kind l = .leftBracket ∧
      bracketed expression what mid = .ok (e, rest) := by
  cases h with
  | @mk l r _ us hl h hr =>
    obtain ⟨ts, rfl, hu₁⟩ := hu.cons_inv hl (by decide)
    obtain ⟨mid, hmid, hu₂⟩ := hu₁.append_inv
    obtain rfl := hu₂.single_inv hr (by decide)
    have hstop : Stops lengthensExpression (r :: rest) := by
      rw [stops_cons, hr]
      decide
    refine ⟨l, ts, rfl, hl, ?_⟩
    rw [bracketed, bind_of_ok (he.complete hmid ⟨⟨hc, h⟩, hstop⟩), bind_of_ok (expect_cons _ hr)]
    rfl

theorem sizes_complete (he : Covers expression inner) :
    Complete (manyWhile (· == .leftBracket) (newSize expression)) fun sizes us rest =>
      Sequence (fun e us => e.Canonical ∧ BracketedOver inner e us) sizes us ∧
        Stops (· == .leftBracket) rest := by
  have hsize : Complete (newSize expression) fun e us rest =>
      (e.Canonical ∧ BracketedOver inner e us) ∧ Stops (fun _ => false) rest := by
    rintro ts us rest e hu ⟨⟨hc, h⟩, -⟩
    obtain ⟨l, mid, rfl, hl, hb⟩ := bracketed_complete he hc h hu .closingSize
    rw [newSize, bind_of_ok (accept_cons (by simp [hl])), hb]
  intro ts us rest sizes hu h
  refine manyWhile_complete (· == .leftBracket) rfl (fun k hk => ⟨hk, rfl⟩) hsize ?_ hu
    ⟨h.1, h.2, fun _ _ => rfl⟩
  rintro e us ⟨-, ⟨hl, -, -⟩⟩
  exact ⟨_, _, rfl, by simp [hl]⟩

theorem newElement_complete
    (hf : Complete functionType fun f us rest => function f us ∧ Guarded us rest)
    (hb : BeginsFun function) {element : TypeExpr τ}
    {ts us rest : List τ} (h : ElementOver function element us) (hu : Reads ts us rest)
    (hs : Stops (· == .less) rest) : ∃ isFunction, sees (· == .funWord) ts = .ok (isFunction, ts) ∧
      newElement functionType isFunction ts = .ok (element, rest) := by
  cases h with
  | @name t ht =>
    obtain ⟨-, hfun, hgreater⟩ := namesType_ne ht
    obtain rfl := hu.single_inv rfl hgreater
    have ht : isTypeName (kind t) = true := by simpa [namesType] using ht
    exact ⟨false, sees_of_stops (by simpa using hfun), map_of_ok _ (require_cons _ ht)⟩
  | function h =>
    obtain ⟨t, ts, rfl, ht⟩ := (hb _ _ h).stream hu rfl
    exact ⟨true, sees_cons ht, hf hu ⟨h, guarded_of_stops hs⟩⟩

theorem newArray_complete (he : Covers expression inner)
    (hf : Complete functionType fun f us rest => function f us ∧ Guarded us rest)
    (hb : BeginsFun function) {element : TypeExpr τ}
    {sizes : List (Expr τ)} {ts us vs rest : List τ} (h : ElementOver function element us)
    (hn : sizes ≠ []) (hc : ∀ s ∈ sizes, s.Canonical)
    (hs : Sequence (BracketedOver inner) sizes vs) (hu : Reads ts (us ++ vs) rest)
    (hstop : Stops (· == .leftBracket) rest) : newOver expression functionType ts =
      .ok (.newArray (element.arrays sizes.length false) sizes, rest) := by
  obtain ⟨mid, hu, hv⟩ := hu.append_inv
  have hbracket : ∃ l m, mid = l :: m ∧ kind l = .leftBracket := by
    cases hs with
    | nil => exact absurd rfl hn
    | cons h _ =>
      cases h with
      | mk hl _ _ =>
        obtain ⟨m, rfl, -⟩ := hv.cons_inv hl (by decide)
        exact ⟨_, m, rfl, hl⟩
  obtain ⟨l, m, rfl, hl⟩ := hbracket
  obtain ⟨isFunction, hsees, helement⟩ := newElement_complete hf hb h hu (by simp [hl])
  have hsizes := sizes_complete he hv ⟨sequence_and_iff.2 ⟨hc, hs⟩, hstop⟩
  rw [newOver_eq, bind_of_ok hsees, bind_of_ok helement, newContents,
    bind_of_ok (sees_cons (by simp [hl]))]
  exact bind_of_ok hsizes

theorem newStruct_complete (functionType : Parser τ (TypeExpr τ)) {name l r : τ}
    (hn : namesType false (kind name) = true) (hl : kind l = .leftParen) (hr : kind r = .rightParen)
    (rest : List τ) : newOver expression functionType (name :: l :: r :: rest) =
      .ok (.newStruct (.named name false), rest) := by
  have hfun : sees (· == .funWord) (name :: l :: r :: rest) = .ok (false, name :: l :: r :: rest) :=
    sees_of_stops (by simpa using (namesType_ne hn).2.1)
  have hname : isTypeName (kind name) = true := by simpa [namesType] using hn
  have helement : newElement functionType false (name :: l :: r :: rest) =
      .ok (.named name false, l :: r :: rest) := map_of_ok _ (require_cons _ hname)
  rw [newOver_eq, bind_of_ok hfun, bind_of_ok helement, newContents,
    bind_of_ok (sees_of_stops (by simp [hl]))]
  simp only [Bool.false_eq_true, if_false]
  rw [bind_of_ok (expect_cons _ hl), bind_of_ok (expect_cons _ hr)]
  rfl

theorem grouped_complete (he : Covers expression inner) (functionType : Parser τ (TypeExpr τ))
    {l r : τ} {e : Expr τ} {ts us rest : List τ} (hl : kind l = .leftParen) (hc : e.Canonical)
    (h : inner e us) (hr : kind r = .rightParen) (hu : Reads ts (us ++ [r]) rest) :
    primaryOver expression functionType (l :: ts) = .ok (.grouped e, rest) := by
  obtain ⟨mid, hu, hmid⟩ := hu.append_inv
  obtain rfl := hmid.single_inv hr (by decide)
  have hstop : Stops lengthensExpression (r :: rest) := by
    rw [stops_cons, hr]
    decide
  simp only [primaryOver, hl]
  refine (bind_of_ok (he.complete hu ⟨⟨hc, h⟩, hstop⟩)).trans ?_
  exact bind_of_ok (expect_cons _ hr)

def stepsName (k : Kind) : Bool := k == .plusPlus || k == .minusMinus

theorem variableAfter_complete {name : τ} {ts : List τ} (h : Stops stepsName ts) :
    variableAfter name ts = .ok (.variable name false, ts) := by
  rw [variableAfter]
  exact bind_of_ok (accept_of_stops h)

theorem variableAfter_step {name op : τ} (hop : stepsName (kind op) = true) (rest : List τ) :
    variableAfter name (op :: rest) =
      .ok (if kind op = .plusPlus then .increment name op else .decrement name op, rest) := by
  rw [variableAfter]
  exact bind_of_ok (accept_cons hop)

theorem chain_complete (he : Covers expression inner)
    (hf : Complete functionType fun f us rest => function f us ∧ Guarded us rest)
    (hb : BeginsFun function) {e : Expr τ} {ts us rest : List τ}
    (h : YieldsOver inner function e us) (hc : e.Canonical) (hp : e.IsPostfix)
    (hu : Reads ts us rest) (hg : Guarded us rest) (hs : Stops stepsName rest)
    (hn : e.IsNewArray → Stops (· == .leftBracket) rest) :
    Resumes (primaryOver expression functionType) (postfixStep expression) ts e rest := by
  induction h generalizing ts rest with
  | literal t =>
    cases hc with
    | literal ht =>
      obtain rfl := hu.single_inv rfl fun hk => by rw [hk] at ht; cases ht
      exact .start _ (by simp [primaryOver, ht])
  | grouped hl h hr =>
    cases hc with
    | grouped hc =>
      obtain ⟨ts, rfl, hu'⟩ := hu.cons_inv hl (by decide)
      exact .start _ (grouped_complete he functionType hl hc h hr hu')
  | @call l paren f args us vs h hl ha ih =>
    cases hc with
    | call hp hc hargs hparen =>
      rw [List.append_assoc] at hu
      obtain ⟨mid, hus, hmid⟩ := hu.append_inv
      obtain ⟨mid, rfl, hmid'⟩ := hmid.cons_inv hl (by decide)
      have hchain := ih hc hp hus (guarded_of_stops (by simp [hl]))
        (by simp [stepsName, hl]) (fun _ => by simp [hl])
      have hstep : postfixStep expression f (l :: mid) = .ok (some (.call f args paren), rest) := by
        rw [postfixStep, bind_of_ok (accept_cons (by simp [hl]))]
        simp only [hl]
        exact map_of_ok _ (callOver_complete he hargs ha hparen hmid' f)
      exact hchain.next hstep (hmid.weight_lt (by simp))
  | @property d name o us h hd ih =>
    cases hc with
    | property hp hc hname =>
      obtain ⟨mid, hus, hmid⟩ := hu.append_inv
      obtain ⟨mid, rfl, hmid₁⟩ := hmid.cons_inv hd (by decide)
      obtain rfl := hmid₁.single_inv hname (by decide)
      have hchain := ih hc hp hus (guarded_of_stops (by simp [hd]))
        (by simp [stepsName, hd]) (fun _ => by simp [hd])
      have hstep : postfixStep expression o (d :: name :: rest) =
          .ok (some (.property o name), rest) := by
        rw [postfixStep, bind_of_ok (accept_cons (by simp [hd]))]
        simp only [hd]
        exact bind_of_ok (expect_cons _ hname)
      exact hchain.next hstep (hmid.weight_lt (by simp))
  | «variable» name =>
    cases hc with
    | «variable» hname =>
      obtain rfl := hu.single_inv hname (by decide)
      refine .start _ ?_
      simp only [primaryOver, hname]
      exact variableAfter_complete hs
  | increment name op =>
    cases hc with
    | increment hname hop =>
      obtain ⟨ts, rfl, hu'⟩ := hu.cons_inv hname (by decide)
      obtain rfl := hu'.single_inv hop (by decide)
      refine .start _ ?_
      simp only [primaryOver, hname]
      exact (variableAfter_step (by simp [stepsName, hop]) rest).trans (by simp [hop])
  | decrement name op =>
    cases hc with
    | decrement hname hop =>
      obtain ⟨ts, rfl, hu'⟩ := hu.cons_inv hname (by decide)
      obtain rfl := hu'.single_inv hop (by decide)
      refine .start _ ?_
      simp only [primaryOver, hname]
      exact (variableAfter_step (by simp [stepsName, hop]) rest).trans (by simp [hop])
  | @index a i us vs h hi ih =>
    cases hc with
    | index hp hnew hc hci =>
      obtain ⟨mid, hus, hmid⟩ := hu.append_inv
      obtain ⟨l, m, rfl, hl, hposition⟩ := bracketed_complete he hci hi hmid .closingIndex
      have hchain := ih hc hp hus (guarded_of_stops (by simp [hl]))
        (by simp [stepsName, hl]) (fun ha => absurd ha hnew)
      have hstep : postfixStep expression a (l :: m) = .ok (some (.index a i), rest) := by
        rw [postfixStep, bind_of_ok (accept_cons (by simp [hl]))]
        simp only [hl]
        exact bind_of_ok hposition
      have hvs : vs ≠ [] := by
        cases hi
        simp
      exact hchain.next hstep (hmid.weight_lt hvs)
  | newArray ht h hsizes =>
    cases hc with
    | newArray hne hc =>
      obtain ⟨ts, rfl, hu'⟩ := hu.cons_inv ht (by decide)
      refine .start _ ?_
      simp only [primaryOver, ht]
      exact newArray_complete he hf hb h hne hc hsizes hu' (hn trivial)
  | newStruct ht hname hl hr =>
    obtain ⟨ts, rfl, hu₁⟩ := hu.cons_inv ht (by decide)
    obtain ⟨ts, rfl, hu₂⟩ := hu₁.cons_inv rfl (namesType_ne hname).2.2
    obtain ⟨ts, rfl, hu₃⟩ := hu₂.cons_inv hl (by decide)
    obtain rfl := hu₃.single_inv hr (by decide)
    refine .start _ ?_
    simp only [primaryOver, ht]
    exact newStruct_complete functionType hname hl hr rest
  | functionType h =>
    obtain ⟨t, ts, rfl, ht⟩ := (hb _ _ h).stream hu rfl
    have ht : kind t = .funWord := by simpa using ht
    refine .start _ ?_
    simp only [primaryOver, ht]
    exact map_of_ok _ (hf hu ⟨h, hg⟩)
  | unary _ _ | binary _ _ _ _ _ | logical _ _ _ _ _ | assign _ _ _
    | assignProperty _ _ _ _ _ _ => exact hp.elim

theorem postfixOver_complete (he : Covers expression inner)
    (hf : Complete functionType fun f us rest => function f us ∧ Guarded us rest)
    (hb : BeginsFun function) :
    Complete (postfixOver expression functionType) fun e us rest =>
      Phrase inner function Expr.IsPostfix e us rest ∧ Stops lengthensChain rest := by
  rintro ts us rest e hu ⟨⟨hc, hp, hy, hg⟩, hs⟩
  have hstart : Stops startsChain rest := hs.imp fun k hk => by
    simp only [lengthensChain, Bool.or_eq_false_iff] at hk
    exact hk.1.1
  have hname : Stops stepsName rest := hs.imp fun k hk => by
    simp only [lengthensChain, Bool.or_eq_false_iff] at hk
    simp [stepsName, hk]
  have hbracket : Stops (· == .leftBracket) rest := hstart.imp fun k hk => by
    simp only [startsChain, Bool.or_eq_false_iff] at hk
    exact hk.2
  have hchain := chain_complete he hf hb hy hc hp hu hg hname fun _ => hbracket
  have hend : postfixStep expression e rest = .ok (none, rest) := by
    rw [postfixStep]
    exact bind_of_ok (accept_of_stops hstart)
  exact hchain.finish hend

theorem unaryOver_complete (he : Covers expression inner)
    (hf : Complete functionType fun f us rest => function f us ∧ Guarded us rest)
    (hb : BeginsFun function)
    (ho : Complete operand fun e us rest => e.Canonical ∧ e.IsUnary ∧ inner e us ∧
      Guarded us rest ∧ Stops lengthensChain rest) :
    Complete (unaryOver operand expression functionType) fun e us rest =>
      Phrase inner function Expr.IsUnary e us rest ∧ Stops lengthensChain rest := by
  rintro ts us rest e hu ⟨⟨hc, hshape, hy, hg⟩, hs⟩
  by_cases hp : e.IsPostfix
  · have hstop : Stops Kind.isUnaryOperator ts := by
      refine (hy.begins_primary hb hc hp).stops hu rfl fun k hk => ?_
      revert hk
      cases k <;> decide
    rw [unaryOver, bind_of_ok (accept_of_stops hstop)]
    exact postfixOver_complete he hf hb hu ⟨⟨hc, hp, hy, hg⟩, hs⟩
  · cases hy with
    | @unary op e us h =>
      cases hc with
      | unary hop hu' hc =>
        obtain ⟨ts, rfl, hread⟩ := hu.cons_inv rfl fun hk => by rw [hk] at hop; cases hop
        have hg : Guarded us rest := by
          rw [← List.singleton_append] at hg
          exact (guarded_append (he.begins hc h).ne_nil).1 hg
        rw [unaryOver, bind_of_ok (accept_cons hop)]
        exact bind_of_ok (ho hread ⟨hc, hu', h, hg, hs⟩)
    | _ => first | exact hshape.elim | exact absurd trivial hp

/-- An operator is not half of a token, because no operand begins with a `>`. -/
theorem Reads.operator_inv {p : Kind → Bool} {ts us rest : List τ} {op : τ}
    (h : Reads ts (op :: us) rest) (hb : Begins p us) (hp : p .greater = false) :
    ∃ mid, ts = op :: mid ∧ Reads mid us rest := by
  cases h with
  | token _ h => exact ⟨_, rfl, h⟩
  | half _ h =>
    obtain ⟨t, mid, ht, hk⟩ := hb.stream h hp
    obtain ⟨rfl, rfl⟩ := List.cons.inj ht
    rw [kind_secondHalf, hp] at hk
    cases hk

theorem BinaryLevel.Has.eq_logical {i : Nat} {level : BinaryLevel} {b : Bool} {k : Kind}
    (h : BinaryLevel.Has i b k) (hl : BinaryLevel.all[i]? = some level) :
    level.logical = b ∧ level.operators.contains k = true := by
  obtain ⟨l, hl', hb, hk⟩ := h
  obtain rfl : l = level := Option.some.inj (hl'.symm.trans hl)
  exact ⟨hb, List.contains_iff_mem.2 hk⟩

theorem binaryStep_complete (hb : BeginsFun function) {i : Nat}
    {level : BinaryLevel} {tighter : Parser τ (Expr τ)}
    (hright : Complete tighter fun e us rest =>
      Phrase inner function (Expr.BindsFrom (i + 1)) e us rest ∧ Stops (lengthensFrom (i + 1)) rest)
    {op : τ} (hop : level.operators.contains (kind op) = true) {r : Expr τ} {ts us rest : List τ}
    (hr : Phrase inner function (Expr.BindsFrom (i + 1)) r us rest)
    (hs : Stops (lengthensFrom (i + 1)) rest) (hu : Reads ts (op :: us) rest) (l : Expr τ) :
    (∃ mid, ts = op :: mid) ∧
      binaryStep level tighter l ts = .ok (some (level.node op l r), rest) := by
  obtain ⟨mid, rfl, hmid⟩ := hu.operator_inv (hr.yields.begins hb hr.canonical) rfl
  refine ⟨⟨mid, rfl⟩, ?_⟩
  rw [binaryStep, bind_of_ok (accept_cons hop)]
  exact bind_of_ok (hright hmid ⟨hr, hs⟩)

/-- A loop over one level goes on to the end of a node of that level. -/
theorem node_resumes (hb : BeginsFun function) {i : Nat}
    {level : BinaryLevel} {tighter : Parser τ (Expr τ)}
    (hright : Complete tighter fun e us rest =>
      Phrase inner function (Expr.BindsFrom (i + 1)) e us rest ∧ Stops (lengthensFrom (i + 1)) rest)
    {op : τ} {b : Bool} (ho : BinaryLevel.Has i b (kind op))
    (hop : level.operators.contains (kind op) = true) {l r : Expr τ} {ts us vs rest : List τ}
    (hl : ∀ mid, Reads ts us mid → Guarded us mid → Stops (lengthensFrom (i + 1)) mid →
      Resumes tighter (binaryStep level tighter) ts l mid)
    (hg : Guarded us [op]) (hr : r.BindsFrom (i + 1)) (hc : r.Canonical)
    (hy : YieldsOver inner function r vs) (hend : Guarded (us ++ op :: vs) rest)
    (hs : Stops (lengthensFrom (i + 1)) rest) (hu : Reads ts (us ++ op :: vs) rest) :
    Resumes tighter (binaryStep level tighter) ts (level.node op l r) rest := by
  have hguard : Guarded vs rest := by
    rwa [guarded_append (by simp), ← List.singleton_append, guarded_append (hy.ne_nil hb)] at hend
  obtain ⟨mid, hus, hmid⟩ := hu.append_inv
  obtain ⟨⟨mid, rfl⟩, hstep⟩ :=
    binaryStep_complete hb hright hop ⟨hc, hr, hy, hguard⟩ hs hmid l
  have hleft := hl _ hus (guarded_cons_iff.2 hg) (stops_cons.2 (lengthensFrom_of_has ho))
  exact hleft.next hstep (hmid.weight_lt (by simp))

theorem binary_resumes (hb : BeginsFun function) {i : Nat}
    {level : BinaryLevel} (hlevel : BinaryLevel.all[i]? = some level) {tighter : Parser τ (Expr τ)}
    (hright : Complete tighter fun e us rest =>
      Phrase inner function (Expr.BindsFrom (i + 1)) e us rest ∧ Stops (lengthensFrom (i + 1)) rest)
    {e : Expr τ} {ts us rest : List τ} (h : YieldsOver inner function e us) (hc : e.Canonical)
    (hi : e.BindsFrom i) (hu : Reads ts us rest) (hg : Guarded us rest)
    (hs : Stops (lengthensFrom (i + 1)) rest) :
    Resumes tighter (binaryStep level tighter) ts e rest := by
  -- What binds tighter than this level is a first operand, and no node of the level.
  have operand : ∀ {e : Expr τ} {us rest : List τ}, YieldsOver inner function e us → e.Canonical →
      e.BindsFrom (i + 1) → Reads ts us rest → Guarded us rest →
      Stops (lengthensFrom (i + 1)) rest → Resumes tighter (binaryStep level tighter) ts e rest :=
    fun h hc hi hu hg hs => .start _ (hright hu ⟨⟨hc, hi, h, hg⟩, hs⟩)
  induction h generalizing rest with
  | binary h h' hop ih _ =>
    cases hc with
    | binary ho hl hr hcl hcr =>
      obtain ⟨k, hik, hk⟩ := hi
      obtain rfl := hk.unique ho
      obtain rfl | hlt := Nat.eq_or_lt_of_le hik
      · obtain ⟨hlogical, hmem⟩ := BinaryLevel.Has.eq_logical ho hlevel
        have hnode := node_resumes hb hright ho hmem (fun _ => ih hcl hl) hop hr hcr h' hg hs hu
        simpa [BinaryLevel.node, hlogical] using hnode
      · exact operand (.binary h h' hop) (.binary ho hl hr hcl hcr) ⟨k, hlt, ho⟩ hu hg hs
  | logical h h' hop ih _ =>
    cases hc with
    | logical ho hl hr hcl hcr =>
      obtain ⟨k, hik, hk⟩ := hi
      obtain rfl := hk.unique ho
      obtain rfl | hlt := Nat.eq_or_lt_of_le hik
      · obtain ⟨hlogical, hmem⟩ := BinaryLevel.Has.eq_logical ho hlevel
        have hnode := node_resumes hb hright ho hmem (fun _ => ih hcl hl) hop hr hcr h' hg hs hu
        simpa [BinaryLevel.node, hlogical] using hnode
      · exact operand (.logical h h' hop) (.logical ho hl hr hcl hcr) ⟨k, hlt, ho⟩ hu hg hs
  | assign _ _ _ | assignProperty _ _ _ _ _ _ => exact hi.elim
  | _ => exact operand (by constructor <;> assumption) hc trivial hu hg hs

theorem binaryOver_complete (hb : BeginsFun function)
    (ho : Complete operand fun e us rest =>
      Phrase inner function Expr.IsUnary e us rest ∧ Stops lengthensChain rest)
    (levels : List BinaryLevel) (i : Nat) (hi : BinaryLevel.all.drop i = levels) :
    Complete (binaryOver operand levels) fun e us rest =>
      Phrase inner function (Expr.BindsFrom i) e us rest ∧ Stops (lengthensFrom i) rest := by
  induction levels generalizing i with
  | nil =>
    rintro ts us rest e hu ⟨hp, hs⟩
    exact ho hu ⟨⟨hp.canonical, hp.shape.isUnary hi, hp.yields, hp.guarded⟩, stops_chain hs⟩
  | cons level tighter ih =>
    obtain ⟨hlevel, hnext⟩ := BinaryLevel.drop_cons hi
    rintro ts us rest e hu ⟨⟨hc, hshape, hy, hg⟩, hs⟩
    have hloop := binary_resumes hb hlevel (ih (i + 1) hnext) hy hc hshape hu hg
      (stops_from hs (Nat.le_succ i))
    have hop : Stops level.operators.contains rest := hs.imp fun k hk => by
      have ha := (Bool.or_eq_false_iff.1 hk).2
      rw [hi, BinaryLevel.anyHas, List.any_cons, Bool.or_eq_false_iff] at ha
      exact ha.1
    have hend : binaryStep level (binaryOver operand tighter) e rest = .ok (none, rest) := by
      rw [binaryStep]
      exact bind_of_ok (accept_of_stops hop)
    rw [binaryOver_cons]
    exact hloop.finish hend

theorem assignmentOver_complete (he : Covers expression inner)
    (hb : BeginsFun function)
    (ho : Complete operand fun e us rest =>
      Phrase inner function Expr.IsUnary e us rest ∧ Stops lengthensChain rest) :
    Complete (assignmentOver operand expression) fun e us rest =>
      (e.Canonical ∧ YieldsOver inner function e us) ∧ Stops lengthensExpression rest := by
  have hbinary := binaryOver_complete hb ho BinaryLevel.all 0 rfl
  rintro ts us rest e hu ⟨⟨hc, hy⟩, hs⟩
  -- An assignment binds at no level. Its target is read as an operand, up to the operator.
  by_cases hi : e.BindsFrom 0
  · obtain ⟨hfrom, hassign⟩ := stops_expression hs
    have htarget := hbinary hu ⟨⟨hc, hi, hy, guarded_of_stops_expression hs⟩, hfrom⟩
    rw [assignmentOver, bind_of_ok htarget]
    exact bind_of_ok (accept_of_stops hassign)
  · cases hy with
    | @assign name op e us h =>
      cases hc with
      | assign hname hop hc =>
        obtain ⟨ts, rfl, hu₁⟩ := hu.cons_inv hname (by decide)
        obtain ⟨ts, rfl, hu₂⟩ := hu₁.cons_inv rfl fun hk => by rw [hk] at hop; cases hop
        have htarget : binaryOver operand BinaryLevel.all (name :: op :: ts) =
            .ok (.variable name false, op :: ts) :=
          hbinary (.single name _) ⟨⟨.variable hname, trivial, .variable name,
            guarded_single (by simp [hname]) _⟩,
            stops_cons.2 (lengthensFrom_of_isAssignment hop)⟩
        rw [assignmentOver, bind_of_ok htarget, bind_of_ok (accept_cons hop)]
        exact bind_of_ok (he.complete hu₂ ⟨⟨hc, h⟩, hs⟩)
    | @assignProperty d name op o e us vs h hd h' =>
      cases hc with
      | assignProperty hp hc hname hop hc' =>
        obtain ⟨mid, hus, hu₁⟩ := hu.append_inv
        obtain ⟨m, rfl, hu₂⟩ := hu₁.cons_inv hd (by decide)
        obtain ⟨m, rfl, hu₃⟩ := hu₂.cons_inv hname (by decide)
        obtain ⟨m, rfl, hu₄⟩ := hu₃.cons_inv rfl fun hk => by rw [hk] at hop; cases hop
        have hread : Reads ts (us ++ [d, name]) (op :: m) :=
          hus.append (.token d (.single name _))
        have hguard : Guarded (us ++ [d, name]) (op :: m) := by
          rw [guarded_append (by simp), ← List.singleton_append, guarded_append (by simp)]
          exact guarded_single (by simp [hname]) _
        have htarget : binaryOver operand BinaryLevel.all ts = .ok (.property o name, op :: m) :=
          hbinary hread ⟨⟨.property hp hc hname, trivial, .property name h hd, hguard⟩,
            stops_cons.2 (lengthensFrom_of_isAssignment hop)⟩
        rw [assignmentOver, bind_of_ok htarget, bind_of_ok (accept_cons hop)]
        exact bind_of_ok (he.complete hu₄ ⟨⟨hc', h'⟩, hs⟩)
    | binary _ _ _ =>
      cases hc with
      | @binary i _ _ _ ho _ _ _ _ => exact absurd ⟨i, Nat.zero_le i, ho⟩ hi
    | logical _ _ _ =>
      cases hc with
      | @logical i _ _ _ ho _ _ _ _ => exact absurd ⟨i, Nat.zero_le i, ho⟩ hi
    | _ => exact absurd trivial hi

theorem not_yields_ref {n : Nat} {name : τ} {us : List τ} :
    ¬ Yields n (.variable name true) us := by
  intro h
  cases n with
  | zero => exact h
  | succ n => cases h

theorem covers_of_complete {n : Nat}
    (h : Complete expression fun e us rest => Spells n e us ∧ Stops lengthensExpression rest) :
    Covers expression (Yields n) :=
  ⟨h, fun _ _ hc hy => Spells.begins ⟨hc, hy⟩, fun _ _ => not_yields_ref⟩

theorem layer_complete (n : Nat) :
    Complete (layer n : Layer τ).expression (fun e us rest =>
        Spells n e us ∧ Stops lengthensExpression rest) ∧
      Complete (layer n : Layer τ).unary (fun e us rest =>
        Phrase (Yields n) (IsFunctionType n) Expr.IsUnary e us rest ∧
          Stops lengthensChain rest) := by
  -- An expression of the next level has the unary expressions of this one as its operands, so the
  -- induction carries both.
  induction n with
  | zero =>
    have hexpr : Complete (layer 0 : Layer τ).expression fun e us rest =>
        Spells 0 e us ∧ Stops lengthensExpression rest := fun _ _ _ _ _ h => h.1.2.elim
    refine ⟨hexpr, unaryOver_complete (covers_of_complete hexpr) (functionType_complete 0)
      (beginsFun 0) ?_⟩
    rintro ts us rest e hu ⟨-, -, h, -⟩
    exact h.elim
  | succ n ih =>
    have hexpr : Complete (layer (n + 1) : Layer τ).expression fun e us rest =>
        Spells (n + 1) e us ∧ Stops lengthensExpression rest :=
      assignmentOver_complete (covers_of_complete ih.1) (beginsFun n) ih.2
    refine ⟨hexpr, unaryOver_complete (covers_of_complete hexpr) (functionType_complete (n + 1))
      (beginsFun (n + 1)) ?_⟩
    rintro ts us rest e hu ⟨hc, hshape, hy, hg, hs⟩
    exact ih.2 hu ⟨⟨hc, hshape, hy, hg⟩, hs⟩

theorem expression_complete (n : Nat) :
    Complete (Parser.expression n : Parser τ (Expr τ)) fun e us rest =>
      Spells n e us ∧ Stops lengthensExpression rest :=
  (layer_complete n).1

end Grammar

end Seanet
