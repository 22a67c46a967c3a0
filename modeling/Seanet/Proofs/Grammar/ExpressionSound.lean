import Seanet.Proofs.Grammar.Expressions

set_option autoImplicit false

namespace Seanet

namespace Grammar

open TokenView (kind)
open Seanet.Parser
open Seanet.Expr (Canonical CanonicalArgument)

variable {τ : Type} [SplitView τ] {inner : Expr τ → List τ → Prop}
  {function : TypeExpr τ → List τ → Prop} {expression operand : Parser τ (Expr τ)}
  {functionType : Parser τ (TypeExpr τ)}

theorem guarded_cons_iff {us rest : List τ} {t : τ} : Guarded us (t :: rest) ↔ Guarded us [t] := by
  simp [Guarded]

theorem canonical_node {i : Nat} {level : BinaryLevel} {op : τ} {l r : Expr τ}
    (hl : BinaryLevel.all[i]? = some level) (ho : kind op ∈ level.operators) (hb : l.BindsFrom i)
    (hb' : r.BindsFrom (i + 1)) (h : l.Canonical) (h' : r.Canonical) :
    (level.node op l r).Canonical ∧ (level.node op l r).BindsFrom i := by
  unfold BinaryLevel.node
  split
  · next hlog =>
    have ho : BinaryLevel.Has i true (kind op) := ⟨level, hl, hlog, ho⟩
    exact ⟨.logical ho hb hb' h h', i, Nat.le_refl i, ho⟩
  · next hlog =>
    have ho : BinaryLevel.Has i false (kind op) := ⟨level, hl, by simpa using hlog, ho⟩
    exact ⟨.binary ho hb hb' h h', i, Nat.le_refl i, ho⟩

theorem yieldsOver_node {level : BinaryLevel} {op : τ} {l r : Expr τ} {us vs : List τ}
    (h : YieldsOver inner function l us) (h' : YieldsOver inner function r vs)
    (hg : Guarded us [op]) : YieldsOver inner function (level.node op l r) (us ++ op :: vs) := by
  unfold BinaryLevel.node
  split
  · exact .logical h h' hg
  · exact .binary h h' hg

def binaryStep (level : BinaryLevel) (tighter : Parser τ (Expr τ)) (left : Expr τ) :
    Parser τ (Option (Expr τ)) := do
  match ← accept level.operators.contains with
  | none => return none
  | some operator =>
    let right ← tighter
    return some (level.node operator left right)

theorem binaryOver_cons (operand : Parser τ (Expr τ)) (level : BinaryLevel)
    (tighter : List BinaryLevel) : binaryOver operand (level :: tighter) = (do
      let first ← binaryOver operand tighter
      iterate (binaryStep level (binaryOver operand tighter)) first) := rfl

theorem binaryStep_sound (hf : BeginsFun function) {i : Nat}
    {level : BinaryLevel} (hlevel : BinaryLevel.all[i]? = some level) {tighter : Parser τ (Expr τ)}
    (ht : Sound tighter (Phrase inner function (Expr.BindsFrom (i + 1)))) {l e : Expr τ}
    {ts us mid rest : List τ} (hu : Reads ts us mid)
    (hl : Phrase inner function (Expr.BindsFrom i) l us mid)
    (h : binaryStep level tighter l mid = .ok (some e, rest)) :
    weight rest < weight mid ∧
      ∃ us, Reads ts us rest ∧ Phrase inner function (Expr.BindsFrom i) e us rest := by
  rw [binaryStep, bind_ok_iff] at h
  obtain ⟨o, m, ho, h⟩ := h
  obtain ⟨rfl, rfl, -⟩ | ⟨op, rfl, rfl, hop⟩ := accept_ok ho
  · cases (pure_ok_iff.1 h).1
  · simp only [bind_ok_iff, pure_ok_iff, Option.some.injEq] at h
    obtain ⟨r, m', hr, rfl, rfl⟩ := h
    obtain ⟨vs, hv, hright⟩ := ht hr
    have hread : Reads (op :: m) (op :: vs) rest := .token op hv
    have ho : kind op ∈ level.operators := List.contains_iff_mem.1 hop
    obtain ⟨hc, hb⟩ :=
      canonical_node hlevel ho hl.shape hright.shape hl.canonical hright.canonical
    refine ⟨hread.weight_lt (by simp), us ++ op :: vs, hu.append hread, hc, hb,
      yieldsOver_node hl.yields hright.yields (guarded_cons_iff.1 hl.guarded), ?_⟩
    rw [guarded_append (by simp), ← List.singleton_append, guarded_append (hright.yields.ne_nil hf)]
    exact hright.guarded

theorem binaryStep_none {level : BinaryLevel} {tighter : Parser τ (Expr τ)} {l : Expr τ}
    {ts rest : List τ} (h : binaryStep level tighter l ts = .ok (none, rest)) : rest = ts := by
  rw [binaryStep, bind_ok_iff] at h
  obtain ⟨o, m, ho, h⟩ := h
  obtain ⟨rfl, rfl, -⟩ | ⟨op, rfl, rfl, -⟩ := accept_ok ho
  · exact (pure_ok_iff.1 h).2
  · simp [bind_ok_iff, pure_ok_iff] at h

theorem binaryOver_sound (hf : BeginsFun function)
    (ho : Sound operand (Phrase inner function Expr.IsUnary)) (levels : List BinaryLevel) (i : Nat)
    (hi : BinaryLevel.all.drop i = levels) :
    Sound (binaryOver operand levels) (Phrase inner function (Expr.BindsFrom i)) := by
  induction levels generalizing i with
  | nil =>
    intro ts rest e h
    obtain ⟨us, hu, hp⟩ := ho h
    exact ⟨us, hu, hp.imp fun e he => he.bindsFrom i⟩
  | cons level tighter ih =>
    obtain ⟨hlevel, hnext⟩ := BinaryLevel.drop_cons hi
    have hright := ih (i + 1) hnext
    intro ts rest e h
    rw [binaryOver_cons, bind_ok_iff] at h
    obtain ⟨first, mid, hfirst, h⟩ := h
    obtain ⟨us, hu, hp⟩ := hright hfirst
    have keep : ∀ ⦃l e : Expr τ⦄ ⦃ts₁ ts₂ : List τ⦄,
        (∃ us, Reads ts us ts₁ ∧ Phrase inner function (Expr.BindsFrom i) l us ts₁) →
        binaryStep level (binaryOver operand tighter) l ts₁ = .ok (some e, ts₂) →
        weight ts₂ < weight ts₁ ∧
          ∃ us, Reads ts us ts₂ ∧ Phrase inner function (Expr.BindsFrom i) e us ts₂ := by
      rintro l e ts₁ ts₂ ⟨us, hu, hp⟩ hstep
      exact binaryStep_sound hf hlevel hright hu hp hstep
    obtain ⟨m, hinv, hn⟩ :=
      iterate_invariant keep ⟨us, hu, hp.imp fun e he => he.mono (Nat.le_succ i)⟩ h
    rwa [binaryStep_none hn]

theorem assignmentOver_sound (hf : BeginsFun function)
    (ho : Sound operand (Phrase inner function Expr.IsUnary))
    (he : Sound expression fun e us _ => e.Canonical ∧ inner e us) :
    Sound (assignmentOver operand expression) fun e us _ =>
      e.Canonical ∧ YieldsOver inner function e us := by
  intro ts rest e h
  rw [assignmentOver, bind_ok_iff] at h
  obtain ⟨target, mid, ht, h⟩ := h
  obtain ⟨us, hu, hc, hb, hy, -⟩ := binaryOver_sound hf ho BinaryLevel.all 0 rfl ht
  rw [bind_ok_iff] at h
  obtain ⟨o, mid', hop, h⟩ := h
  obtain ⟨rfl, rfl, -⟩ | ⟨op, rfl, rfl, hk⟩ := accept_ok hop
  · obtain ⟨rfl, rfl⟩ := pure_ok_iff.1 h
    exact ⟨us, hu, hc, hy⟩
  · simp only [bind_ok_iff] at h
    obtain ⟨value, m, hv, h⟩ := h
    obtain ⟨vs, hvs, hcv, hyv⟩ := he hv
    have hread : Reads ts (us ++ op :: vs) m := hu.append (.token op hvs)
    cases target with
    | «variable» name isRef =>
      obtain ⟨rfl, rfl⟩ := pure_ok_iff.1 h
      cases hc with
      | «variable» hn =>
        cases hy
        exact ⟨_, hread, .assign hn hk hcv, .assign name op hyv⟩
    | property object name =>
      obtain ⟨rfl, rfl⟩ := pure_ok_iff.1 h
      cases hc with
      | property hp hc hn =>
        cases hy with
        | property _ hy hd =>
          refine ⟨_, hread, .assignProperty hp hc hn hk hcv, ?_⟩
          simpa using YieldsOver.assignProperty name op hy hd hyv
    | _ => simp at h

theorem argumentOver_sound (he : Sound expression fun e us _ => e.Canonical ∧ inner e us) :
    Sound (argumentOver expression) fun a us _ =>
      CanonicalArgument a ∧ ArgumentOver inner a us := by
  intro ts rest a h
  rw [argumentOver, bind_ok_iff] at h
  obtain ⟨o, mid, ho, h⟩ := h
  obtain ⟨rfl, rfl, -⟩ | ⟨t, rfl, rfl, ht⟩ := accept_ok ho
  · obtain ⟨us, hu, hc, hi⟩ := he h
    exact ⟨us, hu, .value hc, .value hi⟩
  · simp only [bind_ok_iff, pure_ok_iff] at h
    obtain ⟨name, m, hn, rfl, rfl⟩ := h
    obtain ⟨rfl, hk⟩ := expect_ok hn
    exact ⟨[t, name], .token t (.single name _), .ref hk, .ref (by simpa using ht)⟩

theorem callOver_sound (he : Sound expression fun e us _ => e.Canonical ∧ inner e us)
    (callee : Expr τ) : Sound (callOver expression callee) fun e us _ =>
      ∃ args vs paren, e = .call callee args paren ∧ us = vs ++ [paren] ∧
        (∀ a ∈ args, CanonicalArgument a) ∧ Listed (ArgumentOver inner) args vs ∧
        kind paren = .rightParen := by
  intro ts rest e h
  simp only [callOver, bind_ok_iff, pure_ok_iff] at h
  obtain ⟨args, mid, ha, paren, m, hp, rfl, rfl⟩ := h
  obtain ⟨vs, hv, hl⟩ := listed_sound (argumentOver_sound he) ha
  obtain ⟨hc, hl⟩ := listed_and_iff.1 hl
  obtain ⟨rfl, hk⟩ := expect_ok hp
  exact ⟨vs ++ [paren], hv.append (.single paren _), args, vs, paren, rfl, rfl, hc, hl, hk⟩

theorem bracketed_sound (he : Sound expression fun e us _ => e.Canonical ∧ inner e us) {l : τ}
    (hl : kind l = .leftBracket) (what : Expected) : Sound (bracketed expression what) fun e us _ =>
      e.Canonical ∧ BracketedOver inner e (l :: us) := by
  intro ts rest e h
  simp only [bracketed, bind_ok_iff, pure_ok_iff] at h
  obtain ⟨e', mid, he', r, m, hr, rfl, rfl⟩ := h
  obtain ⟨us, hu, hc, hi⟩ := he he'
  obtain ⟨rfl, hk⟩ := expect_ok hr
  exact ⟨us ++ [r], hu.append (.single r _), hc, .mk hl hi hk⟩

theorem guarded_sizes {sizes : List (Expr τ)} {us : List τ}
    (h : Sequence (BracketedOver inner) sizes us) (hn : sizes ≠ []) (ts rest : List τ) :
    Guarded (ts ++ us) rest := by
  induction h generalizing ts with
  | nil => exact absurd rfl hn
  | @cons s sizes us vs h hs ih =>
    rw [← List.append_assoc]
    cases hs with
    | nil =>
      cases h with
      | mk _ _ hr =>
        rw [List.append_nil, ← List.append_assoc]
        exact guarded_snoc (by simp [hr])
    | cons h' hs' => exact ih (by simp) _

/-- A phrase that calls, properties and indices can follow: behind a new array there is no `[`. -/
def Chain (inner : Expr τ → List τ → Prop) (function : TypeExpr τ → List τ → Prop) (e : Expr τ)
    (us rest : List τ) : Prop :=
  Phrase inner function Expr.IsPostfix e us rest ∧ (e.IsNewArray → Stops (· == .leftBracket) rest)

def newElement (functionType : Parser τ (TypeExpr τ)) : Bool → Parser τ (TypeExpr τ)
  | true => functionType
  | false => (fun name => TypeExpr.named name false) <$> require isTypeName .typeName

def newSize (expression : Parser τ (Expr τ)) : Parser τ (Expr τ) := do
  let _ ← accept (· == .leftBracket)
  bracketed expression .closingSize

def newContents (expression : Parser τ (Expr τ)) (isFunction : Bool) (element : TypeExpr τ) :
    Parser τ (Expr τ) := do
  if ← sees (· == .leftBracket) then
    let sizes ← manyWhile (· == .leftBracket) (newSize expression)
    return .newArray (element.arrays sizes.length false) sizes
  else if isFunction then fail .functionArraySize
  else
    let _ ← expect .leftParen .newBrackets
    let _ ← expect .rightParen .newClosing
    return .newStruct element

theorem newOver_eq (expression : Parser τ (Expr τ)) (functionType : Parser τ (TypeExpr τ)) :
    newOver expression functionType = (do
      let isFunction ← sees (· == .funWord)
      let element ← newElement functionType isFunction
      newContents expression isFunction element) := by
  unfold newOver
  congr 1
  funext isFunction
  cases isFunction <;> rfl

theorem newElement_sound (hf : Sound functionType fun f us rest => function f us ∧ Guarded us rest)
    (isFunction : Bool) : Sound (newElement functionType isFunction) fun element us _ =>
      ElementOver function element us ∧ (isFunction = false →
        ∃ t, namesType false (kind t) = true ∧ element = .named t false ∧ us = [t]) := by
  intro ts rest element h
  cases isFunction with
  | true =>
    obtain ⟨us, hu, hfu, -⟩ := hf h
    exact ⟨us, hu, .function hfu, by simp⟩
  | false =>
    obtain ⟨t, ht, rfl⟩ := map_ok_iff.1 h
    obtain ⟨rfl, hk⟩ := require_ok ht
    have hname : namesType false (kind t) = true := by simp [namesType, hk]
    exact ⟨[t], .single t rest, .name hname, fun _ => ⟨t, hname, rfl, rfl⟩⟩

theorem newSize_sound (he : Sound expression fun e us _ => e.Canonical ∧ inner e us) :
    SoundFrom (· == .leftBracket) (newSize expression) fun e us _ =>
      (e.Canonical ∧ BracketedOver inner e us) ∧ us ≠ [] := by
  intro ts rest e hs h
  obtain ⟨l, ts, rfl, hl⟩ := not_stops_iff.1 hs
  rw [newSize, bind_of_ok (accept_cons hl)] at h
  obtain ⟨us, hu, hp⟩ := bracketed_sound he (by simpa using hl) _ h
  exact ⟨l :: us, .token l hu, hp, by simp⟩

theorem newOver_sound (he : Sound expression fun e us _ => e.Canonical ∧ inner e us)
    (hf : Sound functionType fun f us rest => function f us ∧ Guarded us rest) {t : τ}
    (ht : kind t = .newWord) :
    Sound (newOver expression functionType) fun e us rest =>
      Chain inner function e (t :: us) rest := by
  intro ts rest e h
  rw [newOver_eq, bind_ok_iff] at h
  obtain ⟨isFunction, m₀, h₀, h⟩ := h
  obtain ⟨rfl, -⟩ := sees_ok h₀
  rw [bind_ok_iff] at h
  obtain ⟨element, m₁, h₁, h⟩ := h
  obtain ⟨us, hu, helement, hname⟩ := newElement_sound hf isFunction h₁
  rw [newContents, bind_ok_iff] at h
  obtain ⟨isArray, m₂, h₂, h⟩ := h
  obtain ⟨rfl, ⟨rfl, hs⟩ | ⟨rfl, -⟩⟩ := sees_ok h₂
  · simp only [if_true, bind_ok_iff, pure_ok_iff] at h
    obtain ⟨sizes, m₃, h₃, rfl, rfl⟩ := h
    obtain ⟨vs, hv, hsizes, hstop⟩ := manyWhile_sound (newSize_sound he) h₃
    obtain ⟨hc, hsizes⟩ := sequence_and_iff.1 hsizes
    have hne : sizes ≠ [] := by
      rintro rfl
      cases hsizes
      exact hs (hv.nil_inv ▸ hstop)
    exact ⟨us ++ vs, hu.append hv, ⟨.newArray hne hc, trivial, .newArray ht helement hsizes,
      guarded_sizes hsizes hne (t :: us) _⟩, fun _ => hstop⟩
  · cases isFunction with
    | true => cases h
    | false =>
      simp only [Bool.false_eq_true, if_false, bind_ok_iff, pure_ok_iff] at h
      obtain ⟨l, m₃, h₃, r, m₄, h₄, rfl, rfl⟩ := h
      obtain ⟨name, hn, rfl, rfl⟩ := hname rfl
      obtain ⟨rfl, hl⟩ := expect_ok h₃
      obtain ⟨rfl, hr⟩ := expect_ok h₄
      have hread := hu.append (.token l (.single r rest))
      have hguard : Guarded ([t, name, l] ++ [r]) rest := guarded_snoc (by simp [hr])
      exact ⟨_, hread, ⟨.newStruct, trivial, .newStruct ht hn hl hr, hguard⟩, False.elim⟩

theorem guarded_single {t : τ} (ht : kind t ≠ .funWord) (rest : List τ) : Guarded [t] rest := by
  rw [← List.nil_append [t]]
  exact guarded_snoc ht

theorem variableAfter_sound {name : τ} (hn : kind name = .identifier) :
    Sound (variableAfter name) fun e us rest => Chain inner function e (name :: us) rest := by
  intro ts rest e h
  rw [variableAfter, bind_ok_iff] at h
  obtain ⟨o, mid, ho, h⟩ := h
  obtain ⟨rfl, rfl, -⟩ | ⟨op, rfl, rfl, hop⟩ := accept_ok ho
  · obtain ⟨rfl, rfl⟩ := pure_ok_iff.1 h
    have hguard : Guarded [name] rest := guarded_single (by simp [hn]) _
    exact ⟨[], .nil _, ⟨.variable hn, trivial, .variable name, hguard⟩, False.elim⟩
  · obtain ⟨rfl, rfl⟩ := pure_ok_iff.1 h
    refine ⟨[op], .single op rest, ?_⟩
    split
    · next hk =>
      have hguard : Guarded ([name] ++ [op]) rest := guarded_snoc (by simp [hk])
      exact ⟨⟨.increment hn hk, trivial, .increment name op, hguard⟩, False.elim⟩
    · next hk =>
      have hk : kind op = .minusMinus := by simpa [hk] using hop
      have hguard : Guarded ([name] ++ [op]) rest := guarded_snoc (by simp [hk])
      exact ⟨⟨.decrement hn hk, trivial, .decrement name op, hguard⟩, False.elim⟩

theorem primaryOver_sound (he : Sound expression fun e us _ => e.Canonical ∧ inner e us)
    (hf : Sound functionType fun f us rest => function f us ∧ Guarded us rest) :
    Sound (primaryOver expression functionType) (Chain inner function) := by
  intro ts rest e h
  cases ts with
  | nil => cases h
  | cons t ts =>
    simp only [primaryOver] at h
    split at h
    · next hl =>
      simp only [Except.ok.injEq, Prod.mk.injEq] at h
      obtain ⟨rfl, rfl⟩ := h
      have hguard : Guarded [t] ts := guarded_single (fun hk => by rw [hk] at hl; cases hl) ts
      exact ⟨[t], .single t ts, ⟨.literal hl, trivial, .literal t, hguard⟩, False.elim⟩
    split at h
    · next hk =>
      simp only [bind_ok_iff, pure_ok_iff] at h
      obtain ⟨e', mid, he', r, m, hr, rfl, rfl⟩ := h
      obtain ⟨us, hu, hc, hi⟩ := he he'
      obtain ⟨rfl, hk'⟩ := expect_ok hr
      have hguard : Guarded (t :: us ++ [r]) rest := guarded_snoc (by simp [hk'])
      exact ⟨t :: us ++ [r], .token t (hu.append (.single r rest)),
        ⟨.grouped hc, trivial, .grouped hk hi hk', hguard⟩, False.elim⟩
    · next hk =>
      obtain ⟨us, hu, hp⟩ := variableAfter_sound hk h
      exact ⟨t :: us, .token t hu, hp⟩
    · next hk =>
      obtain ⟨us, hu, hp⟩ := newOver_sound he hf hk h
      exact ⟨t :: us, .token t hu, hp⟩
    · obtain ⟨f, hf', rfl⟩ := map_ok_iff.1 h
      obtain ⟨us, hu, hfu, hguard⟩ := hf hf'
      exact ⟨us, hu, ⟨.functionType, trivial, .functionType hfu, hguard⟩, False.elim⟩
    · cases h

theorem startsChain_iff {k : Kind} : (k == .leftParen || k == .dot || k == .leftBracket) = true ↔
    k = .leftParen ∨ k = .dot ∨ k = .leftBracket := by
  simp [or_assoc]

theorem postfixStep_sound (he : Sound expression fun e us _ => e.Canonical ∧ inner e us)
    {o : Expr τ} {us : List τ} {mid : List τ} (ho : Chain inner function o us mid) {e : Expr τ}
    {rest : List τ} (h : postfixStep expression o mid = .ok (some e, rest)) :
    ∃ vs, vs ≠ [] ∧ Reads mid vs rest ∧ Chain inner function e (us ++ vs) rest := by
  obtain ⟨⟨hc, hp, hy, -⟩, hn⟩ := ho
  rw [postfixStep, bind_ok_iff] at h
  obtain ⟨o', m, ht, h⟩ := h
  obtain ⟨rfl, rfl, -⟩ | ⟨t, rfl, rfl, hk⟩ := accept_ok ht
  · cases (pure_ok_iff.1 h).1
  obtain hk | hk | hk := startsChain_iff.1 hk
  · simp only [hk] at h
    obtain ⟨e', he', hsome⟩ := map_ok_iff.1 h
    obtain rfl := Option.some.inj hsome
    obtain ⟨_, hv, args, vs, paren, rfl, rfl, ha, hl, hr⟩ := callOver_sound he o he'
    have hguard : Guarded (us ++ t :: vs ++ [paren]) rest := guarded_snoc (by simp [hr])
    refine ⟨t :: vs ++ [paren], by simp, .token t hv, ?_⟩
    rw [← List.append_assoc]
    exact ⟨⟨.call hp hc ha hr, trivial, .call paren hy hk hl, hguard⟩, False.elim⟩
  · simp only [hk, bind_ok_iff, pure_ok_iff, Option.some.injEq] at h
    obtain ⟨name, m', hname, rfl, rfl⟩ := h
    obtain ⟨rfl, hid⟩ := expect_ok hname
    have hguard : Guarded (us ++ [t, name]) rest := by
      rw [guarded_append (by simp), ← List.singleton_append, guarded_append (by simp)]
      exact guarded_single (by simp [hid]) rest
    exact ⟨[t, name], by simp, .token t (.single name _),
      ⟨.property hp hc hid, trivial, .property name hy hk, hguard⟩, False.elim⟩
  · simp only [hk, bind_ok_iff, pure_ok_iff, Option.some.injEq] at h
    obtain ⟨i, m', hi, rfl, rfl⟩ := h
    obtain ⟨vs, hv, hci, hb⟩ := bracketed_sound he hk _ hi
    have hguard : Guarded (us ++ t :: vs) rest := by
      simpa using guarded_sizes (Sequence.cons hb .nil) (by simp) us rest
    have hn : ¬ o.IsNewArray := fun ho => by simpa [hk] using hn ho
    exact ⟨t :: vs, by simp, .token t hv,
      ⟨.index hp hn hc hci, trivial, .index hy hb, hguard⟩, False.elim⟩

theorem postfixStep_none {o : Expr τ} {ts rest : List τ}
    (h : postfixStep expression o ts = .ok (none, rest)) : rest = ts := by
  rw [postfixStep, bind_ok_iff] at h
  obtain ⟨o, m, ho, h⟩ := h
  obtain ⟨rfl, rfl, -⟩ | ⟨t, rfl, rfl, hk⟩ := accept_ok ho
  · exact (pure_ok_iff.1 h).2
  · obtain hk | hk | hk := startsChain_iff.1 hk <;>
      simp [hk, bind_ok_iff, pure_ok_iff, map_ok_iff] at h

theorem postfixOver_sound (he : Sound expression fun e us _ => e.Canonical ∧ inner e us)
    (hf : Sound functionType fun f us rest => function f us ∧ Guarded us rest) :
    Sound (postfixOver expression functionType) (Chain inner function) := by
  intro ts rest e h
  rw [postfixOver, bind_ok_iff] at h
  obtain ⟨first, mid, hfirst, h⟩ := h
  have keep : ∀ ⦃o e : Expr τ⦄ ⦃ts₁ ts₂ : List τ⦄,
      (∃ us, Reads ts us ts₁ ∧ Chain inner function o us ts₁) →
      postfixStep expression o ts₁ = .ok (some e, ts₂) →
      weight ts₂ < weight ts₁ ∧ ∃ us, Reads ts us ts₂ ∧ Chain inner function e us ts₂ := by
    rintro o e ts₁ ts₂ ⟨us, hu, ho⟩ hstep
    obtain ⟨vs, hne, hv, hchain⟩ := postfixStep_sound he ho hstep
    exact ⟨hv.weight_lt hne, us ++ vs, hu.append hv, hchain⟩
  obtain ⟨m, hinv, hn⟩ := iterate_invariant keep (primaryOver_sound he hf hfirst) h
  rwa [postfixStep_none hn]

theorem unaryOver_sound (he : Sound expression fun e us _ => e.Canonical ∧ inner e us)
    (hf : Sound functionType fun f us rest => function f us ∧ Guarded us rest)
    (ho : Sound operand fun e us rest => e.Canonical ∧ e.IsUnary ∧ inner e us ∧ us ≠ [] ∧
      Guarded us rest) :
    Sound (unaryOver operand expression functionType) (Phrase inner function Expr.IsUnary) := by
  intro ts rest e h
  rw [unaryOver, bind_ok_iff] at h
  obtain ⟨o, mid, haccept, h⟩ := h
  obtain ⟨rfl, rfl, -⟩ | ⟨op, rfl, rfl, hop⟩ := accept_ok haccept
  · obtain ⟨us, hu, hp, -⟩ := postfixOver_sound he hf h
    exact ⟨us, hu, hp.imp fun _ => Expr.IsPostfix.isUnary⟩
  · simp only [bind_ok_iff, pure_ok_iff] at h
    obtain ⟨e', m, he', rfl, rfl⟩ := h
    obtain ⟨us, hu, hc, hs, hi, hne, hguard⟩ := ho he'
    have hguard : Guarded ([op] ++ us) rest := (guarded_append hne).2 hguard
    exact ⟨op :: us, .token op hu, .unary hop hs hc, trivial, .unary op hi, hguard⟩

theorem layer_sound (n : Nat) :
    Sound (layer n : Layer τ).expression (fun e us _ => Spells n e us) ∧
      Sound (layer n : Layer τ).unary (Phrase (Yields n) (IsFunctionType n) Expr.IsUnary) := by
  induction n with
  | zero =>
    refine ⟨tooDeep_sound _, ?_⟩
    exact unaryOver_sound (tooDeep_sound _) (functionType_sound 0) (tooDeep_sound _)
  | succ n ih =>
    have hexpr : Sound (layer (n + 1) : Layer τ).expression fun e us _ => Spells (n + 1) e us :=
      assignmentOver_sound (beginsFun n) ih.2 ih.1
    refine ⟨hexpr, unaryOver_sound hexpr (functionType_sound (n + 1)) ?_⟩
    intro ts rest e h
    obtain ⟨us, hu, hc, hs, hy, hguard⟩ := ih.2 h
    exact ⟨us, hu, hc, hs, hy, hy.ne_nil (beginsFun n), hguard⟩

theorem expression_sound (n : Nat) :
    Sound (Parser.expression n : Parser τ (Expr τ)) fun e us _ => Spells n e us :=
  (layer_sound n).1

end Grammar

end Seanet
