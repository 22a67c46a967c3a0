import Seanet.Proofs.Grammar.ExpressionComplete

set_option autoImplicit false

namespace Seanet

namespace Grammar

open TokenView (kind secondHalf kind_secondHalf)
open SplitView (firstHalf kind_firstHalf)
open Seanet.Parser

variable {τ : Type} [SplitView τ]

/-- The tokens end with a function type. When the last one is a `>`, it closes its list. -/
def Closes (us : List τ) : Prop := ∃ n f vs, vs <:+ us ∧ IsFunctionType n f vs

def AnglesClose (us : List τ) : Prop :=
  ∀ xs a ys, us = xs ++ a :: ys → kind a = .greater →
    Closes (xs ++ [a]) ∨ ∃ b zs, ys = b :: zs ∧ kind b ≠ .greater

theorem Closes.append_left {us : List τ} (h : Closes us) (ts : List τ) : Closes (ts ++ us) := by
  obtain ⟨n, f, vs, hv, hf⟩ := h
  exact ⟨n, f, vs, hv.trans (List.suffix_append ts us), hf⟩

theorem anglesClose_nil : AnglesClose ([] : List τ) := by
  intro xs a ys h
  simp at h

theorem AnglesClose.append_of {us vs : List τ} (hu : AnglesClose us)
    (hv : ∀ xs a ys, vs = xs ++ a :: ys → kind a = .greater →
      Closes (us ++ (xs ++ [a])) ∨ ∃ b zs, ys = b :: zs ∧ kind b ≠ .greater) :
    AnglesClose (us ++ vs) := by
  intro xs a ys h ha
  obtain ⟨ts, rfl, hts⟩ | ⟨ts, hus, hts⟩ := List.append_eq_append_iff.1 h
  · rw [List.append_assoc]
    exact hv ts a ys hts ha
  · cases ts with
    | nil =>
      rw [List.append_nil] at hus
      exact hus ▸ hv [] a ys hts.symm ha
    | cons b ts =>
      obtain ⟨rfl, rfl⟩ := List.cons.inj hts
      obtain hc | ⟨b, zs, rfl, hb⟩ := hu xs a ts hus ha
      · exact .inl hc
      · exact .inr ⟨b, zs ++ vs, rfl, hb⟩

theorem AnglesClose.append {us vs : List τ} (hu : AnglesClose us) (hv : AnglesClose vs) :
    AnglesClose (us ++ vs) := by
  refine hu.append_of fun xs a ys h ha => ?_
  obtain hc | hn := hv xs a ys h ha
  · exact .inl (hc.append_left us)
  · exact .inr hn

theorem AnglesClose.snoc {us : List τ} {r : τ} (hu : AnglesClose us) (hr : Closes (us ++ [r])) :
    AnglesClose (us ++ [r]) := by
  refine hu.append_of fun xs a ys h _ => .inl ?_
  cases xs with
  | nil =>
    obtain ⟨rfl, rfl⟩ := List.cons.inj h
    exact hr
  | cons x xs => simp at h

theorem AnglesClose.cons {us : List τ} {t : τ} (hu : AnglesClose us)
    (ht : kind t = .greater → ∃ b zs, us = b :: zs ∧ kind b ≠ .greater) :
    AnglesClose (t :: us) := by
  intro xs a ys h ha
  cases xs with
  | nil =>
    obtain ⟨rfl, rfl⟩ := List.cons.inj h
    exact .inr (ht ha)
  | cons x xs =>
    obtain ⟨rfl, rfl⟩ := List.cons.inj h
    obtain hc | hn := hu xs a ys rfl ha
    · exact .inl (hc.append_left [t])
    · exact .inr hn

theorem AnglesClose.cons_of_ne {us : List τ} {t : τ} (hu : AnglesClose us)
    (ht : kind t ≠ .greater) : AnglesClose (t :: us) :=
  hu.cons fun hg => absurd hg ht

theorem AnglesClose.mark {us : List τ} {t : τ} {k : Kind} (hu : AnglesClose us) (ht : kind t = k)
    (hk : (k == .greater) = false) : AnglesClose (t :: us) :=
  hu.cons_of_ne (ht ▸ ne_of_beq_false hk)

theorem AnglesClose.operand {us : List τ} (hu : AnglesClose us) (hb : Begins startsExpression us)
    (t : τ) : AnglesClose (t :: us) := by
  refine hu.cons fun _ => ?_
  obtain ⟨b, zs, rfl, hs⟩ := hb
  refine ⟨b, zs, rfl, fun hk => ?_⟩
  rw [hk] at hs
  cases hs

theorem anglesClose_single {t : τ} {k : Kind} (ht : kind t = k) (hk : (k == .greater) = false) :
    AnglesClose [t] :=
  anglesClose_nil.mark ht hk

theorem Sequence.anglesClose {α : Type} {G : α → List τ → Prop} {as : List α} {us : List τ}
    (hg : ∀ a us, G a us → AnglesClose us) (h : Sequence G as us) : AnglesClose us :=
  h.closed hg anglesClose_nil fun _ _ hu hv => hu.append hv

theorem Separated.anglesClose {α : Type} {G : α → List τ → Prop} {as : List α} {us : List τ}
    (hg : ∀ a us, G a us → AnglesClose us) (h : Separated G as us) : AnglesClose us :=
  h.closed hg (fun _ hc => anglesClose_single hc rfl) anglesClose_nil fun _ _ hu hv => hu.append hv

theorem Listed.anglesClose {α : Type} {G : α → List τ → Prop} {as : List α} {us : List τ}
    (hg : ∀ a us, G a us → AnglesClose us) (h : Listed G as us) : AnglesClose us := by
  cases h with
  | none => exact anglesClose_nil
  | some h => exact h.anglesClose hg

theorem Brackets.anglesClose {n : Nat} {us : List τ} (h : Brackets n us) : AnglesClose us := by
  induction h with
  | nil => exact anglesClose_nil
  | cons hl hr _ ih => exact (ih.mark hr rfl).mark hl rfl

theorem TypeOver.anglesClose {F : TypeExpr τ → List τ → Prop} {allowVoid : Bool} {t : TypeExpr τ}
    {us : List τ} (hf : ∀ f us, F f us → AnglesClose us) (h : TypeOver F allowVoid t us) :
    AnglesClose us := by
  cases h with
  | name hr ht hb =>
    have hname := hb.anglesClose.cons_of_ne (namesType_ne ht).2.2
    cases hr with
    | absent => exact hname
    | present hr => exact hname.mark hr rfl
  | function h hb => exact (hf _ _ h).append hb.anglesClose

theorem FunctionOver.anglesClose {E : TypeExpr τ → List τ → Prop} {f : TypeExpr τ} {us : List τ}
    (he : ∀ t us, E t us → AnglesClose us) (h : FunctionOver E f us) (hc : Closes us) :
    AnglesClose us := by
  cases h with
  | bare ht => exact anglesClose_single ht rfl
  | list ht hl h _ =>
    exact AnglesClose.snoc (((h.anglesClose he).mark hl rfl).mark ht rfl) hc

theorem IsFunctionType.anglesClose {n : Nat} {f : TypeExpr τ} {us : List τ}
    (h : IsFunctionType n f us) : AnglesClose us := by
  have hc : ∀ {n f us}, IsFunctionType n f us → Closes (us : List τ) :=
    fun h => ⟨_, _, _, List.suffix_refl _, h⟩
  induction n generalizing f us with
  | zero => exact FunctionOver.anglesClose (fun _ _ => False.elim) h (hc h)
  | succ n ih =>
    exact FunctionOver.anglesClose (fun _ _ ht => TypeOver.anglesClose (fun _ _ hf => ih hf) ht) h
      (hc h)

section

variable {inner : Expr τ → List τ → Prop} {function : TypeExpr τ → List τ → Prop}

theorem ArgumentOver.anglesClose
    (hi : ∀ e us, e.Canonical → inner e us → AnglesClose us)
    (href : ∀ name us, ¬ inner (.variable name true) us) {a : Expr τ} {us : List τ}
    (hc : a.CanonicalArgument) (h : ArgumentOver inner a us) : AnglesClose us := by
  cases h with
  | value h =>
    cases hc with
    | value hc => exact hi _ _ hc h
    | ref _ => exact (href _ _ h).elim
  | ref ht =>
    cases hc with
    | value hc => cases hc
    | ref hn => exact (anglesClose_single hn rfl).mark ht rfl

theorem BracketedOver.anglesClose (hi : ∀ e us, e.Canonical → inner e us → AnglesClose us)
    {e : Expr τ} {us : List τ} (hc : e.Canonical) (h : BracketedOver inner e us) :
    AnglesClose us := by
  cases h with
  | mk hl h hr => exact ((hi _ _ hc h).mark hl rfl).append (anglesClose_single hr rfl)

theorem ElementOver.anglesClose (hf : ∀ f us, function f us → AnglesClose us)
    {t : TypeExpr τ} {us : List τ} (h : ElementOver function t us) : AnglesClose us := by
  cases h with
  | name ht => exact anglesClose_nil.cons_of_ne (namesType_ne ht).2.2
  | function h => exact hf _ _ h

theorem YieldsOver.anglesClose (hf : ∀ f us, function f us → AnglesClose us)
    (hb : BeginsFun function)
    (hi : ∀ e us, e.Canonical → inner e us → AnglesClose us)
    (href : ∀ name us, ¬ inner (.variable name true) us) {e : Expr τ} {us : List τ}
    (h : YieldsOver inner function e us) (hc : e.Canonical) : AnglesClose us := by
  induction h with
  | literal t =>
    cases hc with
    | literal ht => exact anglesClose_nil.cons_of_ne fun hk => by rw [hk] at ht; cases ht
  | grouped hl h hr =>
    cases hc with
    | grouped hc => exact ((hi _ _ hc h).mark hl rfl).append (anglesClose_single hr rfl)
  | unary op h =>
    cases hc with
    | unary ho _ hc => exact (hi _ _ hc h).cons_of_ne fun hk => by rw [hk] at ho; cases ho
  | binary _ h' _ ih ih' =>
    cases hc with
    | binary _ _ _ hl hr => exact (ih hl).append ((ih' hr).operand (h'.begins hb hr) _)
  | logical _ h' _ ih ih' =>
    cases hc with
    | logical _ _ _ hl hr => exact (ih hl).append ((ih' hr).operand (h'.begins hb hr) _)
  | assign name op h =>
    cases hc with
    | assign hn ho hc =>
      have hvalue := (hi _ _ hc h).cons_of_ne (t := op) fun hk => by rw [hk] at ho; cases ho
      exact hvalue.mark hn rfl
  | assignProperty name op _ hd h ih =>
    cases hc with
    | assignProperty _ hc hn ho hc' =>
      have hvalue := (hi _ _ hc' h).cons_of_ne (t := op) fun hk => by rw [hk] at ho; cases ho
      exact (ih hc).append ((hvalue.mark hn rfl).mark hd rfl)
  | call paren _ hl ha ih =>
    cases hc with
    | call _ hc hargs hp =>
      have hlist := (listed_and_iff.2 ⟨hargs, ha⟩).anglesClose fun _ _ h =>
        h.2.anglesClose hi href h.1
      exact ((ih hc).append (hlist.mark hl rfl)).append (anglesClose_single hp rfl)
  | property name _ hd ih =>
    cases hc with
    | property _ hc hn => exact (ih hc).append ((anglesClose_single hn rfl).mark hd rfl)
  | «variable» name =>
    cases hc with
    | «variable» hn => exact anglesClose_single hn rfl
  | increment name op =>
    cases hc with
    | increment hn ho => exact (anglesClose_single ho rfl).mark hn rfl
  | decrement name op =>
    cases hc with
    | decrement hn ho => exact (anglesClose_single ho rfl).mark hn rfl
  | index _ hi' ih =>
    cases hc with
    | index _ _ hc hci => exact (ih hc).append (hi'.anglesClose hi hci)
  | newArray ht h hs =>
    cases hc with
    | newArray _ hc =>
      have hsizes := (sequence_and_iff.2 ⟨hc, hs⟩).anglesClose fun _ _ h =>
        h.2.anglesClose hi h.1
      exact ((h.anglesClose hf).mark ht rfl).append hsizes
  | newStruct ht hn hl hr =>
    exact (((anglesClose_single hr rfl).mark hl rfl).cons_of_ne (namesType_ne hn).2.2).mark ht rfl
  | functionType h => exact hf _ _ h

end

theorem Spells.anglesClose {n : Nat} {e : Expr τ} {us : List τ} (h : Spells n e us) :
    AnglesClose us := by
  induction n generalizing e us with
  | zero => exact h.2.elim
  | succ n ih =>
    exact YieldsOver.anglesClose (fun _ _ hf => hf.anglesClose) (beginsFun n)
      (fun _ _ hc hy => ih ⟨hc, hy⟩) (fun _ _ => not_yields_ref) h.2 h.1

/-- The tokens `us` are all of `ts`, with `before` in front of them. A `>>` is cut in two only where
its first half closes a function type. -/
inductive SplitsClosing : List τ → List τ → List τ → Prop where
  | nil (before : List τ) : SplitsClosing before [] []
  | token {before ts us : List τ} (t : τ) (h : SplitsClosing (before ++ [t]) ts us) :
      SplitsClosing before (t :: ts) (t :: us)
  | half {before ts us : List τ} {t : τ} (ht : kind t = .greaterGreater)
      (hc : Closes (before ++ [firstHalf t]))
      (h : SplitsClosing (before ++ [firstHalf t]) (secondHalf t :: ts) us) :
      SplitsClosing before (t :: ts) (firstHalf t :: us)

theorem SplitsClosing.splits {before ts us : List τ} (h : SplitsClosing before ts us) :
    Splits ts us := by
  induction h with
  | nil _ => exact .nil []
  | token t _ ih => exact .token t ih
  | half ht _ _ ih => exact .half ht ih

theorem Splits.closing {before ts us : List τ} (h : Splits ts us)
    (hu : AnglesClose (before ++ us)) : SplitsClosing before ts us := by
  unfold Splits at h
  generalize hrest : ([] : List τ) = rest at h
  induction h generalizing before with
  | nil ts =>
    subst hrest
    exact .nil before
  | token t _ ih =>
    refine .token t (ih ?_ hrest)
    simpa using hu
  | @half t ts us rest ht h ih =>
    subst hrest
    -- The second half comes next, so the first one is not in front of an operand.
    have hnext : ∃ vs, us = secondHalf t :: vs := by
      cases h with
      | token _ _ => exact ⟨_, rfl⟩
      | half hs _ =>
        rw [kind_secondHalf] at hs
        cases hs
    obtain ⟨vs, rfl⟩ := hnext
    refine .half ht ?_ (ih (by simpa using hu) rfl)
    obtain hc | ⟨b, zs, hb, hk⟩ := hu before (firstHalf t) _ rfl (kind_firstHalf t)
    · exact hc
    · obtain ⟨rfl, rfl⟩ := List.cons.inj hb
      exact absurd (kind_secondHalf t) hk

end Grammar

end Seanet
