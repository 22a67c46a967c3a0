import Seanet.Proofs.Grammar.Programs

set_option autoImplicit false

namespace Seanet

namespace Grammar

open TokenView (kind)

variable {τ α : Type}

def Subgrammar (G G' : α → List τ → Prop) : Prop := ∀ ⦃a us⦄, G a us → G' a us

theorem Sequence.imp {G G' : α → List τ → Prop} {as : List α} {us : List τ}
    (h : Sequence G as us) (hg : Subgrammar G G') : Sequence G' as us := by
  induction h with
  | nil => exact .nil
  | cons h _ ih => exact .cons (hg h) ih

theorem Sequence.append {G : α → List τ → Prop} {as bs : List α} {us vs : List τ}
    (h : Sequence G as us) (h' : Sequence G bs vs) : Sequence G (as ++ bs) (us ++ vs) := by
  induction h with
  | nil => exact h'
  | cons h _ ih =>
    rw [List.append_assoc]
    exact .cons h ih

variable [SplitView τ]

theorem Commas.imp {G G' : α → List τ → Prop} {as : List α} {us : List τ} (h : Commas G as us)
    (hg : Subgrammar G G') : Commas G' as us := by
  induction h with
  | nil => exact .nil
  | cons hc h _ ih => exact .cons hc (hg h) ih

theorem Separated.imp {G G' : α → List τ → Prop} {as : List α} {us : List τ}
    (h : Separated G as us) (hg : Subgrammar G G') : Separated G' as us := by
  cases h with
  | mk h hs => exact .mk (hg h) (hs.imp hg)

theorem Listed.imp {G G' : α → List τ → Prop} {as : List α} {us : List τ} (h : Listed G as us)
    (hg : Subgrammar G G') : Listed G' as us := by
  cases h with
  | none => exact .none
  | some h => exact .some (h.imp hg)

section

variable {F F' T T' : TypeExpr τ → List τ → Prop} {E E' : Expr τ → List τ → Prop}
  {B B' : List (Stmt τ) → List τ → Prop} {C C' : Stmt τ → List τ → Prop}

theorem FunctionOver.imp (ht : Subgrammar T T') :
    Subgrammar (FunctionOver T) (FunctionOver T') := by
  intro f us h
  cases h with
  | bare h => exact .bare h
  | list h hl hs hr => exact .list h hl (hs.imp ht) hr

theorem TypeOver.imp (hf : Subgrammar F F') (allowVoid : Bool) :
    Subgrammar (TypeOver F allowVoid) (TypeOver F' allowVoid) := by
  intro t us h
  cases h with
  | name hr ht hb => exact .name hr ht hb
  | function h hb => exact .function (hf h) hb

theorem ArgumentOver.imp (he : Subgrammar E E') :
    Subgrammar (ArgumentOver E) (ArgumentOver E') := by
  intro e us h
  cases h with
  | value h => exact .value (he h)
  | ref ht => exact .ref ht

theorem BracketedOver.imp (he : Subgrammar E E') :
    Subgrammar (BracketedOver E) (BracketedOver E') := by
  intro e us h
  cases h with
  | mk hl h hr => exact .mk hl (he h) hr

theorem ElementOver.imp (hf : Subgrammar F F') : Subgrammar (ElementOver F) (ElementOver F') := by
  intro t us h
  cases h with
  | name ht => exact .name ht
  | function h => exact .function (hf h)

theorem YieldsOver.imp (he : Subgrammar E E') (hf : Subgrammar F F') :
    Subgrammar (YieldsOver E F) (YieldsOver E' F') := by
  intro e us h
  induction h with
  | literal t => exact .literal t
  | grouped hl h hr => exact .grouped hl (he h) hr
  | unary op h => exact .unary op (he h)
  | binary _ _ hg ih ih' => exact .binary ih ih' hg
  | logical _ _ hg ih ih' => exact .logical ih ih' hg
  | assign name op h => exact .assign name op (he h)
  | assignProperty name op _ hd h ih => exact .assignProperty name op ih hd (he h)
  | call paren _ hl ha ih => exact .call paren ih hl (ha.imp (ArgumentOver.imp he))
  | property name _ hd ih => exact .property name ih hd
  | «variable» name => exact .variable name
  | increment name op => exact .increment name op
  | decrement name op => exact .decrement name op
  | index _ hi ih => exact .index ih (BracketedOver.imp he hi)
  | newArray ht h hs =>
    exact .newArray ht (ElementOver.imp hf h) (hs.imp (BracketedOver.imp he))
  | newStruct ht hn hl hr => exact .newStruct ht hn hl hr
  | functionType h => exact .functionType (hf h)

theorem ParenthesizedOver.imp (he : Subgrammar E E') :
    Subgrammar (ParenthesizedOver E) (ParenthesizedOver E') := by
  intro e us h
  cases h with
  | mk hl h hr => exact .mk hl (he h) hr

theorem SimpleOver.imp (he : Subgrammar E E') (ht : Subgrammar T T') :
    Subgrammar (SimpleOver E T) (SimpleOver E' T') := by
  intro s us h
  cases h with
  | var hv hn hq h hs => exact .var hv hn hq (he h) hs
  | declare h hn hs => exact .declare (ht h) hn hs
  | define h hn hq h' hs => exact .define (ht h) hn hq (he h') hs
  | expr h hf hs => exact .expr (he h) hf hs

theorem InitializerOver.imp (he : Subgrammar E E') (ht : Subgrammar T T') :
    Subgrammar (InitializerOver E T) (InitializerOver E' T') := by
  intro o us h
  cases h with
  | none hs => exact .none hs
  | some h => exact .some (SimpleOver.imp he ht h)

theorem LoopConditionOver.imp (he : Subgrammar E E') :
    Subgrammar (LoopConditionOver E) (LoopConditionOver E') := by
  intro e us h
  cases h with
  | missing hs => exact .missing hs
  | written h hs => exact .written (he h) hs

omit [SplitView τ] in
theorem IncrementOver.imp (he : Subgrammar E E') :
    Subgrammar (IncrementOver E) (IncrementOver E') := by
  intro o us h
  cases h with
  | none => exact .none
  | some h => exact .some (he h)

theorem ConditionalOver.imp (he : Subgrammar E E') (hb : Subgrammar B B') (hc : Subgrammar C C') :
    Subgrammar (ConditionalOver E B C) (ConditionalOver E' B' C') := by
  intro s us h
  cases h with
  | ifThen ht h hB => exact .ifThen ht (ParenthesizedOver.imp he h) (hb hB)
  | ifElse ht h hB hw ho => exact .ifElse ht (ParenthesizedOver.imp he h) (hb hB) hw (hb ho)
  | elseIf ht h hB hw ho => exact .elseIf ht (ParenthesizedOver.imp he h) (hb hB) hw (hc ho)

theorem StatementOver.imp (he : Subgrammar E E') (ht : Subgrammar T T') (hb : Subgrammar B B')
    (hc : Subgrammar C C') : Subgrammar (StatementOver E T B C) (StatementOver E' T' B' C') := by
  intro s us h
  cases h with
  | simple h => exact .simple (SimpleOver.imp he ht h)
  | block h => exact .block (hb h)
  | conditional h => exact .conditional (hc h)
  | whileLoop hw h hB => exact .whileLoop hw (ParenthesizedOver.imp he h) (hb hB)
  | forLoop hf hl hi htest hn hr hB =>
    exact .forLoop hf hl (InitializerOver.imp he ht hi) (LoopConditionOver.imp he htest)
      (IncrementOver.imp he hn) hr (hb hB)
  | returnVoid hr hs => exact .returnVoid hr hs
  | returnValue hr h hs => exact .returnValue hr (he h) hs

theorem BlockOver.imp (hc : Subgrammar C C') : Subgrammar (BlockOver C) (BlockOver C') := by
  intro b us h
  cases h with
  | mk hl h hr => exact .mk hl (h.imp hc) hr

theorem FieldOver.imp (ht : Subgrammar T T') : Subgrammar (FieldOver T) (FieldOver T') := by
  intro f us h
  cases h with
  | mk h hn => exact .mk (ht h) hn

theorem MemberOver.imp (ht : Subgrammar T T') : Subgrammar (MemberOver T) (MemberOver T') := by
  intro f us h
  cases h with
  | mk h hs => exact .mk (FieldOver.imp ht h) hs

end

theorem IsFunctionType.mono {n m : Nat} (hm : n ≤ m) :
    Subgrammar (IsFunctionType n : TypeExpr τ → List τ → Prop) (IsFunctionType m) := by
  induction n generalizing m with
  | zero =>
    intro f us h
    cases m with
    | zero => exact h
    | succ m => exact FunctionOver.imp (fun _ _ h => h.elim) h
  | succ n ih =>
    obtain ⟨m, rfl⟩ := Nat.exists_eq_add_of_le' (Nat.le_trans (Nat.le_add_left 1 n) hm)
    exact FunctionOver.imp (TypeOver.imp (ih (by omega)) true)

theorem IsType.mono {n m : Nat} (hm : n ≤ m) (allowVoid : Bool) :
    Subgrammar (IsType n allowVoid : TypeExpr τ → List τ → Prop) (IsType m allowVoid) :=
  TypeOver.imp (IsFunctionType.mono hm) allowVoid

theorem Yields.mono {n m : Nat} (hm : n ≤ m) :
    Subgrammar (Yields n : Expr τ → List τ → Prop) (Yields m) := by
  induction n generalizing m with
  | zero => exact fun _ _ h => h.elim
  | succ n ih =>
    obtain ⟨m, rfl⟩ := Nat.exists_eq_add_of_le' (Nat.le_trans (Nat.le_add_left 1 n) hm)
    exact YieldsOver.imp (ih (by omega)) (IsFunctionType.mono (by omega))

theorem Spells.mono {n m : Nat} (hm : n ≤ m) :
    Subgrammar (Spells n : Expr τ → List τ → Prop) (Spells m) :=
  fun _ _ h => ⟨h.1, Yields.mono hm h.2⟩

theorem StatementBelow.mono {n m : Nat} (hm : n ≤ m) {B B' : List (Stmt τ) → List τ → Prop}
    {C C' : Stmt τ → List τ → Prop} (hb : Subgrammar B B') (hc : Subgrammar C C') :
    Subgrammar (StatementBelow n B C) (StatementBelow m B' C') :=
  StatementOver.imp (Spells.mono hm) (IsType.mono hm false) hb hc

theorem stmtLayer_mono {n m : Nat} (hm : n ≤ m) :
    Subgrammar (IsBlock n : List (Stmt τ) → List τ → Prop) (IsBlock m) ∧
      Subgrammar (IsConditional n : Stmt τ → List τ → Prop) (IsConditional m) := by
  induction n generalizing m with
  | zero => exact ⟨fun _ _ h => h.elim, fun _ _ h => h.elim⟩
  | succ n ih =>
    obtain ⟨m, rfl⟩ := Nat.exists_eq_add_of_le' (Nat.le_trans (Nat.le_add_left 1 n) hm)
    have ih := ih (m := m) (by omega)
    have hblock : Subgrammar (IsBlock (n + 1) : List (Stmt τ) → List τ → Prop) (IsBlock (m + 1)) :=
      BlockOver.imp (StatementBelow.mono (by omega) ih.1 ih.2)
    exact ⟨hblock, ConditionalOver.imp (Spells.mono hm) hblock ih.2⟩

theorem IsBlock.mono {n m : Nat} (hm : n ≤ m) :
    Subgrammar (IsBlock n : List (Stmt τ) → List τ → Prop) (IsBlock m) := (stmtLayer_mono hm).1

theorem IsStatement.mono {n m : Nat} (hm : n ≤ m) :
    Subgrammar (IsStatement n : Stmt τ → List τ → Prop) (IsStatement m) :=
  StatementBelow.mono hm (stmtLayer_mono hm).1 (stmtLayer_mono hm).2

theorem IsDeclaration.mono {n m : Nat} (hm : n ≤ m) :
    Subgrammar (IsDeclaration n : Declaration τ → List τ → Prop) (IsDeclaration m) := by
  intro d us h
  cases h with
  | struct ht hn hl h hr =>
    exact .struct ht hn hl (h.imp (MemberOver.imp (IsType.mono hm false))) hr
  | function h hn hl hp hr hb =>
    exact .function (IsType.mono hm true h) hn hl (hp.imp (FieldOver.imp (IsType.mono hm false))) hr
      (IsBlock.mono hm hb)

theorem IsProgram.mono {n m : Nat} (hm : n ≤ m) :
    Subgrammar (IsProgram n : Program τ → List τ → Prop) (IsProgram m) := by
  intro p us h
  cases h with
  | mk h => exact .mk (h.imp (IsDeclaration.mono hm))

def bracesBody (k : Kind) : Bool :=
  k == .ifWord || k == .elseWord || k == .whileWord || k == .forWord || k == .leftBrace ||
    k == .rightBrace

def Bodiless (us : List τ) : Prop := ∀ u ∈ us, bracesBody (kind u) = false

theorem bodiless_nil : Bodiless ([] : List τ) := by simp [Bodiless]

theorem bodiless_cons {u : τ} {us : List τ} :
    Bodiless (u :: us) ↔ bracesBody (kind u) = false ∧ Bodiless us :=
  List.forall_mem_cons

theorem bodiless_append {us vs : List τ} : Bodiless (us ++ vs) ↔ Bodiless us ∧ Bodiless vs :=
  List.forall_mem_append

theorem Bodiless.append {us vs : List τ} (hu : Bodiless us) (hv : Bodiless vs) :
    Bodiless (us ++ vs) :=
  bodiless_append.2 ⟨hu, hv⟩

theorem Bodiless.mark {us : List τ} {t : τ} {k : Kind} (hu : Bodiless us) (ht : kind t = k)
    (hk : bracesBody k = false) : Bodiless (t :: us) :=
  bodiless_cons.2 ⟨ht ▸ hk, hu⟩

theorem bodiless_single {t : τ} {k : Kind} (ht : kind t = k) (hk : bracesBody k = false) :
    Bodiless [t] :=
  bodiless_nil.mark ht hk

theorem bracesBody_of_namesType {allowVoid : Bool} {k : Kind}
    (h : namesType allowVoid k = true) : bracesBody k = false := by
  revert h
  cases allowVoid <;> cases k <;> decide

theorem bracesBody_of_isLiteral {k : Kind} (h : k.isLiteral = true) :
    bracesBody k = false := by
  revert h
  cases k <;> decide

theorem bracesBody_of_isUnaryOperator {k : Kind} (h : k.isUnaryOperator = true) :
    bracesBody k = false := by
  revert h
  cases k <;> decide

theorem bracesBody_of_isAssignment {k : Kind} (h : k.isAssignment = true) :
    bracesBody k = false := by
  revert h
  cases k <;> decide

theorem bracesBody_of_has {i : Nat} {b : Bool} {k : Kind} (h : BinaryLevel.Has i b k) :
    bracesBody k = false := by
  have hk := h.anyHas
  revert hk
  cases k <;> decide

theorem Sequence.bodiless {G : α → List τ → Prop} {as : List α} {us : List τ}
    (hg : ∀ a us, G a us → Bodiless us) (h : Sequence G as us) : Bodiless us :=
  h.closed hg bodiless_nil fun _ _ => Bodiless.append

theorem Separated.bodiless {G : α → List τ → Prop} {as : List α} {us : List τ}
    (hg : ∀ a us, G a us → Bodiless us) (h : Separated G as us) : Bodiless us :=
  h.closed hg (fun _ hc => bodiless_single hc rfl) bodiless_nil fun _ _ => Bodiless.append

theorem Listed.bodiless {G : α → List τ → Prop} {as : List α} {us : List τ}
    (hg : ∀ a us, G a us → Bodiless us) (h : Listed G as us) : Bodiless us := by
  cases h with
  | none => exact bodiless_nil
  | some h => exact h.bodiless hg

theorem Brackets.bodiless {n : Nat} {us : List τ} (h : Brackets n us) : Bodiless us := by
  induction h with
  | nil => exact bodiless_nil
  | cons hl hr _ ih => exact (ih.mark hr rfl).mark hl rfl

theorem TypeOver.bodiless {F : TypeExpr τ → List τ → Prop} {allowVoid : Bool} {t : TypeExpr τ}
    {us : List τ} (hf : ∀ f us, F f us → Bodiless us) (h : TypeOver F allowVoid t us) :
    Bodiless us := by
  cases h with
  | name hr ht hb =>
    have hname := bodiless_cons.2 ⟨bracesBody_of_namesType ht, hb.bodiless⟩
    cases hr with
    | absent => exact hname
    | present hr => exact hname.mark hr rfl
  | function h hb => exact (hf _ _ h).append hb.bodiless

theorem FunctionOver.bodiless {T : TypeExpr τ → List τ → Prop} {f : TypeExpr τ} {us : List τ}
    (ht : ∀ t us, T t us → Bodiless us) (h : FunctionOver T f us) : Bodiless us := by
  cases h with
  | bare hf => exact bodiless_single hf rfl
  | list hf hl h hr =>
    exact (((h.bodiless ht).mark hl rfl).mark hf rfl).append (bodiless_single hr rfl)

theorem IsFunctionType.bodiless {n : Nat} {f : TypeExpr τ} {us : List τ}
    (h : IsFunctionType n f us) : Bodiless us := by
  induction n generalizing f us with
  | zero => exact FunctionOver.bodiless (fun _ _ => False.elim) h
  | succ n ih =>
    exact FunctionOver.bodiless (fun _ _ ht => TypeOver.bodiless (fun _ _ hf => ih hf) ht) h

theorem IsType.bodiless {n : Nat} {allowVoid : Bool} {t : TypeExpr τ} {us : List τ}
    (h : IsType n allowVoid t us) : Bodiless us :=
  TypeOver.bodiless (fun _ _ hf => hf.bodiless) h

section

variable {inner : Expr τ → List τ → Prop} {function : TypeExpr τ → List τ → Prop}

theorem ArgumentOver.bodiless (hi : ∀ e us, e.Canonical → inner e us → Bodiless us)
    (href : ∀ name us, ¬ inner (.variable name true) us) {a : Expr τ} {us : List τ}
    (hc : a.CanonicalArgument) (h : ArgumentOver inner a us) : Bodiless us := by
  cases h with
  | value h =>
    cases hc with
    | value hc => exact hi _ _ hc h
    | ref _ => exact (href _ _ h).elim
  | ref ht =>
    cases hc with
    | value hc => cases hc
    | ref hn => exact (bodiless_single hn rfl).mark ht rfl

theorem BracketedOver.bodiless (hi : ∀ e us, e.Canonical → inner e us → Bodiless us) {e : Expr τ}
    {us : List τ} (hc : e.Canonical) (h : BracketedOver inner e us) : Bodiless us := by
  cases h with
  | mk hl h hr => exact ((hi _ _ hc h).mark hl rfl).append (bodiless_single hr rfl)

theorem ElementOver.bodiless (hf : ∀ f us, function f us → Bodiless us) {t : TypeExpr τ}
    {us : List τ} (h : ElementOver function t us) : Bodiless us := by
  cases h with
  | name ht => exact bodiless_single rfl (bracesBody_of_namesType ht)
  | function h => exact hf _ _ h

theorem YieldsOver.bodiless (hf : ∀ f us, function f us → Bodiless us)
    (hi : ∀ e us, e.Canonical → inner e us → Bodiless us)
    (href : ∀ name us, ¬ inner (.variable name true) us) {e : Expr τ} {us : List τ}
    (h : YieldsOver inner function e us) (hc : e.Canonical) : Bodiless us := by
  induction h with
  | literal t =>
    cases hc with
    | literal ht => exact bodiless_single rfl (bracesBody_of_isLiteral ht)
  | grouped hl h hr =>
    cases hc with
    | grouped hc => exact ((hi _ _ hc h).mark hl rfl).append (bodiless_single hr rfl)
  | unary op h =>
    cases hc with
    | unary ho _ hc => exact (hi _ _ hc h).mark rfl (bracesBody_of_isUnaryOperator ho)
  | binary _ _ _ ih ih' =>
    cases hc with
    | binary ho _ _ hl hr => exact (ih hl).append ((ih' hr).mark rfl (bracesBody_of_has ho))
  | logical _ _ _ ih ih' =>
    cases hc with
    | logical ho _ _ hl hr => exact (ih hl).append ((ih' hr).mark rfl (bracesBody_of_has ho))
  | assign name op h =>
    cases hc with
    | assign hn ho hc =>
      exact ((hi _ _ hc h).mark rfl (bracesBody_of_isAssignment ho)).mark hn rfl
  | assignProperty name op _ hd h ih =>
    cases hc with
    | assignProperty _ hc hn ho hc' =>
      have hvalue := (hi _ _ hc' h).mark (t := op) rfl (bracesBody_of_isAssignment ho)
      exact (ih hc).append ((hvalue.mark hn rfl).mark hd rfl)
  | call paren _ hl ha ih =>
    cases hc with
    | call _ hc hargs hp =>
      have hlist := (listed_and_iff.2 ⟨hargs, ha⟩).bodiless fun _ _ h => h.2.bodiless hi href h.1
      exact ((ih hc).append (hlist.mark hl rfl)).append (bodiless_single hp rfl)
  | property name _ hd ih =>
    cases hc with
    | property _ hc hn => exact (ih hc).append ((bodiless_single hn rfl).mark hd rfl)
  | «variable» name =>
    cases hc with
    | «variable» hn => exact bodiless_single hn rfl
  | increment name op =>
    cases hc with
    | increment hn ho => exact (bodiless_single ho rfl).mark hn rfl
  | decrement name op =>
    cases hc with
    | decrement hn ho => exact (bodiless_single ho rfl).mark hn rfl
  | index _ hb ih =>
    cases hc with
    | index _ _ hc hci => exact (ih hc).append (hb.bodiless hi hci)
  | newArray ht h hs =>
    cases hc with
    | newArray _ hc =>
      have hsizes := (sequence_and_iff.2 ⟨hc, hs⟩).bodiless fun _ _ h => h.2.bodiless hi h.1
      exact ((h.bodiless hf).mark ht rfl).append hsizes
  | newStruct ht hn hl hr =>
    have hparens := (bodiless_single hr rfl).mark hl rfl
    exact (hparens.mark rfl (bracesBody_of_namesType hn)).mark ht rfl
  | functionType h => exact hf _ _ h

end

theorem Spells.bodiless {n : Nat} {e : Expr τ} {us : List τ} (h : Spells n e us) :
    Bodiless us := by
  induction n generalizing e us with
  | zero => exact h.2.elim
  | succ n ih =>
    exact YieldsOver.bodiless (fun _ _ hf => hf.bodiless) (fun _ _ hc hy => ih ⟨hc, hy⟩)
      (fun _ _ => not_yields_ref) h.2 h.1

theorem ParenthesizedOver.bodiless {n : Nat} {e : Expr τ} {us : List τ}
    (h : ParenthesizedOver (Spells n) e us) : Bodiless us := by
  cases h with
  | mk hl h hr => exact (h.bodiless.mark hl rfl).append (bodiless_single hr rfl)

theorem SimpleOver.bodiless {n : Nat} {s : Stmt τ} {us : List τ}
    (h : SimpleOver (Spells n) (IsType n false) s us) : Bodiless us := by
  cases h with
  | var hv hn hq h hs =>
    exact (((h.bodiless.mark hq rfl).mark hn rfl).mark hv rfl).append (bodiless_single hs rfl)
  | declare h hn hs => exact h.bodiless.append ((bodiless_single hs rfl).mark hn rfl)
  | define h hn hq h' hs =>
    have hvalue := (h'.bodiless.mark hq rfl).mark hn rfl
    exact (h.bodiless.append hvalue).append (bodiless_single hs rfl)
  | expr h _ hs => exact h.bodiless.append (bodiless_single hs rfl)

theorem InitializerOver.bodiless {n : Nat} {o : Option (Stmt τ)} {us : List τ}
    (h : InitializerOver (Spells n) (IsType n false) o us) : Bodiless us := by
  cases h with
  | none hs => exact bodiless_single hs rfl
  | some h => exact h.bodiless

theorem LoopConditionOver.bodiless {n : Nat} {e : Expr τ} {us : List τ}
    (h : LoopConditionOver (Spells n) e us) : Bodiless us := by
  cases h with
  | missing hs => exact bodiless_single hs rfl
  | written h hs => exact h.bodiless.append (bodiless_single hs rfl)

theorem IncrementOver.bodiless {n : Nat} {o : Option (Expr τ)} {us : List τ}
    (h : IncrementOver (Spells n) o us) : Bodiless us := by
  cases h with
  | none => exact bodiless_nil
  | some h => exact h.bodiless

theorem FieldOver.bodiless {n : Nat} {f : Field τ} {us : List τ}
    (h : FieldOver (IsType n false) f us) : Bodiless us := by
  cases h with
  | mk h hn => exact h.bodiless.append (bodiless_single hn rfl)

theorem MemberOver.bodiless {n : Nat} {f : Field τ} {us : List τ}
    (h : MemberOver (IsType n false) f us) : Bodiless us := by
  cases h with
  | mk h hs => exact h.bodiless.append (bodiless_single hs rfl)

end Grammar

end Seanet
