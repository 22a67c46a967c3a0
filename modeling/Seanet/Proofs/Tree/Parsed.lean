import Seanet.Proofs.Grammar.Programs
import Seanet.Proofs.Tree.Nodes

set_option autoImplicit false

namespace Seanet

open Grammar

def Lexemes (us : List Token) : Prop := ∀ u ∈ us, u.word.IsLexeme

theorem lexemes_nil : Lexemes [] := by simp [Lexemes]

theorem lexemes_cons {u : Token} {us : List Token} :
    Lexemes (u :: us) ↔ u.word.IsLexeme ∧ Lexemes us :=
  List.forall_mem_cons

theorem lexemes_append {us vs : List Token} : Lexemes (us ++ vs) ↔ Lexemes us ∧ Lexemes vs :=
  List.forall_mem_append

theorem Word.IsLexeme.is {p : Kind → Bool} {t : Token} (h : t.word.IsLexeme)
    (hk : p t.kind = true) : t.word.Is p :=
  ⟨h, by rw [t.word_kind]; exact hk⟩

theorem Word.IsLexeme.isKind {k : Kind} {t : Token} (h : t.word.IsLexeme) (hk : t.kind = k) :
    t.word.Is (· == k) :=
  h.is (beq_iff_eq.2 hk)

theorem Word.IsLexeme.isName {t : Token} (h : t.word.IsLexeme) (hk : t.kind = .identifier) :
    t.word.IsName :=
  h.isKind hk

theorem isLexeme_keyword {x : Text × Kind} (h : x ∈ Kind.keywordTexts) :
    Word.IsLexeme ⟨x.2, x.1⟩ := by
  have htable : ∀ x ∈ Kind.keywordTexts, x.1 ≠ [] ∧ x.1.head?.all Lexical.isAlpha = true ∧
      x.1.tail.all Lexical.isWordUnit = true := by decide
  obtain ⟨hn, hhead, htail⟩ := htable x h
  obtain ⟨t, k⟩ := x
  obtain ⟨u, r, rfl⟩ := List.exists_cons_of_ne_nil hn
  exact ⟨.word, .word hhead (List.all_eq_true.1 htail), .keyword h⟩

theorem isLexeme_greater : Word.IsLexeme ⟨.greater, [Text.unit '>']⟩ :=
  ⟨.mark .greater, .mark (by decide), .mark _ _⟩

theorem isLexeme_unwrittenVoid (t : Token) : t.unwrittenVoid.word.IsLexeme :=
  isLexeme_keyword (x := ("void", .void)) (by decide)

theorem isLexeme_unwrittenTrue (t : Token) : t.unwrittenTrue.word.IsLexeme :=
  isLexeme_keyword (x := ("true", .trueWord)) (by decide)

theorem isLexeme_halves {t : Token} (h : t.word.IsLexeme) (hk : t.kind = .greaterGreater) :
    t.firstHalf.word.IsLexeme ∧ t.secondHalf.word.IsLexeme := by
  have htable : ∀ x ∈ Word.table, x.2 = .greaterGreater → x.1 = (">>" : Text) := by decide
  have hkind : t.word.kind = .greaterGreater := t.word_kind.trans hk
  have htext : t.word.text = (">>" : Text) :=
    htable _ (h.mem_table (by rw [hkind]; rfl)) hkind
  have hlexeme : t.lexeme = (">>" : Text) := by
    unfold Token.word at htext
    simpa [hk] using htext
  have hfront : ∃ r, t.source.text.drop t.start = Text.unit '>' :: Text.unit '>' :: r := by
    obtain ⟨r, hr⟩ := List.take_prefix t.length (t.source.text.drop t.start)
    exact ⟨r, by rw [← hr]; exact congrArg (· ++ r) hlexeme⟩
  obtain ⟨r, hr⟩ := hfront
  have hfirst : t.firstHalf.lexeme = [Text.unit '>'] := by
    simp [Token.lexeme, Token.firstHalf, Text.slice, hr]
  have hsecond : t.secondHalf.lexeme = [Text.unit '>'] := by
    simp [Token.lexeme, Token.secondHalf, Text.slice, ← List.drop_drop, hr]
  rw [Token.word_of_pos (t := t.firstHalf) Nat.one_pos,
    Token.word_of_pos (t := t.secondHalf) Nat.one_pos, hfirst, hsecond]
  exact ⟨isLexeme_greater, isLexeme_greater⟩

theorem Grammar.Reads.lexemes {ts us rest : List Token} (h : Reads ts us rest) (ht : Lexemes ts) :
    Lexemes us := by
  induction h with
  | nil _ => exact lexemes_nil
  | token _ _ ih =>
    rw [lexemes_cons] at ht ⊢
    exact ⟨ht.1, ih ht.2⟩
  | half hk _ ih =>
    rw [lexemes_cons] at ht ⊢
    obtain ⟨hfirst, hsecond⟩ := isLexeme_halves ht.1 hk
    exact ⟨hfirst, ih (lexemes_cons.2 ⟨hsecond, ht.2⟩)⟩

/-- Every phrase that stands in a list of lexemes has its tokens there. -/
theorem lexemes_phrases {α : Type} {G : α → List Token → Prop} {as : List α} {us : List Token}
    (h : ∀ a ∈ as, ∃ vs, G a vs ∧ vs <:+: us) (hu : Lexemes us) :
    ∀ a ∈ as, ∃ vs, G a vs ∧ Lexemes vs := by
  intro a ha
  obtain ⟨vs, hv, hi⟩ := h a ha
  exact ⟨vs, hv, fun t ht => hu t (hi.subset ht)⟩

def TypesFit (T : TypeExpr Token → List Token → Prop) : Prop :=
  ∀ ⦃t us⦄, T t us → Lexemes us → (t.map Token.word).Fits

theorem TypeExpr.Fits.arrays {t : TypeExpr Token} (h : (t.map Token.word).Fits) (n : Nat)
    (isRef : Bool) : ((t.arrays n isRef).map Token.word).Fits := by
  induction n generalizing isRef with
  | zero => exact h
  | succ n ih => exact .array (ih false)

theorem isTypeWord_of_namesType {allowVoid : Bool} {k : Kind}
    (h : namesType allowVoid k = true) : k.isTypeWord = true := by
  simp only [namesType, Bool.or_eq_true, Bool.and_eq_true] at h
  simp only [Kind.isTypeWord, Bool.or_eq_true]
  obtain ⟨-, hv⟩ | hn := h
  · exact .inl (.inl hv)
  · exact .inr hn

theorem named_fits {allowVoid : Bool} {t : Token} (h : t.word.IsLexeme)
    (hk : namesType allowVoid t.kind = true) (isRef : Bool) :
    ((TypeExpr.named t isRef).map Token.word).Fits :=
  .named (h.is (isTypeWord_of_namesType hk))

theorem typeOver_fits {F : TypeExpr Token → List Token → Prop} (hf : TypesFit F)
    (allowVoid : Bool) : TypesFit (TypeOver F allowVoid) := by
  intro t us h hu
  cases h with
  | @name isRef rs bs t n hr ht hb =>
    rw [lexemes_append, lexemes_cons] at hu
    cases n with
    | zero => exact named_fits hu.2.1 ht isRef
    | succ n => exact (named_fits hu.2.1 ht false).arrays (n + 1) isRef
  | function h hb =>
    rw [lexemes_append] at hu
    exact (hf h hu.1).arrays _ false

theorem functionOver_fits {E : TypeExpr Token → List Token → Prop} (he : TypesFit E) :
    TypesFit (FunctionOver E) := by
  intro f us h hu
  cases h with
  | @bare t ht =>
    exact .function (by simp [TypeExpr.mapList]) (.named ((isLexeme_unwrittenVoid t).is rfl))
  | @list t l r parameters result us ht hl h hr =>
    simp only [List.cons_append, lexemes_cons, lexemes_append] at hu
    have hentries : ∀ e ∈ parameters ++ [result], (e.map Token.word).Fits := by
      intro e hm
      obtain ⟨vs, hv, hl⟩ := lexemes_phrases h.phrase_of_mem hu.2.2.1 e hm
      exact he hv hl
    rw [List.forall_mem_append] at hentries
    refine .function ?_ (hentries.2 result (by simp))
    rw [TypeExpr.mapList_eq]
    exact List.forall_mem_map.2 hentries.1

theorem isFunctionType_fits (n : Nat) : TypesFit (IsFunctionType n) := by
  induction n with
  | zero => exact functionOver_fits fun _ _ h => h.elim
  | succ n ih => exact functionOver_fits (typeOver_fits ih true)

theorem isType_fits (n : Nat) (allowVoid : Bool) : TypesFit (IsType n allowVoid) :=
  typeOver_fits (isFunctionType_fits n) allowVoid

def ExprsFit (E : Expr Token → List Token → Prop) : Prop :=
  ∀ ⦃e us⦄, E e us → e.CanonicalArgument → Lexemes us → (e.map Token.word).Fits

theorem BinaryLevel.Has.joins {i : Nat} {logical : Bool} {k : Kind} (h : Has i logical k) :
    BinaryLevel.joins logical k = true := by
  obtain ⟨level, hl, hb, hk⟩ := h
  refine List.any_eq_true.2 ⟨level, List.mem_of_getElem? hl, ?_⟩
  simp [hb, hk]

theorem argument_fits {inner : Expr Token → List Token → Prop} (hi : ExprsFit inner)
    {e : Expr Token} {us : List Token} (h : ArgumentOver inner e us) (hc : e.CanonicalArgument)
    (hu : Lexemes us) : (e.map Token.word).Fits := by
  cases h with
  | value h => exact hi h hc hu
  | @ref t name ht =>
    simp only [lexemes_cons] at hu
    cases hc with
    | value hc => cases hc
    | ref hn => exact .reference (hu.2.1.isName hn)

theorem bracketed_fits {inner : Expr Token → List Token → Prop} (hi : ExprsFit inner)
    {e : Expr Token} {us : List Token} (h : BracketedOver inner e us) (hc : e.Canonical)
    (hu : Lexemes us) : (e.map Token.word).Fits := by
  cases h with
  | mk hl h hr =>
    simp only [List.cons_append, lexemes_cons, lexemes_append] at hu
    exact hi h (.value hc) hu.2.1

theorem element_fits {n : Nat} {t : TypeExpr Token} {us : List Token}
    (h : ElementOver (IsFunctionType n) t us) (hu : Lexemes us) : (t.map Token.word).Fits := by
  cases h with
  | name ht => exact named_fits (lexemes_cons.1 hu).1 ht false
  | function h => exact isFunctionType_fits n h hu

theorem Grammar.IsFunctionType.eq_function {n : Nat} {f : TypeExpr Token} {us : List Token}
    (h : IsFunctionType n f us) : ∃ parameters result, f = .function parameters result := by
  cases n <;> cases h <;> exact ⟨_, _, rfl⟩

theorem yieldsOver_fits {inner : Expr Token → List Token → Prop} (hi : ExprsFit inner) {n : Nat}
    {e : Expr Token} {us : List Token} (h : YieldsOver inner (IsFunctionType n) e us)
    (hc : e.Canonical) (hu : Lexemes us) : (e.map Token.word).Fits := by
  induction h with
  | literal t =>
    cases hc with
    | literal ht => exact .literal ((lexemes_cons.1 hu).1.is ht)
  | grouped _ h _ =>
    simp only [List.cons_append, lexemes_cons, lexemes_append] at hu
    cases hc with
    | grouped hc => exact .grouped (hi h (.value hc) hu.2.1)
  | unary op h =>
    rw [lexemes_cons] at hu
    cases hc with
    | unary ho _ hc => exact .unary (hu.1.is ho) (hi h (.value hc) hu.2)
  | binary _ _ _ ihl ihr =>
    rw [lexemes_append, lexemes_cons] at hu
    cases hc with
    | binary ho _ _ hl hr => exact .binary (hu.2.1.is ho.joins) (ihl hl hu.1) (ihr hr hu.2.2)
  | logical _ _ _ ihl ihr =>
    rw [lexemes_append, lexemes_cons] at hu
    cases hc with
    | logical ho _ _ hl hr => exact .logical (hu.2.1.is ho.joins) (ihl hl hu.1) (ihr hr hu.2.2)
  | assign name op h =>
    simp only [lexemes_cons] at hu
    cases hc with
    | assign hn ho hc => exact .assign (hu.1.isName hn) (hu.2.1.is ho) (hi h (.value hc) hu.2.2)
  | assignProperty name op _ _ h' ih =>
    simp only [lexemes_cons, lexemes_append] at hu
    obtain ⟨hobject, -, hname, hop, hvalue⟩ := hu
    cases hc with
    | assignProperty _ hc hn ho hv =>
      exact .assignProperty (ih hc hobject) (hname.isName hn) (hop.is ho) (hi h' (.value hv) hvalue)
  | call paren _ _ ha ih =>
    simp only [List.append_assoc, List.cons_append, lexemes_cons, lexemes_append] at hu
    obtain ⟨hcallee, -, hargs, hparen, -⟩ := hu
    cases hc with
    | call _ hc hca hp =>
      refine .call (ih hc hcallee) ?_ (hparen.isKind hp)
      rw [Expr.mapList_eq]
      refine List.forall_mem_map.2 fun a hm => ?_
      obtain ⟨vs, hv, hl⟩ := lexemes_phrases ha.phrase_of_mem hargs a hm
      exact argument_fits hi hv (hca a hm) hl
  | property name _ _ ih =>
    simp only [lexemes_cons, lexemes_append] at hu
    cases hc with
    | property _ hc hn => exact .property (ih hc hu.1) (hu.2.2.1.isName hn)
  | «variable» name =>
    cases hc with
    | «variable» hn => exact .variable ((lexemes_cons.1 hu).1.isName hn)
  | increment name op =>
    simp only [lexemes_cons] at hu
    cases hc with
    | increment hn ho => exact .increment (hu.1.isName hn) (hu.2.1.isKind ho)
  | decrement name op =>
    simp only [lexemes_cons] at hu
    cases hc with
    | decrement hn ho => exact .decrement (hu.1.isName hn) (hu.2.1.isKind ho)
  | index _ hb ih =>
    rw [lexemes_append] at hu
    cases hc with
    | index _ _ hc hc' => exact .index (ih hc hu.1) (bracketed_fits hi hb hc' hu.2)
  | newArray _ h hs =>
    simp only [List.cons_append, lexemes_cons, lexemes_append] at hu
    cases hc with
    | newArray hn hcs =>
      refine .newArray ((element_fits h hu.2.1).arrays _ false)
        (by simpa [Expr.mapList_eq] using hn) ?_
      rw [Expr.mapList_eq]
      refine List.forall_mem_map.2 fun s hm => ?_
      obtain ⟨vs, hv, hl⟩ := lexemes_phrases hs.phrase_of_mem hu.2.2 s hm
      exact bracketed_fits hi hv (hcs s hm) hl
  | newStruct _ hn _ _ =>
    simp only [lexemes_cons] at hu
    exact .newStruct (named_fits hu.2.1 hn false)
  | functionType h =>
    have hfits := isFunctionType_fits n h hu
    obtain ⟨parameters, result, rfl⟩ := h.eq_function
    exact .functionType hfits

theorem yields_fits (n : Nat) : ExprsFit (Yields n) := by
  induction n with
  | zero => exact fun _ _ h => h.elim
  | succ n ih =>
    intro e us h hc hu
    cases hc with
    | value hc => exact yieldsOver_fits ih h hc hu
    | ref _ => cases h

theorem spells_fits {n : Nat} {e : Expr Token} {us : List Token} (h : Spells n e us)
    (hu : Lexemes us) : (e.map Token.word).Fits :=
  yields_fits n h.2 (.value h.1) hu

def StmtsFit (S : Stmt Token → List Token → Prop) : Prop :=
  ∀ ⦃s us⦄, S s us → Lexemes us → (s.map Token.word).Fits

def BlocksFit (B : List (Stmt Token) → List Token → Prop) : Prop :=
  ∀ ⦃b us⦄, B b us → Lexemes us → ∀ s ∈ Stmt.mapList Token.word b, s.Fits

theorem parenthesized_fits {n : Nat} {e : Expr Token} {us : List Token}
    (h : ParenthesizedOver (Spells n) e us) (hu : Lexemes us) : (e.map Token.word).Fits := by
  cases h with
  | mk _ h _ =>
    simp only [List.cons_append, lexemes_cons, lexemes_append] at hu
    exact spells_fits h hu.2.1

theorem simple_fits (n : Nat) : StmtsFit (SimpleOver (Spells n) (IsType n false)) := by
  intro s us h hu
  cases h with
  | var ht hn _ h _ =>
    simp only [List.cons_append, lexemes_cons, lexemes_append] at hu
    obtain ⟨hvar, hname, -, hvalue, -⟩ := hu
    refine .define (.named (hvar.is ?_)) (hname.isName hn) (spells_fits h hvalue)
    exact congrArg Kind.isTypeWord ht
  | declare h hn _ =>
    simp only [lexemes_cons, lexemes_append] at hu
    exact .declare (isType_fits n false h hu.1) (hu.2.1.isName hn)
  | define h hn _ he _ =>
    simp only [List.append_assoc, List.cons_append, lexemes_cons, lexemes_append] at hu
    obtain ⟨htype, hname, -, hvalue, -⟩ := hu
    exact .define (isType_fits n false h htype) (hname.isName hn) (spells_fits he hvalue)
  | expr h _ _ =>
    rw [lexemes_append] at hu
    exact .expr (spells_fits h hu.1)

theorem conditional_fits {n : Nat} {B : List (Stmt Token) → List Token → Prop}
    {C : Stmt Token → List Token → Prop} (hb : BlocksFit B) (hc : StmtsFit C) :
    StmtsFit (ConditionalOver (Spells n) B C) := by
  intro s us h hu
  cases h with
  | ifThen _ h hB =>
    simp only [List.cons_append, lexemes_cons, lexemes_append] at hu
    exact .ifThen (parenthesized_fits h hu.2.1) (hb hB hu.2.2)
  | ifElse _ h hB _ ho =>
    simp only [List.append_assoc, List.cons_append, lexemes_cons, lexemes_append] at hu
    obtain ⟨-, htest, hbody, -, hother⟩ := hu
    exact .ifElse (parenthesized_fits h htest) (hb hB hbody) (.block (hb ho hother))
  | elseIf _ h hB _ ho =>
    simp only [List.append_assoc, List.cons_append, lexemes_cons, lexemes_append] at hu
    obtain ⟨-, htest, hbody, -, hother⟩ := hu
    exact .ifElse (parenthesized_fits h htest) (hb hB hbody) (hc ho hother)

theorem initializer_fits {n : Nat} {o : Option (Stmt Token)} {us : List Token}
    (h : InitializerOver (Spells n) (IsType n false) o us) (hu : Lexemes us) :
    ∀ s ∈ o.toList, (s.map Token.word).Fits := by
  cases h with
  | none _ => simp
  | some h => simpa using simple_fits n h hu

theorem loopCondition_fits {n : Nat} {e : Expr Token} {us : List Token}
    (h : LoopConditionOver (Spells n) e us) (hu : Lexemes us) : (e.map Token.word).Fits := by
  cases h with
  | @missing s _ => exact .literal ((isLexeme_unwrittenTrue s).is rfl)
  | written h _ =>
    rw [lexemes_append] at hu
    exact spells_fits h hu.1

theorem increment_fits {n : Nat} {o : Option (Expr Token)} {us : List Token}
    (h : IncrementOver (Spells n) o us) (hu : Lexemes us) :
    ∀ s ∈ o.toList.map Stmt.expr, (s.map Token.word).Fits := by
  cases h with
  | none => simp
  | some h => exact List.forall_mem_singleton.2 (.expr (spells_fits h hu))

theorem statement_fits {n : Nat} {B : List (Stmt Token) → List Token → Prop}
    {C : Stmt Token → List Token → Prop} (hb : BlocksFit B) (hc : StmtsFit C) :
    StmtsFit (StatementBelow n B C) := by
  intro s us h hu
  cases h with
  | simple h => exact simple_fits n h hu
  | block h => exact .block (hb h hu)
  | conditional h => exact hc h hu
  | whileLoop _ h hB =>
    simp only [List.cons_append, lexemes_cons, lexemes_append] at hu
    exact .whileLoop (parenthesized_fits h hu.2.1) (hb hB hu.2.2)
  | @forLoop _ _ _ _ _ increment body _ _ _ _ _ _ hi htest hn _ hB =>
    simp only [List.append_assoc, List.cons_append, lexemes_cons, lexemes_append] at hu
    obtain ⟨-, -, hinit, htest', hincr, -, hbody⟩ := hu
    have hinner := hb hB hbody
    rw [Stmt.mapList_eq, List.forall_mem_map] at hinner
    have hloop : ∀ s ∈ Stmt.mapList Token.word (body ++ increment.toList.map .expr), s.Fits := by
      rw [Stmt.mapList_eq, List.forall_mem_map, List.forall_mem_append]
      exact ⟨hinner, increment_fits hn hincr⟩
    refine .block ?_
    rw [Stmt.mapList_eq, List.forall_mem_map, List.forall_mem_append, List.forall_mem_singleton]
    exact ⟨initializer_fits hi hinit, .whileLoop (loopCondition_fits htest htest') hloop⟩
  | returnVoid ht _ => exact .returnVoid ((lexemes_cons.1 hu).1.isKind ht)
  | returnValue ht h _ =>
    simp only [List.cons_append, lexemes_cons, lexemes_append] at hu
    exact .returnValue (hu.1.isKind ht) (spells_fits h hu.2.1)

theorem block_fits {S : Stmt Token → List Token → Prop} (hs : StmtsFit S) :
    BlocksFit (BlockOver S) := by
  intro b us h hu
  cases h with
  | mk _ h _ =>
    simp only [List.cons_append, lexemes_cons, lexemes_append] at hu
    rw [Stmt.mapList_eq]
    refine List.forall_mem_map.2 fun s hm => ?_
    obtain ⟨vs, hv, hl⟩ := lexemes_phrases h.phrase_of_mem hu.2.1 s hm
    exact hs hv hl

theorem stmtLayer_fits (n : Nat) : BlocksFit (IsBlock n) ∧ StmtsFit (IsConditional n) := by
  induction n with
  | zero => exact ⟨fun _ _ h => h.elim, fun _ _ h => h.elim⟩
  | succ n ih =>
    have hblock : BlocksFit (IsBlock (n + 1)) := block_fits (statement_fits ih.1 ih.2)
    exact ⟨hblock, conditional_fits hblock ih.2⟩

theorem field_fits {n : Nat} {f : Field Token} {us : List Token}
    (h : FieldOver (IsType n false) f us) (hu : Lexemes us) : (f.map Token.word).Fits := by
  cases h with
  | mk h hn =>
    rw [lexemes_append, lexemes_cons] at hu
    exact ⟨isType_fits n false h hu.1, hu.2.1.isName hn⟩

theorem isDeclaration_fits {n : Nat} {d : Declaration Token} {us : List Token}
    (h : IsDeclaration n d us) (hu : Lexemes us) : (d.map Token.word).Fits := by
  cases h with
  | struct _ hn _ h _ =>
    simp only [List.cons_append, lexemes_cons, lexemes_append] at hu
    refine .struct (hu.2.1.isName hn) (List.forall_mem_map.2 fun f hm => ?_)
    obtain ⟨vs, ⟨hf, hs⟩, hl⟩ := lexemes_phrases h.phrase_of_mem hu.2.2.2.1 f hm
    exact field_fits hf (lexemes_append.1 hl).1
  | function h hn _ hp _ hb =>
    simp only [List.append_assoc, List.cons_append, lexemes_cons, lexemes_append] at hu
    obtain ⟨hresult, hname, -, hparameters, -, hbody⟩ := hu
    refine .function (isType_fits n true h hresult) (hname.isName hn)
      (List.forall_mem_map.2 fun f hm => ?_) ((stmtLayer_fits n).1 hb hbody)
    obtain ⟨vs, hv, hl⟩ := lexemes_phrases hp.phrase_of_mem hparameters f hm
    exact field_fits hv hl

theorem isProgram_fits {n : Nat} {p : Program Token} {us : List Token} (h : IsProgram n p us)
    (hu : Lexemes us) : (p.map Token.word).Fits := by
  cases h with
  | mk h =>
    refine List.forall_mem_map.2 fun d hm => ?_
    obtain ⟨vs, hv, hl⟩ := lexemes_phrases h.phrase_of_mem hu d hm
    exact isDeclaration_fits hv hl

end Seanet
