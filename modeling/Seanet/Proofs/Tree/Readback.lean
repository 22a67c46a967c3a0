import Seanet.Proofs.Tree.Nodes

set_option autoImplicit false

namespace Seanet

open SExpr (node reference)

namespace SExpr

theorem Readable.node {head : String} {items : List SExpr} (hh : isPlain head = true)
    (h : ∀ s ∈ items, s.Readable) : (SExpr.node head items).Readable :=
  .list (List.forall_mem_cons.2 ⟨.atom (atomic_of_isPlain hh), h⟩)

theorem Readable.reference {s : SExpr} (h : s.Readable) (isRef : Bool) :
    (SExpr.reference isRef s).Readable := by
  cases isRef with
  | false => exact h
  | true => exact .node rfl (by simpa using h)

end SExpr

theorem Word.IsName.readable {w : Word} (h : w.IsName) : (SExpr.atom w.text).Readable :=
  .atom h.atomic

theorem isTypeWord_apart (k : Kind) (h : k.isTypeWord = true) : Word.isApart k = false := by
  revert h
  cases k <;> decide

theorem isLiteral_apart (k : Kind) (h : k.isLiteral = true) : Word.isApart k = false := by
  revert h
  cases k <;> decide

def Kind.isOperator (k : Kind) : Bool :=
  k.isUnaryOperator || BinaryLevel.joins false k || BinaryLevel.joins true k || k.isAssignment

theorem Kind.isOperator_of_unary (k : Kind) (h : k.isUnaryOperator = true) :
    k.isOperator = true := by
  simp [isOperator, h]

theorem Kind.isOperator_of_joins {logical : Bool} (k : Kind)
    (h : BinaryLevel.joins logical k = true) : k.isOperator = true := by
  cases logical <;> simp [isOperator, h]

theorem Kind.isOperator_of_assignment (k : Kind) (h : k.isAssignment = true) :
    k.isOperator = true := by
  simp [isOperator, h]

theorem isOperator_apart (k : Kind) (h : k.isOperator = true) : Word.isApart k = false := by
  revert h
  cases k <;> decide

theorem SExpr.Readable.operator {p : Kind → Bool} {w : Word} {items : List SExpr} (hw : w.Is p)
    (hp : ∀ k, p k = true → k.isOperator = true) (h : ∀ s ∈ items, s.Readable) :
    (SExpr.list (.atom w.text :: items)).Readable :=
  .list (List.forall_mem_cons.2 ⟨.atom (hw.atomic fun k hk => isOperator_apart k (hp k hk)), h⟩)

theorem TypeExpr.Fits.readable {t : TypeExpr Word} (h : t.Fits) : t.sexp.Readable := by
  induction h with
  | named h => exact SExpr.Readable.reference (.atom (h.atomic isTypeWord_apart)) _
  | array _ ih => exact .reference (.node rfl (by simpa using ih)) _
  | function _ _ ihp ihr =>
    have hps : (SExpr.list (sexps _)).Readable := .list (by simpa [sexps_eq] using ihp)
    exact .node rfl (by simpa using ⟨hps, ihr⟩)

theorem Expr.Fits.readable {e : Expr Word} (h : e.Fits) : e.sexp.Readable := by
  induction h with
  | literal h => exact .atom (h.atomic isLiteral_apart)
  | grouped _ ih => exact .node rfl (by simpa using ih)
  | unary ho _ ih => exact .operator ho Kind.isOperator_of_unary (by simpa using ih)
  | binary ho _ _ ihl ihr =>
    exact .operator ho Kind.isOperator_of_joins (by simpa using ⟨ihl, ihr⟩)
  | logical ho _ _ ihl ihr =>
    exact .operator ho Kind.isOperator_of_joins (by simpa using ⟨ihl, ihr⟩)
  | assign hn ho _ ih =>
    exact .operator ho Kind.isOperator_of_assignment (by simpa using ⟨hn.readable, ih⟩)
  | assignProperty _ hn ho _ iho ihe =>
    have hproperty : (node "." [_, _]).Readable := .node rfl (by simpa using ⟨iho, hn.readable⟩)
    exact .operator ho Kind.isOperator_of_assignment (by simpa using ⟨hproperty, ihe⟩)
  | call _ _ _ ihf iha =>
    exact .node rfl (List.forall_mem_cons.2 ⟨ihf, by simpa [sexps_eq] using iha⟩)
  | property _ hn ih => exact .node rfl (by simpa using ⟨ih, hn.readable⟩)
  | «variable» hn => exact hn.readable
  | reference hn => exact SExpr.Readable.reference hn.readable true
  | increment hn _ => exact .node rfl (by simpa using hn.readable)
  | decrement hn _ => exact .node rfl (by simpa using hn.readable)
  | index _ _ iha ihi => exact .node rfl (by simpa using ⟨iha, ihi⟩)
  | newArray ht _ _ ihs =>
    exact .node rfl (List.forall_mem_cons.2 ⟨ht.readable, by simpa [sexps_eq] using ihs⟩)
  | newStruct ht => exact .node rfl (by simpa using ht.readable)
  | functionType h => exact h.readable

theorem Field.Fits.readable {f : Field Word} (h : f.Fits) : f.sexp.Readable :=
  .list (by simpa using ⟨h.type.readable, h.name.readable⟩)

theorem Stmt.Fits.readable {s : Stmt Word} (h : s.Fits) : s.sexp.Readable := by
  have hblock : ∀ {body : List (Stmt Word)}, (∀ s ∈ body, s.sexp.Readable) →
      (node "block" (sexps body)).Readable := by
    intro body hb
    exact .node rfl (by simpa [sexps_eq] using hb)
  induction h with
  | block _ ih => exact hblock ih
  | expr h => exact .node rfl (by simpa using h.readable)
  | declare ht hn => exact .node rfl (by simpa using ⟨ht.readable, hn.readable⟩)
  | define ht hn h => exact .node rfl (by simpa using ⟨ht.readable, hn.readable, h.readable⟩)
  | ifThen h _ ihb => exact .node rfl (by simpa using ⟨h.readable, hblock ihb⟩)
  | ifElse h _ _ ihb iho =>
    exact .node rfl (by simpa using ⟨h.readable, hblock ihb, iho⟩)
  | whileLoop h _ ihb => exact .node rfl (by simpa using ⟨h.readable, hblock ihb⟩)
  | returnValue _ h => exact .node rfl (by simpa using h.readable)
  | returnVoid _ => exact .node rfl (by simp)

theorem Declaration.Fits.readable {d : Declaration Word} (h : d.Fits) : d.sexp.Readable := by
  have hfields : ∀ {fs : List (Field Word)}, (∀ f ∈ fs, f.Fits) →
      (SExpr.list (fs.map Field.sexp)).Readable := by
    intro fs hf
    exact .list (by simpa using fun f hm => (hf f hm).readable)
  cases h with
  | struct hn hf => exact .node rfl (by simpa using ⟨hn.readable, hfields hf⟩)
  | function hr hn hp hb =>
    have hbody := (Stmt.Fits.block hb).readable
    exact .node rfl (by simpa using ⟨hr.readable, hn.readable, hfields hp, hbody⟩)

theorem Program.Fits.readable {p : Program Word} (h : p.Fits) : p.sexp.Readable :=
  .node rfl (by simpa using fun d hd => (h d hd).readable)

theorem map_sexp_inj {α : Type} {f : α → SExpr} {P : α → Prop} {as bs : List α}
    (h : ∀ a ∈ as, ∀ b, P b → f a = f b → a = b) (hb : ∀ b ∈ bs, P b)
    (he : as.map f = bs.map f) : as = bs := by
  induction as generalizing bs with
  | nil =>
    cases bs with
    | nil => rfl
    | cons b bs => cases he
  | cons a as ih =>
    cases bs with
    | nil => cases he
    | cons b bs =>
      rw [List.forall_mem_cons] at h hb
      obtain ⟨hhead, htail⟩ := List.cons.inj he
      rw [h.1 b hb.1 hhead, ih h.2 hb.2 htail]

theorem SExpr.node_inj {head head' : String} {items items' : List SExpr}
    (h : SExpr.node head items = SExpr.node head' items') :
    (head : Text) = head' ∧ items = items' := by
  simpa [SExpr.node] using h

theorem SExpr.atom_ne_ref (t : Text) (s : SExpr) : SExpr.atom t ≠ SExpr.node "ref" [s] := nofun

theorem SExpr.reference_inj {isRef isRef' : Bool} {s s' : SExpr}
    (hs : ∀ x, s ≠ SExpr.node "ref" [x]) (hs' : ∀ x, s' ≠ SExpr.node "ref" [x])
    (h : SExpr.reference isRef s = SExpr.reference isRef' s') : isRef = isRef' ∧ s = s' := by
  cases isRef with
  | false =>
    cases isRef' with
    | false => exact ⟨rfl, h⟩
    | true => exact absurd h (hs s')
  | true =>
    cases isRef' with
    | false => exact absurd h.symm (hs' s)
    | true => exact ⟨rfl, (List.cons.inj (SExpr.node_inj h).2).1⟩

theorem SExpr.reference_ne_fun {isRef : Bool} {s : SExpr} {items : List SExpr}
    (hs : s ≠ SExpr.node "fun" items) : SExpr.reference isRef s ≠ SExpr.node "fun" items := by
  cases isRef with
  | false => exact hs
  | true => exact fun h => absurd (SExpr.node_inj h).1 (by decide)

theorem TypeExpr.Fits.sexp_inj {t t' : TypeExpr Word} (h : t.Fits) (h' : t'.Fits)
    (he : t.sexp = t'.sexp) : t = t' := by
  have harray : ∀ s x : SExpr, node "array" [s] ≠ node "ref" [x] := fun s x h =>
    absurd (SExpr.node_inj h).1 (by decide)
  have hfun : ∀ (s : SExpr) (items : List SExpr), node "array" [s] ≠ node "fun" items :=
    fun s items h => absurd (SExpr.node_inj h).1 (by decide)
  induction h generalizing t' with
  | named h =>
    cases h' with
    | named h' =>
      obtain ⟨rfl, htext⟩ := SExpr.reference_inj (SExpr.atom_ne_ref _) (SExpr.atom_ne_ref _) he
      rw [h.1.eq_of_text h'.1 (SExpr.atom.inj htext)]
    | array _ => cases (SExpr.reference_inj (SExpr.atom_ne_ref _) (harray _) he).2
    | function _ _ => exact absurd he (SExpr.reference_ne_fun nofun)
  | array _ ih =>
    cases h' with
    | named _ => cases (SExpr.reference_inj (harray _) (SExpr.atom_ne_ref _) he).2
    | array h' =>
      obtain ⟨rfl, hnode⟩ := SExpr.reference_inj (harray _) (harray _) he
      rw [ih h' (List.cons.inj (SExpr.node_inj hnode).2).1]
    | function _ _ => exact absurd he (SExpr.reference_ne_fun (hfun _ _))
  | function _ _ ihp ihr =>
    cases h' with
    | named _ => exact absurd he.symm (SExpr.reference_ne_fun nofun)
    | array _ => exact absurd he.symm (SExpr.reference_ne_fun (hfun _ _))
    | function hp' hr' =>
      simp only [sexp, node, sexps_eq, SExpr.list.injEq, List.cons.injEq, true_and, and_true] at he
      rw [map_sexp_inj (fun p hm _ hb => ihp p hm hb) hp' he.1, ihr hr' he.2]

/-- The nodes of expressions, as far as their lists tell them apart. Names and literals are told
apart by their kinds. -/
inductive Expr.Form where
  | leaf | grouped | unary | binary | logical | assign | assignProperty | call | property
  | reference | increment | decrement | index | newArray | newStruct | functionType

def Expr.form : Expr Word → Form
  | .literal _ => .leaf
  | .grouped _ => .grouped
  | .unary _ _ => .unary
  | .binary _ _ _ => .binary
  | .logical _ _ _ => .logical
  | .assign _ _ _ => .assign
  | .assignProperty _ _ _ _ => .assignProperty
  | .call _ _ _ => .call
  | .property _ _ => .property
  | .variable _ false => .leaf
  | .variable _ true => .reference
  | .increment _ _ => .increment
  | .decrement _ _ => .decrement
  | .index _ _ => .index
  | .newArray _ _ => .newArray
  | .newStruct _ => .newStruct
  | .functionType _ => .functionType

def Expr.heads : List (Text × Form) :=
  [("group", .grouped), ("call", .call), (".", .property), ("ref", .reference),
    ("postfix++", .increment), ("postfix--", .decrement), ("index", .index), ("fun", .functionType)]

def Expr.operatorForm (k : Kind) : List SExpr → Form
  | [_] => .unary
  | .list _ :: _ =>
    if k.isAssignment then .assignProperty
    else if BinaryLevel.joins true k then .logical
    else .binary
  | _ => if k.isAssignment then .assign else if BinaryLevel.joins true k then .logical else .binary

def Expr.formOf : SExpr → Form
  | .list (.atom head :: items) =>
    if head = ("new" : Text) then (if items.length = 1 then .newStruct else .newArray)
    else
      match heads.lookup head, Kind.markTexts.lookup head with
      | some form, _ => form
      | none, some k => operatorForm k items
      | none, none => .leaf
  | _ => .leaf

theorem Expr.marks_not_heads : ∀ m ∈ Kind.markTexts, m.2.isOperator = true →
    m.1 ≠ ("new" : Text) ∧ (heads.lookup m.1).isNone ∧ Kind.markTexts.lookup m.1 = some m.2 := by
  decide +kernel

theorem Word.Is.formOf {p : Kind → Bool} {w : Word} (h : w.Is p)
    (hp : ∀ k, p k = true → k.isOperator = true) (items : List SExpr) :
    Expr.formOf (.list (.atom w.text :: items)) = Expr.operatorForm w.kind items := by
  have hk := hp _ h.2
  have hopen : Word.isOpen w.kind = false := by
    revert hk
    generalize w.kind = k
    cases k <;> decide
  have hmark : (w.text, w.kind) ∈ Kind.markTexts := by
    obtain hm | hm := List.mem_append.1 (h.1.mem_table hopen)
    · exact hm
    · have hnot : ∀ x ∈ Kind.keywordTexts, x.2.isOperator = false := by decide
      rw [hnot _ hm] at hk
      cases hk
  obtain ⟨hnew, hhead, htable⟩ := Expr.marks_not_heads _ hmark hk
  simp only [Expr.formOf, if_neg hnew, Option.isNone_iff_eq_none.1 hhead, htable]

theorem joins_exclusive (k : Kind) (h : BinaryLevel.joins false k = true) :
    BinaryLevel.joins true k = false ∧ k.isAssignment = false := by
  revert h
  cases k <;> decide

theorem joins_not_assignment (k : Kind) (h : BinaryLevel.joins true k = true) :
    k.isAssignment = false := by
  revert h
  cases k <;> decide

theorem Expr.Fits.formOf_sexp {e : Expr Word} (h : e.Fits) : formOf e.sexp = e.form := by
  cases h with
  | literal _ => rfl
  | grouped _ => rfl
  | unary ho _ => exact ho.formOf Kind.isOperator_of_unary _
  | @binary op l r ho _ _ =>
    obtain ⟨hlogical, hassign⟩ := joins_exclusive _ ho.2
    refine (ho.formOf Kind.isOperator_of_joins _).trans ?_
    cases l.sexp <;> simp [operatorForm, hlogical, hassign, form]
  | @logical op l r ho _ _ =>
    have hassign := joins_not_assignment _ ho.2
    refine (ho.formOf Kind.isOperator_of_joins _).trans ?_
    cases l.sexp <;> simp [operatorForm, ho.2, hassign, form]
  | assign _ ho _ =>
    refine (ho.formOf Kind.isOperator_of_assignment _).trans ?_
    simp [operatorForm, ho.2, form]
  | assignProperty _ _ ho _ =>
    refine (ho.formOf Kind.isOperator_of_assignment _).trans ?_
    simp [operatorForm, node, ho.2, form]
  | call _ _ _ => rfl
  | property _ _ => rfl
  | «variable» _ => rfl
  | reference _ => rfl
  | increment _ _ => rfl
  | decrement _ _ => rfl
  | index _ _ => rfl
  | @newArray type sizes _ hn _ =>
    have hlength : (type.sexp :: sexps sizes).length ≠ 1 := by
      simpa [sexps_eq] using hn
    exact if_neg hlength
  | newStruct _ => rfl
  | functionType _ => rfl

theorem Expr.Fits.form_eq {e e' : Expr Word} (h : e.Fits) (h' : e'.Fits)
    (he : e.sexp = e'.sexp) : e.form = e'.form := by
  rw [← h.formOf_sexp, ← h'.formOf_sexp, he]

theorem Word.Is.text_ne_name {w name : Word} (h : w.Is Kind.isLiteral) (hn : name.IsName) :
    w.text ≠ name.text := by
  intro ht
  obtain rfl := h.1.eq_of_text hn.1 ht
  have hk : w.kind = .identifier := by simpa using hn.2
  have hl := h.2
  rw [hk] at hl
  cases hl

theorem Expr.Fits.sexp_inj {e e' : Expr Word} (h : e.Fits) (h' : e'.Fits)
    (he : e.sexp = e'.sexp) : e = e' := by
  -- The list tells the node, so only the parts of one and the same node are compared.
  induction h generalizing e' with
  | literal h =>
    have hform := form_eq (.literal h) h' he
    cases h' with
    | literal h' => rw [h.1.eq_of_text h'.1 (SExpr.atom.inj he)]
    | «variable» hn => exact absurd (SExpr.atom.inj he) (h.text_ne_name hn)
    | _ => cases hform
  | grouped h ih =>
    have hform := form_eq (.grouped h) h' he
    cases h' with
    | grouped h' =>
      simp only [sexp, node, SExpr.list.injEq, List.cons.injEq, true_and, and_true] at he
      rw [ih h' he]
    | _ => cases hform
  | unary ho h ih =>
    have hform := form_eq (.unary ho h) h' he
    cases h' with
    | unary ho' h' =>
      simp only [sexp, SExpr.list.injEq, SExpr.atom.injEq, List.cons.injEq, and_true] at he
      rw [ho.1.eq_of_text ho'.1 he.1, ih h' he.2]
    | _ => cases hform
  | binary ho hl hr ihl ihr =>
    have hform := form_eq (.binary ho hl hr) h' he
    cases h' with
    | binary ho' hl' hr' =>
      simp only [sexp, SExpr.list.injEq, SExpr.atom.injEq, List.cons.injEq, and_true] at he
      rw [ho.1.eq_of_text ho'.1 he.1, ihl hl' he.2.1, ihr hr' he.2.2]
    | _ => cases hform
  | logical ho hl hr ihl ihr =>
    have hform := form_eq (.logical ho hl hr) h' he
    cases h' with
    | logical ho' hl' hr' =>
      simp only [sexp, SExpr.list.injEq, SExpr.atom.injEq, List.cons.injEq, and_true] at he
      rw [ho.1.eq_of_text ho'.1 he.1, ihl hl' he.2.1, ihr hr' he.2.2]
    | _ => cases hform
  | assign hn ho h ih =>
    have hform := form_eq (.assign hn ho h) h' he
    cases h' with
    | assign hn' ho' h' =>
      simp only [sexp, SExpr.list.injEq, SExpr.atom.injEq, List.cons.injEq, and_true] at he
      rw [ho.1.eq_of_text ho'.1 he.1, hn.1.eq_of_text hn'.1 he.2.1, ih h' he.2.2]
    | _ => cases hform
  | assignProperty h hn ho hv ih ihv =>
    have hform := form_eq (.assignProperty h hn ho hv) h' he
    cases h' with
    | assignProperty h' hn' ho' hv' =>
      simp only [sexp, node, SExpr.list.injEq, SExpr.atom.injEq, List.cons.injEq, true_and,
        and_true] at he
      obtain ⟨hop, ⟨hobject, hname⟩, hvalue⟩ := he
      rw [ho.1.eq_of_text ho'.1 hop, ih h' hobject, hn.1.eq_of_text hn'.1 hname, ihv hv' hvalue]
    | _ => cases hform
  | call h ha hp ih iha =>
    have hform := form_eq (.call h ha hp) h' he
    cases h' with
    | call h' ha' hp' =>
      simp only [sexp, node, sexps_eq, SExpr.list.injEq, List.cons.injEq, true_and] at he
      rw [ih h' he.1, map_sexp_inj (fun a hm _ hb => iha a hm hb) ha' he.2,
        hp.eq_of_kind hp' rfl]
    | _ => cases hform
  | property h hn ih =>
    have hform := form_eq (.property h hn) h' he
    cases h' with
    | property h' hn' =>
      simp only [sexp, node, SExpr.list.injEq, SExpr.atom.injEq, List.cons.injEq, true_and,
        and_true] at he
      rw [ih h' he.1, hn.1.eq_of_text hn'.1 he.2]
    | _ => cases hform
  | «variable» hn =>
    have hform := form_eq (.variable hn) h' he
    cases h' with
    | literal h' => exact absurd (SExpr.atom.inj he).symm (h'.text_ne_name hn)
    | «variable» hn' => rw [hn.1.eq_of_text hn'.1 (SExpr.atom.inj he)]
    | _ => cases hform
  | reference hn =>
    have hform := form_eq (.reference hn) h' he
    cases h' with
    | reference hn' =>
      have hatom := (SExpr.reference_inj (SExpr.atom_ne_ref _) (SExpr.atom_ne_ref _) he).2
      rw [hn.1.eq_of_text hn'.1 (SExpr.atom.inj hatom)]
    | _ => cases hform
  | increment hn ho =>
    have hform := form_eq (.increment hn ho) h' he
    cases h' with
    | increment hn' ho' =>
      simp only [sexp, node, SExpr.list.injEq, SExpr.atom.injEq, List.cons.injEq, true_and,
        and_true] at he
      rw [hn.1.eq_of_text hn'.1 he, ho.eq_of_kind ho' rfl]
    | _ => cases hform
  | decrement hn ho =>
    have hform := form_eq (.decrement hn ho) h' he
    cases h' with
    | decrement hn' ho' =>
      simp only [sexp, node, SExpr.list.injEq, SExpr.atom.injEq, List.cons.injEq, true_and,
        and_true] at he
      rw [hn.1.eq_of_text hn'.1 he, ho.eq_of_kind ho' rfl]
    | _ => cases hform
  | index h hi ih ihi =>
    have hform := form_eq (.index h hi) h' he
    cases h' with
    | index h' hi' =>
      simp only [sexp, node, SExpr.list.injEq, List.cons.injEq, true_and, and_true] at he
      rw [ih h' he.1, ihi hi' he.2]
    | _ => cases hform
  | newArray ht hn hs ihs =>
    have hform := form_eq (.newArray ht hn hs) h' he
    cases h' with
    | newArray ht' _ hs' =>
      simp only [sexp, node, sexps_eq, SExpr.list.injEq, List.cons.injEq, true_and] at he
      rw [ht.sexp_inj ht' he.1, map_sexp_inj (fun s hm _ hb => ihs s hm hb) hs' he.2]
    | _ => cases hform
  | newStruct ht =>
    have hform := form_eq (.newStruct ht) h' he
    cases h' with
    | newStruct ht' =>
      simp only [sexp, node, SExpr.list.injEq, List.cons.injEq, true_and, and_true] at he
      rw [ht.sexp_inj ht' he]
    | _ => cases hform
  | functionType h =>
    have hform := form_eq (.functionType h) h' he
    cases h' with
    | functionType h' => rw [h.sexp_inj h' he]
    | _ => cases hform

theorem Field.Fits.sexp_inj {f f' : Field Word} (h : f.Fits) (h' : f'.Fits)
    (he : f.sexp = f'.sexp) : f = f' := by
  cases f
  cases f'
  simp only [sexp, SExpr.list.injEq, SExpr.atom.injEq, List.cons.injEq, and_true] at he
  rw [Field.mk.injEq]
  exact ⟨h.type.sexp_inj h'.type he.1, h.name.1.eq_of_text h'.name.1 he.2⟩

inductive Stmt.Form where
  | block | expr | declare | define | ifThen | ifElse | whileLoop | returnValue | returnVoid

def Stmt.form : Stmt Word → Form
  | .block _ => .block
  | .expr _ => .expr
  | .declare _ _ => .declare
  | .define _ _ _ => .define
  | .ifThen _ _ => .ifThen
  | .ifElse _ _ _ => .ifElse
  | .whileLoop _ _ => .whileLoop
  | .returnValue _ _ => .returnValue
  | .returnVoid _ => .returnVoid

/-- The heads of lists and the nodes they stand for, by the number of items behind the head. -/
def Stmt.heads : List (Text × (Nat → Form)) :=
  [("block", fun _ => .block), ("expr", fun _ => .expr),
    ("declare", fun n => if n = 2 then .declare else .define),
    ("if", fun n => if n = 2 then .ifThen else .ifElse), ("while", fun _ => .whileLoop),
    ("return", fun n => if n = 1 then .returnValue else .returnVoid)]

def Stmt.formOf : SExpr → Option Form
  | .list (.atom head :: items) => (heads.lookup head).map fun form => form items.length
  | _ => none

theorem Stmt.formOf_sexp (s : Stmt Word) : formOf s.sexp = some s.form := by
  cases s <;> rfl

theorem Stmt.form_eq {s s' : Stmt Word} (he : s.sexp = s'.sexp) : s.form = s'.form := by
  have hform : formOf s.sexp = formOf s'.sexp := congrArg formOf he
  rw [formOf_sexp, formOf_sexp] at hform
  exact Option.some.inj hform

theorem Stmt.Fits.sexp_inj {s s' : Stmt Word} (h : s.Fits) (h' : s'.Fits)
    (he : s.sexp = s'.sexp) : s = s' := by
  induction h generalizing s' with
  | block _ ih =>
    have hform := form_eq he
    cases h' with
    | block hb' =>
      simp only [sexp, node, sexps_eq, SExpr.list.injEq, List.cons.injEq, true_and] at he
      rw [map_sexp_inj (fun s hm _ hb => ih s hm hb) hb' he]
    | _ => cases hform
  | expr h =>
    have hform := form_eq he
    cases h' with
    | expr h' =>
      simp only [sexp, node, SExpr.list.injEq, List.cons.injEq, true_and, and_true] at he
      rw [h.sexp_inj h' he]
    | _ => cases hform
  | declare ht hn =>
    have hform := form_eq he
    cases h' with
    | declare ht' hn' =>
      simp only [sexp, node, SExpr.list.injEq, SExpr.atom.injEq, List.cons.injEq, true_and,
        and_true] at he
      rw [ht.sexp_inj ht' he.1, hn.1.eq_of_text hn'.1 he.2]
    | _ => cases hform
  | define ht hn h =>
    have hform := form_eq he
    cases h' with
    | define ht' hn' h' =>
      simp only [sexp, node, SExpr.list.injEq, SExpr.atom.injEq, List.cons.injEq, true_and,
        and_true] at he
      rw [ht.sexp_inj ht' he.1, hn.1.eq_of_text hn'.1 he.2.1, h.sexp_inj h' he.2.2]
    | _ => cases hform
  | ifThen h _ ih =>
    have hform := form_eq he
    cases h' with
    | ifThen h' hb' =>
      simp only [sexp, node, sexps_eq, SExpr.list.injEq, List.cons.injEq, true_and, and_true] at he
      rw [h.sexp_inj h' he.1, map_sexp_inj (fun s hm _ hb => ih s hm hb) hb' he.2]
    | _ => cases hform
  | ifElse h _ _ ih iho =>
    have hform := form_eq he
    cases h' with
    | ifElse h' hb' ho' =>
      simp only [sexp, node, sexps_eq, SExpr.list.injEq, List.cons.injEq, true_and, and_true] at he
      rw [h.sexp_inj h' he.1, map_sexp_inj (fun s hm _ hb => ih s hm hb) hb' he.2.1,
        iho ho' he.2.2]
    | _ => cases hform
  | whileLoop h _ ih =>
    have hform := form_eq he
    cases h' with
    | whileLoop h' hb' =>
      simp only [sexp, node, sexps_eq, SExpr.list.injEq, List.cons.injEq, true_and, and_true] at he
      rw [h.sexp_inj h' he.1, map_sexp_inj (fun s hm _ hb => ih s hm hb) hb' he.2]
    | _ => cases hform
  | returnValue hk h =>
    have hform := form_eq he
    cases h' with
    | returnValue hk' h' =>
      simp only [sexp, node, SExpr.list.injEq, List.cons.injEq, true_and, and_true] at he
      rw [hk.eq_of_kind hk' rfl, h.sexp_inj h' he]
    | _ => cases hform
  | returnVoid hk =>
    have hform := form_eq he
    cases h' with
    | returnVoid hk' => rw [hk.eq_of_kind hk' rfl]
    | _ => cases hform

theorem Declaration.Fits.sexp_inj {d d' : Declaration Word} (h : d.Fits) (h' : d'.Fits)
    (he : d.sexp = d'.sexp) : d = d' := by
  have hfields : ∀ {fs fs' : List (Field Word)}, (∀ f ∈ fs, f.Fits) → (∀ f ∈ fs', f.Fits) →
      fs.map Field.sexp = fs'.map Field.sexp → fs = fs' := by
    intro fs fs' hf hf' hmap
    exact map_sexp_inj (fun f hm _ hb => (hf f hm).sexp_inj hb) hf' hmap
  cases h with
  | struct hn hf =>
    cases h' with
    | struct hn' hf' =>
      simp only [sexp, node, SExpr.list.injEq, SExpr.atom.injEq, List.cons.injEq, true_and,
        and_true] at he
      rw [hn.1.eq_of_text hn'.1 he.1, hfields hf hf' he.2]
    | function _ _ _ _ => exact absurd (SExpr.node_inj he).1 (by decide)
  | function hr hn hp hb =>
    cases h' with
    | struct _ _ => exact absurd (SExpr.node_inj he).1 (by decide)
    | function hr' hn' hp' hb' =>
      simp only [sexp, node, Stmt.sexps_eq, SExpr.list.injEq, SExpr.atom.injEq, List.cons.injEq,
        true_and, and_true] at he
      obtain ⟨hresult, hname, hparameters, hbody⟩ := he
      rw [hr.sexp_inj hr' hresult, hn.1.eq_of_text hn'.1 hname, hfields hp hp' hparameters,
        map_sexp_inj (fun s hm _ hs => (hb s hm).sexp_inj hs) hb' hbody]

theorem Program.Fits.sexp_inj {p p' : Program Word} (h : p.Fits) (h' : p'.Fits)
    (he : p.sexp = p'.sexp) : p = p' := by
  cases p
  cases p'
  rw [Program.mk.injEq]
  exact map_sexp_inj (fun d hm _ hd => (h d hm).sexp_inj hd) h' (SExpr.node_inj he).2

theorem TypeExpr.Fits.print_inj {t t' : TypeExpr Word} (h : t.Fits) (h' : t'.Fits)
    (he : Printer.typeExpr Word.text t = Printer.typeExpr Word.text t') : t = t' := by
  rw [← render_sexp, ← render_sexp] at he
  exact h.sexp_inj h' (SExpr.render_inj h.readable h'.readable he)

theorem Expr.Fits.print_inj {e e' : Expr Word} (h : e.Fits) (h' : e'.Fits)
    (he : Printer.expr Word.text e = Printer.expr Word.text e') : e = e' := by
  rw [← render_sexp, ← render_sexp] at he
  exact h.sexp_inj h' (SExpr.render_inj h.readable h'.readable he)

theorem Program.Fits.print_inj {p p' : Program Word} (h : p.Fits) (h' : p'.Fits)
    (he : Printer.program Word.text p = Printer.program Word.text p') : p = p' := by
  rw [← render_sexp, ← render_sexp] at he
  exact h.sexp_inj h' (SExpr.render_inj h.readable h'.readable he)

end Seanet
