import Seanet.Parser.Expr
import Seanet.Proofs.Tree.Words

set_option autoImplicit false

namespace Seanet

def Word.Is (p : Kind → Bool) (w : Word) : Prop := w.IsLexeme ∧ p w.kind = true

def Word.IsName (w : Word) : Prop := w.Is (· == .identifier)

def Kind.isTypeWord (k : Kind) : Bool := k == .void || k == .varWord || Parser.isTypeName k

def BinaryLevel.joins (logical : Bool) (k : Kind) : Bool :=
  BinaryLevel.all.any fun level => level.logical == logical && level.operators.contains k

theorem Word.Is.atomic {p : Kind → Bool} {w : Word} (h : w.Is p)
    (hp : ∀ k, p k = true → Word.isApart k = false) : Atomic w.text :=
  h.1.atomic (hp _ h.2)

theorem Word.IsName.atomic {w : Word} (h : w.IsName) : Atomic w.text :=
  Word.Is.atomic h fun k hk => by
    obtain rfl : k = .identifier := by simpa using hk
    rfl

theorem Word.Is.eq_of_kind {k : Kind} {w w' : Word} (h : w.Is (· == k)) (h' : w'.Is (· == k))
    (hk : Word.isOpen k = false) : w = w' := by
  have hw : w.kind = k := by simpa using h.2
  have hw' : w'.kind = k := by simpa using h'.2
  exact h.1.eq_of_kind h'.1 (hw.trans hw'.symm) (hw ▸ hk)

inductive TypeExpr.Fits : TypeExpr Word → Prop where
  | named {w : Word} {isRef : Bool} (h : w.Is Kind.isTypeWord) : Fits (.named w isRef)
  | array {element : TypeExpr Word} {isRef : Bool} (h : element.Fits) : Fits (.array element isRef)
  | function {parameters : List (TypeExpr Word)} {result : TypeExpr Word}
      (hp : ∀ p ∈ parameters, p.Fits) (hr : result.Fits) : Fits (.function parameters result)

inductive Expr.Fits : Expr Word → Prop where
  | literal {w : Word} (h : w.Is Kind.isLiteral) : Fits (.literal w)
  | grouped {e : Expr Word} (h : e.Fits) : Fits (.grouped e)
  | unary {op : Word} {e : Expr Word} (ho : op.Is Kind.isUnaryOperator) (h : e.Fits) :
      Fits (.unary op e)
  | binary {op : Word} {l r : Expr Word} (ho : op.Is (BinaryLevel.joins false)) (hl : l.Fits)
      (hr : r.Fits) : Fits (.binary op l r)
  | logical {op : Word} {l r : Expr Word} (ho : op.Is (BinaryLevel.joins true)) (hl : l.Fits)
      (hr : r.Fits) : Fits (.logical op l r)
  | assign {name op : Word} {e : Expr Word} (hn : name.IsName) (ho : op.Is Kind.isAssignment)
      (h : e.Fits) : Fits (.assign name op e)
  | assignProperty {o e : Expr Word} {name op : Word} (h : o.Fits) (hn : name.IsName)
      (ho : op.Is Kind.isAssignment) (h' : e.Fits) : Fits (.assignProperty o name op e)
  | call {f : Expr Word} {args : List (Expr Word)} {paren : Word} (h : f.Fits)
      (ha : ∀ a ∈ args, a.Fits) (hp : paren.Is (· == .rightParen)) : Fits (.call f args paren)
  | property {o : Expr Word} {name : Word} (h : o.Fits) (hn : name.IsName) :
      Fits (.property o name)
  | variable {name : Word} (hn : name.IsName) : Fits (.variable name false)
  | reference {name : Word} (hn : name.IsName) : Fits (.variable name true)
  | increment {name op : Word} (hn : name.IsName) (ho : op.Is (· == .plusPlus)) :
      Fits (.increment name op)
  | decrement {name op : Word} (hn : name.IsName) (ho : op.Is (· == .minusMinus)) :
      Fits (.decrement name op)
  | index {a i : Expr Word} (h : a.Fits) (h' : i.Fits) : Fits (.index a i)
  | newArray {type : TypeExpr Word} {sizes : List (Expr Word)} (ht : type.Fits) (hn : sizes ≠ [])
      (hs : ∀ s ∈ sizes, s.Fits) : Fits (.newArray type sizes)
  | newStruct {type : TypeExpr Word} (ht : type.Fits) : Fits (.newStruct type)
  | functionType {parameters : List (TypeExpr Word)} {result : TypeExpr Word}
      (h : (TypeExpr.function parameters result).Fits) :
      Fits (.functionType (.function parameters result))

structure Field.Fits (f : Field Word) : Prop where
  type : f.type.Fits
  name : f.name.IsName

inductive Stmt.Fits : Stmt Word → Prop where
  | block {body : List (Stmt Word)} (h : ∀ s ∈ body, s.Fits) : Fits (.block body)
  | expr {e : Expr Word} (h : e.Fits) : Fits (.expr e)
  | declare {type : TypeExpr Word} {name : Word} (ht : type.Fits) (hn : name.IsName) :
      Fits (.declare type name)
  | define {type : TypeExpr Word} {name : Word} {e : Expr Word} (ht : type.Fits) (hn : name.IsName)
      (h : e.Fits) : Fits (.define type name e)
  | ifThen {e : Expr Word} {body : List (Stmt Word)} (h : e.Fits) (hb : ∀ s ∈ body, s.Fits) :
      Fits (.ifThen e body)
  | ifElse {e : Expr Word} {body : List (Stmt Word)} {other : Stmt Word} (h : e.Fits)
      (hb : ∀ s ∈ body, s.Fits) (ho : other.Fits) : Fits (.ifElse e body other)
  | whileLoop {e : Expr Word} {body : List (Stmt Word)} (h : e.Fits) (hb : ∀ s ∈ body, s.Fits) :
      Fits (.whileLoop e body)
  | returnValue {keyword : Word} {e : Expr Word} (hk : keyword.Is (· == .returnWord)) (h : e.Fits) :
      Fits (.returnValue keyword e)
  | returnVoid {keyword : Word} (hk : keyword.Is (· == .returnWord)) : Fits (.returnVoid keyword)

inductive Declaration.Fits : Declaration Word → Prop where
  | struct {name : Word} {fields : List (Field Word)} (hn : name.IsName)
      (hf : ∀ f ∈ fields, f.Fits) : Fits (.struct name fields)
  | function {result : TypeExpr Word} {name : Word} {parameters : List (Field Word)}
      {body : List (Stmt Word)} (hr : result.Fits) (hn : name.IsName)
      (hp : ∀ f ∈ parameters, f.Fits) (hb : ∀ s ∈ body, s.Fits) :
      Fits (.function result name parameters body)

def Program.Fits (p : Program Word) : Prop := ∀ d ∈ p.declarations, d.Fits

def SExpr.node (head : String) (items : List SExpr) : SExpr := .list (.atom head :: items)

def SExpr.reference (isRef : Bool) (s : SExpr) : SExpr := if isRef then .node "ref" [s] else s

open SExpr (node reference)

mutual

def TypeExpr.sexp : TypeExpr Word → SExpr
  | .named name isRef => reference isRef (.atom name.text)
  | .array element isRef => reference isRef (node "array" [element.sexp])
  | .function parameters result => node "fun" [.list (sexps parameters), result.sexp]

def TypeExpr.sexps : List (TypeExpr Word) → List SExpr
  | [] => []
  | t :: rest => t.sexp :: sexps rest

end

mutual

def Expr.sexp : Expr Word → SExpr
  | .literal value => .atom value.text
  | .grouped inner => node "group" [inner.sexp]
  | .unary operator operand => .list [.atom operator.text, operand.sexp]
  | .binary operator left right => .list [.atom operator.text, left.sexp, right.sexp]
  | .logical operator left right => .list [.atom operator.text, left.sexp, right.sexp]
  | .assign name operator value => .list [.atom operator.text, .atom name.text, value.sexp]
  | .assignProperty object name operator value =>
    .list [.atom operator.text, node "." [object.sexp, .atom name.text], value.sexp]
  | .call callee arguments _ => node "call" (callee.sexp :: sexps arguments)
  | .property object name => node "." [object.sexp, .atom name.text]
  | .variable name isRef => reference isRef (.atom name.text)
  | .increment name _ => node "postfix++" [.atom name.text]
  | .decrement name _ => node "postfix--" [.atom name.text]
  | .index array position => node "index" [array.sexp, position.sexp]
  | .newArray type sizes => node "new" (type.sexp :: sexps sizes)
  | .newStruct type => node "new" [type.sexp]
  | .functionType type => type.sexp

def Expr.sexps : List (Expr Word) → List SExpr
  | [] => []
  | e :: rest => e.sexp :: sexps rest

end

def Field.sexp (f : Field Word) : SExpr := .list [f.type.sexp, .atom f.name.text]

mutual

def Stmt.sexp : Stmt Word → SExpr
  | .block statements => node "block" (sexps statements)
  | .expr value => node "expr" [value.sexp]
  | .declare type name => node "declare" [type.sexp, .atom name.text]
  | .define type name initializer =>
    node "declare" [type.sexp, .atom name.text, initializer.sexp]
  | .ifThen condition body => node "if" [condition.sexp, node "block" (sexps body)]
  | .ifElse condition body other =>
    node "if" [condition.sexp, node "block" (sexps body), other.sexp]
  | .whileLoop condition body => node "while" [condition.sexp, node "block" (sexps body)]
  | .returnValue _ value => node "return" [value.sexp]
  | .returnVoid _ => node "return" []

def Stmt.sexps : List (Stmt Word) → List SExpr
  | [] => []
  | s :: rest => s.sexp :: sexps rest

end

def Declaration.sexp : Declaration Word → SExpr
  | .struct name fields => node "struct" [.atom name.text, .list (fields.map Field.sexp)]
  | .function result name parameters body =>
    node "function" [result.sexp, .atom name.text, .list (parameters.map Field.sexp),
      node "block" (Stmt.sexps body)]

def Program.sexp (p : Program Word) : SExpr :=
  node "program" (p.declarations.map Declaration.sexp)

theorem TypeExpr.sexps_eq (ts : List (TypeExpr Word)) : sexps ts = ts.map sexp := by
  induction ts with
  | nil => rfl
  | cons t ts ih => rw [sexps, ih, List.map_cons]

theorem Expr.sexps_eq (es : List (Expr Word)) : sexps es = es.map sexp := by
  induction es with
  | nil => rfl
  | cons e es ih => rw [sexps, ih, List.map_cons]

theorem Stmt.sexps_eq (ss : List (Stmt Word)) : sexps ss = ss.map sexp := by
  induction ss with
  | nil => rfl
  | cons s ss ih => rw [sexps, ih, List.map_cons]

namespace SExpr

theorem render_node (head : String) (items : List SExpr) :
    (node head items).render = listing (head :: renders items) := rfl

theorem render_reference (isRef : Bool) (s : SExpr) : (reference isRef s).render =
    if isRef then listing ["ref", s.render] else s.render := by
  cases isRef <;> rfl

theorem renders_map {α : Type} (f : α → SExpr) (as : List α) :
    renders (as.map f) = as.map fun a => (f a).render := by
  induction as with
  | nil => rfl
  | cons a as ih => rw [List.map_cons, renders, ih, List.map_cons]

end SExpr

open SExpr (render_node render_reference)

mutual

theorem TypeExpr.render_sexp : ∀ t : TypeExpr Word, t.sexp.render = Printer.typeExpr Word.text t
  | .named name isRef => by rw [sexp, render_reference, Printer.typeExpr, SExpr.render]
  | .array element isRef => by
    simp only [sexp, render_reference, Printer.typeExpr, render_node, SExpr.renders,
      render_sexp element]
  | .function parameters result => by
    simp only [sexp, Printer.typeExpr, render_node, SExpr.renders, SExpr.render,
      renders_sexps parameters, render_sexp result]

theorem TypeExpr.renders_sexps : ∀ ts : List (TypeExpr Word),
    SExpr.renders (sexps ts) = Printer.typeExprs Word.text ts
  | [] => rfl
  | t :: ts => by
    simp only [sexps, SExpr.renders, Printer.typeExprs, render_sexp t, renders_sexps ts]

end

mutual

theorem Expr.render_sexp : ∀ e : Expr Word, e.sexp.render = Printer.expr Word.text e
  | .literal _ => rfl
  | .grouped inner => by
    simp only [sexp, Printer.expr, render_node, SExpr.renders, render_sexp inner]
  | .unary _ operand => by
    simp only [sexp, Printer.expr, SExpr.render, SExpr.renders, render_sexp operand]
  | .binary _ left right => by
    simp only [sexp, Printer.expr, SExpr.render, SExpr.renders, render_sexp left, render_sexp right]
  | .logical _ left right => by
    simp only [sexp, Printer.expr, SExpr.render, SExpr.renders, render_sexp left, render_sexp right]
  | .assign _ _ value => by
    simp only [sexp, Printer.expr, SExpr.render, SExpr.renders, render_sexp value]
  | .assignProperty object _ _ value => by
    simp only [sexp, Printer.expr, node, SExpr.render, SExpr.renders, render_sexp object,
      render_sexp value]
  | .call callee arguments _ => by
    simp only [sexp, Printer.expr, render_node, SExpr.renders, render_sexp callee,
      renders_sexps arguments]
  | .property object _ => by
    simp only [sexp, Printer.expr, render_node, SExpr.renders, SExpr.render, render_sexp object]
  | .variable _ _ => by rw [sexp, render_reference, Printer.expr, SExpr.render]
  | .increment _ _ => rfl
  | .decrement _ _ => rfl
  | .index array position => by
    simp only [sexp, Printer.expr, render_node, SExpr.renders, render_sexp array,
      render_sexp position]
  | .newArray type sizes => by
    simp only [sexp, Printer.expr, render_node, SExpr.renders, type.render_sexp,
      renders_sexps sizes]
  | .newStruct type => by
    simp only [sexp, Printer.expr, render_node, SExpr.renders, type.render_sexp]
  | .functionType type => by rw [sexp, Printer.expr, type.render_sexp]

theorem Expr.renders_sexps : ∀ es : List (Expr Word),
    SExpr.renders (sexps es) = Printer.exprs Word.text es
  | [] => rfl
  | e :: es => by simp only [sexps, SExpr.renders, Printer.exprs, render_sexp e, renders_sexps es]

end

theorem Field.renders_sexp (fs : List (Field Word)) :
    SExpr.renders (fs.map Field.sexp) = fs.map (Printer.field Word.text) := by
  rw [SExpr.renders_map]
  refine List.map_congr_left fun f _ => ?_
  simp only [Field.sexp, Printer.field, SExpr.render, SExpr.renders, f.type.render_sexp]

mutual

theorem Stmt.render_sexp : ∀ s : Stmt Word, s.sexp.render = Printer.stmt Word.text s
  | .block statements => by rw [sexp, Printer.stmt, render_node, renders_sexps statements]
  | .expr value => by
    simp only [sexp, Printer.stmt, render_node, SExpr.renders, value.render_sexp]
  | .declare type _ => by
    simp only [sexp, Printer.stmt, render_node, SExpr.renders, SExpr.render, type.render_sexp]
  | .define type _ initializer => by
    simp only [sexp, Printer.stmt, render_node, SExpr.renders, SExpr.render, type.render_sexp,
      initializer.render_sexp]
  | .ifThen condition body => by
    simp only [sexp, Printer.stmt, render_node, SExpr.renders, condition.render_sexp,
      renders_sexps body]
  | .ifElse condition body other => by
    simp only [sexp, Printer.stmt, render_node, SExpr.renders, condition.render_sexp,
      renders_sexps body, render_sexp other]
  | .whileLoop condition body => by
    simp only [sexp, Printer.stmt, render_node, SExpr.renders, condition.render_sexp,
      renders_sexps body]
  | .returnValue _ value => by
    simp only [sexp, Printer.stmt, render_node, SExpr.renders, value.render_sexp]
  | .returnVoid _ => rfl

theorem Stmt.renders_sexps : ∀ ss : List (Stmt Word),
    SExpr.renders (sexps ss) = Printer.stmts Word.text ss
  | [] => rfl
  | s :: ss => by simp only [sexps, SExpr.renders, Printer.stmts, render_sexp s, renders_sexps ss]

end

theorem Declaration.render_sexp (d : Declaration Word) :
    d.sexp.render = Printer.declaration Word.text d := by
  cases d with
  | struct _ fields =>
    simp only [sexp, Printer.declaration, render_node, SExpr.renders, SExpr.render,
      Field.renders_sexp]
  | function result _ parameters body =>
    simp only [sexp, Printer.declaration, render_node, SExpr.renders, SExpr.render,
      Field.renders_sexp, result.render_sexp, Stmt.renders_sexps]

theorem Program.render_sexp (p : Program Word) : p.sexp.render = Printer.program Word.text p := by
  simp only [sexp, Printer.program, render_node, SExpr.renders_map, Declaration.render_sexp]

end Seanet
