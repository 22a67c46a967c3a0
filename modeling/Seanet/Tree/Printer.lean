import Seanet.Token.Basic
import Seanet.Tree.Basic

set_option autoImplicit false

namespace Seanet

/-- How a token is spelled in a printed tree. A token that is not written is spelled as if it
were. -/
def Token.spelling (t : Token) : Text :=
  if 0 < t.length then t.lexeme
  else
    match t.kind with
    | .trueWord => "true"
    | .void => "void"
    | _ => []

def listing (parts : List Text) : Text := "(" ++ Text.join " " parts ++ ")"

namespace Printer

variable {τ : Type} (spell : τ → Text)

mutual

def typeExpr : TypeExpr τ → Text
  | .named name isRef => if isRef then listing ["ref", spell name] else spell name
  | .array element isRef =>
    let array := listing ["array", typeExpr element]
    if isRef then listing ["ref", array] else array
  | .function parameters result =>
    listing ["fun", listing (typeExprs parameters), typeExpr result]

def typeExprs : List (TypeExpr τ) → List Text
  | [] => []
  | t :: rest => typeExpr t :: typeExprs rest

end

mutual

def expr : Expr τ → Text
  | .literal value => spell value
  | .grouped inner => listing ["group", expr inner]
  | .unary operator operand => listing [spell operator, expr operand]
  | .binary operator left right => listing [spell operator, expr left, expr right]
  | .logical operator left right => listing [spell operator, expr left, expr right]
  | .assign name operator value => listing [spell operator, spell name, expr value]
  | .assignProperty object property operator value =>
    listing [spell operator, listing [".", expr object, spell property], expr value]
  | .call callee arguments _ => listing ("call" :: expr callee :: exprs arguments)
  | .property object name => listing [".", expr object, spell name]
  | .variable name isRef => if isRef then listing ["ref", spell name] else spell name
  | .increment name _ => listing ["postfix++", spell name]
  | .decrement name _ => listing ["postfix--", spell name]
  | .index array position => listing ["index", expr array, expr position]
  | .newArray type sizes => listing ("new" :: typeExpr spell type :: exprs sizes)
  | .newStruct type => listing ["new", typeExpr spell type]
  | .functionType type => typeExpr spell type

def exprs : List (Expr τ) → List Text
  | [] => []
  | e :: rest => expr e :: exprs rest

end

def field (f : Field τ) : Text := listing [typeExpr spell f.type, spell f.name]

mutual

def stmt : Stmt τ → Text
  | .block statements => listing ("block" :: stmts statements)
  | .expr value => listing ["expr", expr spell value]
  | .declare type name => listing ["declare", typeExpr spell type, spell name]
  | .define type name initializer =>
    listing ["declare", typeExpr spell type, spell name, expr spell initializer]
  | .ifThen condition body =>
    listing ["if", expr spell condition, listing ("block" :: stmts body)]
  | .ifElse condition body other =>
    listing ["if", expr spell condition, listing ("block" :: stmts body), stmt other]
  | .whileLoop condition body =>
    listing ["while", expr spell condition, listing ("block" :: stmts body)]
  | .returnValue _ value => listing ["return", expr spell value]
  | .returnVoid _ => listing ["return"]

def stmts : List (Stmt τ) → List Text
  | [] => []
  | s :: rest => stmt s :: stmts rest

end

def declaration : Declaration τ → Text
  | .struct name fields =>
    listing ["struct", spell name, listing (fields.map (field spell))]
  | .function result name parameters body =>
    listing ["function", typeExpr spell result, spell name,
      listing (parameters.map (field spell)), listing ("block" :: stmts spell body)]

def program (p : Program τ) : Text :=
  listing ("program" :: p.declarations.map (declaration spell))

end Printer

def TypeExpr.print (t : TypeExpr Token) : Text := Printer.typeExpr Token.spelling t

def Expr.print (e : Expr Token) : Text := Printer.expr Token.spelling e

def Stmt.print (s : Stmt Token) : Text := Printer.stmt Token.spelling s

def Declaration.print (d : Declaration Token) : Text := Printer.declaration Token.spelling d

def Program.print (p : Program Token) : Text := Printer.program Token.spelling p

end Seanet
