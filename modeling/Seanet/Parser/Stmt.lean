import Seanet.Parser.Expr

set_option autoImplicit false

namespace Seanet

namespace Parser

variable {τ : Type} [TokenView τ]

open TokenView (kind)

/-- A builtin type, `ref` or `fun` always begins a declaration. An identifier does when another
identifier or an empty `[]` follows it. -/
def beginsDeclaration (kinds : List Kind) : Bool :=
  match kinds with
  | .identifier :: .identifier :: _ => true
  | .identifier :: .leftBracket :: .rightBracket :: _ => true
  | k :: _ => k.isBuiltinType || k == .refWord || k == .funWord
  | [] => false

def seesDeclaration : Parser τ Bool := fun ts => .ok (beginsDeclaration (ts.map kind), ts)

def varDeclaration (expression : Parser τ (Expr τ)) (keyword : τ) : Parser τ (Stmt τ) := do
  let name ← expect .identifier .varName
  let _ ← expect .equal .varInitializer
  let value ← expression
  let _ ← expect .semicolon .declarationEnd
  return .define (.named keyword false) name value

def declaration (expression : Parser τ (Expr τ)) (type : Parser τ (TypeExpr τ)) :
    Parser τ (Stmt τ) := do
  let type ← type
  let name ← expect .identifier .variableName
  match ← accept (· == .equal) with
  | none =>
    let _ ← expect .semicolon .declarationEnd
    return .declare type name
  | some _ =>
    let value ← expression
    let _ ← expect .semicolon .declarationEnd
    return .define type name value

def expressionStatement (expression : Parser τ (Expr τ)) : Parser τ (Stmt τ) := do
  let e ← expression
  let _ ← expect .semicolon .expressionEnd
  return .expr e

def simpleStatement (expression : Parser τ (Expr τ)) (type : Parser τ (TypeExpr τ)) :
    Parser τ (Stmt τ) := do
  match ← accept (· == .varWord) with
  | some keyword => varDeclaration expression keyword
  | none =>
    if ← seesDeclaration then declaration expression type else expressionStatement expression

def condition (expression : Parser τ (Expr τ)) (keyword : String) : Parser τ (Expr τ) := do
  let _ ← expect .leftParen (.conditionOpening keyword)
  let e ← expression
  let _ ← expect .rightParen (.conditionClosing keyword)
  return e

def ifOver (expression : Parser τ (Expr τ)) (block : Parser τ (List (Stmt τ)))
    (other : Parser τ (Stmt τ)) : Parser τ (Stmt τ) := do
  let test ← condition expression "if"
  let body ← block
  match ← accept (· == .elseWord) with
  | none => return .ifThen test body
  | some _ =>
    if ← sees (· == .ifWord) then
      let rest ← other
      return .ifElse test body rest
    else
      let rest ← block
      return .ifElse test body (.block rest)

def whileOver (expression : Parser τ (Expr τ)) (block : Parser τ (List (Stmt τ))) :
    Parser τ (Stmt τ) := do
  let test ← condition expression "while"
  let body ← block
  return .whileLoop test body

/-- The condition of a `for`. A missing one is a `true` that is not written, where the condition
would have begun. -/
def forCondition (expression : Parser τ (Expr τ)) : Parser τ (Expr τ) := do
  let missing : Parser τ (Option τ) := fun ts =>
    match ts with
    | [] => .ok (none, [])
    | t :: rest => .ok (if kind t = .semicolon then some t else none, t :: rest)
  match ← missing with
  | some t => return .literal (TokenView.unwrittenTrue t)
  | none => expression

/-- The tree of a `for` loop: its initializer and a `while` in a block, with the increment at the
end of the body. -/
def forTree (initializer : Option (Stmt τ)) (test : Expr τ) (increment : Option (Expr τ))
    (body : List (Stmt τ)) : Stmt τ :=
  let increment := match increment with
    | none => []
    | some e => [.expr e]
  .block (initializer.toList ++ [.whileLoop test (body ++ increment)])

def forOver (expression : Parser τ (Expr τ)) (type : Parser τ (TypeExpr τ))
    (block : Parser τ (List (Stmt τ))) : Parser τ (Stmt τ) := do
  let _ ← expect .leftParen .forOpening
  let initializer ← do
    match ← accept (· == .semicolon) with
    | some _ => pure none
    | none => some <$> simpleStatement expression type
  let test ← forCondition expression
  let _ ← expect .semicolon .loopConditionEnd
  let increment ← do
    if ← sees (· == .rightParen) then pure none else some <$> expression
  let _ ← expect .rightParen .forClosing
  let body ← block
  return forTree initializer test increment body

def returnOver (expression : Parser τ (Expr τ)) (keyword : τ) : Parser τ (Stmt τ) := do
  match ← accept (· == .semicolon) with
  | some _ => return .returnVoid keyword
  | none =>
    let e ← expression
    let _ ← expect .semicolon .returnEnd
    return .returnValue keyword e

def blockOver (statement : Parser τ (Stmt τ)) : Parser τ (List (Stmt τ)) := do
  let _ ← expect .leftBrace .blockOpening
  let statements ← manyWhile (· != .rightBrace) statement
  let _ ← expect .rightBrace .blockClosing
  return statements

def statementOver (expression : Parser τ (Expr τ)) (type : Parser τ (TypeExpr τ))
    (block : Parser τ (List (Stmt τ))) (conditional : Parser τ (Stmt τ)) :
    Parser τ (Stmt τ) := fun ts =>
  match ts with
  | [] => simpleStatement expression type []
  | t :: rest =>
    match kind t with
    | .leftBrace => (Stmt.block <$> block : Parser τ (Stmt τ)) (t :: rest)
    | .ifWord => conditional (t :: rest)
    | .whileWord => whileOver expression block rest
    | .forWord => forOver expression type block rest
    | .returnWord => returnOver expression t rest
    | _ => simpleStatement expression type (t :: rest)

/-- The statement parsers that share one number of levels left. -/
structure StmtLayer (τ : Type) where
  block : Parser τ (List (Stmt τ))
  conditional : Parser τ (Stmt τ)

def ifWith (expression : Parser τ (Expr τ)) (block : Parser τ (List (Stmt τ)))
    (other : Parser τ (Stmt τ)) : Parser τ (Stmt τ) := do
  let _ ← accept (· == .ifWord)
  ifOver expression block other

def stmtLayer : Nat → StmtLayer τ
  | 0 => ⟨tooDeep, ifWith (expression 0) tooDeep tooDeep⟩
  | n + 1 =>
    let inner : StmtLayer τ := stmtLayer n
    let block :=
      blockOver (statementOver (expression n) (typeExpr n false) inner.block inner.conditional)
    ⟨block, ifWith (expression (n + 1)) block inner.conditional⟩

def block (levels : Nat) : Parser τ (List (Stmt τ)) := (stmtLayer levels).block

end Parser

end Seanet
