import Seanet.Parser.TypeExpr

set_option autoImplicit false

namespace Seanet

structure BinaryLevel where
  operators : List Kind
  logical : Bool

namespace BinaryLevel

def all : List BinaryLevel :=
  [⟨[.pipePipe], true⟩, ⟨[.ampAmp], true⟩, ⟨[.pipe], false⟩, ⟨[.caret], false⟩, ⟨[.amp], false⟩,
    ⟨[.equalEqual, .bangEqual], false⟩, ⟨[.less, .lessEqual, .greater, .greaterEqual], false⟩,
    ⟨[.lessLess, .greaterGreater], false⟩, ⟨[.plus, .minus], false⟩,
    ⟨[.star, .slash, .percent], false⟩]

def node {τ : Type} (level : BinaryLevel) (operator : τ) (left right : Expr τ) : Expr τ :=
  if level.logical then .logical operator left right else .binary operator left right

end BinaryLevel

namespace Kind

def assignments : List Kind := [equal, plusEqual, minusEqual, starEqual, slashEqual]

def unaryOperators : List Kind := [bang, minus, tilde, plusPlus, minusMinus]

def isAssignment (k : Kind) : Bool := assignments.contains k

def isUnaryOperator (k : Kind) : Bool := unaryOperators.contains k

end Kind

namespace Parser

variable {τ : Type} [TokenView τ]

open TokenView (kind)

def binaryOver (operand : Parser τ (Expr τ)) : List BinaryLevel → Parser τ (Expr τ)
  | [] => operand
  | level :: tighter => do
    let first ← binaryOver operand tighter
    iterate (fun left => do
      match ← accept level.operators.contains with
      | none => return none
      | some operator =>
        let right ← binaryOver operand tighter
        return some (level.node operator left right)) first

/-- The value of an assignment is read before its target is judged. -/
def assignmentOver (operand value : Parser τ (Expr τ)) : Parser τ (Expr τ) := do
  let target ← binaryOver operand BinaryLevel.all
  match ← accept Kind.isAssignment with
  | none => return target
  | some operator =>
    let value ← value
    match target with
    | .variable name _ => return .assign name operator value
    | .property object name => return .assignProperty object name operator value
    | _ => fun ts => .error (.assignmentTarget operator ts)

def argumentOver (expression : Parser τ (Expr τ)) : Parser τ (Expr τ) := do
  match ← accept (· == .refWord) with
  | none => expression
  | some _ =>
    let name ← expect .identifier .refName
    return .variable name true

def callOver (expression : Parser τ (Expr τ)) (callee : Expr τ) : Parser τ (Expr τ) := do
  let arguments ← separatedUntil .rightParen (argumentOver expression)
  let paren ← expect .rightParen .closingArguments
  return .call callee arguments paren

def bracketed (expression : Parser τ (Expr τ)) (what : Expected) : Parser τ (Expr τ) := do
  let e ← expression
  let _ ← expect .rightBracket what
  return e

/-- After `new`: a type and sizes in brackets make an array, a named type and `()` a struct. -/
def newOver (expression : Parser τ (Expr τ)) (functionType : Parser τ (TypeExpr τ)) :
    Parser τ (Expr τ) := do
  let isFunction ← sees (· == .funWord)
  let element ← if isFunction then functionType else
    (fun name => TypeExpr.named name false) <$> require isTypeName .typeName
  if ← sees (· == .leftBracket) then
    let sizes ← manyWhile (· == .leftBracket) do
      let _ ← accept (· == .leftBracket)
      bracketed expression .closingSize
    return .newArray (element.arrays sizes.length false) sizes
  else if isFunction then fail .functionArraySize
  else
    let _ ← expect .leftParen .newBrackets
    let _ ← expect .rightParen .newClosing
    return .newStruct element

/-- After an identifier: `++` and `--` apply to it at once. -/
def variableAfter (name : τ) : Parser τ (Expr τ) := do
  match ← accept (fun k => k == .plusPlus || k == .minusMinus) with
  | none => return .variable name false
  | some operator =>
    return if kind operator = .plusPlus then .increment name operator else .decrement name operator

def primaryOver (expression : Parser τ (Expr τ)) (functionType : Parser τ (TypeExpr τ)) :
    Parser τ (Expr τ) := fun ts =>
  match ts with
  | [] => .error (.expected .expression [])
  | t :: rest =>
    if (kind t).isLiteral then .ok (.literal t, rest)
    else
      match kind t with
      | .leftParen =>
        (do
          let e ← expression
          let _ ← expect .rightParen .closingGroup
          return Expr.grouped e : Parser τ (Expr τ)) rest
      | .identifier => variableAfter t rest
      | .newWord => newOver expression functionType rest
      | .funWord => (Expr.functionType <$> functionType : Parser τ (Expr τ)) (t :: rest)
      | _ => .error (.expected .expression (t :: rest))

def postfixStep (expression : Parser τ (Expr τ)) (e : Expr τ) :
    Parser τ (Option (Expr τ)) := do
  match ← accept (fun k => k == .leftParen || k == .dot || k == .leftBracket) with
  | none => return none
  | some t =>
    match kind t with
    | .leftParen => some <$> callOver expression e
    | .dot =>
      let name ← expect .identifier .propertyName
      return some (.property e name)
    | _ =>
      let position ← bracketed expression .closingIndex
      return some (.index e position)

def postfixOver (expression : Parser τ (Expr τ)) (functionType : Parser τ (TypeExpr τ)) :
    Parser τ (Expr τ) := do
  let e ← primaryOver expression functionType
  iterate (postfixStep expression) e

def unaryOver (operand expression : Parser τ (Expr τ)) (functionType : Parser τ (TypeExpr τ)) :
    Parser τ (Expr τ) := do
  match ← accept Kind.isUnaryOperator with
  | none => postfixOver expression functionType
  | some operator =>
    let e ← operand
    return .unary operator e

/-- The parsers that share one number of levels left. -/
structure Layer (τ : Type) where
  expression : Parser τ (Expr τ)
  unary : Parser τ (Expr τ)

def layer : Nat → Layer τ
  | 0 => ⟨tooDeep, unaryOver tooDeep tooDeep (functionType 0)⟩
  | n + 1 =>
    let inner : Layer τ := layer n
    let expression := assignmentOver inner.unary inner.expression
    ⟨expression, unaryOver inner.unary expression (functionType (n + 1))⟩

def expression (levels : Nat) : Parser τ (Expr τ) := (layer levels).expression

end Parser

end Seanet
