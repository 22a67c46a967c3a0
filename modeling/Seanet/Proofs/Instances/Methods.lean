import Seanet.Proofs.Instances.Memory

set_option autoImplicit false

namespace Seanet

namespace Instances

/-- The methods of a parser. -/
structure Methods where
  expression : Machine (Expr Token)
  assignment : Machine (Expr Token)
  binary (level : Nat) : Machine (Expr Token)
  unary : Machine (Expr Token)
  suffixed : Machine (Expr Token)
  call (callee : Expr Token) : Machine (Expr Token)
  argument : Machine (Expr Token)
  primary : Machine (Expr Token)
  newObject : Machine (Expr Token)
  type (allowVoid : Bool) : Machine (TypeExpr Token)
  functionType : Machine (TypeExpr Token)
  namedType : Machine (TypeExpr Token)
  typeName : Machine Token
  arraySuffix : Machine Nat
  varDeclaration : Machine (Stmt Token)
  declaration : Machine (Stmt Token)
  expressionStatement : Machine (Stmt Token)
  condition (keyword : String) : Machine (Expr Token)
  conditional : Machine (Stmt Token)
  whileLoop : Machine (Stmt Token)
  forLoop : Machine (Stmt Token)
  returnStatement : Machine (Stmt Token)
  statement : Machine (Stmt Token)
  block : Machine (List (Stmt Token))
  braced : Machine (List (Stmt Token))
  structDeclaration : Machine (Declaration Token)
  functionDeclaration : Machine (Declaration Token)
  program : Machine (Program Token)

namespace Methods

open Machine

def spent : Methods where
  expression := exhausted
  assignment := exhausted
  binary _ := exhausted
  unary := exhausted
  suffixed := exhausted
  call _ := exhausted
  argument := exhausted
  primary := exhausted
  newObject := exhausted
  type _ := exhausted
  functionType := exhausted
  namedType := exhausted
  typeName := exhausted
  arraySuffix := exhausted
  varDeclaration := exhausted
  declaration := exhausted
  expressionStatement := exhausted
  condition _ := exhausted
  conditional := exhausted
  whileLoop := exhausted
  forLoop := exhausted
  returnStatement := exhausted
  statement := exhausted
  block := exhausted
  braced := exhausted
  structDeclaration := exhausted
  functionDeclaration := exhausted
  program := exhausted

-- The body of each method calls the methods `self`.

def typeNameBody : Machine Token := do
  if ← check Parser.isTypeName then advance else errorAtCurrent .typeName

def namedTypeBody (self : Methods) : Machine (TypeExpr Token) := do
  let name ← self.typeName
  return .named name false

def arraySuffixBody : Machine Nat :=
  loop (fun n => do
    if ← check (· == .leftBracket) then
      if ← checkAt 1 .rightBracket then
        let _ ← advance
        let _ ← advance
        return some (n + 1)
      else return none
    else return none) 0

def functionTypeBody (limit : Nat) (self : Methods) : Machine (TypeExpr Token) := do
  let keyword ← consume .funWord .funWord
  match ← take (· == .less) with
  | none => return .function [] (.named keyword.unwrittenVoid false)
  | some _ =>
    let entries ← commaLoop (nested limit (self.type true))
    let _ ← consumeClosingAngle .typeListEnd
    -- There is at least one entry, and the last one is the result.
    return .function entries.dropLast (entries.getLastD (.named keyword false))

def namedOrVoid (self : Methods) (allowVoid : Bool) : Machine Token := do
  if ← check (fun k => allowVoid && k == .void) then advance else self.typeName

def typeBody (self : Methods) (allowVoid : Bool) : Machine (TypeExpr Token) := do
  let ref ← take (· == .refWord)
  if ← check (· == .funWord) then
    match ref with
    | some t => fail t "ref cannot apply to a function-pointer type." .invalidType
    | none =>
      let type ← self.functionType
      let dimensions ← self.arraySuffix
      return type.arrays dimensions false
  else
    let name ← self.namedOrVoid allowVoid
    let dimensions ← self.arraySuffix
    match dimensions with
    | 0 => return .named name ref.isSome
    | n => return (TypeExpr.named name false).arrays n ref.isSome

def expressionBody (limit : Nat) (self : Methods) : Machine (Expr Token) :=
  nested limit self.assignment

def assignmentBody (self : Methods) : Machine (Expr Token) := do
  let target ← self.binary 0
  match ← take Kind.isAssignment with
  | none => return target
  | some operator =>
    let value ← self.expression
    match target with
    | .variable name _ => return .assign name operator value
    | .property object name => return .assignProperty object name operator value
    | _ => fail operator "Invalid assignment target." .invalidAssignmentTarget

def binaryBody (self : Methods) (i : Nat) : Machine (Expr Token) :=
  match BinaryLevel.all[i]? with
  | none => self.unary
  | some level => do
    let first ← self.binary (i + 1)
    loop (fun left => do
      match ← take level.operators.contains with
      | none => return none
      | some operator =>
        let right ← self.binary (i + 1)
        return some (level.node operator left right)) first

def unaryBody (limit : Nat) (self : Methods) : Machine (Expr Token) := do
  match ← take Kind.isUnaryOperator with
  | none => self.suffixed
  | some operator =>
    let operand ← nested limit self.unary
    return .unary operator operand

def suffixStep (self : Methods) (e : Expr Token) : Machine (Option (Expr Token)) := do
  match ← take (· == .leftParen) with
  | some _ => some <$> self.call e
  | none =>
    match ← take (· == .dot) with
    | some _ =>
      let name ← consume .identifier .propertyName
      return some (.property e name)
    | none =>
      match ← take (· == .leftBracket) with
      | some _ =>
        let position ← self.expression
        let _ ← consume .rightBracket .closingIndex
        return some (.index e position)
      | none => return none

def suffixedBody (self : Methods) : Machine (Expr Token) := do
  let e ← self.primary
  loop self.suffixStep e

def callBody (self : Methods) (callee : Expr Token) : Machine (Expr Token) := do
  let arguments ← commaLoopUntil .rightParen self.argument
  let paren ← consume .rightParen .closingArguments
  return .call callee arguments paren

def argumentBody (self : Methods) : Machine (Expr Token) := do
  match ← take (· == .refWord) with
  | none => self.expression
  | some _ =>
    let name ← consume .identifier .refName
    return .variable name true

def variableAfter (name : Token) : Machine (Expr Token) := do
  match ← take (fun k => k == .plusPlus || k == .minusMinus) with
  | none => return .variable name false
  | some operator =>
    return if operator.kind = .plusPlus then .increment name operator else .decrement name operator

def primaryBody (self : Methods) : Machine (Expr Token) := do
  let token ← peek
  if token.kind.isLiteral then
    let _ ← advance
    return .literal token
  else
    match token.kind with
    | .leftParen =>
      let _ ← advance
      let e ← self.expression
      let _ ← consume .rightParen .closingGroup
      return .grouped e
    | .identifier =>
      let _ ← advance
      variableAfter token
    | .newWord =>
      let _ ← advance
      self.newObject
    | .funWord => .functionType <$> self.functionType
    | _ => errorAtCurrent .expression

def newElement (self : Methods) : Machine (TypeExpr Token) := do
  if ← check (· == .funWord) then self.functionType else self.namedType

def sizeStep (self : Methods) (sizes : List (Expr Token)) :
    Machine (Option (List (Expr Token))) := do
  match ← take (· == .leftBracket) with
  | none => return none
  | some _ =>
    let size ← self.expression
    let _ ← consume .rightBracket .closingSize
    return some (sizes ++ [size])

def newContents (self : Methods) (element : TypeExpr Token) : Machine (Expr Token) := do
  if ← check (· == .leftBracket) then
    let sizes ← loop self.sizeStep []
    return .newArray (element.arrays sizes.length false) sizes
  else
    match element with
    | .named _ _ =>
      let _ ← consume .leftParen .newBrackets
      let _ ← consume .rightParen .newClosing
      return .newStruct element
    | _ => errorAtCurrent .functionArraySize

def newObjectBody (self : Methods) : Machine (Expr Token) := do
  let element ← self.newElement
  self.newContents element

def beginsDeclaration : Machine Bool := do
  if ← check (fun k => k.isBuiltinType || k == .refWord || k == .funWord) then return true
  else if ← check (· == .identifier) then
    if ← checkAt 1 .identifier then return true
    else if ← checkAt 1 .leftBracket then
      if ← checkAt 2 .rightBracket then return true else return false
    else return false
  else return false

def varDeclarationBody (self : Methods) : Machine (Stmt Token) := do
  let keyword ← advance
  let name ← consume .identifier .varName
  let _ ← consume .equal .varInitializer
  let value ← self.expression
  let _ ← consume .semicolon .declarationEnd
  return .define (.named keyword false) name value

def declarationBody (self : Methods) : Machine (Stmt Token) := do
  let type ← self.type false
  let name ← consume .identifier .variableName
  match ← take (· == .equal) with
  | none =>
    let _ ← consume .semicolon .declarationEnd
    return .declare type name
  | some _ =>
    let value ← self.expression
    let _ ← consume .semicolon .declarationEnd
    return .define type name value

def expressionStatementBody (self : Methods) : Machine (Stmt Token) := do
  let e ← self.expression
  let _ ← consume .semicolon .expressionEnd
  return .expr e

def conditionBody (self : Methods) (keyword : String) : Machine (Expr Token) := do
  let _ ← consume .leftParen (.conditionOpening keyword)
  let e ← self.expression
  let _ ← consume .rightParen (.conditionClosing keyword)
  return e

def conditionalBody (limit : Nat) (self : Methods) : Machine (Stmt Token) := do
  let _ ← advance
  let test ← self.condition "if"
  let body ← self.block
  match ← take (· == .elseWord) with
  | none => return .ifThen test body
  | some _ =>
    if ← check (· == .ifWord) then
      let other ← nested limit self.conditional
      return .ifElse test body other
    else
      let other ← self.block
      return .ifElse test body (.block other)

def whileLoopBody (self : Methods) : Machine (Stmt Token) := do
  let _ ← advance
  let test ← self.condition "while"
  let body ← self.block
  return .whileLoop test body

def simpleStatement (self : Methods) : Machine (Stmt Token) := do
  if ← check (· == .varWord) then self.varDeclaration
  else if ← beginsDeclaration then self.declaration
  else self.expressionStatement

def forInitializer (self : Methods) : Machine (Option (Stmt Token)) := do
  match ← take (· == .semicolon) with
  | some _ => return none
  | none => some <$> self.simpleStatement

def forCondition (self : Methods) : Machine (Expr Token) := do
  let start ← peek
  if ← check (· == .semicolon) then return .literal start.unwrittenTrue else self.expression

def forIncrement (self : Methods) : Machine (Option (Expr Token)) := do
  if ← check (· == .rightParen) then return none else some <$> self.expression

def forLoopBody (self : Methods) : Machine (Stmt Token) := do
  let _ ← advance
  let _ ← consume .leftParen .forOpening
  let initializer ← self.forInitializer
  let test ← self.forCondition
  let _ ← consume .semicolon .loopConditionEnd
  let increment ← self.forIncrement
  let _ ← consume .rightParen .forClosing
  let body ← self.block
  return Parser.forTree initializer test increment body

def returnStatementBody (self : Methods) : Machine (Stmt Token) := do
  let keyword ← advance
  match ← take (· == .semicolon) with
  | some _ => return .returnVoid keyword
  | none =>
    let e ← self.expression
    let _ ← consume .semicolon .returnEnd
    return .returnValue keyword e

def statementBody (self : Methods) : Machine (Stmt Token) := do
  if ← check (· == .varWord) then self.varDeclaration
  else if ← beginsDeclaration then self.declaration
  else
    let token ← peek
    match token.kind with
    | .leftBrace => .block <$> self.block
    | .ifWord => self.conditional
    | .whileWord => self.whileLoop
    | .forWord => self.forLoop
    | .returnWord => self.returnStatement
    | _ => self.expressionStatement

def bracedBody (self : Methods) : Machine (List (Stmt Token)) := do
  let _ ← consume .leftBrace .blockOpening
  let statements ← Machine.whileLoop (isBefore .rightBrace) self.statement
  let _ ← consume .rightBrace .blockClosing
  return statements

def structDeclarationBody (self : Methods) : Machine (Declaration Token) := do
  let _ ← advance
  let name ← consume .identifier .structName
  let _ ← consume .leftBrace .structOpening
  let fields ← Machine.whileLoop (isBefore .rightBrace) do
    let type ← self.type false
    let name ← consume .identifier .fieldName
    let _ ← consume .semicolon .fieldEnd
    return ⟨type, name⟩
  let _ ← consume .rightBrace .structClosing
  return .struct name fields

def functionDeclarationBody (self : Methods) : Machine (Declaration Token) := do
  let result ← self.type true
  let name ← consume .identifier .functionName
  let _ ← consume .leftParen .parametersOpening
  let parameters ← commaLoopUntil .rightParen do
    let type ← self.type false
    let name ← consume .identifier .parameterName
    return ⟨type, name⟩
  let _ ← consume .rightParen .parametersClosing
  let body ← self.block
  return .function result name parameters body

def programBody (self : Methods) : Machine (Program Token) := do
  let declarations ←
    Machine.whileLoop (check fun k => k == .structWord || Parser.beginsResult k) do
      if ← check (· == .structWord) then self.structDeclaration else self.functionDeclaration
  if ← isAtEnd then return ⟨declarations⟩ else errorAtCurrent .declarationOrEnd

def next (limit : Nat) (self : Methods) : Methods where
  expression := self.expressionBody limit
  assignment := self.assignmentBody
  binary := self.binaryBody
  unary := self.unaryBody limit
  suffixed := self.suffixedBody
  call := self.callBody
  argument := self.argumentBody
  primary := self.primaryBody
  newObject := self.newObjectBody
  type := self.typeBody
  functionType := self.functionTypeBody limit
  namedType := self.namedTypeBody
  typeName := typeNameBody
  arraySuffix := arraySuffixBody
  varDeclaration := self.varDeclarationBody
  declaration := self.declarationBody
  expressionStatement := self.expressionStatementBody
  condition := self.conditionBody
  conditional := self.conditionalBody limit
  whileLoop := self.whileLoopBody
  forLoop := self.forLoopBody
  returnStatement := self.returnStatementBody
  statement := self.statementBody
  block := nested limit self.braced
  braced := self.bracedBody
  structDeclaration := self.structDeclarationBody
  functionDeclaration := self.functionDeclarationBody
  program := self.programBody

end Methods

def methods (limit : Nat) : Nat → Methods
  | 0 => .spent
  | fuel + 1 => (methods limit fuel).next limit

/-- Enough calls for code that nests as deep as it may. -/
def fuel : Nat := 32 * (maxNesting + 2)

def Machine.whole {α : Type} (method : Machine α) : Machine α := do
  let a ← method
  if ← Machine.isAtEnd then return a else Machine.errorAtCurrent .endOfInput

/-- Sets the parser up for the tokens at an address and runs a method. A method that gave up leaves
`fallback`. -/
def enter {α β : Type} (method : Machine α) (f : α → β) (fallback : β) (file : Text)
    (tokens : Nat) (m : Memory) : β × Memory :=
  match method (Machine.reset file tokens m) with
  | (.value a, m') => (f a, m')
  | (_, m') => (fallback, m')

def parse : Text → Nat → Memory → Program Token × Memory :=
  enter (methods maxNesting fuel).program id .empty

def parseExpression : Text → Nat → Memory → Option (Expr Token) × Memory :=
  enter (methods maxNesting fuel).expression.whole some none

def parseType : Text → Nat → Memory → Option (TypeExpr Token) × Memory :=
  enter ((methods maxNesting fuel).type true).whole some none

end Instances

end Seanet
