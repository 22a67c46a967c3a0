import Seanet.Diagnostic
import Seanet.Token.Basic

set_option autoImplicit false

namespace Seanet

inductive Expected where
  | declarationOrEnd | endOfInput
  | typeName | typeListEnd | funWord
  | expression | propertyName | refName
  | closingGroup | closingIndex | closingArguments
  | closingSize | functionArraySize | newBrackets | newClosing
  | structName | structOpening | structClosing | fieldName | fieldEnd
  | functionName | parametersOpening | parameterName | parametersClosing
  | blockOpening | blockClosing
  | variableName | varName | varInitializer | declarationEnd
  | conditionOpening (keyword : String) | conditionClosing (keyword : String)
  | forOpening | loopConditionEnd | forClosing
  | returnEnd | expressionEnd
  | shallower
  deriving DecidableEq, Repr

namespace Expected

def message : Expected → Text
  | declarationOrEnd => "Expected a struct or function declaration."
  | endOfInput => "Unexpected tokens after the end of input."
  | typeName => "Expected type name."
  | typeListEnd => "Expected \">\" after function type arguments."
  | funWord => "Expected \"fun\"."
  | expression => "Expected expression."
  | propertyName => "Expected property name after \".\"."
  | refName => "Expected a variable name after \"ref\"."
  | closingGroup => "Expected \")\" after expression."
  | closingIndex => "Expected \"]\" after index."
  | closingArguments => "Expected \")\" after arguments."
  | closingSize => "Expected \"]\" after array size."
  | functionArraySize => "Expected \"[\" after function-pointer type in new expression."
  | newBrackets => "Expected \"(\" or \"[\" after type in new expression."
  | newClosing => "Expected \")\" in new expression. Constructors take no arguments."
  | structName => "Expected struct name."
  | structOpening => "Expected \"\x7b\" after struct name."
  | structClosing => "Expected \"\x7d\" after struct fields."
  | fieldName => "Expected field name."
  | fieldEnd => "Expected \";\" after field declaration."
  | functionName => "Expected function name."
  | parametersOpening => "Expected \"(\" after function name."
  | parameterName => "Expected parameter name."
  | parametersClosing => "Expected \")\" after parameters."
  | blockOpening => "Expected \"\x7b\" before block."
  | blockClosing => "Expected \"\x7d\" after block."
  | variableName => "Expected variable name."
  | varName => "Expected variable name after \"var\"."
  | varInitializer =>
    "Expected \"=\" after variable name. A \"var\" declaration needs an initializer."
  | declarationEnd => "Expected \";\" after variable declaration."
  | conditionOpening keyword => "Expected \"(\" after \"" ++ keyword ++ "\"."
  | conditionClosing keyword => "Expected \")\" after " ++ keyword ++ " condition."
  | forOpening => "Expected \"(\" after \"for\"."
  | loopConditionEnd => "Expected \";\" after loop condition."
  | forClosing => "Expected \")\" after for clauses."
  | returnEnd => "Expected \";\" after return value."
  | expressionEnd => "Expected \";\" after expression."
  | shallower => "Code nests too deeply."

def code : Expected → Code
  | typeName => .invalidType
  | _ => .syntaxError

end Expected

/-- The first fault of a stream; `rest` are the tokens from where reading stopped. -/
inductive SyntaxFault (τ : Type) where
  | expected (what : Expected) (rest : List τ)
  | assignmentTarget (operator : τ) (rest : List τ)
  | refFunction (ref : τ) (rest : List τ)
  deriving Repr

namespace SyntaxFault

abbrev End := Location

def found : List Token → Text
  | [] => "Reached end of file."
  | t :: _ => "Found \"" ++ t.lexeme ++ "\"."

def code : SyntaxFault Token → Code
  | expected what _ => what.code
  | assignmentTarget _ _ => .invalidAssignmentTarget
  | refFunction _ _ => .invalidType

def message : SyntaxFault Token → Text
  | expected what rest => what.message ++ " " ++ found rest
  | assignmentTarget _ _ => "Invalid assignment target."
  | refFunction _ _ => "ref cannot apply to a function-pointer type."

def place (ending : End) : SyntaxFault Token → Location
  | expected _ [] => ending
  | expected _ (t :: _) => ⟨t.line, t.column⟩
  | assignmentTarget t _ | refFunction t _ => ⟨t.line, t.column⟩

def report (file : Text) (ending : End) (f : SyntaxFault Token) : Report :=
  ⟨file, f.place ending, f.message, f.code⟩

end SyntaxFault

end Seanet
