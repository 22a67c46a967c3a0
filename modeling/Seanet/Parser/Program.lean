import Seanet.Parser.Stmt

/-!
# Parsing programs

A program is a sequence of structs and functions. The three entries `parseProgram`, `parseExpr` and
`parseType` take any list of tokens: comments are dropped, and the first end mark ends the stream.
-/

set_option autoImplicit false

namespace Seanet

namespace Parser

variable {τ : Type} [TokenView τ]

open TokenView (kind)

def field (type : Parser τ (TypeExpr τ)) (what : Expected) : Parser τ (Field τ) := do
  let type ← type
  let name ← expect .identifier what
  return ⟨type, name⟩

def structDeclaration (type : Parser τ (TypeExpr τ)) : Parser τ (Declaration τ) := do
  let name ← expect .identifier .structName
  let _ ← expect .leftBrace .structOpening
  let fields ← manyWhile (· != .rightBrace) do
    let f ← field type .fieldName
    let _ ← expect .semicolon .fieldEnd
    return f
  let _ ← expect .rightBrace .structClosing
  return .struct name fields

def functionDeclaration (levels : Nat) : Parser τ (Declaration τ) := do
  let result ← typeExpr levels true
  let name ← expect .identifier .functionName
  let _ ← expect .leftParen .parametersOpening
  let parameters ← separatedUntil .rightParen (field (typeExpr levels false) .parameterName)
  let _ ← expect .rightParen .parametersClosing
  let body ← block levels
  return .function result name parameters body

def beginsResult (k : Kind) : Bool :=
  k == .void || k == .refWord || k == .funWord || k == .identifier || k.isBuiltinType

def topDeclaration (levels : Nat) : Parser τ (Declaration τ) := do
  match ← accept (· == .structWord) with
  | some _ => structDeclaration (typeExpr levels false)
  | none => functionDeclaration levels

def program (levels : Nat) : Parser τ (Program τ) := do
  let declarations ←
    manyWhile (fun k => k == .structWord || beginsResult k) (topDeclaration levels)
  fun ts => match ts with
    | [] => .ok (⟨declarations⟩, [])
    | _ :: _ => .error (.expected .declarationOrEnd ts)

end Parser

def maxNesting : Nat := 256

structure Stream where
  tokens : List Token
  ending : Location

namespace Stream

def behind : Option Token → Location
  | none => ⟨1, 1⟩
  | some t => ⟨t.line, t.column + t.length⟩

/-- Drops comments and stops at the first end mark. Without one, the stream ends behind its last
token. -/
def ofTokens (tokens : List Token) : Stream :=
  let tokens := tokens.filter (·.kind ≠ .comment)
  let before := tokens.takeWhile (·.kind ≠ .eof)
  match tokens.dropWhile (·.kind ≠ .eof) with
  | mark :: _ => ⟨before, ⟨mark.line, mark.column⟩⟩
  | [] => ⟨before, behind before.getLast?⟩

end Stream

abbrev Parsed (α : Type) := Except Report α

def Parser.run {α : Type} (p : Parser Token α) (file : Text) (tokens : List Token) : Parsed α :=
  let stream := Stream.ofTokens tokens
  match p stream.tokens with
  | .ok (a, _) => .ok a
  | .error fault => .error (fault.report file stream.ending)

def parseProgram (file : Text) (tokens : List Token) : Parsed (Program Token) :=
  (Parser.program maxNesting).run file tokens

def parseExpr (file : Text) (tokens : List Token) : Parsed (Expr Token) :=
  (Parser.whole (Parser.expression maxNesting)).run file tokens

/-- A single type that takes up the whole stream; it may be `void`. -/
def parseType (file : Text) (tokens : List Token) : Parsed (TypeExpr Token) :=
  (Parser.whole (Parser.typeExpr maxNesting true)).run file tokens

end Seanet
