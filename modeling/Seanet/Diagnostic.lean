import Seanet.Text.Basic

set_option autoImplicit false

namespace Seanet

inductive Code where
  | unexpectedCharacter | unterminatedString | unterminatedComment | invalidNumber
  | syntaxError | invalidAssignmentTarget | invalidType
  deriving DecidableEq, Repr

namespace Code

def name : Code → String
  | unexpectedCharacter => "UNEXPECTED_CHARACTER"
  | unterminatedString => "UNTERMINATED_STRING"
  | unterminatedComment => "UNTERMINATED_COMMENT"
  | invalidNumber => "INVALID_NUMBER"
  | syntaxError => "SYNTAX_ERROR"
  | invalidAssignmentTarget => "INVALID_ASSIGNMENT_TARGET"
  | invalidType => "INVALID_TYPE"

def all : List Code :=
  [unexpectedCharacter, unterminatedString, unterminatedComment, invalidNumber, syntaxError,
    invalidAssignmentTarget, invalidType]

def ofName? (s : String) : Option Code := all.find? (·.name == s)

end Code

inductive Severity where
  | error | warning
  deriving DecidableEq, Repr

namespace Severity

def name : Severity → String
  | error => "error"
  | warning => "warning"

def ofName? : String → Option Severity
  | "error" => some error
  | "warning" => some warning
  | _ => none

end Severity

structure Location where
  line : Int
  column : Int
  deriving DecidableEq, Repr

structure Span where
  first : Location
  last : Location
  deriving DecidableEq, Repr

structure Diagnostic where
  code : Code
  message : Text
  severity : Severity
  file : Text
  span : Option Span
  deriving DecidableEq, Repr

namespace Diagnostic

def errorAt (file : Text) (place : Location) (message : Text) (code : Code) : Diagnostic :=
  ⟨code, message, .error, file, some ⟨place, place⟩⟩

end Diagnostic

def formatError (file : Text) (place : Location) (message : Text) : Text :=
  "Parse error at " ++ file ++ ":" ++ Text.ofInt place.line ++ "," ++ Text.ofInt place.column ++
    " - " ++ message

/-- An error of a log: its diagnostic always has a place. -/
structure Report where
  file : Text
  place : Location
  message : Text
  code : Code
  deriving DecidableEq, Repr

namespace Report

def diagnostic (r : Report) : Diagnostic := .errorAt r.file r.place r.message r.code

def formatted (r : Report) : Text := formatError r.file r.place r.message

end Report

abbrev Log := List Report

end Seanet
