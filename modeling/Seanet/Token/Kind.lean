import Seanet.Text.Basic

set_option autoImplicit false

namespace Seanet

inductive Kind where
  | leftBrace | rightBrace | leftParen | rightParen | leftBracket | rightBracket
  | comma | dot | semicolon
  | plus | plusPlus | plusEqual | minus | minusMinus | minusEqual
  | star | starEqual | slash | slashEqual | percent
  | bang | bangEqual | equal | equalEqual
  | less | lessEqual | lessLess | greater | greaterEqual | greaterGreater
  | amp | ampAmp | pipe | pipePipe | caret | tilde
  | stringLiteral | intLiteral | uintLiteral | longLiteral | ulongLiteral
  | floatLiteral | doubleLiteral
  | trueWord | falseWord | ifWord | elseWord | returnWord | forWord | whileWord
  | breakWord | continueWord | varWord | refWord | funWord | newWord | structWord
  | byte | short | ushort | int | uint | long | ulong | float | double | bool | void | string
  | identifier | comment | eof
  deriving DecidableEq, Repr

namespace Kind

def name : Kind → String
  | leftBrace => "LeftBrace"
  | rightBrace => "RightBrace"
  | leftParen => "LeftParen"
  | rightParen => "RightParen"
  | leftBracket => "LeftBracket"
  | rightBracket => "RightBracket"
  | comma => "Comma"
  | dot => "Dot"
  | semicolon => "Semicolon"
  | plus => "Plus"
  | plusPlus => "PlusPlus"
  | plusEqual => "PlusEqual"
  | minus => "Minus"
  | minusMinus => "MinusMinus"
  | minusEqual => "MinusEqual"
  | star => "Star"
  | starEqual => "StarEqual"
  | slash => "Slash"
  | slashEqual => "SlashEqual"
  | percent => "Percent"
  | bang => "Bang"
  | bangEqual => "BangEqual"
  | equal => "Equal"
  | equalEqual => "EqualEqual"
  | less => "Less"
  | lessEqual => "LessEqual"
  | lessLess => "LessLess"
  | greater => "Greater"
  | greaterEqual => "GreaterEqual"
  | greaterGreater => "GreaterGreater"
  | amp => "Amp"
  | ampAmp => "AmpAmp"
  | pipe => "Pipe"
  | pipePipe => "PipePipe"
  | caret => "Caret"
  | tilde => "Tilde"
  | stringLiteral => "StringLiteral"
  | intLiteral => "IntLiteral"
  | uintLiteral => "UIntLiteral"
  | longLiteral => "LongLiteral"
  | ulongLiteral => "ULongLiteral"
  | floatLiteral => "FloatLiteral"
  | doubleLiteral => "DoubleLiteral"
  | trueWord => "True"
  | falseWord => "False"
  | ifWord => "If"
  | elseWord => "Else"
  | returnWord => "Return"
  | forWord => "For"
  | whileWord => "While"
  | breakWord => "Break"
  | continueWord => "Continue"
  | varWord => "Var"
  | refWord => "Ref"
  | funWord => "Fun"
  | newWord => "New"
  | structWord => "Struct"
  | byte => "Byte"
  | short => "Short"
  | ushort => "UShort"
  | int => "Int"
  | uint => "UInt"
  | long => "Long"
  | ulong => "ULong"
  | float => "Float"
  | double => "Double"
  | bool => "Bool"
  | void => "Void"
  | string => "String"
  | identifier => "Identifier"
  | comment => "Comment"
  | eof => "Eof"

def all : List Kind :=
  [leftBrace, rightBrace, leftParen, rightParen, leftBracket, rightBracket, comma, dot, semicolon,
    plus, plusPlus, plusEqual, minus, minusMinus, minusEqual, star, starEqual, slash, slashEqual,
    percent, bang, bangEqual, equal, equalEqual, less, lessEqual, lessLess, greater, greaterEqual,
    greaterGreater, amp, ampAmp, pipe, pipePipe, caret, tilde, stringLiteral, intLiteral,
    uintLiteral, longLiteral, ulongLiteral, floatLiteral, doubleLiteral, trueWord, falseWord,
    ifWord, elseWord, returnWord, forWord, whileWord, breakWord, continueWord, varWord, refWord,
    funWord, newWord, structWord, byte, short, ushort, int, uint, long, ulong, float, double,
    bool, void, string, identifier, comment, eof]

def ofName? (s : String) : Option Kind := all.find? (·.name == s)

def keywords : List (String × Kind) :=
  [("true", trueWord), ("false", falseWord), ("if", ifWord), ("else", elseWord),
    ("return", returnWord), ("for", forWord), ("while", whileWord), ("break", breakWord),
    ("continue", continueWord), ("var", varWord), ("ref", refWord), ("fun", funWord),
    ("new", newWord), ("struct", structWord), ("byte", byte), ("short", short),
    ("ushort", ushort), ("int", int), ("uint", uint), ("long", long), ("ulong", ulong),
    ("float", float), ("double", double), ("bool", bool), ("void", void), ("string", string)]

def keywordTexts : List (Text × Kind) := keywords.map fun (s, k) => ((s : Text), k)

def ofKeyword? (word : Text) : Option Kind := keywordTexts.lookup word

/-- Punctuation and operators. A longer mark stands before its own beginnings, so that the first
mark that a text begins with is the longest one. -/
def marks : List (String × Kind) :=
  [("++", plusPlus), ("+=", plusEqual), ("--", minusMinus), ("-=", minusEqual),
    ("*=", starEqual), ("/=", slashEqual), ("!=", bangEqual), ("==", equalEqual),
    ("<=", lessEqual), ("<<", lessLess), (">=", greaterEqual), (">>", greaterGreater),
    ("&&", ampAmp), ("||", pipePipe),
    ("\x7b", leftBrace), ("\x7d", rightBrace), ("(", leftParen), (")", rightParen),
    ("[", leftBracket), ("]", rightBracket), (",", comma), (".", dot), (";", semicolon),
    ("+", plus), ("-", minus), ("*", star), ("/", slash), ("%", percent), ("!", bang),
    ("=", equal), ("<", less), (">", greater), ("&", amp), ("|", pipe), ("^", caret),
    ("~", tilde)]

def markTexts : List (Text × Kind) := marks.map fun (s, k) => ((s : Text), k)

def literals : List Kind :=
  [stringLiteral, intLiteral, uintLiteral, longLiteral, ulongLiteral, floatLiteral,
    doubleLiteral, trueWord, falseWord]

/-- Names of primitive types that a declaration may use; `void` is not among them. -/
def builtinTypes : List Kind :=
  [byte, short, ushort, int, uint, long, ulong, float, double, bool, string]

def isLiteral (k : Kind) : Bool := literals.contains k

def isBuiltinType (k : Kind) : Bool := builtinTypes.contains k

end Kind

end Seanet
