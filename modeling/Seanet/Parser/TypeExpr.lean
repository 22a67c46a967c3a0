import Seanet.Parser.Basic
import Seanet.Tree.Basic

set_option autoImplicit false

namespace Seanet

namespace Parser

variable {τ : Type} [TokenView τ]

def isTypeName (k : Kind) : Bool := k.isBuiltinType || k == .identifier

def tooDeep {α : Type} : Parser τ α := fail .shallower

/-- How many pairs `[]` come next; they are read. -/
def arraySuffix : Parser τ Nat :=
  iterate (fun n => do
    if ← seesAll [.leftBracket, .rightBracket] then
      let _ ← accept (· == .leftBracket)
      let _ ← accept (· == .rightBracket)
      return some (n + 1)
    else return none) 0

/-- A function type whose entries are read by `entry`; the last one is the result. A bare `fun` has
no parameters and gives nothing back. -/
def functionTypeOver (entry : Parser τ (TypeExpr τ)) : Parser τ (TypeExpr τ) := do
  let keyword ← expect .funWord .funWord
  match ← accept (· == .less) with
  | none => return .function [] (.named (TokenView.unwrittenVoid keyword) false)
  | some _ =>
    let first ← entry
    let entries ← iterate (fun (before, last) => do
      match ← accept (· == .comma) with
      | none => return none
      | some _ =>
        let next ← entry
        return some (before ++ [last], next)) ([], first)
    expectClosingAngle
    return .function entries.1 entries.2

def typeOver (functionType : Parser τ (TypeExpr τ)) (allowVoid : Bool) :
    Parser τ (TypeExpr τ) := do
  let ref ← accept (· == .refWord)
  if ← sees (· == .funWord) then
    match ref with
    | some t => fun ts => .error (.refFunction t ts)
    | none =>
      let type ← functionType
      let dimensions ← arraySuffix
      return type.arrays dimensions false
  else
    let name ← require (fun k => (allowVoid && k == .void) || isTypeName k) .typeName
    let dimensions ← arraySuffix
    match dimensions with
    | 0 => return .named name ref.isSome
    | n => return (TypeExpr.named name false).arrays n ref.isSome

def typeExpr (levels : Nat) (allowVoid : Bool) : Parser τ (TypeExpr τ) :=
  match levels with
  | 0 => typeOver (functionTypeOver tooDeep) allowVoid
  | n + 1 => typeOver (functionTypeOver (typeExpr n true)) allowVoid

def functionType : Nat → Parser τ (TypeExpr τ)
  | 0 => functionTypeOver tooDeep
  | n + 1 => functionTypeOver (typeExpr n true)

end Parser

end Seanet
