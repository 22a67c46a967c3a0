import Seanet.Parser.Fault

set_option autoImplicit false

namespace Seanet

/-- What a parser needs of tokens: their kind, the second half of a `>>`, and the tokens that stand
for an unwritten `true` and `void` at a given token. -/
class TokenView (τ : Type) where
  kind : τ → Kind
  secondHalf : τ → τ
  unwrittenTrue : τ → τ
  unwrittenVoid : τ → τ
  kind_secondHalf : ∀ t, kind (secondHalf t) = .greater

instance : TokenView Token where
  kind := Token.kind
  secondHalf := Token.secondHalf
  unwrittenTrue := Token.unwrittenTrue
  unwrittenVoid := Token.unwrittenVoid
  kind_secondHalf _ := rfl

def Parser (τ α : Type) : Type := List τ → Except (SyntaxFault τ) (α × List τ)

namespace Parser

variable {τ α β : Type}

instance : Monad (Parser τ) where
  pure a := fun ts => .ok (a, ts)
  bind p f := fun ts =>
    match p ts with
    | .error fault => .error fault
    | .ok (a, rest) => f a rest

def fail (what : Expected) : Parser τ α := fun ts => .error (.expected what ts)

variable [TokenView τ]

open TokenView (kind)

def tokenWeight (t : τ) : Nat := if kind t = .greaterGreater then 2 else 1

def weight : List τ → Nat
  | [] => 0
  | t :: rest => tokenWeight t + weight rest

def sees (p : Kind → Bool) : Parser τ Bool := fun ts =>
  match ts with
  | [] => .ok (false, [])
  | t :: rest => .ok (p (kind t), t :: rest)

def seesAll (kinds : List Kind) : Parser τ Bool := fun ts =>
  .ok (kinds.isPrefixOf (ts.map kind), ts)

def accept (p : Kind → Bool) : Parser τ (Option τ) := fun ts =>
  match ts with
  | [] => .ok (none, [])
  | t :: rest => if p (kind t) then .ok (some t, rest) else .ok (none, t :: rest)

def require (p : Kind → Bool) (what : Expected) : Parser τ τ := fun ts =>
  match ts with
  | [] => .error (.expected what [])
  | t :: rest => if p (kind t) then .ok (t, rest) else .error (.expected what (t :: rest))

def expect (k : Kind) (what : Expected) : Parser τ τ := require (· == k) what

/-- A `>`. The first half of a `>>` will do, and then its second half is what comes next. -/
def expectClosingAngle : Parser τ Unit := fun ts =>
  match ts with
  | [] => .error (.expected .typeListEnd [])
  | t :: rest =>
    if kind t = .greater then .ok ((), rest)
    else if kind t = .greaterGreater then .ok ((), TokenView.secondHalf t :: rest)
    else .error (.expected .typeListEnd (t :: rest))

/-- Repeats `step` until it gives none, or uses up nothing. -/
def iterate (step : α → Parser τ (Option α)) (a : α) : Parser τ α := fun ts =>
  match step a ts with
  | .error fault => .error fault
  | .ok (none, rest) => .ok (a, rest)
  | .ok (some b, rest) =>
    if weight rest < weight ts then iterate step b rest else .ok (b, rest)
termination_by ts => weight ts

def manyWhile (more : Kind → Bool) (item : Parser τ α) : Parser τ (List α) :=
  iterate (fun items => do
    if ← sees more then
      let a ← item
      return some (items ++ [a])
    else return none) []

def separated (item : Parser τ α) : Parser τ (List α) := do
  let first ← item
  iterate (fun items => do
    match ← accept (· == .comma) with
    | none => return none
    | some _ =>
      let a ← item
      return some (items ++ [a])) [first]

/-- Items with commas between them, or none at all before `closing`. -/
def separatedUntil (closing : Kind) (item : Parser τ α) : Parser τ (List α) := do
  if ← sees (· == closing) then return [] else separated item

def whole (p : Parser τ α) : Parser τ α := do
  let a ← p
  fun ts => match ts with
    | [] => .ok (a, [])
    | _ :: _ => .error (.expected .endOfInput ts)

end Parser

end Seanet
