import Seanet.Compilation

set_option autoImplicit false

namespace Seanet

structure Session where
  tokens : List Token
  log : Log

inductive Step where
  /-- Scans a source; its tokens replace the current ones, or follow them. -/
  | scan (source : Source) (append : Bool)
  | slice (first : Nat) (last : Option Nat)
  | program (file : Text)
  | expr (file : Text)
  | type (file : Text)
  | report (r : Report)
  | state

inductive Shown where
  | tokens (tokens : List Token)
  | program (tree : Program Token)
  | expr (tree : Option (Expr Token))
  | type (tree : Option (TypeExpr Token))
  | log (log : Log)
  | nothing

namespace Session

def start : Session := ⟨[], []⟩

/-- The step's outcome on its own: what it shows, the tokens after it, and the errors it adds. -/
def outcome (s : Session) : Step → Shown × List Token × Log
  | .scan source append =>
    let scan := source.scan
    let tokens := if append then s.tokens ++ scan.tokens else scan.tokens
    (.tokens tokens, tokens, scan.reports)
  | .slice first last =>
    let tokens := match last with
      | none => s.tokens.drop first
      | some n => (s.tokens.take n).drop first
    (.tokens tokens, tokens, [])
  | .program file =>
    let (tree, errors) := Parsed.settle .empty (parseProgram file s.tokens)
    (.program tree, s.tokens, errors)
  | .expr file =>
    let (tree, errors) := Parsed.settle none ((parseExpr file s.tokens).map some)
    (.expr tree, s.tokens, errors)
  | .type file =>
    let (tree, errors) := Parsed.settle none ((parseType file s.tokens).map some)
    (.type tree, s.tokens, errors)
  | .report r => (.nothing, s.tokens, [r])
  | .state => (.log s.log, s.tokens, [])

def step (s : Session) (action : Step) : (Shown × Log) × Session :=
  let (shown, tokens, added) := s.outcome action
  ((shown, added), ⟨tokens, s.log ++ added⟩)

def run (s : Session) : List Step → List (Shown × Log)
  | [] => []
  | action :: rest =>
    let (shown, s) := s.step action
    shown :: s.run rest

end Session

end Seanet
