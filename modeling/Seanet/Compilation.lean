import Seanet.Lexical.Scan
import Seanet.Parser.Program
import Seanet.Tree.Printer

set_option autoImplicit false

namespace Seanet

structure Compilation where
  source : Source
  tokens : List Token
  program : Program Token
  log : Log

namespace Compilation

def isClean (c : Compilation) : Bool := c.log.isEmpty

end Compilation

/-- The tree, or else `fallback`, and the errors that are added to the log. -/
def Parsed.settle {α : Type} (fallback : α) : Parsed α → α × Log
  | .ok a => (a, [])
  | .error r => (fallback, [r])

def Source.compile (source : Source) : Compilation :=
  let scan := source.scan
  let (program, errors) := Parsed.settle .empty (parseProgram source.name scan.tokens)
  { source, tokens := scan.tokens, program, log := scan.reports ++ errors }

end Seanet
