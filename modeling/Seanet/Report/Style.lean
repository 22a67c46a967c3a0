import Seanet.Text.Basic

set_option autoImplicit false

namespace Seanet

structure Style where
  first : Nat
  last : Nat
  deriving DecidableEq, Repr

namespace Style

def red : Style := ⟨31, 39⟩
def green : Style := ⟨32, 39⟩
def yellow : Style := ⟨33, 39⟩
def cyan : Style := ⟨36, 39⟩
def bold : Style := ⟨1, 22⟩
def dim : Style := ⟨2, 22⟩

def escape : UInt16 := 0x1B

def sequence (n : Nat) : Text := escape :: "[" ++ Text.ofNat n ++ "m"

def opening (s : Style) : Text := sequence s.first

def closing (s : Style) : Text := sequence s.last

def replaceAll (old new : Text) : Text → Text
  | [] => []
  | u :: r =>
    if old.isPrefixOf (u :: r) then new ++ replaceAll old new (r.drop (old.length - 1))
    else u :: replaceAll old new r
termination_by t => t.length
decreasing_by all_goals simp only [List.length_drop, List.length_cons]; omega

/-- Puts `before` and `after` around every line break. -/
def aroundBreaks (before after : Text) : Text → Text
  | [] => []
  | [u] => if u = Text.lineFeed then before ++ u :: after else [u]
  | u :: v :: r =>
    if u = Text.lineFeed then before ++ u :: (after ++ aroundBreaks before after (v :: r))
    else if u = 0x0D ∧ v = Text.lineFeed then
      before ++ u :: v :: (after ++ aroundBreaks before after r)
    else u :: aroundBreaks before after (v :: r)

/-- The text in the given styles, outermost first. An empty text stays empty. -/
def paint (styles : List Style) (t : Text) : Text :=
  if t.isEmpty then []
  else
    let first := styles.flatMap opening
    let last := styles.reverse.flatMap closing
    let t := if t.contains escape then
        styles.reverse.foldl (fun t s => replaceAll s.closing s.opening t) t
      else t
    first ++ aroundBreaks last first t ++ last

end Style

end Seanet
