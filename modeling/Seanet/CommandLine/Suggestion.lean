import Seanet.CommandLine.Flag

set_option autoImplicit false

namespace Seanet

namespace Suggestion

/-- At most `slips` slips lead from one text to the other. A swap counts once, and nothing is
changed between the two that are swapped. -/
def within (slips : Nat) (s t : Text) : Bool :=
  match s, t with
  | [], t => t.length ≤ slips
  | s, [] => s.length ≤ slips
  | a :: s, b :: t =>
    (a == b && within slips s t) ||
    match slips with
    | 0 => false
    | n + 1 =>
      within n s (b :: t) || within n (a :: s) t || within n s t ||
      match s, t with
      | c :: s, d :: t => a == d && c == b && within n s t
      | _, _ => false
termination_by s.length + t.length

def maxSlips : Nat := 3

def distance? (s t : Text) : Option Nat := (List.range (maxSlips + 1)).find? (within · s t)

/-- More than two fifths of the longer text is left as it was. -/
def alike (s t : Text) (distance : Nat) : Bool :=
  let length := max s.length t.length
  2 * length < 5 * (length - distance)

def candidates (word : Text) (names : List Text) : List (Nat × Text) :=
  names.filterMap fun name => do
    let d ← distance? word name
    if alike word name d then some (d, name) else none

def nearest (word : Text) (names : List Text) : List Text :=
  let found := candidates word names
  let near := found.filter fun c => found.all (c.1 ≤ ·.1)
  (near.map (·.2)).mergeSort Text.le

def names : List Text := (Flag.all.map Flag.long ++ ["help"]).map Text.ofString

/-- What is said about a flag that is not known; only long flags have a word for it. -/
def text (arg : Text) : Text :=
  match arg with
  | d :: e :: word =>
    if d = Flag.dash ∧ e = Flag.dash then
      match (nearest word names).map (Text.ofString "--" ++ ·) with
      | [] => []
      | [one] => [Text.lineFeed] ++ "(Did you mean " ++ one ++ "?)"
      | several => [Text.lineFeed] ++ "(Did you mean one of " ++ Text.join ", " several ++ "?)"
    else []
  | _ => []

end Suggestion

end Seanet
