import Seanet.Proofs.Instances.Entries
import Seanet.Proofs.Instances.Scanner
import Seanet.Session

/-!
# Objects used again

One scanner, one parser and one collection of diagnostics are used for any sequence of calls. Their
fields keep what the calls before left there, but each call gives what it would give with objects
that have just been made, and what a session gives for the same tokens. No call changes a list of
tokens that was there before it, and all a call does to the diagnostics is to add its own behind
those of the calls before.
-/

set_option autoImplicit false

namespace Seanet

namespace Instances

/-- What a caller does. Lists of tokens are passed by their addresses. -/
inductive Call where
  | list (tokens : List Token)
  | scan (source : Source)
  | program (file : Text) (tokens : Nat)
  | expr (file : Text) (tokens : Nat)
  | type (file : Text) (tokens : Nat)
  | report (r : Report)

/-- What a call gives back. -/
inductive Given where
  | tokens (address : Nat)
  | program (tree : Program Token)
  | expr (tree : Option (Expr Token))
  | type (tree : Option (TypeExpr Token))
  | nothing

def Given.shown (m : Memory) : Given → Shown
  | tokens address => .tokens (m.array address)
  | program tree => .program tree
  | expr tree => .expr tree
  | type tree => .type tree
  | nothing => .nothing

namespace Memory

def call (m : Memory) : Call → Given × Memory
  | .list tokens => (.tokens m.arrays.length, m.allocate tokens)
  | .scan source =>
    let (address, m) := m.scan source
    (.tokens address, m)
  | .program file address =>
    let (tree, m) := parse file address m
    (.program tree, m)
  | .expr file address =>
    let (tree, m) := parseExpression file address m
    (.expr tree, m)
  | .type file address =>
    let (tree, m) := Instances.parseType file address m
    (.type tree, m)
  | .report r => (.nothing, m.report r)

def new (arrays : List (List Token)) : Memory where
  arrays := arrays ++ [[], []]
  scanner := ⟨⟨[], []⟩, arrays.length, 0, 1, 1, 0, 1, 1⟩
  parser := ⟨arrays.length + 1, 0, [], 0⟩
  diagnostics := .empty

/-- The call with new objects in place of those in memory. -/
def callAlone (m : Memory) (c : Call) : Given × Memory := (new m.arrays).call c

def run (m : Memory) : List Call → Memory
  | [] => m
  | c :: calls => (m.call c).2.run calls

def history (m : Memory) : List Call → List (Memory × Call)
  | [] => []
  | c :: calls => (m, c) :: (m.call c).2.history calls

end Memory

def Call.outcome (m : Memory) : Call → Shown × Log
  | list tokens => (.tokens tokens, [])
  | scan source => (Session.start.step (.scan source false)).1
  | program file address => ((⟨m.array address, []⟩ : Session).step (.program file)).1
  | expr file address => ((⟨m.array address, []⟩ : Session).step (.expr file)).1
  | type file address => ((⟨m.array address, []⟩ : Session).step (.type file)).1
  | report r => (Session.start.step (.report r)).1

open Memory

theorem call_eq (m : Memory) (c : Call) :
    (m.call c).1.shown (m.call c).2 = (c.outcome m).1 ∧ m.Adds (m.call c).2 (c.outcome m).2 := by
  cases c with
  | list tokens =>
    refine ⟨?_, by simp [call, allocate], rfl⟩
    simp [call, Given.shown, allocate, array, Call.outcome]
  | scan source =>
    obtain ⟨haddress, harrays, hdiagnostics⟩ := m.scan_eq source
    refine ⟨?_, ?_, hdiagnostics⟩
    · simp [call, Given.shown, haddress, array, harrays, Call.outcome, Session.step,
        Session.outcome]
    · simp [call, harrays]
  | program file address =>
    obtain ⟨m', hv, hadds⟩ := parse_eq file address m
    simp only [call, hv]
    exact ⟨rfl, hadds⟩
  | expr file address =>
    obtain ⟨m', hv, hadds⟩ := parseExpression_eq file address m
    simp only [call, hv]
    exact ⟨rfl, hadds⟩
  | type file address =>
    obtain ⟨m', hv, hadds⟩ := parseType_eq file address m
    simp only [call, hv]
    exact ⟨rfl, hadds⟩
  | report r => exact ⟨rfl, List.prefix_rfl, rfl⟩

theorem array_new (m : Memory) (address : Nat) :
    (new m.arrays).array address = m.array address := by
  simp only [array, new, List.getD_eq_getElem?_getD]
  by_cases h : address < m.arrays.length
  · rw [List.getElem?_append_left h]
  · -- The arrays of the new objects are empty, and so is what is not there.
    have hnone : m.arrays[address]? = none := List.getElem?_eq_none (by omega)
    rw [List.getElem?_append_right (by omega), hnone]
    cases hnew : ([[], []] : List (List Token))[address - m.arrays.length]? with
    | none => rfl
    | some tokens => simpa using List.mem_of_getElem? hnew

theorem outcome_new (m : Memory) (c : Call) : c.outcome (new m.arrays) = c.outcome m := by
  cases c <;> simp only [Call.outcome, array_new]

theorem callAlone_shown (m : Memory) (c : Call) :
    (m.callAlone c).1.shown (m.callAlone c).2 = (c.outcome m).1 := by
  rw [← outcome_new]
  exact (call_eq (new m.arrays) c).1

theorem callAlone_diagnostics (m : Memory) (c : Call) :
    (m.callAlone c).2.diagnostics = Collected.empty.reports (c.outcome m).2 := by
  rw [← outcome_new]
  exact (call_eq (new m.arrays) c).2.diagnostics

theorem run_diagnostics (m : Memory) (calls : List Call) :
    (m.run calls).diagnostics =
      m.diagnostics.reports ((m.history calls).flatMap fun (m, c) => (c.outcome m).2) := by
  induction calls generalizing m with
  | nil => rfl
  | cons c calls ih =>
    rw [run, ih, (call_eq m c).2.diagnostics, history, List.flatMap_cons, Collected.reports_append]

/-- A call gives what it gives with new objects and what a session gives, leaves all lists as they
were, and adds to the diagnostics what new objects would report. -/
structure AsNew (m : Memory) (c : Call) : Prop where
  shown : (m.call c).1.shown (m.call c).2 = (m.callAlone c).1.shown (m.callAlone c).2
  session : (m.call c).1.shown (m.call c).2 = (c.outcome m).1
  lists : m.arrays <+: (m.call c).2.arrays
  entries : (m.call c).2.diagnostics.entries =
    m.diagnostics.entries ++ (m.callAlone c).2.diagnostics.entries
  formatted : (m.call c).2.diagnostics.formatted =
    m.diagnostics.formatted ++ (m.callAlone c).2.diagnostics.formatted
  reports : (m.callAlone c).2.diagnostics.entries = (c.outcome m).2.map Report.diagnostic

theorem asNew (m : Memory) (c : Call) : AsNew m c := by
  obtain ⟨hshown, hlists, hdiagnostics⟩ := call_eq m c
  have halone := callAlone_diagnostics m c
  rw [Collected.reports_eq] at hdiagnostics halone
  refine ⟨hshown.trans (callAlone_shown m c).symm, hshown, hlists, ?_, ?_, ?_⟩
  · rw [hdiagnostics, halone]
    rfl
  · rw [hdiagnostics, halone]
    rfl
  · rw [halone]
    rfl

/-- Whatever calls came before, the next one gives what it would give with new objects, and no list
that was there changes. After all calls the diagnostics are those that each call reports to new
objects, in the order of the calls, each with its line of text, and there are errors if and only if
there are diagnostics. -/
theorem reused_as_new (calls : List Call) :
    (∀ c : Call, AsNew ((new []).run calls) c) ∧
    ((new []).run calls).diagnostics.entries =
      ((new []).history calls).flatMap (fun (m, c) => (m.callAlone c).2.diagnostics.entries) ∧
    ((new []).run calls).diagnostics.formatted.map some =
      ((new []).run calls).diagnostics.entries.map
        (fun d => d.span.map fun s => formatError d.file s.first d.message) ∧
    (((new []).run calls).diagnostics.hasErrors = true ↔
      ((new []).run calls).diagnostics.entries ≠ []) := by
  have hrun := run_diagnostics (new []) calls
  rw [Collected.reports_eq] at hrun
  refine ⟨asNew _, ?_, ?_, ?_⟩
  · rw [hrun]
    simp [new, Collected.empty, List.map_flatMap, (asNew _ _).reports]
  · rw [hrun]
    simp [new, Collected.empty, Report.diagnostic, Report.formatted, Diagnostic.errorAt]
  · simp [Collected.hasErrors, List.length_pos_iff]

end Instances

end Seanet
