import Seanet.Proofs.Instances.Progress
import Seanet.Proofs.Instances.Reuse
import Seanet.Proofs.Parser.Reported

set_option autoImplicit false

namespace Seanet

namespace Instances

open Machine MachineRelation Memory Seanet.Parser

theorem Collected.report_inj {c : Collected} {r r' : Report} (h : c.report r = c.report r') :
    r = r' := by
  have hentries := List.append_cancel_left (congrArg Collected.entries h)
  exact Report.diagnostic_inj (List.cons.inj hentries).1

inductive Entry where
  | program | expression | type

/-- Enough nested calls for code that may nest `limit` levels deep. -/
def enough (limit : Nat) : Nat := 32 * (limit + 2)

def start (file : Text) (tokens : List Token) : Memory := Machine.reset file 0 (Memory.new [tokens])

theorem start_faces (file : Text) (tokens : List Token) :
    ∃ e : Token, (start file tokens).Faces (Stream.ofTokens tokens).tokens e ∧
      (⟨e.line, e.column⟩ : Location) = (Stream.ofTokens tokens).ending :=
  reset_faces file 0 (Memory.new [tokens])

theorem start_tokens (file : Text) (tokens : List Token) :
    (start file tokens).tokens = tokens.filter (·.kind ≠ .comment) ++
      endMark file (tokens.filter (·.kind ≠ .comment)) := by
  simp [start, Machine.reset, Memory.allocate, Memory.tokens, Memory.array, Memory.new]

theorem start_faces_of_split {file : Text} {tokens read back : List Token} {e : Token}
    (h : tokens.filter (·.kind ≠ .comment) = read ++ e :: back) (hr : ∀ t ∈ read, t.kind ≠ .eof)
    (he : e.kind = .eof) : (start file tokens).Faces read e := by
  obtain ⟨e', hfaces, -⟩ := start_faces file tokens
  refine ⟨hfaces.owned, ⟨[], back ++ endMark file (tokens.filter (·.kind ≠ .comment)), ?_, rfl⟩,
    hr, he⟩
  rw [start_tokens, List.nil_append, ← List.cons_append, ← List.append_assoc, ← h]

namespace Entry

abbrev Value : Entry → Type
  | program => Program Token
  | expression => Expr Token
  | type => TypeExpr Token

def parser (limit : Nat) : (entry : Entry) → Parser Token entry.Value
  | program => Parser.program limit
  | expression => Parser.whole (Parser.expression limit)
  | type => Parser.whole (Parser.typeExpr limit true)

def parse (limit : Nat) (entry : Entry) (file : Text) (tokens : List Token) :
    Parsed entry.Value :=
  (entry.parser limit).run file tokens

theorem parse_maxNesting : program.parse maxNesting = parseProgram ∧
    expression.parse maxNesting = parseExpr ∧ type.parse maxNesting = Seanet.parseType :=
  ⟨rfl, rfl, rfl⟩

def method (self : Methods) : (entry : Entry) → Machine entry.Value
  | program => self.program
  | expression => self.expression.whole
  | type => (self.type true).whole

def run (limit fuel : Nat) (entry : Entry) (file : Text) (tokens : List Token) :
    Answer entry.Value × Memory :=
  entry.method (methods limit fuel) (start file tokens)

variable {limit fuel : Nat} {entry : Entry} {file : Text} {tokens : List Token}

theorem implements_method (hf : enough limit ≤ fuel) (entry : Entry) :
    Implements limit limit (entry.method (methods limit fuel)) (entry.parser limit) := by
  unfold enough at hf
  cases entry with
  | program => exact eventually_program limit limit fuel hf
  | expression => exact (exprMethods limit limit fuel (by omega)).expression.whole
  | type => exact ((typeMethods limit limit fuel (by omega)).type true).whole

theorem run_does (hf : enough limit ≤ fuel) (entry : Entry) {read : List Token} {e : Token}
    (hfaces : (start file tokens).Faces read e) :
    Does (entry.method (methods limit fuel)) (start file tokens) e (entry.parser limit read) :=
  implements_method hf entry _ _ e hfaces (Nat.zero_add limit)

theorem run_of_ok (hf : enough limit ≤ fuel) {a : entry.Value}
    (h : entry.parse limit file tokens = .ok a) :
    ∃ m', entry.run limit fuel file tokens = (.value a, m') ∧ m'.diagnostics = .empty := by
  obtain ⟨e, hfaces, -⟩ := start_faces file tokens
  have hdoes := run_does hf entry hfaces
  obtain ⟨rest, hp⟩ := Parser.run_ok_iff.1 h
  rw [hp] at hdoes
  obtain ⟨m', hv, hm, -⟩ := hdoes
  exact ⟨m', hv, hm.diagnostics⟩

theorem parse_error_iff {r : Report} : entry.parse limit file tokens = .error r ↔
    ∃ fault, entry.parser limit (Stream.ofTokens tokens).tokens = .error fault ∧
      fault.report file (Stream.ofTokens tokens).ending = r := by
  unfold parse Parser.run
  simp only
  split
  · next h => simp [h]
  · next fault h => simp [h]

theorem run_of_error (hf : enough limit ≤ fuel) {r : Report}
    (h : entry.parse limit file tokens = .error r) :
    ∃ m', entry.run limit fuel file tokens = (.abort, m') ∧
      m'.diagnostics = Collected.empty.report r := by
  obtain ⟨e, hfaces, hend⟩ := start_faces file tokens
  have hdoes := run_does hf entry hfaces
  obtain ⟨fault, hp, rfl⟩ := parse_error_iff.1 h
  rw [hp] at hdoes
  obtain ⟨m', hv, hm, -⟩ := hdoes
  refine ⟨_, hv, ?_⟩
  rw [hend]
  exact congrArg (fun c : Collected => c.report _) hm.diagnostics

theorem parse_of_run (hf : enough limit ≤ fuel) {r : Report}
    (h : (entry.run limit fuel file tokens).1 = .abort)
    (hd : (entry.run limit fuel file tokens).2.diagnostics = Collected.empty.report r) :
    entry.parse limit file tokens = .error r := by
  cases hp : entry.parse limit file tokens with
  | ok a =>
    obtain ⟨m', hrun, -⟩ := run_of_ok hf hp
    rw [hrun] at h
    cases h
  | error r' =>
    obtain ⟨m', hrun, hd'⟩ := run_of_error hf hp
    rw [hrun] at hd
    rw [Collected.report_inj (hd'.symm.trans hd)]

end Entry

theorem Congruence.entry {R : MachineRelation} (c : Congruence R) {self self' : Methods}
    (h : ∀ r, R (fun _ => r.Reads) (self.run r) (self'.run r)) (entry : Entry) :
    R never (entry.method self) (entry.method self') := by
  have hwhole {α : Type} {x y : Machine α} (hx : R always x y) : R never x.whole y.whole :=
    c.before (c.forget hx) fun a => c.ite c.isAtEnd (c.pure_never a) (c.error never nofun)
  cases entry with
  | program => exact h .program
  | expression => exact hwhole (h .expression)
  | type => exact hwhole (h (.type true))

theorem entry_goes (limit fuel : Nat) (entry : Entry) :
    Goes never (entry.method (methods limit fuel)) :=
  @Congruence.entry Going goes_congruence _ (methods limit fuel) (methods_go limit fuel) entry

end Instances

end Seanet
