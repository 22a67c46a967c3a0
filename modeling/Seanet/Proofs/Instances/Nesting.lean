import Seanet.Proofs.Instances.Simulation
import Seanet.Proofs.Parser.Following

/-!
# The limit of nesting

The limit only cuts off. With a higher one, parsing gives the same tree or the same error, unless it
found before that the code nests too deeply; and that is found where as many nested calls are open
as the limit allows.

To see which calls are open, `openMethods` run as the methods do, but every nested call that gives
up is counted on the depth once more. The methods themselves leave the depth as it was.
-/

set_option autoImplicit false

namespace Seanet

namespace Parser

/-- A parser that follows itself with every token in its place gives its own outcomes, so what
follows it gives them too. -/
theorem Follows.eq_or_tooDeep {τ α : Type} [TokenView τ] {g : α → α} {p q : Parser τ α}
    (hq : Follows True (TokenMap.refl τ) g p q) (hp : Follows False (TokenMap.refl τ) g p p)
    (ts : List τ) : q ts = p ts ∨ TooDeep (p ts) := by
  have hts : ts.map (TokenMap.refl τ) = ts := List.map_id ts
  have hself := hp.eq ts
  have hraise := hq ts
  rw [hts] at hself hraise
  obtain h | ⟨-, h⟩ := hraise
  · exact .inl (h.trans hself.symm)
  · exact .inr h

end Parser

namespace Instances

open Machine MachineRelation Memory Seanet.Parser

namespace Entry

variable {limit limit' : Nat}

theorem parser_raise (h : limit ≤ limit') (entry : Entry) (ts : List Token) :
    entry.parser limit' ts = entry.parser limit ts ∨ TooDeep (entry.parser limit ts) := by
  have hraise : Raises True limit limit' := .inr ⟨trivial, h⟩
  cases entry with
  | program => exact (follows_program hraise).eq_or_tooDeep (follows_program (.inl rfl)) ts
  | expression =>
    exact (follows_whole (follows_expression hraise)).eq_or_tooDeep
      (follows_whole (follows_expression (.inl rfl))) ts
  | type =>
    exact (follows_whole (follows_typeExpr hraise true)).eq_or_tooDeep
      (follows_whole (follows_typeExpr (.inl rfl) true)) ts

theorem parse_raise (h : limit ≤ limit') (entry : Entry) (file : Text) (tokens : List Token) :
    entry.parse limit' file tokens = entry.parse limit file tokens ∨
      ∃ r, entry.parse limit file tokens = .error r ∧ r.TooDeep := by
  obtain hp | ⟨rest, hp⟩ := parser_raise h entry (Stream.ofTokens tokens).tokens
  · left
    simp only [parse, Parser.run, hp]
  · exact .inr ⟨_, parse_error_iff.2 ⟨_, hp, rfl⟩, SyntaxFault.tooDeep_iff.2 ⟨rest, rfl⟩⟩

end Entry

def Machine.staysOpen {α : Type} (method : Machine α) : Machine α := fun m =>
  match method m with
  | (.abort, m') => (.abort, m'.deeper)
  | outcome => outcome

/-- The methods, where every nested call that gives up stays counted. -/
def openMethods (limit : Nat) : Nat → Methods
  | 0 => .spent
  | fuel + 1 => (openMethods limit fuel).nextWith Machine.staysOpen limit

def Memory.atDepth (m : Memory) (depth : Nat) : Memory :=
  { m with parser := { m.parser with depth } }

theorem Memory.atDepth_atDepth (m : Memory) (d d' : Nat) :
    (m.atDepth d).atDepth d' = m.atDepth d' := rfl

theorem Memory.atDepth_self (m : Memory) : m.atDepth m.parser.depth = m := rfl

def Memory.spot (m : Memory) : Location := ⟨m.peek.line, m.peek.column⟩

variable {α : Type} {limit fuel : Nat}

/-- The memories after a report. They differ in the depth only, and if the code nests too deeply,
then all of `limit` is in use where the token that is named comes next. -/
inductive LeftOpen (limit : Nat) (before : Collected) : Memory → Memory → Prop where
  | report {m : Memory} (depth : Nat) {r : Report} (hd : m.diagnostics = before)
      (hr : r.TooDeep → depth = limit ∧ r.place = m.spot) :
      LeftOpen limit before (m.report r) ((m.report r).atDepth depth)

def leavingOpen (limit : Nat) (diagnostics : Collected) : Simulation where
  before m m' := m' = m ∧ m.parser.depth ≤ limit ∧ m.diagnostics = diagnostics
  after := LeftOpen limit diagnostics
  followed _ := True
  followed_of_onward _ _ := trivial
  file h := by rw [h.1]
  first h _ := by rw [h.1]
  second h _ _ := by rw [h.1]
  third h _ _ _ := by rw [h.1]
  advanced h _ _ := ⟨by rw [h.1], h.2⟩
  halved h _ _ := ⟨by rw [h.1], h.2⟩
  report h _ hr := by
    obtain ⟨rfl, -, hd⟩ := h
    exact .report _ hd fun hdeep => absurd hdeep hr
  remaining h h₁ hless := by rwa [h.1, h₁.1]

/-- Where no level is left, both report it at the same depth. Otherwise a method that gives up is
counted, and that is what brings the depth back to what it was inside. -/
theorem leavingOpen_nested {diagnostics : Collected} {P : α → Prop} {x y : Machine α}
    (h : (leavingOpen limit diagnostics).Simulates P x y) :
    (leavingOpen limit diagnostics).Simulates P (nested limit x) (nested limit y.staysOpen) := by
  refine ⟨goes_nested h.goes, fun {m m'} hb _ => ?_⟩
  obtain ⟨rfl, hm, hd⟩ := hb
  by_cases hdeep : limit ≤ m'.parser.depth
  · simp only [nested, if_pos hdeep]
    exact .abort (.report m'.parser.depth hd fun _ => ⟨Nat.le_antisymm hm hdeep, rfl⟩)
  · have hinside : m'.deeper.parser.depth ≤ limit := Nat.lt_of_not_le hdeep
    have honward := h.goes.onward m'.deeper
    have hrun := h.run (m := m'.deeper) ⟨rfl, hinside, hd⟩ trivial
    simp only [nested, if_neg hdeep, staysOpen]
    generalize x m'.deeper = outcome at honward hrun ⊢
    generalize y m'.deeper = outcome' at hrun ⊢
    cases hrun with
    | @value a m₁ m₁' h₁ =>
      obtain ⟨rfl, hm₁, hd₁⟩ := h₁
      exact .value a ⟨rfl, Nat.le_trans (Nat.sub_le _ 1) hm₁, hd₁⟩
    | @exhausted m₁ m₁' h₁ =>
      obtain ⟨rfl, hm₁, hd₁⟩ := h₁
      exact .exhausted ⟨rfl, Nat.le_trans (Nat.sub_le _ 1) hm₁, hd₁⟩
    | abort h₁ =>
      cases h₁ with
      | @report m₁ depth r hd₁ hr => exact .abort (@LeftOpen.report _ _ m₁.shallower depth r hd₁ hr)

theorem methods_leavingOpen (limit fuel : Nat) (diagnostics : Collected) (r : Routine) :
    (leavingOpen limit diagnostics).Simulates (fun _ => r.Reads) ((methods limit fuel).run r)
      ((openMethods limit fuel).run r) := by
  have c := Simulation.simulates_congruence (leavingOpen limit diagnostics)
  induction fuel generalizing r with
  | zero => exact c.spentMethods r
  | succ fuel ih => exact c.next staysOpen leavingOpen_nested ih r

theorem open_of_tooDeep (hf : enough limit ≤ fuel) {entry : Entry} {file : Text}
    {tokens : List Token} {r : Report} (h : entry.parse limit file tokens = .error r)
    (hr : r.TooDeep) :
    ∃ m, entry.method (openMethods limit fuel) (start file tokens) = (.abort, m) ∧
      m.parser.depth = limit ∧ r.place = m.spot ∧
      entry.run limit fuel file tokens = (.abort, m.atDepth 0) := by
  have hruns := (Simulation.simulates_congruence (leavingOpen limit .empty)).entry
    (methods_leavingOpen limit fuel .empty) entry
  obtain ⟨m', hrun, hdiagnostics⟩ := Entry.run_of_error hf h
  have hleft := hruns.step (m := start file tokens) ⟨rfl, Nat.zero_le limit, rfl⟩ hrun trivial
  obtain ⟨m₁', hopen, hafter⟩ := hleft.of_abort
  have hdepth := ((hruns.goes.step hrun).1).depth
  cases hafter with
  | @report m₁ depth r' hd hlimit =>
    have hreport : m₁.diagnostics.report r' = Collected.empty.report r := hdiagnostics
    obtain rfl : r' = r := by
      rw [hd] at hreport
      exact Collected.report_inj hreport
    obtain ⟨rfl, hplace⟩ := hlimit hr
    refine ⟨_, hopen, rfl, hplace, hrun.trans ?_⟩
    have hzero : (m₁.report r').parser.depth = 0 := hdepth
    rw [Memory.atDepth_atDepth, ← hzero, Memory.atDepth_self]

/-- The limit of nesting only cuts off. A tree that is given for one limit is given for every higher
one, and so is an error, unless it says that the code nests too deeply. Where it says so, as many
nested calls are open at the token it names as the limit allows. Every method leaves the depth as it
was, whatever it comes to. -/
theorem nesting_limit_cuts_off :
    (∀ (entry : Entry) (file : Text) (tokens : List Token) (limit limit' : Nat), limit ≤ limit' →
      (∀ tree, entry.parse limit file tokens = .ok tree →
        entry.parse limit' file tokens = .ok tree) ∧
      ∀ r, entry.parse limit file tokens = .error r → ¬ r.TooDeep →
        entry.parse limit' file tokens = .error r) ∧
    (∀ (entry : Entry) (file : Text) (tokens : List Token) (limit fuel : Nat) (r : Report),
      enough limit ≤ fuel → entry.parse limit file tokens = .error r → r.TooDeep →
      ∃ m, entry.method (openMethods limit fuel) (start file tokens) = (.abort, m) ∧
        m.parser.depth = limit ∧ r.place = m.spot ∧
        entry.run limit fuel file tokens = (.abort, m.atDepth 0)) ∧
    ∀ (limit fuel : Nat) (m : Memory),
      (∀ r : Routine, ((methods limit fuel).run r m).2.parser.depth = m.parser.depth) ∧
      ∀ entry : Entry, (entry.method (methods limit fuel) m).2.parser.depth = m.parser.depth := by
  refine ⟨fun entry file tokens limit limit' hl => ?_, fun entry file tokens limit fuel r hf h hr =>
    open_of_tooDeep hf h hr, fun limit fuel m => ⟨fun r => ?_, fun entry => ?_⟩⟩
  · obtain hraise | ⟨r, hr, hdeep⟩ := Entry.parse_raise hl entry file tokens
    · exact ⟨fun tree h => hraise.trans h, fun r h _ => hraise.trans h⟩
    · refine ⟨fun tree h => ?_, fun r' h hn => ?_⟩
      · rw [hr] at h
        cases h
      · rw [hr] at h
        exact absurd (Except.error.inj h ▸ hdeep) hn
  · exact ((methods_go limit fuel r).onward m).depth
  · exact ((entry_goes limit fuel entry).onward m).depth

/-- A variable in parentheses is two levels deep; if there is only one, the error names it. -/
theorem nesting_limit_cuts_off_group :
    let token (k : Kind) (column : Nat) : Token := ⟨k, 0, 1, 1, column, ⟨[], []⟩, none⟩
    let x := token .identifier 2
    let tokens := [token .leftParen 1, x, token .rightParen 3, token .eof 4]
    let tree := Expr.grouped (.variable x false)
    let r := (SyntaxFault.expected .shallower [x, token .rightParen 3]).report "a.sn" ⟨1, 4⟩
    Entry.expression.parse 2 "a.sn" tokens = .ok tree ∧
      Entry.expression.parse 3 "a.sn" tokens = .ok tree ∧
      Entry.expression.parse 1 "a.sn" tokens = .error r ∧ r.TooDeep ∧
      ∃ m, Entry.expression.method (openMethods 1 (enough 1)) (start "a.sn" tokens) = (.abort, m) ∧
        m.parser.depth = 1 ∧ r.place = m.spot ∧
        Entry.expression.run 1 (enough 1) "a.sn" tokens = (.abort, m.atDepth 0) := by
  intro token x tokens tree r
  have htree : Entry.expression.parse 2 "a.sn" tokens = .ok tree := by with_unfolding_all rfl
  have herror : Entry.expression.parse 1 "a.sn" tokens = .error r := rfl
  have hdeep : r.TooDeep := SyntaxFault.tooDeep_iff.2 ⟨_, rfl⟩
  obtain ⟨hraise, hopen, -⟩ := nesting_limit_cuts_off
  exact ⟨htree, (hraise .expression "a.sn" tokens 2 3 (by decide)).1 tree htree, herror, hdeep,
    hopen .expression "a.sn" tokens 1 (enough 1) r (Nat.le_refl _) herror hdeep⟩

end Instances

end Seanet
