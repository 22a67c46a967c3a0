import Seanet.Proofs.Instances.Horizon

/-!
# The first end mark

The first end mark ends a stream, whatever stands behind it. During a parse the cursor never passes
it, which `watchedMethods` check at every call; and what is behind it makes no difference, so nobody
looks there. Without an end mark the stream ends behind its last token, and only the place of an
error that is found there is another.
-/

set_option autoImplicit false

namespace Seanet

namespace Instances

open Machine MachineRelation Memory
open Seanet.Stream (visible)

def Memory.Keeps (last : Nat) (m : Memory) : Prop :=
  m.parser.current ≤ last ∧ last < m.tokens.length

instance (last : Nat) (m : Memory) : Decidable (m.Keeps last) := by
  unfold Memory.Keeps
  infer_instance

/-- A method that is only run if it keeps the cursor from passing `last`. -/
def Machine.watch {α : Type} (last : Nat) (method : Machine α) : Machine α := fun m =>
  if m.Keeps last ∧ (method m).2.Keeps last then method m else (.exhausted, m)

def Methods.ofRun (f : (r : Routine) → Machine r.Value) : Methods where
  expression := f .expression
  assignment := f .assignment
  binary level := f (.binary level)
  unary := f .unary
  suffixed := f .suffixed
  call callee := f (.call callee)
  argument := f .argument
  primary := f .primary
  newObject := f .newObject
  type allowVoid := f (.type allowVoid)
  functionType := f .functionType
  namedType := f .namedType
  typeName := f .typeName
  arraySuffix := f .arraySuffix
  varDeclaration := f .varDeclaration
  declaration := f .declaration
  expressionStatement := f .expressionStatement
  condition keyword := f (.condition keyword)
  conditional := f .conditional
  whileLoop := f .whileLoop
  forLoop := f .forLoop
  returnStatement := f .returnStatement
  statement := f .statement
  block := f .block
  braced := f .braced
  structDeclaration := f .structDeclaration
  functionDeclaration := f .functionDeclaration
  program := f .program

theorem Methods.run_ofRun (f : (r : Routine) → Machine r.Value) (r : Routine) :
    (Methods.ofRun f).run r = f r := by
  cases r <;> rfl

def watchedMethods (limit last : Nat) : Nat → Methods
  | 0 => .spent
  | fuel + 1 => .ofRun fun r => (((watchedMethods limit last fuel).next limit).run r).watch last

/-- Both runs are the same, on an array whose next end mark is at `last`. -/
def upTo (last : Nat) : Simulation where
  before m m' := m' = m ∧ m.ending = last ∧ last < m.tokens.length
  after m m' := m' = m
  followed _ := True
  followed_of_onward _ _ := trivial
  file h := by rw [h.1]
  first h _ := by rw [h.1]
  second h _ _ := by rw [h.1]
  third h _ _ _ := by rw [h.1]
  advanced {m m'} h _ hm := by
    have honward := onward_advanced hm
    exact ⟨by rw [h.1], honward.ending.trans h.2.1, by rw [honward.length]; exact h.2.2⟩
  halved {m m'} h _ hm := by
    have honward := onward_halved hm
    exact ⟨by rw [h.1], honward.ending.trans h.2.1, by rw [honward.length]; exact h.2.2⟩
  report h r _ := by rw [h.1]
  remaining h h₁ hless := by rwa [h.1, h₁.1]

variable {α : Type} {limit fuel last : Nat}

theorem upTo_nested {P : α → Prop} {x y : Machine α} (h : (upTo last).Simulates P x y) :
    (upTo last).Simulates P (nested limit x) (nested limit y) :=
  Simulation.simulates_nested (fun hb => ⟨by rw [hb.1], by rw [hb.1], hb.2⟩)
    (fun hb => ⟨by rw [hb.1], hb.2⟩) (fun ha => congrArg Memory.shallower ha)
    (fun hb r => congrArg (fun m : Memory => m.report r) hb.1) id h

theorem Memory.Onward.keeps {m m₁ : Memory} (h : m.Onward m₁) (he : m.ending = last)
    (hl : last < m.tokens.length) : m₁.Keeps last := by
  have hcurrent := m₁.current_le_ending
  rw [h.ending, he] at hcurrent
  exact ⟨hcurrent, by rwa [h.length]⟩

theorem upTo_eq {outcome outcome' : Answer α × Memory} (h : (upTo last).Outcome outcome outcome') :
    outcome' = outcome := by
  cases h with
  | value a h => rw [h.1]
  | abort h => exact congrArg (Prod.mk Answer.abort) h
  | exhausted h => rw [h.1]

theorem upTo_watch {P : α → Prop} {x y : Machine α} (h : (upTo last).Simulates P x y) :
    (upTo last).Simulates P x (y.watch last) := by
  refine ⟨h.goes, fun {m m'} hb hf => ?_⟩
  have hrun := h.run hb hf
  obtain ⟨rfl, he, hl⟩ := hb
  have hbefore : m'.Keeps last := (Onward.refl m').keeps he hl
  have hafter : (y m').2.Keeps last := by
    rw [upTo_eq hrun]
    exact (h.goes.onward m').keeps he hl
  rw [Machine.watch, if_pos ⟨hbefore, hafter⟩]
  exact hrun

theorem methods_upTo (limit last fuel : Nat) (r : Routine) :
    (upTo last).Simulates (fun _ => r.Reads) ((methods limit fuel).run r)
      ((watchedMethods limit last fuel).run r) := by
  have c := Simulation.simulates_congruence (upTo last)
  induction fuel generalizing r with
  | zero => exact c.spentMethods r
  | succ fuel ih =>
    rw [watchedMethods, Methods.run_ofRun]
    exact upTo_watch (c.next id upTo_nested ih r)

theorem watched_run_eq {entry : Entry} {file : Text} {tokens : List Token}
    (he : (start file tokens).ending = last) (hl : last < (start file tokens).tokens.length) :
    (entry.method (watchedMethods limit last fuel)).watch last (start file tokens) =
      entry.run limit fuel file tokens := by
  have hentry := (Simulation.simulates_congruence (upTo last)).entry (methods_upTo limit last fuel)
    entry
  exact upTo_eq ((upTo_watch hentry).run ⟨rfl, he, hl⟩ trivial)

/-- What an entry gives for two streams that differ in the place of their ends only. If an end has
been `reached`, an error found there is reported at another place. -/
inductive SameButEnd (reached : Prop) (place place' : Location) : Parsed α → Parsed α → Prop where
  | tree (a : α) : SameButEnd reached place place' (.ok a) (.ok a)
  | error (r : Report) : SameButEnd reached place place' (.error r) (.error r)
  | moved (h : reached) {r : Report} (hp : r.place = place) :
      SameButEnd reached place place' (.error r) (.error { r with place := place' })

/-- The end mark `e`, which stands at the index `last` of the stream, ends it. The run that is
watched is the run, so the cursor stays at `last` or before. With and without `ys` the runs come to
the same, and have the same in memory up to `e`. Without an end mark, only the place of an error at
the end may be another. -/
structure EndsAt (limit : Nat) (entry : Entry) (file : Text) (xs : List Token) (e : Token)
    (ys : List Token) (last : Nat) : Prop where
  mark : (start file (xs ++ e :: ys)).tokens[last]? = some e
  kept (fuel : Nat) : (entry.method (watchedMethods limit last fuel)).watch last
    (start file (xs ++ e :: ys)) = entry.run limit fuel file (xs ++ e :: ys)
  answer (fuel : Nat) : (entry.run limit fuel file (xs ++ e :: ys)).1 =
    (entry.run limit fuel file (xs ++ [e])).1
  memory (fuel : Nat) : (entry.run limit fuel file (xs ++ [e])).2.Alike (last + 1)
    (entry.run limit fuel file (xs ++ e :: ys)).2
  parse : entry.parse limit file (xs ++ e :: ys) = entry.parse limit file (xs ++ [e])
  alone : SameButEnd ((entry.run limit (enough limit) file (xs ++ [e])).2.parser.current = last)
    ⟨e.line, e.column⟩ (Stream.behind (visible xs).getLast?)
    (entry.parse limit file (xs ++ [e])) (entry.parse limit file xs)

variable {entry : Entry} {file : Text} {xs ys : List Token} {e : Token}

theorem filter_mark (he : e.kind = .eof) (xs ys : List Token) :
    (xs ++ e :: ys).filter (·.kind ≠ .comment) = visible xs ++ e :: visible ys := by
  rw [List.filter_append, List.filter_cons_of_pos (by simp [he]), visible, visible]

theorem start_tokens_mark (he : e.kind = .eof) (file : Text) (xs ys : List Token) :
    ∃ rest, (start file (xs ++ e :: ys)).tokens = visible xs ++ [e] ++ rest := by
  rw [start_tokens, filter_mark he]
  exact ⟨visible ys ++ endMark file (visible xs ++ e :: visible ys), by simp⟩

theorem start_alike_mark (he : e.kind = .eof) (file : Text) (xs ys zs : List Token) :
    (start file (xs ++ e :: ys)).Alike ((visible xs).length + 1) (start file (xs ++ e :: zs)) := by
  obtain ⟨rest, hys⟩ := start_tokens_mark he file xs ys
  obtain ⟨rest', hzs⟩ := start_tokens_mark he file xs zs
  have hlength : (visible xs ++ [e]).length = (visible xs).length + 1 := List.length_append
  refine start_alike ?_ ?_ ?_
  · rw [hys, hzs, ← hlength, List.take_left, List.take_left]
  · rw [hys, List.length_append, hlength]
    exact Nat.le_add_right _ _
  · rw [hzs, List.length_append, hlength]
    exact Nat.le_add_right _ _

theorem Entry.parse_alone (hf : (start file (xs ++ [e])).Faces (visible xs) e)
    (hs : Stream.ofTokens (xs ++ [e]) = ⟨visible xs, ⟨e.line, e.column⟩⟩)
    (hs' : Stream.ofTokens xs = ⟨visible xs, Stream.behind (visible xs).getLast?⟩) :
    SameButEnd
      ((entry.run limit (enough limit) file (xs ++ [e])).2.parser.current = (visible xs).length)
      ⟨e.line, e.column⟩ (Stream.behind (visible xs).getLast?)
      (entry.parse limit file (xs ++ [e])) (entry.parse limit file xs) := by
  have hdoes := run_does (Nat.le_refl (enough limit)) entry hf
  have hending := (entry.run_onward limit (enough limit) file (xs ++ [e])).ending
  rw [hf.start_ending] at hending
  unfold parse Parser.run
  simp only [hs, hs']
  cases hp : entry.parser limit (visible xs) with
  | ok r => exact .tree r.1
  | error fault =>
    rw [hp] at hdoes
    obtain ⟨m', hrun, -, hrest⟩ := hdoes
    cases fault with
    | assignmentTarget t rest => exact .error _
    | refFunction t rest => exact .error _
    | expected what rest =>
      cases rest with
      | cons t rest => exact .error _
      | nil =>
        refine .moved ?_ rfl
        rw [run, hrun] at hending ⊢
        rw [← hending]
        change m'.parser.current = m'.parser.current + m'.ahead.length
        rw [hrest.ahead]
        rfl

/-- The first end mark ends the stream, present or not. -/
theorem first_end_mark_ends (limit : Nat) (entry : Entry) (file : Text) (ys : List Token)
    (hxs : ∀ t ∈ xs, t.kind ≠ .eof) (he : e.kind = .eof) :
    EndsAt limit entry file xs e ys (visible xs).length := by
  have hread : ∀ t ∈ visible xs, t.kind ≠ .eof := fun t ht => hxs t (List.mem_filter.1 ht).1
  have hfaces (zs : List Token) : (start file (xs ++ e :: zs)).Faces (visible xs) e :=
    start_faces_of_split (filter_mark he xs zs) hread he
  have hstream (zs : List Token) : Stream.ofTokens (xs ++ e :: zs) =
      ⟨visible xs, ⟨e.line, e.column⟩⟩ :=
    Stream.ofTokens_of_split (filter_mark he xs zs) hread he
  have hruns (fuel : Nat) : (entry.run limit fuel file (xs ++ e :: ys)).1 =
        (entry.run limit fuel file (xs ++ [e])).1 ∧
      (entry.run limit fuel file (xs ++ [e])).2.Alike ((visible xs).length + 1)
        (entry.run limit fuel file (xs ++ e :: ys)).2 := by
    refine Entry.run_alike (start_alike_mark he file xs [] ys) (.inr ?_)
    rw [(entry.run_onward limit fuel file (xs ++ [e])).ending, (hfaces []).start_ending]
    exact Nat.lt_succ_self _
  obtain ⟨rest, htokens⟩ := start_tokens_mark he file xs ys
  refine ⟨?_, fun fuel => ?_, fun fuel => (hruns fuel).1, fun fuel => (hruns fuel).2, ?_, ?_⟩
  · rw [htokens]
    simp
  · refine watched_run_eq (hfaces ys).start_ending ?_
    rw [htokens, List.length_append, List.length_append]
    exact Nat.lt_of_lt_of_le (Nat.lt_succ_self _) (Nat.le_add_right _ _)
  · unfold Entry.parse Parser.run
    rw [hstream ys, hstream []]
  · exact Entry.parse_alone (hfaces []) (hstream []) (Stream.ofTokens_of_open rfl hread)

/-- A function type that is not closed, before an end mark with another type behind it. -/
theorem first_end_mark_ends_type :
    let token (k : Kind) (column : Nat) : Token := ⟨k, 0, 1, 1, column, ⟨[], []⟩, none⟩
    let xs := [token .funWord 1, token .comment 4, token .less 8, token .identifier 9]
    let ys := [token .greater 30, token .eof 31]
    (∀ t ∈ xs, t.kind ≠ .eof) ∧ (token .eof 20).kind = .eof ∧
      EndsAt maxNesting .type "a.sn" xs (token .eof 20) ys 3 := by
  intro token xs ys
  have hxs : ∀ t ∈ xs, t.kind ≠ .eof := by decide
  exact ⟨hxs, rfl, first_end_mark_ends maxNesting .type "a.sn" ys hxs rfl⟩

end Instances

end Seanet
