import Seanet.Proofs.Instances.Runs

/-!
# Termination

Calls nest only so deep: however many tokens there are, a run that starts with calls enough for the
levels of nesting never runs out of them. And every loop comes to an end, because each of its steps
that goes on leaves less to be read. So the guard of `Machine.loop` is not needed: the loops are
those that go on as long as their steps do.
-/

set_option autoImplicit false

namespace Seanet

namespace Instances

open Machine MachineRelation Memory

def Answer.of {α : Type} : Parsed α → Answer α
  | .ok a => .value a
  | .error _ => .abort

/-- The loops of the methods `self`, by what they repeat. -/
inductive Methods.Loop (limit : Nat) (self : Methods) :
    {α : Type} → (α → Machine (Option α)) → Prop where
  | brackets : Loop limit self Methods.bracketsStep
  | entries : Loop limit self (commaStep (nested limit (self.type true)))
  | operators {i : Nat} {level : BinaryLevel} (h : BinaryLevel.all[i]? = some level) :
      Loop limit self (self.operatorStep level i)
  | suffixes : Loop limit self self.suffixStep
  | arguments : Loop limit self (commaStep self.argument)
  | sizes : Loop limit self self.sizeStep
  | statements : Loop limit self (whileStep (isBefore .rightBrace) self.statement)
  | fields : Loop limit self (whileStep (isBefore .rightBrace) self.member)
  | parameters : Loop limit self (commaStep self.parameter)
  | declarations :
      Loop limit self (whileStep Methods.beginsTopDeclaration self.topDeclaration)

variable {α : Type} {limit fuel : Nat} {step : α → Machine (Option α)}

theorem loop_goes (h : (methods limit fuel).Loop limit step) (a : α) : Goes onSome (step a) := by
  have c := goes_congruence
  have go : ∀ r : Routine, Going (fun _ => r.Reads) ((methods limit fuel).run r)
      ((methods limit fuel).run r) := methods_go limit fuel
  have ht : ∀ allowVoid, Going always ((methods limit fuel).type allowVoid)
      ((methods limit fuel).type allowVoid) := fun allowVoid => go (.type allowVoid)
  have he : Going always (nested limit ((methods limit fuel).type true))
      (nested limit ((methods limit fuel).type true)) := goes_nested (ht true)
  cases h with
  | brackets => exact goes_brackets a
  | entries => exact c.commaStep he a
  | operators h => exact c.operatorStep (Congruence.operators_ne_end h) (go (.binary _)) a
  | suffixes => exact c.suffixStep (fun callee => go (.call callee)) (go .expression) a
  | arguments => exact c.commaStep (go .argument) a
  | sizes => exact c.sizeStep (go .expression) a
  | statements => exact c.whileStep c.isBefore (go .statement) a
  | fields => exact c.whileStep c.isBefore (c.member (ht false)) a
  | parameters => exact c.commaStep (c.parameter (ht false)) a
  | declarations =>
    have hd := c.topDeclaration (go .structDeclaration) (go .functionDeclaration)
    exact c.whileStep (c.check _) hd a

/-- A loop whose steps use something up goes on whenever its step does. -/
theorem loop_unguarded (h : ∀ a, Goes onSome (step a)) (a : α) :
    loop step a = (do
      match ← step a with
      | none => return a
      | some b => loop step b) := by
  funext m
  generalize hx : step a m = outcome
  rcases outcome with ⟨(_ | b) | _ | _, m'⟩
  · rw [loop_of_none hx, bind_of_value hx]
    rfl
  · have hless : m'.remaining < m.remaining := ((h a).step hx).2 _ rfl rfl
    rw [loop_of_some hx hless, bind_of_value hx]
  · rw [loop_of_abort hx, bind_of_abort hx]
  · rw [loop_of_exhausted hx, bind_of_exhausted hx]

/-- Parsing terminates, whatever the tokens are. There is a number of calls from which no run of an
entry is exhausted; each ends with its tree or with an error. And in every loop of the methods, in
every memory, each step that goes on leaves less of the input before the next end mark, where a `>>`
counts twice; so the loop ends, and it does so without a guard. -/
theorem parsing_terminates :
    (∃ calls, ∀ (fuel : Nat) (entry : Entry) (file : Text) (tokens : List Token), calls ≤ fuel →
      (entry.run maxNesting fuel file tokens).1 ≠ .exhausted ∧
      (entry.run maxNesting fuel file tokens).1 = .of (entry.parse maxNesting file tokens)) ∧
    ∀ (limit fuel : Nat) {α : Type} (step : α → Machine (Option α)),
      (methods limit fuel).Loop limit step → ∀ a : α,
        (∀ (m m' : Memory) (b : α), step a m = (.value (some b), m') →
          m'.remaining < m.remaining) ∧
        loop step a = (do
          match ← step a with
          | none => return a
          | some b => loop step b) := by
  refine ⟨⟨enough maxNesting, fun fuel entry file tokens hf => ?_⟩,
    fun limit fuel _ step h a => ⟨fun m m' b hx => ?_, loop_unguarded (loop_goes h) a⟩⟩
  · cases h : entry.parse maxNesting file tokens with
    | ok a =>
      obtain ⟨m', hrun, -⟩ := Entry.run_of_ok hf h
      rw [hrun]
      exact ⟨nofun, rfl⟩
    | error r =>
      obtain ⟨m', hrun, -⟩ := Entry.run_of_error hf h
      rw [hrun]
      exact ⟨nofun, rfl⟩
  · exact ((loop_goes h a).step hx).2 _ rfl rfl

end Instances

end Seanet
