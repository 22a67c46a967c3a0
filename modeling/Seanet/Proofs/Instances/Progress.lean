import Seanet.Proofs.Instances.Cursor
import Seanet.Proofs.Instances.Routines

set_option autoImplicit false

namespace Seanet

namespace Instances

open Machine MachineRelation

namespace Memory

def ahead (m : Memory) : List Token :=
  (m.tokens.drop m.parser.current).takeWhile (·.kind ≠ .eof)

def ending (m : Memory) : Nat := m.parser.current + m.ahead.length

/-- The memory after some reading. -/
structure Onward (m m' : Memory) : Prop where
  depth : m'.parser.depth = m.parser.depth
  file : m'.parser.file = m.parser.file
  current : m.parser.current ≤ m'.parser.current
  ending : m'.ending = m.ending
  length : m'.tokens.length = m.tokens.length
  remaining : m'.remaining ≤ m.remaining

def advanced (m : Memory) : Memory :=
  { m with parser := { m.parser with current := m.parser.current + 1 } }

def replaced (m : Memory) (t : Token) : Memory :=
  m.write m.parser.tokens (m.tokens.set m.parser.current t)

variable {m m₁ m₂ : Memory}

theorem Onward.refl (m : Memory) : m.Onward m := ⟨rfl, rfl, Nat.le_refl _, rfl, rfl, Nat.le_refl _⟩

theorem Onward.trans (h : m.Onward m₁) (h' : m₁.Onward m₂) : m.Onward m₂ where
  depth := h'.depth.trans h.depth
  file := h'.file.trans h.file
  current := Nat.le_trans h.current h'.current
  ending := h'.ending.trans h.ending
  length := h'.length.trans h.length
  remaining := Nat.le_trans h'.remaining h.remaining

theorem Onward.report (h : m.Onward m₁) (r : Report) : m.Onward (m₁.report r) :=
  ⟨h.depth, h.file, h.current, h.ending, h.length, h.remaining⟩

theorem Faces.ahead {ts : List Token} {e : Token} (h : m.Faces ts e) : m.ahead = ts := by
  obtain ⟨front, back, htokens, hfront⟩ := h.split
  have hinside : ∀ t ∈ ts, decide (t.kind ≠ .eof) = true := by simpa using h.inside
  rw [Memory.ahead, htokens, ← hfront, List.drop_left, List.takeWhile_append_of_pos hinside,
    List.takeWhile_cons_of_neg (by simp [h.ending]), List.append_nil]

theorem current_le_ending (m : Memory) : m.parser.current ≤ m.ending := Nat.le_add_right _ _

/-- Behind the end of the array there is only an end mark to be seen. -/
theorem current_lt_length (h : m.peek.kind ≠ .eof) : m.parser.current < m.tokens.length := by
  refine Nat.lt_of_not_le fun hge => h ?_
  rw [peek, List.getD_eq_getElem?_getD, List.getElem?_eq_none hge]
  rfl

theorem getElem?_current (h : m.peek.kind ≠ .eof) :
    m.tokens[m.parser.current]? = some m.peek := by
  rw [peek, List.getD_eq_getElem?_getD, List.getElem?_eq_getElem (current_lt_length h),
    Option.getD_some]

theorem drop_current (h : m.peek.kind ≠ .eof) :
    m.tokens.drop m.parser.current = m.peek :: m.tokens.drop (m.parser.current + 1) := by
  have hlt := current_lt_length h
  have hget := getElem?_current h
  rw [List.getElem?_eq_getElem hlt, Option.some.injEq] at hget
  rw [List.drop_eq_getElem_cons hlt, hget]

theorem ahead_eq_cons (h : m.peek.kind ≠ .eof) : m.ahead = m.peek :: m.advanced.ahead := by
  rw [ahead, drop_current h, List.takeWhile_cons_of_pos (by simpa using h)]
  rfl

theorem weight_ahead (m : Memory) : Parser.weight m.ahead = m.remaining := rfl

theorem remaining_eq (h : m.peek.kind ≠ .eof) :
    m.remaining = Parser.tokenWeight m.peek + m.advanced.remaining := by
  rw [← weight_ahead m, ahead_eq_cons h, Parser.weight, weight_ahead]

theorem advanced_remaining (h : m.peek.kind ≠ .eof) : m.advanced.remaining < m.remaining := by
  rw [remaining_eq h, Parser.tokenWeight]
  split <;> omega

theorem onward_advanced (h : m.peek.kind ≠ .eof) : m.Onward m.advanced where
  depth := rfl
  file := rfl
  current := Nat.le_succ _
  ending := by
    have hcurrent : m.advanced.parser.current = m.parser.current + 1 := rfl
    rw [ending, ending, ahead_eq_cons h, List.length_cons, hcurrent]
    omega
  length := rfl
  remaining := Nat.le_of_lt (advanced_remaining h)

theorem replaced_tokens (h : m.peek.kind ≠ .eof) (t : Token) :
    (m.replaced t).tokens = m.tokens.set m.parser.current t := by
  have howned : m.parser.tokens < m.arrays.length := by
    refine Nat.lt_of_not_le fun hge => ?_
    have hlt := current_lt_length h
    simp [Memory.tokens, array, List.getElem?_eq_none hge] at hlt
  simp [replaced, write, Memory.tokens, array, howned]

theorem replaced_ahead (h : m.peek.kind ≠ .eof) {t : Token} (ht : t.kind ≠ .eof) :
    (m.replaced t).ahead = t :: m.advanced.ahead := by
  have hcurrent : (m.replaced t).parser.current = m.parser.current := rfl
  rw [ahead, hcurrent, replaced_tokens h, List.drop_set, if_neg (Nat.lt_irrefl _), Nat.sub_self,
    drop_current h, List.set_cons_zero, List.takeWhile_cons_of_pos (by simpa using ht)]
  rfl

theorem remaining_halved (h : m.peek.kind = .greaterGreater) :
    m.remaining = (m.replaced m.peek.secondHalf).remaining + 1 := by
  have hne : m.peek.kind ≠ .eof := by simp [h]
  have hhalf : Parser.tokenWeight m.peek.secondHalf = 1 := rfl
  have hwhole : Parser.tokenWeight m.peek = 2 := by simp [Parser.tokenWeight, h]
  rw [← weight_ahead m, ← weight_ahead, replaced_ahead hne (by simp [Token.secondHalf]),
    ahead_eq_cons hne, Parser.weight, Parser.weight, hhalf, hwhole]
  omega

theorem halved_remaining (h : m.peek.kind = .greaterGreater) :
    (m.replaced m.peek.secondHalf).remaining < m.remaining := by
  rw [remaining_halved h]
  exact Nat.lt_succ_self _

theorem onward_halved (h : m.peek.kind = .greaterGreater) :
    m.Onward (m.replaced m.peek.secondHalf) where
  depth := rfl
  file := rfl
  current := Nat.le_refl _
  ending := by
    have hne : m.peek.kind ≠ .eof := by simp [h]
    have hcurrent : (m.replaced m.peek.secondHalf).parser.current = m.parser.current := rfl
    rw [ending, ending, replaced_ahead hne (by simp [Token.secondHalf]), ahead_eq_cons hne,
      List.length_cons, List.length_cons, hcurrent]
  length := by rw [replaced_tokens (by simp [h]), List.length_set]
  remaining := Nat.le_of_lt (halved_remaining h)

end Memory

open Memory

variable {α β : Type} {P : α → Prop}

/-- From every memory the machine goes onward, and if it comes to a value in `P`, less is left. -/
structure Goes (P : α → Prop) (x : Machine α) : Prop where
  onward (m : Memory) : m.Onward (x m).2
  uses (m : Memory) {a : α} (h : (x m).1 = .value a) (ha : P a) : (x m).2.remaining < m.remaining

theorem bind_of_exhausted {x : Machine α} {f : α → Machine β} {m m' : Memory}
    (h : x m = (.exhausted, m')) : (x >>= f) m = (.exhausted, m') := by
  simp only [Bind.bind, h]

theorem Goes.step {x : Machine α} (h : Goes P x) {m m' : Memory} {answer : Answer α}
    (hx : x m = (answer, m')) :
    m.Onward m' ∧ ∀ a, answer = .value a → P a → m'.remaining < m.remaining := by
  have honward := h.onward m
  have huses := @Goes.uses α P x h m
  rw [hx] at honward huses
  exact ⟨honward, fun a ha => huses ha⟩

theorem Goes.of_step {x : Machine α}
    (h : ∀ m answer m', x m = (answer, m') →
      m.Onward m' ∧ ∀ a, answer = .value a → P a → m'.remaining < m.remaining) : Goes P x where
  onward m := (h m _ _ rfl).1
  uses m a ha hp := (h m _ _ rfl).2 a ha hp

theorem Goes.weaken {Q : α → Prop} {x : Machine α} (h : Goes P x) (hq : ∀ a, Q a → P a) :
    Goes Q x :=
  ⟨h.onward, fun m _ ha hp => h.uses m ha (hq _ hp)⟩

theorem goes_of_same {x : Machine α} (h : ∀ m, (x m).2 = m) : Goes never x where
  onward m := by rw [h m]; exact .refl m
  uses _ _ _ ha := ha.elim

theorem goes_of_abort {x : Machine α} (h : ∀ m, ∃ r, x m = (.abort, m.report r)) : Goes P x := by
  refine .of_step fun m answer m' hx => ?_
  obtain ⟨r, hr⟩ := h m
  rw [hr, Prod.mk.injEq] at hx
  obtain ⟨rfl, rfl⟩ := hx
  exact ⟨(Onward.refl m).report r, nofun⟩

theorem goes_bind {Q : β → Prop} {x : Machine α} {f : α → Machine β} (h : Goes P x)
    (hread : ∀ a, P a → Goes never (f a)) (hf : ∀ a, ¬ P a → Goes Q (f a)) :
    Goes Q (x >>= f) := by
  refine .of_step fun m answer m' hx => ?_
  rcases hm : x m with ⟨a | _ | _, m₁⟩
  · obtain ⟨honward, huses⟩ := h.step hm
    rw [bind_of_value hm] at hx
    by_cases ha : P a
    · have hlast := ((hread a ha).step hx).1
      have hless := huses a rfl ha
      exact ⟨honward.trans hlast, fun _ _ _ => Nat.lt_of_le_of_lt hlast.remaining hless⟩
    · obtain ⟨hlast, hless⟩ := (hf a ha).step hx
      exact ⟨honward.trans hlast, fun b hb hq =>
        Nat.lt_of_lt_of_le (hless b hb hq) honward.remaining⟩
  · rw [bind_of_abort hm, Prod.mk.injEq] at hx
    obtain ⟨rfl, rfl⟩ := hx
    exact ⟨(h.step hm).1, nofun⟩
  · rw [bind_of_exhausted hm, Prod.mk.injEq] at hx
    obtain ⟨rfl, rfl⟩ := hx
    exact ⟨(h.step hm).1, nofun⟩

section

variable {step : α → Machine (Option α)} {a b : α} {m m' : Memory}

theorem loop_of_none (h : step a m = (.value none, m')) : loop step a m = (.value a, m') := by
  rw [loop, h]

theorem loop_of_some (h : step a m = (.value (some b), m')) (hless : m'.remaining < m.remaining) :
    loop step a m = loop step b m' := by
  rw [loop, h]
  exact if_pos hless

theorem loop_of_abort (h : step a m = (.abort, m')) : loop step a m = (.abort, m') := by
  rw [loop, h]

theorem loop_of_exhausted (h : step a m = (.exhausted, m')) :
    loop step a m = (.exhausted, m') := by
  rw [loop, h]

end

theorem goes_loop {step : α → Machine (Option α)} (h : ∀ a, Goes onSome (step a)) (a : α) :
    Goes never (loop step a) where
  onward m := by
    fun_induction loop step a m with
    | case1 a m m' hm => exact ((h a).step hm).1
    | case2 a m b m' hm hless ih => exact ((h a).step hm).1.trans ih
    | case3 a m b m' hm hless => exact ((h a).step hm).1
    | case4 a m m' hm => exact ((h a).step hm).1
    | case5 a m m' hm => exact ((h a).step hm).1
  uses _ _ _ ha := ha.elim

theorem advance_eq (m : Memory) :
    advance m = (.value m.peek, if m.peek.kind = .eof then m else m.advanced) := by
  simp only [advance, Memory.isAtEnd, beq_iff_eq]
  split <;> rfl

theorem goes_advance : Goes never advance := by
  refine .of_step fun m answer m' hx => ⟨?_, fun _ _ ha => ha.elim⟩
  rw [advance_eq, Prod.mk.injEq] at hx
  rw [← hx.2]
  split
  · exact .refl m
  · next h => exact onward_advanced h

theorem goes_advance_bind {f : Token → Machine α} (hf : ∀ t, Goes never (f t)) {m m' : Memory}
    {answer : Answer α} (hm : m.peek.kind ≠ .eof) (hx : (advance >>= f) m = (answer, m')) :
    m.Onward m' ∧ ∀ a, answer = .value a → P a → m'.remaining < m.remaining := by
  have hadvance : advance m = (.value m.peek, m.advanced) := by rw [advance_eq, if_neg hm]
  rw [bind_of_value hadvance] at hx
  have hlast := ((hf m.peek).step hx).1
  exact ⟨(onward_advanced hm).trans hlast, fun _ _ _ =>
    Nat.lt_of_le_of_lt hlast.remaining (advanced_remaining hm)⟩

theorem check_bind (p : Kind → Bool) (f : Bool → Machine α) (m : Memory) :
    (check p >>= f) m = f (p m.peek.kind) m := rfl

theorem peek_bind (f : Token → Machine α) (m : Memory) :
    (Machine.peek >>= f) m = f m.peek m := rfl

theorem checkAt_bind (d : Nat) (k : Kind) (f : Bool → Machine α) (m : Memory) :
    (checkAt d k >>= f) m = f ((m.peekAt d).kind == k) m := rfl

theorem goes_ifNext {p : Kind → Bool} (hp : p .eof = false) {f : Token → Machine α}
    {x : Machine α} (hf : ∀ t, Goes never (f t)) (h : Goes P x) :
    Goes P (do if ← check p then advance >>= f else x) := by
  refine .of_step fun m answer m' hx => ?_
  rw [check_bind] at hx
  by_cases hm : p m.peek.kind = true
  · rw [if_pos hm] at hx
    exact goes_advance_bind hf (fun he => by rw [he, hp] at hm; cases hm) hx
  · rw [if_neg hm] at hx
    exact h.step hx

theorem goes_closingAngle (what : Expected) : Goes always (consumeClosingAngle what) := by
  refine .of_step fun m answer m' hx => ?_
  simp only [consumeClosingAngle] at hx
  split at hx
  · next hm =>
    rw [← bind_pure advance] at hx
    exact goes_advance_bind (fun t => goes_of_same fun _ => rfl) (by simp [hm]) hx
  · split at hx
    · exact (goes_of_abort (x := errorAtCurrent what) fun m => ⟨_, rfl⟩).step hx
    · next hm =>
      have hm : m.peek.kind = .greaterGreater := Decidable.of_not_not hm
      obtain ⟨-, rfl⟩ := Prod.mk.injEq _ _ _ _ ▸ hx
      exact ⟨onward_halved hm, fun _ _ _ => halved_remaining hm⟩

theorem bracketsStep_eq (n : Nat) (m : Memory) : Methods.bracketsStep n m =
    if m.peek.kind = .leftBracket ∧ (m.peekAt 1).kind = .rightBracket then
      (advance >>= fun _ => advance >>= fun _ => pure (some (n + 1))) m
    else (.value none, m) := by
  rw [Methods.bracketsStep, check_bind]
  by_cases hl : m.peek.kind = .leftBracket
  · rw [if_pos (beq_iff_eq.2 hl), checkAt_bind]
    by_cases hr : (m.peekAt 1).kind = .rightBracket
    · rw [if_pos (beq_iff_eq.2 hr), if_pos ⟨hl, hr⟩]
    · rw [if_neg (by simpa using hr), if_neg fun h => hr h.2]
      rfl
  · rw [if_neg (by simpa using hl), if_neg fun h => hl h.1]
    rfl

theorem goes_brackets (n : Nat) : Goes onSome (Methods.bracketsStep n) := by
  refine .of_step fun m answer m' hx => ?_
  rw [bracketsStep_eq] at hx
  split at hx
  · next h =>
    refine goes_advance_bind (fun _ => ?_) (by simp [h.1]) hx
    exact goes_bind goes_advance (fun _ ht => ht.elim) fun _ _ => goes_of_same fun _ => rfl
  · obtain ⟨rfl, rfl⟩ := Prod.mk.injEq _ _ _ _ ▸ hx
    exact ⟨.refl m, by rintro _ ⟨⟩ ⟨⟩⟩

def Memory.opens (m : Memory) : Bool :=
  m.peek.kind.isBuiltinType || m.peek.kind == .refWord || m.peek.kind == .funWord ||
    m.peek.kind == .identifier && ((m.peekAt 1).kind == .identifier ||
      (m.peekAt 1).kind == .leftBracket && (m.peekAt 2).kind == .rightBracket)

theorem beginsDeclaration_eq (m : Memory) : Methods.beginsDeclaration m = (.value m.opens, m) := by
  rw [Methods.beginsDeclaration, check_bind, Memory.opens]
  cases m.peek.kind.isBuiltinType || m.peek.kind == .refWord || m.peek.kind == .funWord with
  | true => rfl
  | false =>
    cases hname : m.peek.kind == .identifier with
    | false => simp only [Bool.false_eq_true, if_false, check_bind, hname]; rfl
    | true =>
      simp only [Bool.false_eq_true, if_false, check_bind, hname, if_true, checkAt_bind]
      cases (m.peekAt 1).kind == .identifier with
      | true => rfl
      | false =>
        cases hbracket : (m.peekAt 1).kind == .leftBracket with
        | false => simp only [Bool.false_eq_true, if_false, checkAt_bind, hbracket]; rfl
        | true =>
          simp only [Bool.false_eq_true, if_false, checkAt_bind, hbracket, if_true]
          cases (m.peekAt 2).kind == .rightBracket <;> rfl

theorem goes_nested {limit : Nat} {x : Machine α} (h : Goes P x) : Goes P (nested limit x) := by
  refine .of_step fun m answer m' hx => ?_
  simp only [nested] at hx
  split at hx
  · exact (goes_of_abort (x := errorAtCurrent .shallower) fun m => ⟨_, rfl⟩).step hx
  · rcases hm : x m.deeper with ⟨answer', m₁⟩
    obtain ⟨honward, huses⟩ := h.step hm
    rw [hm, Prod.mk.injEq] at hx
    obtain ⟨rfl, rfl⟩ := hx
    have hdepth : m₁.parser.depth = m.parser.depth + 1 := honward.depth
    refine ⟨⟨?_, honward.file, honward.current, honward.ending, honward.length, honward.remaining⟩,
      huses⟩
    change m₁.parser.depth - 1 = m.parser.depth
    omega

/-- The property as a relation: it says nothing of the second machine. -/
abbrev Going : MachineRelation := fun P x _ => Goes P x

theorem goes_congruence : Congruence Going where
  weaken := Goes.weaken
  spent _ := ⟨.refl, fun _ => nofun⟩
  pure h := ⟨.refl, fun _ => by rintro _ ⟨⟩ ha; exact absurd ha h⟩
  bind := goes_bind
  loop := goes_loop
  check _ := goes_of_same fun _ => rfl
  isAtEnd := goes_of_same fun _ => rfl
  advance := goes_advance
  ifNext hp _ _ _ _ hf h := goes_ifNext hp hf h
  look h := by
    refine .of_step fun m answer m' hx => ?_
    rw [peek_bind] at hx
    obtain hstay | ⟨hne, f', _, hf, -, hread⟩ := (h m.peek).stays_or_reads
    · exact hstay.step hx
    · rw [hf] at hx
      exact goes_advance_bind hread hne hx
  closingAngle what _ := goes_closingAngle what
  error _ _ _ := goes_of_abort fun m => ⟨_, rfl⟩
  fail _ _ _ _ _ := goes_of_abort fun m => ⟨_, rfl⟩
  brackets := goes_brackets
  beginsDeclaration := goes_of_same fun m => by rw [beginsDeclaration_eq]

theorem methods_go (limit fuel : Nat) (r : Routine) :
    Goes (fun _ => r.Reads) ((methods limit fuel).run r) :=
  goes_congruence.methods goes_nested fuel r

end Instances

end Seanet
