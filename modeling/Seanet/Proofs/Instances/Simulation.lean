import Seanet.Proofs.Instances.Runs

set_option autoImplicit false

namespace Seanet

namespace Instances

open Machine MachineRelation Memory

/-- How the memories `m` and `m'` of two runs are related before they go on, and after they have
given up. The first run is followed only as long as its memory is in `followed`. -/
structure Simulation where
  before (m m' : Memory) : Prop
  after (m m' : Memory) : Prop
  followed (m : Memory) : Prop
  followed_of_onward {m m₁ : Memory} (h : m.Onward m₁) (hf : followed m₁) : followed m
  file {m m' : Memory} (h : before m m') : m'.parser.file = m.parser.file
  first {m m' : Memory} (h : before m m') (hf : followed m) : m'.peek = m.peek
  second {m m' : Memory} (h : before m m') (hf : followed m) (hm : m.peek.kind ≠ .eof) :
    m'.peekAt 1 = m.peekAt 1
  third {m m' : Memory} (h : before m m') (hf : followed m) (hm : m.peek.kind ≠ .eof)
    (hn : (m.peekAt 1).kind ≠ .eof) : m'.peekAt 2 = m.peekAt 2
  advanced {m m' : Memory} (h : before m m') (hf : followed m) (hm : m.peek.kind ≠ .eof) :
    before m.advanced m'.advanced
  halved {m m' : Memory} (h : before m m') (hf : followed m) (hm : m.peek.kind = .greaterGreater) :
    before (m.replaced m.peek.secondHalf) (m'.replaced m.peek.secondHalf)
  report {m m' : Memory} (h : before m m') {r : Report} (hr : ¬ r.TooDeep) :
    after (m.report r) (m'.report r)
  remaining {m m' m₁ m₁' : Memory} (h : before m m') (h₁ : before m₁ m₁')
    (hless : m₁.remaining < m.remaining) : m₁'.remaining < m'.remaining

namespace Simulation

variable {α β : Type} (S : Simulation)

/-- Both runs come to the same. -/
inductive Outcome : Answer α × Memory → Answer α × Memory → Prop where
  | value (a : α) {m m' : Memory} (h : S.before m m') : Outcome (.value a, m) (.value a, m')
  | abort {m m' : Memory} (h : S.after m m') : Outcome (.abort, m) (.abort, m')
  | exhausted {m m' : Memory} (h : S.before m m') : Outcome (.exhausted, m) (.exhausted, m')

structure Simulates (P : α → Prop) (x y : Machine α) : Prop where
  goes : Goes P x
  run {m m' : Memory} (h : S.before m m') (hf : S.followed (x m).2) : S.Outcome (x m) (y m')

variable {S} {P : α → Prop} {Q : β → Prop} {x y : Machine α} {m m' m₁ : Memory}

theorem Outcome.of_value {outcome : Answer α × Memory} {a : α}
    (h : S.Outcome (.value a, m) outcome) : ∃ m', outcome = (.value a, m') ∧ S.before m m' := by
  cases h with
  | value _ h => exact ⟨_, rfl, h⟩

theorem Outcome.of_abort {outcome : Answer α × Memory} (h : S.Outcome (.abort, m) outcome) :
    ∃ m', outcome = (.abort, m') ∧ S.after m m' := by
  cases h with
  | abort h => exact ⟨_, rfl, h⟩

theorem Outcome.of_exhausted {outcome : Answer α × Memory} (h : S.Outcome (.exhausted, m) outcome) :
    ∃ m', outcome = (.exhausted, m') ∧ S.before m m' := by
  cases h with
  | exhausted h => exact ⟨_, rfl, h⟩

theorem Simulates.step (hx : S.Simulates P x y) (h : S.before m m') {answer : Answer α}
    (hm : x m = (answer, m₁)) (hf : S.followed m₁) : S.Outcome (answer, m₁) (y m') := by
  have hrun := hx.run h
  rw [hm] at hrun
  exact hrun hf

theorem simulates_bind {f g : α → Machine β} (h : S.Simulates P x y)
    (hread : ∀ a, P a → S.Simulates never (f a) (g a))
    (hf : ∀ a, ¬ P a → S.Simulates Q (f a) (g a)) : S.Simulates Q (x >>= f) (y >>= g) := by
  have hgo (a : α) : Goes never (f a) ∧
      ∀ {m m'}, S.before m m' → S.followed (f a m).2 → S.Outcome (f a m) (g a m') := by
    by_cases ha : P a
    · exact ⟨(hread a ha).goes, (hread a ha).run⟩
    · exact ⟨(hf a ha).goes.weaken nofun, (hf a ha).run⟩
  refine ⟨goes_bind h.goes (fun a ha => (hread a ha).goes) fun a ha => (hf a ha).goes,
    fun {m m'} hb hfollowed => ?_⟩
  rcases hx : x m with ⟨a | _ | _, m₁⟩
  · rw [bind_of_value hx] at hfollowed ⊢
    have hfirst := S.followed_of_onward ((hgo a).1.onward m₁) hfollowed
    obtain ⟨m₁', hy, hb₁⟩ := (h.step hb hx hfirst).of_value
    rw [bind_of_value hy]
    exact (hgo a).2 hb₁ hfollowed
  · rw [bind_of_abort hx] at hfollowed ⊢
    obtain ⟨m₁', hy, hafter⟩ := (h.step hb hx hfollowed).of_abort
    rw [bind_of_abort hy]
    exact .abort hafter
  · rw [bind_of_exhausted hx] at hfollowed ⊢
    obtain ⟨m₁', hy, hb₁⟩ := (h.step hb hx hfollowed).of_exhausted
    rw [bind_of_exhausted hy]
    exact .exhausted hb₁

theorem simulates_loop {step step' : α → Machine (Option α)}
    (h : ∀ a, S.Simulates onSome (step a) (step' a)) (a : α) :
    S.Simulates never (loop step a) (loop step' a) := by
  have hgoes : ∀ a, Goes onSome (step a) := fun a => (h a).goes
  refine ⟨goes_loop hgoes a, fun {m m'} hb hf => ?_⟩
  fun_induction loop step a m generalizing m' with
  | case1 a m m₁ hx =>
    obtain ⟨m₁', hy, hb₁⟩ := ((h a).step hb hx hf).of_value
    rw [loop_of_none hy]
    exact .value a hb₁
  | case2 a m b m₁ hx hless ih =>
    have hfirst := S.followed_of_onward ((goes_loop hgoes b).onward m₁) hf
    obtain ⟨m₁', hy, hb₁⟩ := ((h a).step hb hx hfirst).of_value
    rw [loop_of_some hy (S.remaining hb hb₁ hless)]
    exact ih hb₁ hf
  | case3 a m b m₁ hx hless =>
    exact absurd (((hgoes a).step hx).2 _ rfl rfl) hless
  | case4 a m m₁ hx =>
    obtain ⟨m₁', hy, hafter⟩ := ((h a).step hb hx hf).of_abort
    rw [loop_of_abort hy]
    exact .abort hafter
  | case5 a m m₁ hx =>
    obtain ⟨m₁', hy, hb₁⟩ := ((h a).step hb hx hf).of_exhausted
    rw [loop_of_exhausted hy]
    exact .exhausted hb₁

theorem simulates_look {f : Memory → α} (hx : ∀ m, x m = (.value (f m), m))
    (h : ∀ {m m'}, S.before m m' → S.followed m → f m' = f m) : S.Simulates never x x := by
  refine ⟨goes_of_same fun m => by rw [hx], fun {m m'} hb hf => ?_⟩
  rw [hx] at hf ⊢
  rw [hx, h hb hf]
  exact .value _ hb

theorem simulates_pure (a : α) : S.Simulates never (pure a) (pure a) :=
  simulates_look (fun _ => rfl) fun _ _ => rfl

theorem simulates_report {r : Memory → Report} (hx : ∀ m, x m = (.abort, m.report (r m)))
    (hr : ∀ m, ¬ (r m).TooDeep)
    (h : ∀ {m m'}, S.before m m' → S.followed m → r m' = r m) : S.Simulates P x x := by
  refine ⟨goes_of_abort fun m => ⟨r m, hx m⟩, fun {m m'} hb hf => ?_⟩
  have honward : m.Onward (x m).2 := by
    rw [hx]
    exact (Onward.refl m).report _
  have hm := S.followed_of_onward honward hf
  rw [hx, hx, h hb hm]
  exact .abort (S.report hb (hr m))

theorem simulates_error {what : Expected} (hw : what ≠ .shallower) :
    S.Simulates P (errorAtCurrent what) (errorAtCurrent what) := by
  refine simulates_report (fun m => rfl) (fun m => ?_) fun hb hf => ?_
  · rw [Report.TooDeep, List.append_assoc]
    exact Expected.not_tooDeep hw _
  · rw [S.file hb, S.first hb hf]

theorem simulates_advance : S.Simulates never advance advance := by
  refine ⟨goes_advance, fun {m m'} hb hf => ?_⟩
  have hm := S.followed_of_onward (goes_advance.onward m) hf
  have hpeek := S.first hb hm
  rw [advance_eq, advance_eq, hpeek]
  by_cases he : m.peek.kind = .eof
  · rw [if_pos he, if_pos he]
    exact .value _ hb
  · rw [if_neg he, if_neg he]
    exact .value _ (S.advanced hb hm he)

theorem simulates_ifNext {p : Kind → Bool} (hp : p .eof = false) {f g : Token → Machine α}
    (hf : ∀ t, S.Simulates never (f t) (g t)) (h : S.Simulates P x y) :
    S.Simulates P (do if ← check p then advance >>= f else x)
      (do if ← check p then advance >>= g else y) := by
  have hgoes := goes_ifNext hp (fun t => (hf t).goes) h.goes
  have hread : S.Simulates never (advance >>= f) (advance >>= g) :=
    simulates_bind simulates_advance (fun _ ht => ht.elim) fun t _ => hf t
  refine ⟨hgoes, fun {m m'} hb hfollowed => ?_⟩
  have hm := S.followed_of_onward (hgoes.onward m) hfollowed
  rw [check_bind] at hfollowed
  rw [check_bind, check_bind, S.first hb hm]
  by_cases hk : p m.peek.kind = true
  · rw [if_pos hk] at hfollowed
    rw [if_pos hk, if_pos hk]
    exact hread.run hb hfollowed
  · rw [if_neg hk] at hfollowed
    rw [if_neg hk, if_neg hk]
    exact h.run hb hfollowed

theorem simulates_peek {f g : Token → Machine α}
    (h : ∀ t, Seen S.Simulates P t (f t) (g t)) :
    S.Simulates P (peek >>= f) (peek >>= g) := by
  have hgoes : Goes P (peek >>= f) := goes_congruence.look fun t => (h t).imp Simulates.goes
  refine ⟨hgoes, fun {m m'} hb hfollowed => ?_⟩
  have hm := S.followed_of_onward (hgoes.onward m) hfollowed
  rw [peek_bind] at hfollowed
  rw [peek_bind, peek_bind, S.first hb hm]
  obtain hstay | ⟨-, f', g', hf, hg, hread⟩ := (h m.peek).stays_or_reads
  · exact hstay.run hb hfollowed
  · have hnext : S.Simulates never (advance >>= f') (advance >>= g') :=
      simulates_bind simulates_advance (fun _ ht => ht.elim) fun t _ => hread t
    rw [hf] at hfollowed
    rw [hf, hg]
    exact hnext.run hb hfollowed

theorem simulates_closingAngle {what : Expected} (hw : what ≠ .shallower) :
    S.Simulates always (consumeClosingAngle what) (consumeClosingAngle what) := by
  have hgoes := goes_closingAngle what
  refine ⟨hgoes, fun {m m'} hb hfollowed => ?_⟩
  have hm := S.followed_of_onward (hgoes.onward m) hfollowed
  simp only [consumeClosingAngle] at hfollowed
  simp only [consumeClosingAngle, S.first hb hm]
  split
  · next hk =>
    rw [if_pos hk] at hfollowed
    exact simulates_advance.run hb hfollowed
  · next hk =>
    rw [if_neg hk] at hfollowed
    split
    · next hk' =>
      rw [if_pos hk'] at hfollowed
      exact (simulates_error (P := always) hw).run hb hfollowed
    · next hk' => exact .value _ (S.halved hb hm (Decidable.of_not_not hk'))

theorem simulates_brackets (n : Nat) :
    S.Simulates onSome (Methods.bracketsStep n) (Methods.bracketsStep n) := by
  have hgoes := goes_brackets n
  have htwo : S.Simulates never (advance >>= fun _ => advance >>= fun _ => pure (some (n + 1)))
      (advance >>= fun _ => advance >>= fun _ => pure (some (n + 1))) :=
    simulates_bind simulates_advance (fun _ ht => ht.elim) fun _ _ =>
      simulates_bind simulates_advance (fun _ ht => ht.elim) fun _ _ => simulates_pure _
  refine ⟨hgoes, fun {m m'} hb hfollowed => ?_⟩
  have hm := S.followed_of_onward (hgoes.onward m) hfollowed
  rw [bracketsStep_eq] at hfollowed
  rw [bracketsStep_eq, bracketsStep_eq, S.first hb hm]
  by_cases hl : m.peek.kind = .leftBracket
  · rw [S.second hb hm (by simp [hl])]
    split
    · next hk =>
      rw [if_pos hk] at hfollowed
      exact htwo.run hb hfollowed
    · exact .value none hb
  · rw [if_neg fun h => hl h.1, if_neg fun h => hl h.1]
    exact .value none hb

theorem opens_eq (hb : S.before m m') (hm : S.followed m) : m'.opens = m.opens := by
  unfold Memory.opens
  rw [S.first hb hm]
  by_cases hn : m.peek.kind = .identifier
  · have hne : m.peek.kind ≠ .eof := by simp [hn]
    rw [S.second hb hm hne]
    by_cases hl : (m.peekAt 1).kind = .leftBracket
    · rw [S.third hb hm hne (by simp [hl])]
    · rw [beq_false_of_ne hl, Bool.false_and, Bool.false_and]
  · rw [beq_false_of_ne hn, Bool.false_and, Bool.false_and]

theorem simulates_nested {limit : Nat}
    (hdeeper : ∀ {m m'}, S.before m m' → m'.parser.depth = m.parser.depth ∧
      S.before m.deeper m'.deeper)
    (hshallower : ∀ {m m'}, S.before m m' → S.before m.shallower m'.shallower)
    (hafter : ∀ {m m'}, S.after m m' → S.after m.shallower m'.shallower)
    (hreport : ∀ {m m'}, S.before m m' → ∀ r, S.after (m.report r) (m'.report r))
    (hfollowed : ∀ {m}, S.followed m.shallower → S.followed m) (h : S.Simulates P x y) :
    S.Simulates P (nested limit x) (nested limit y) := by
  have hgoes : Goes P (nested limit x) := goes_nested h.goes
  refine ⟨hgoes, fun {m m'} hb hf => ?_⟩
  have hm := S.followed_of_onward (hgoes.onward m) hf
  obtain ⟨hdepth, hb'⟩ := hdeeper hb
  by_cases hdeep : limit ≤ m.parser.depth
  · simp only [nested, hdepth, if_pos hdeep, errorAtCurrent, Machine.fail, S.first hb hm, S.file hb]
    exact .abort (hreport hb _)
  · simp only [nested, if_neg hdeep] at hf
    simp only [nested, hdepth, if_neg hdeep]
    have hrun := h.run hb' (hfollowed hf)
    generalize x m.deeper = outcome at hrun ⊢
    generalize y m'.deeper = outcome' at hrun ⊢
    cases hrun with
    | value a h₁ => exact .value a (hshallower h₁)
    | abort h₁ => exact .abort (hafter h₁)
    | exhausted h₁ => exact .exhausted (hshallower h₁)

theorem simulates_congruence (S : Simulation) : Congruence S.Simulates where
  weaken h hq := ⟨h.goes.weaken hq, h.run⟩
  spent P := ⟨goes_congruence.spent P, fun hb _ => .exhausted hb⟩
  pure h := ⟨goes_congruence.pure h, fun hb _ => .value _ hb⟩
  bind := simulates_bind
  loop := simulates_loop
  check p := simulates_look (fun m => rfl) fun hb hm => by rw [S.first hb hm]
  isAtEnd := simulates_look (fun m => rfl) fun hb hm => by
    rw [Memory.isAtEnd, Memory.isAtEnd, S.first hb hm]
  advance := simulates_advance
  ifNext hp _ _ _ _ hf h := simulates_ifNext hp hf h
  look := simulates_peek
  closingAngle _ := simulates_closingAngle
  error _ _ := simulates_error
  fail _ _ _ _ hm := simulates_report (fun _ => rfl) (fun _ => hm) fun hb _ => by rw [S.file hb]
  brackets := simulates_brackets
  beginsDeclaration := simulates_look beginsDeclaration_eq opens_eq

end Simulation

end Instances

end Seanet
