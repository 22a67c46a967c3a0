import Seanet.Parser.Basic

set_option autoImplicit false

namespace Seanet

namespace Parser

variable {τ α β : Type}

theorem bind_apply (p : Parser τ α) (f : α → Parser τ β) (ts : List τ) :
    (p >>= f) ts = match p ts with
      | .error fault => .error fault
      | .ok (a, rest) => f a rest := rfl

theorem bind_of_ok {p : Parser τ α} {f : α → Parser τ β} {ts mid : List τ} {a : α}
    (h : p ts = .ok (a, mid)) : (p >>= f) ts = f a mid := by
  rw [bind_apply, h]

theorem bind_ok_iff {p : Parser τ α} {f : α → Parser τ β} {ts rest : List τ} {b : β} :
    (p >>= f) ts = .ok (b, rest) ↔ ∃ a mid, p ts = .ok (a, mid) ∧ f a mid = .ok (b, rest) := by
  rw [bind_apply]
  cases p ts with
  | error fault => simp
  | ok r =>
    constructor
    · intro h
      exact ⟨r.1, r.2, rfl, h⟩
    · rintro ⟨a, mid, hr, h⟩
      obtain rfl : r = (a, mid) := Except.ok.inj hr
      exact h

theorem bind_bind {γ : Type} (p : Parser τ α) (f : α → Parser τ β) (g : β → Parser τ γ) :
    (p >>= f) >>= g = p >>= fun a => f a >>= g := by
  funext ts
  simp only [bind_apply]
  cases p ts <;> rfl

theorem pure_ok_iff {a b : α} {ts rest : List τ} :
    (pure a : Parser τ α) ts = .ok (b, rest) ↔ b = a ∧ rest = ts := by
  change Except.ok (a, ts) = _ ↔ _
  rw [Except.ok.injEq, Prod.mk.injEq, eq_comm, @eq_comm _ ts]

theorem map_apply (f : α → β) (p : Parser τ α) (ts : List τ) :
    (f <$> p) ts = match p ts with
      | .error fault => .error fault
      | .ok (a, rest) => .ok (f a, rest) := rfl

theorem map_bind {γ : Type} (f : α → β) (p : Parser τ α) (g : β → Parser τ γ) :
    (f <$> p) >>= g = p >>= fun a => g (f a) :=
  bind_bind p (fun a => pure (f a)) g

theorem map_ok_iff {p : Parser τ α} {f : α → β} {ts rest : List τ} {b : β} :
    (f <$> p) ts = .ok (b, rest) ↔ ∃ a, p ts = .ok (a, rest) ∧ b = f a := by
  change (p >>= fun a => pure (f a)) ts = _ ↔ _
  simp only [bind_ok_iff, pure_ok_iff]
  constructor
  · rintro ⟨a, mid, h, rfl, rfl⟩
    exact ⟨a, h, rfl⟩
  · rintro ⟨a, h, rfl⟩
    exact ⟨a, rest, h, rfl, rfl⟩

theorem map_of_ok {p : Parser τ α} {ts rest : List τ} {a : α} (f : α → β)
    (h : p ts = .ok (a, rest)) : (f <$> p) ts = .ok (f a, rest) :=
  map_ok_iff.2 ⟨a, h, rfl⟩

variable [TokenView τ]

open TokenView (kind)

def Stops (p : Kind → Bool) (ts : List τ) : Prop := ∀ t ∈ ts.head?, p (kind t) = false

@[simp] theorem stops_nil (p : Kind → Bool) : Stops p ([] : List τ) := by simp [Stops]

@[simp] theorem stops_cons {p : Kind → Bool} {t : τ} {ts : List τ} :
    Stops p (t :: ts) ↔ p (kind t) = false := by simp [Stops]

theorem Stops.imp {p q : Kind → Bool} {ts : List τ} (h : Stops p ts)
    (hq : ∀ k, p k = false → q k = false) : Stops q ts :=
  fun t ht => hq _ (h t ht)

theorem not_stops_iff {p : Kind → Bool} {ts : List τ} :
    ¬ Stops p ts ↔ ∃ t rest, ts = t :: rest ∧ p (kind t) = true := by
  cases ts with
  | nil => simp
  | cons t rest => simp

theorem sees_of_stops {p : Kind → Bool} {ts : List τ} (h : Stops p ts) :
    sees p ts = .ok (false, ts) := by
  cases ts with
  | nil => rfl
  | cons t rest => simp [sees, stops_cons.1 h]

theorem sees_cons {p : Kind → Bool} {t : τ} {ts : List τ} (h : p (kind t) = true) :
    sees p (t :: ts) = .ok (true, t :: ts) := by simp [sees, h]

theorem sees_ok {p : Kind → Bool} {ts rest : List τ} {b : Bool} (h : sees p ts = .ok (b, rest)) :
    rest = ts ∧ (b = true ∧ ¬ Stops p ts ∨ b = false ∧ Stops p ts) := by
  cases ts with
  | nil =>
    simp only [sees, Except.ok.injEq, Prod.mk.injEq] at h
    simp [← h.1, ← h.2]
  | cons t ts =>
    simp only [sees, Except.ok.injEq, Prod.mk.injEq] at h
    obtain ⟨rfl, rfl⟩ := h
    cases hp : p (kind t) <;> simp [hp]

theorem accept_of_stops {p : Kind → Bool} {ts : List τ} (h : Stops p ts) :
    accept p ts = .ok (none, ts) := by
  cases ts with
  | nil => rfl
  | cons t rest => simp [accept, stops_cons.1 h]

theorem accept_cons {p : Kind → Bool} {t : τ} {ts : List τ} (h : p (kind t) = true) :
    accept p (t :: ts) = .ok (some t, ts) := by simp [accept, h]

theorem accept_ok {p : Kind → Bool} {ts rest : List τ} {o : Option τ}
    (h : accept p ts = .ok (o, rest)) :
    (o = none ∧ rest = ts ∧ Stops p ts) ∨ ∃ t, o = some t ∧ ts = t :: rest ∧ p (kind t) = true := by
  by_cases hs : Stops p ts
  · rw [accept_of_stops hs] at h
    simp only [Except.ok.injEq, Prod.mk.injEq] at h
    exact .inl ⟨h.1.symm, h.2.symm, hs⟩
  · obtain ⟨t, ts, rfl, ht⟩ := not_stops_iff.1 hs
    rw [accept_cons ht] at h
    simp only [Except.ok.injEq, Prod.mk.injEq] at h
    exact .inr ⟨t, h.1.symm, by rw [h.2], ht⟩

theorem require_cons {p : Kind → Bool} {t : τ} {ts : List τ} (what : Expected)
    (h : p (kind t) = true) : require p what (t :: ts) = .ok (t, ts) := by simp [require, h]

theorem require_ok {p : Kind → Bool} {what : Expected} {ts rest : List τ} {t : τ}
    (h : require p what ts = .ok (t, rest)) : ts = t :: rest ∧ p (kind t) = true := by
  cases ts with
  | nil => simp [require] at h
  | cons u ts =>
    simp only [require] at h
    split at h
    · next hu =>
      simp only [Except.ok.injEq, Prod.mk.injEq] at h
      exact ⟨by rw [h.1, h.2], h.1 ▸ hu⟩
    · simp at h

theorem expect_cons {k : Kind} {t : τ} {ts : List τ} (what : Expected) (h : kind t = k) :
    expect k what (t :: ts) = .ok (t, ts) := require_cons what (by simp [h])

theorem expect_ok {k : Kind} {what : Expected} {ts rest : List τ} {t : τ}
    (h : expect k what ts = .ok (t, rest)) : ts = t :: rest ∧ kind t = k := by
  obtain ⟨hts, hk⟩ := require_ok h
  exact ⟨hts, by simpa using hk⟩

theorem seesAll_ok {kinds : List Kind} {ts rest : List τ} {b : Bool}
    (h : seesAll kinds ts = .ok (b, rest)) : rest = ts ∧ b = kinds.isPrefixOf (ts.map kind) := by
  simp only [seesAll, Except.ok.injEq, Prod.mk.injEq] at h
  exact ⟨h.2.symm, h.1.symm⟩

theorem iterate_of_none {step : α → Parser τ (Option α)} {a : α} {ts rest : List τ}
    (h : step a ts = .ok (none, rest)) : iterate step a ts = .ok (a, rest) := by
  rw [iterate, h]

theorem iterate_of_some {step : α → Parser τ (Option α)} {a b : α} {ts rest : List τ}
    (h : step a ts = .ok (some b, rest)) (hw : weight rest < weight ts) :
    iterate step a ts = iterate step b rest := by
  rw [iterate, h]
  exact if_pos hw

theorem iterate_map {step : α → Parser τ (Option α)} {step' : β → Parser τ (Option β)} {g : α → β}
    (hs : ∀ a, step' (g a) = Option.map g <$> step a) (a : α) :
    iterate step' (g a) = g <$> iterate step a := by
  funext ts
  rw [map_apply]
  fun_induction iterate step a ts with
  | case1 a ts fault h =>
    rw [iterate, hs, map_apply, h]
  | case2 a ts rest h =>
    rw [iterate, hs, map_apply, h]
    rfl
  | case3 a ts b rest h hw ih =>
    rw [← ih, iterate, hs, map_apply, h]
    simp only [Option.map_some, if_pos hw]
  | case4 a ts b rest h hw =>
    rw [iterate, hs, map_apply, h]
    simp only [Option.map_some, if_neg hw]

/-- What holds at the start of a loop, and is kept by steps that use up input, holds where the loop
ends, and there the step gives none. -/
theorem iterate_invariant {step : α → Parser τ (Option α)} {Inv : α → List τ → Prop}
    (keep : ∀ ⦃a b : α⦄ ⦃ts rest : List τ⦄, Inv a ts → step a ts = .ok (some b, rest) →
      weight rest < weight ts ∧ Inv b rest)
    {a c : α} {ts rest : List τ} (start : Inv a ts) (h : iterate step a ts = .ok (c, rest)) :
    ∃ mid, Inv c mid ∧ step c mid = .ok (none, rest) := by
  fun_induction iterate step a ts with
  | case1 a ts fault hs => simp at h
  | case2 a ts left hs =>
    simp only [Except.ok.injEq, Prod.mk.injEq] at h
    obtain ⟨rfl, rfl⟩ := h
    exact ⟨ts, start, hs⟩
  | case3 a ts b left hs hw ih => exact ih (keep start hs).2 h
  | case4 a ts b left hs hw => exact absurd (keep start hs).1 hw

/-- Reading with `p` and then looping is the same as looping from `a` where `rest` is left. -/
def Resumes (p : Parser τ α) (step : α → Parser τ (Option α)) (ts : List τ) (a : α)
    (rest : List τ) : Prop :=
  ∃ first mid, p ts = .ok (first, mid) ∧ iterate step first mid = iterate step a rest

theorem Resumes.start {p : Parser τ α} (step : α → Parser τ (Option α)) {ts rest : List τ} {a : α}
    (h : p ts = .ok (a, rest)) : Resumes p step ts a rest :=
  ⟨a, rest, h, rfl⟩

theorem Resumes.next {p : Parser τ α} {step : α → Parser τ (Option α)} {ts mid rest : List τ}
    {a b : α} (h : Resumes p step ts a mid) (hs : step a mid = .ok (some b, rest))
    (hw : weight rest < weight mid) : Resumes p step ts b rest := by
  obtain ⟨first, m, hp, hloop⟩ := h
  rw [iterate_of_some hs hw] at hloop
  exact ⟨first, m, hp, hloop⟩

theorem Resumes.finish {p : Parser τ α} {step : α → Parser τ (Option α)} {ts mid rest : List τ}
    {a : α} (h : Resumes p step ts a mid) (hs : step a mid = .ok (none, rest)) :
    (do let first ← p; iterate step first : Parser τ α) ts = .ok (a, rest) := by
  obtain ⟨first, m, hp, hloop⟩ := h
  rw [bind_of_ok hp, hloop]
  exact iterate_of_none hs

omit [TokenView τ] in
theorem whole_ok_iff {p : Parser τ α} {ts rest : List τ} {a : α} :
    whole p ts = .ok (a, rest) ↔ p ts = .ok (a, []) ∧ rest = [] := by
  refine bind_ok_iff.trans ?_
  constructor
  · rintro ⟨b, mid, hp, h⟩
    cases mid with
    | nil =>
      simp only [Except.ok.injEq, Prod.mk.injEq] at h
      exact ⟨h.1 ▸ hp, h.2.symm⟩
    | cons t mid => simp at h
  · rintro ⟨hp, rfl⟩
    exact ⟨a, [], hp, rfl⟩

end Parser

end Seanet
