import Seanet.Proofs.Grammar.Stream

set_option autoImplicit false

namespace Seanet

namespace Grammar

open TokenView (kind)
open Seanet.Parser

variable {τ α σ : Type}

/-- Phrases of `G` one after the other. -/
inductive Sequence (G : α → List τ → Prop) : List α → List τ → Prop where
  | nil : Sequence G [] []
  | cons {a : α} {as : List α} {us vs : List τ} (h : G a us) (hs : Sequence G as vs) :
      Sequence G (a :: as) (us ++ vs)

theorem Sequence.snoc {G : α → List τ → Prop} {a : α} {as : List α} {us vs : List τ}
    (hs : Sequence G as us) (h : G a vs) : Sequence G (as ++ [a]) (us ++ vs) := by
  induction hs with
  | nil => simpa using Sequence.cons h .nil
  | cons h' _ ih => simpa using Sequence.cons h' ih

variable [SplitView τ]

/-- Phrases of `G` with a comma before each. -/
inductive Commas (G : α → List τ → Prop) : List α → List τ → Prop where
  | nil : Commas G [] []
  | cons {c : τ} {a : α} {as : List α} {us vs : List τ} (hc : kind c = .comma) (h : G a us)
      (hs : Commas G as vs) : Commas G (a :: as) (c :: us ++ vs)

/-- One or more phrases of `G` with commas between them. -/
inductive Separated (G : α → List τ → Prop) : List α → List τ → Prop where
  | mk {a : α} {as : List α} {us vs : List τ} (h : G a us) (hs : Commas G as vs) :
      Separated G (a :: as) (us ++ vs)

/-- Phrases of `G` with commas between them, or none. -/
inductive Listed (G : α → List τ → Prop) : List α → List τ → Prop where
  | none : Listed G [] []
  | some {as : List α} {us : List τ} (h : Separated G as us) : Listed G as us

omit [SplitView τ] in
theorem Sequence.phrase_of_mem {G : α → List τ → Prop} {as : List α} {us : List τ}
    (h : Sequence G as us) : ∀ a ∈ as, ∃ vs, G a vs ∧ vs <:+: us := by
  induction h with
  | nil => simp
  | @cons a as us vs h _ ih =>
    refine List.forall_mem_cons.2 ⟨⟨us, h, [], vs, rfl⟩, fun b hb => ?_⟩
    obtain ⟨ws, hw, hi⟩ := ih b hb
    exact ⟨ws, hw, hi.trans (List.suffix_append us vs).isInfix⟩

theorem Commas.phrase_of_mem {G : α → List τ → Prop} {as : List α} {us : List τ}
    (h : Commas G as us) : ∀ a ∈ as, ∃ vs, G a vs ∧ vs <:+: us := by
  induction h with
  | nil => simp
  | @cons c a as us vs _ h _ ih =>
    refine List.forall_mem_cons.2 ⟨⟨us, h, [c], vs, rfl⟩, fun b hb => ?_⟩
    obtain ⟨ws, hw, hi⟩ := ih b hb
    exact ⟨ws, hw, hi.trans (List.suffix_append (c :: us) vs).isInfix⟩

theorem Separated.phrase_of_mem {G : α → List τ → Prop} {as : List α} {us : List τ}
    (h : Separated G as us) : ∀ a ∈ as, ∃ vs, G a vs ∧ vs <:+: us := by
  cases h with
  | @mk a as us vs h hs =>
    refine List.forall_mem_cons.2 ⟨⟨us, h, [], vs, rfl⟩, fun b hb => ?_⟩
    obtain ⟨ws, hw, hi⟩ := hs.phrase_of_mem b hb
    exact ⟨ws, hw, hi.trans (List.suffix_append us vs).isInfix⟩

theorem Listed.phrase_of_mem {G : α → List τ → Prop} {as : List α} {us : List τ}
    (h : Listed G as us) : ∀ a ∈ as, ∃ vs, G a vs ∧ vs <:+: us := by
  cases h with
  | none => simp
  | some h => exact h.phrase_of_mem

theorem Commas.snoc {G : α → List τ → Prop} {a : α} {as : List α} {us vs : List τ} {c : τ}
    (hs : Commas G as us) (hc : kind c = .comma) (h : G a vs) :
    Commas G (as ++ [a]) (us ++ c :: vs) := by
  induction hs with
  | nil => simpa using Commas.cons hc h .nil
  | cons hd h' _ ih => simpa using Commas.cons hd h' ih

omit [SplitView τ] in
theorem sequence_and_iff {P : α → Prop} {G : α → List τ → Prop} {as : List α} {us : List τ} :
    Sequence (fun a us => P a ∧ G a us) as us ↔ (∀ a ∈ as, P a) ∧ Sequence G as us := by
  constructor
  · intro h
    induction h with
    | nil => exact ⟨by simp, .nil⟩
    | cons h _ ih => exact ⟨by simpa using ⟨h.1, ih.1⟩, .cons h.2 ih.2⟩
  · rintro ⟨hp, h⟩
    induction h with
    | nil => exact .nil
    | cons h _ ih =>
      rw [List.forall_mem_cons] at hp
      exact .cons ⟨hp.1, h⟩ (ih hp.2)

theorem commas_and_iff {P : α → Prop} {G : α → List τ → Prop} {as : List α} {us : List τ} :
    Commas (fun a us => P a ∧ G a us) as us ↔ (∀ a ∈ as, P a) ∧ Commas G as us := by
  constructor
  · intro h
    induction h with
    | nil => exact ⟨by simp, .nil⟩
    | cons hc h _ ih => exact ⟨by simpa using ⟨h.1, ih.1⟩, .cons hc h.2 ih.2⟩
  · rintro ⟨hp, h⟩
    induction h with
    | nil => exact .nil
    | cons hc h _ ih =>
      rw [List.forall_mem_cons] at hp
      exact .cons hc ⟨hp.1, h⟩ (ih hp.2)

/-- A property of items can be taken out of the grammar of their list. -/
theorem listed_and_iff {P : α → Prop} {G : α → List τ → Prop} {as : List α} {us : List τ} :
    Listed (fun a us => P a ∧ G a us) as us ↔ (∀ a ∈ as, P a) ∧ Listed G as us := by
  constructor
  · rintro (_ | ⟨⟨⟨hp, hg⟩, hs⟩⟩)
    · exact ⟨by simp, .none⟩
    · obtain ⟨hps, hs⟩ := commas_and_iff.1 hs
      exact ⟨by simpa using ⟨hp, hps⟩, .some (.mk hg hs)⟩
  · rintro ⟨hp, _ | ⟨⟨hg, hs⟩⟩⟩
    · exact .none
    · rw [List.forall_mem_cons] at hp
      exact .some (.mk ⟨hp.1, hg⟩ (commas_and_iff.2 ⟨hp.2, hs⟩))

theorem Separated.closed {G : α → List τ → Prop} {P : List τ → Prop} {as : List α} {us : List τ}
    (h : Separated G as us) (hg : ∀ a us, G a us → P us) (hc : ∀ c, kind c = .comma → P [c])
    (hn : P []) (hp : ∀ us vs, P us → P vs → P (us ++ vs)) : P us := by
  have hcommas : ∀ {as : List α} {us : List τ}, Commas G as us → P us := by
    intro as us hs
    induction hs with
    | nil => exact hn
    | @cons c a as us vs hk h _ ih => exact hp [c] _ (hc c hk) (hp us vs (hg a us h) ih)
  cases h with
  | mk h hs => exact hp _ _ (hg _ _ h) (hcommas hs)

omit [SplitView τ] in
theorem Sequence.closed {G : α → List τ → Prop} {P : List τ → Prop} {as : List α} {us : List τ}
    (h : Sequence G as us) (hg : ∀ a us, G a us → P us) (hn : P [])
    (hp : ∀ us vs, P us → P vs → P (us ++ vs)) : P us := by
  induction h with
  | nil => exact hn
  | cons h _ ih => exact hp _ _ (hg _ _ h) ih

def commaStep (item : Parser τ α) (add : σ → α → σ) (s : σ) : Parser τ (Option σ) := do
  match ← accept (· == .comma) with
  | none => return none
  | some _ =>
    let a ← item
    return some (add s a)

theorem commaStep_sound {item : Parser τ α} {G : α → List τ → Prop} {add : σ → α → σ}
    (hi : Sound item fun a us _ => G a us) {s s' : σ} {ts rest : List τ}
    (h : commaStep item add s ts = .ok (some s', rest)) :
    ∃ c a us, Reads ts (c :: us) rest ∧ kind c = .comma ∧ G a us ∧ s' = add s a := by
  rw [commaStep, bind_ok_iff] at h
  obtain ⟨o, mid, ho, h⟩ := h
  obtain ⟨rfl, rfl, -⟩ | ⟨c, rfl, rfl, hc⟩ := accept_ok ho
  · cases (pure_ok_iff.1 h).1
  · simp only [bind_ok_iff, pure_ok_iff] at h
    obtain ⟨a, mid', ha, hs, rfl⟩ := h
    obtain ⟨us, hr, hg⟩ := hi ha
    exact ⟨c, a, us, .token c hr, by simpa using hc, hg, Option.some.inj hs⟩

theorem commas_sound {item : Parser τ α} {G : α → List τ → Prop} {add : σ → α → σ}
    (hi : Sound item fun a us _ => G a us) (s : σ) :
    Sound (iterate (commaStep item add) s) fun s' us _ =>
      ∃ as, Commas G as us ∧ s' = as.foldl add s := by
  intro ts rest s' h
  have keep : ∀ ⦃s₁ s₂ : σ⦄ ⦃ts₁ ts₂ : List τ⦄,
      (∃ as us, Reads ts us ts₁ ∧ Commas G as us ∧ s₁ = as.foldl add s) →
      commaStep item add s₁ ts₁ = .ok (some s₂, ts₂) →
      weight ts₂ < weight ts₁ ∧
        ∃ as us, Reads ts us ts₂ ∧ Commas G as us ∧ s₂ = as.foldl add s := by
    rintro s₁ s₂ ts₁ ts₂ ⟨as, us, hr, hs, rfl⟩ hstep
    obtain ⟨c, a, vs, hv, hc, hg, rfl⟩ := commaStep_sound hi hstep
    exact ⟨hv.weight_lt (by simp), as ++ [a], us ++ c :: vs, hr.append hv, hs.snoc hc hg, by simp⟩
  obtain ⟨mid, ⟨as, us, hr, hs, rfl⟩, hn⟩ :=
    iterate_invariant keep ⟨[], [], .nil ts, .nil, rfl⟩ h
  rw [commaStep, bind_ok_iff] at hn
  obtain ⟨o, mid', ho, hn⟩ := hn
  obtain ⟨rfl, rfl, -⟩ | ⟨c, rfl, rfl, -⟩ := accept_ok ho
  · obtain ⟨-, rfl⟩ := pure_ok_iff.1 hn
    exact ⟨us, hr, as, hs, rfl⟩
  · simp [bind_ok_iff, pure_ok_iff] at hn

theorem commas_complete {item : Parser τ α} {G : α → List τ → Prop} (add : σ → α → σ)
    {longer : Kind → Bool} (hl : longer .comma = false)
    (hi : Complete item fun a us rest => G a us ∧ Stops longer rest) {as : List α}
    {ts us rest : List τ} (hs : Commas G as us) (hr : Reads ts us rest) (hn : Stops longer rest)
    (hc : Stops (· == .comma) rest) (s : σ) :
    iterate (commaStep item add) s ts = .ok (as.foldl add s, rest) ∧ Stops longer ts := by
  -- An item is read to its end only when the tokens behind it do not lengthen it, so the induction
  -- also says what the list in `ts` begins with.
  induction hs generalizing ts s with
  | nil =>
    obtain rfl := hr.nil_inv
    refine ⟨iterate_of_none ?_, hn⟩
    rw [commaStep, bind_of_ok (accept_of_stops hc)]
    rfl
  | @cons c a as us vs hk hg hs ih =>
    obtain ⟨ts, rfl, hr'⟩ := hr.cons_inv hk (by decide)
    obtain ⟨mid, hu, hv⟩ := hr'.append_inv
    have ⟨hloop, hstop⟩ := ih hv (add s a)
    have hstep : commaStep item add s (c :: ts) = .ok (some (add s a), mid) := by
      rw [commaStep, bind_of_ok (accept_cons (by simp [hk]))]
      exact bind_of_ok (hi hu ⟨hg, hstop⟩)
    refine ⟨?_, by simp [hk, hl]⟩
    rw [iterate_of_some hstep ((Reads.token c hu).weight_lt (by simp)), hloop]
    rfl

theorem foldl_snoc (as bs : List α) : bs.foldl (fun items a => items ++ [a]) as = as ++ bs := by
  induction bs generalizing as with
  | nil => simp
  | cons b bs ih => simp [ih]

theorem separated_eq (item : Parser τ α) : separated item =
    (do let first ← item; iterate (commaStep item fun items a => items ++ [a]) [first]) := rfl

theorem separated_sound {item : Parser τ α} {G : α → List τ → Prop}
    (hi : Sound item fun a us _ => G a us) :
    Sound (separated item) fun as us _ => Separated G as us := by
  intro ts rest as h
  rw [separated_eq, bind_ok_iff] at h
  obtain ⟨a, mid, ha, h⟩ := h
  obtain ⟨us, hu, hg⟩ := hi ha
  obtain ⟨vs, hv, bs, hs, rfl⟩ := commas_sound hi [a] h
  refine ⟨us ++ vs, hu.append hv, ?_⟩
  rw [foldl_snoc]
  exact .mk hg hs

theorem separated_complete {item : Parser τ α} {G : α → List τ → Prop} {longer : Kind → Bool}
    (hl : longer .comma = false) (hi : Complete item fun a us rest => G a us ∧ Stops longer rest) :
    Complete (separated item) fun as us rest =>
      Separated G as us ∧ Stops longer rest ∧ Stops (· == .comma) rest := by
  rintro ts _ rest _ hr ⟨@⟨a, as, us, vs, hg, hs⟩, hn, hc⟩
  obtain ⟨mid, hu, hv⟩ := hr.append_inv
  obtain ⟨hloop, hstop⟩ := commas_complete (fun items a => items ++ [a]) hl hi hs hv hn hc [a]
  rw [separated_eq, bind_of_ok (hi hu ⟨hg, hstop⟩), hloop, foldl_snoc]
  rfl

theorem listed_sound {item : Parser τ α} {G : α → List τ → Prop} {closing : Kind}
    (hi : Sound item fun a us _ => G a us) :
    Sound (separatedUntil closing item) fun as us _ => Listed G as us := by
  intro ts rest as h
  rw [separatedUntil, bind_ok_iff] at h
  obtain ⟨b, mid, hb, h⟩ := h
  obtain ⟨rfl, ⟨rfl, -⟩ | ⟨rfl, -⟩⟩ := sees_ok hb
  · obtain ⟨rfl, rfl⟩ := pure_ok_iff.1 h
    exact ⟨[], .nil rest, .none⟩
  · obtain ⟨us, hr, hs⟩ := separated_sound hi h
    exact ⟨us, hr, .some hs⟩

theorem listed_complete {item : Parser τ α} {G : α → List τ → Prop} (first : Kind → Bool)
    {longer : Kind → Bool} {closing : Kind} (hf : first closing = false)
    (hg : first .greater = false) (hl : longer .comma = false)
    (hi : Complete item fun a us rest => G a us ∧ Stops longer rest)
    (hb : ∀ a us, G a us → Begins first us) :
    Complete (separatedUntil closing item) fun as us rest =>
      Listed G as us ∧ Begins (· == closing) rest ∧ Stops longer rest ∧
        Stops (· == .comma) rest := by
  rintro ts us rest as hr ⟨hs, ⟨t, vs, rfl, ht⟩, hn, hc⟩
  cases hs with
  | none =>
    obtain rfl := hr.nil_inv
    rw [separatedUntil, bind_of_ok (sees_cons ht)]
    rfl
  | some hs =>
    have hstop : Stops (· == closing) ts := by
      cases hs with
      | mk h _ => exact ((hb _ _ h).append _).stops_kind hr hg hf
    rw [separatedUntil, bind_of_ok (sees_of_stops hstop)]
    exact separated_complete hl hi hr ⟨hs, hn, hc⟩

def manyStep (more : Kind → Bool) (item : Parser τ α) (items : List α) :
    Parser τ (Option (List α)) := do
  if ← sees more then
    let a ← item
    return some (items ++ [a])
  else return none

theorem manyWhile_eq (more : Kind → Bool) (item : Parser τ α) :
    manyWhile more item = iterate (manyStep more item) [] := rfl

theorem manyWhile_sound {item : Parser τ α} {G : α → List τ → Prop} {more : Kind → Bool}
    (hi : SoundFrom more item fun a us _ => G a us ∧ us ≠ []) :
    Sound (manyWhile more item) fun as us rest => Sequence G as us ∧ Stops more rest := by
  intro ts rest as h
  have keep : ∀ ⦃as bs : List α⦄ ⦃ts₁ ts₂ : List τ⦄, (∃ us, Reads ts us ts₁ ∧ Sequence G as us) →
      manyStep more item as ts₁ = .ok (some bs, ts₂) →
      weight ts₂ < weight ts₁ ∧ ∃ us, Reads ts us ts₂ ∧ Sequence G bs us := by
    rintro as bs ts₁ ts₂ ⟨us, hr, hs⟩ hstep
    rw [manyStep, bind_ok_iff] at hstep
    obtain ⟨b, mid, hb, hstep⟩ := hstep
    obtain ⟨rfl, ⟨rfl, hmore⟩ | ⟨rfl, -⟩⟩ := sees_ok hb
    · simp only [if_true, bind_ok_iff, pure_ok_iff] at hstep
      obtain ⟨a, mid', ha, he, rfl⟩ := hstep
      obtain ⟨vs, hv, hg, hne⟩ := hi hmore ha
      refine ⟨hv.weight_lt hne, us ++ vs, hr.append hv, ?_⟩
      rw [Option.some.inj he]
      exact hs.snoc hg
    · cases (pure_ok_iff.1 hstep).1
  rw [manyWhile_eq] at h
  obtain ⟨mid, ⟨us, hr, hs⟩, hn⟩ := iterate_invariant keep ⟨[], .nil ts, .nil⟩ h
  rw [manyStep, bind_ok_iff] at hn
  obtain ⟨b, mid', hb, hn⟩ := hn
  obtain ⟨rfl, ⟨rfl, -⟩ | ⟨rfl, hstop⟩⟩ := sees_ok hb
  · simp [bind_ok_iff, pure_ok_iff] at hn
  · obtain ⟨-, rfl⟩ := pure_ok_iff.1 hn
    exact ⟨us, hr, hs, hstop⟩

/-- Where a loop over items stands does not matter for how it ends: `items` came before. -/
theorem manyWhile_from {item : Parser τ α} {G : α → List τ → Prop}
    {first more longer : Kind → Bool} (hg : first .greater = false)
    (hf : ∀ k, first k = true → more k = true ∧ longer k = false)
    (hi : Complete item fun a us rest => G a us ∧ Stops longer rest)
    (hb : ∀ a us, G a us → Begins first us) {as : List α} {ts us rest : List τ}
    (hs : Sequence G as us) (hr : Reads ts us rest) (hm : Stops more rest) (hn : Stops longer rest)
    (items : List α) :
    iterate (manyStep more item) items ts = .ok (items ++ as, rest) ∧ Stops longer ts := by
  induction hs generalizing ts items with
  | nil =>
    obtain rfl := hr.nil_inv
    refine ⟨?_, hn⟩
    rw [List.append_nil]
    apply iterate_of_none
    rw [manyStep, bind_of_ok (sees_of_stops hm)]
    rfl
  | @cons a as us vs h hs ih =>
    obtain ⟨mid, hu, hv⟩ := hr.append_inv
    obtain ⟨hloop, hstop⟩ := ih hv (items ++ [a])
    have hbegin := hb a us h
    obtain ⟨t, ts, rfl, ht⟩ := hbegin.stream hu hg
    have hstep : manyStep more item items (t :: ts) = .ok (some (items ++ [a]), mid) := by
      rw [manyStep, bind_of_ok (sees_cons (hf _ ht).1)]
      exact bind_of_ok (hi hu ⟨h, hstop⟩)
    refine ⟨?_, stops_cons.2 (hf _ ht).2⟩
    rw [iterate_of_some hstep (hu.weight_lt hbegin.ne_nil), hloop]
    simp

theorem manyWhile_complete {item : Parser τ α} {G : α → List τ → Prop} (first : Kind → Bool)
    {more longer : Kind → Bool} (hg : first .greater = false)
    (hf : ∀ k, first k = true → more k = true ∧ longer k = false)
    (hi : Complete item fun a us rest => G a us ∧ Stops longer rest)
    (hb : ∀ a us, G a us → Begins first us) :
    Complete (manyWhile more item) fun as us rest =>
      Sequence G as us ∧ Stops more rest ∧ Stops longer rest := by
  rintro ts us rest as hr ⟨hs, hm, hn⟩
  rw [manyWhile_eq]
  exact (manyWhile_from hg hf hi hb hs hr hm hn []).1

end Grammar

end Seanet
