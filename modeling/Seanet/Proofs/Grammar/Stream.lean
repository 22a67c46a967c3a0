import Seanet.Proofs.Parser.Outcome

/-!
# Phrases in a stream

A grammar says which tokens spell a tree. It is a relation of its own, and `Reads` ties it to a
stream: the tokens of a phrase come next, where a `>>` of the stream may be read as two `>`. A
parser is sound for a grammar when what it reads is a phrase, and complete when it reads every
phrase, given what may come behind it.
-/

set_option autoImplicit false

namespace Seanet

/-- Tokens that can be cut in two: the first half of a `>>` is a `>` as well. -/
class SplitView (τ : Type) extends TokenView τ where
  firstHalf : τ → τ
  kind_firstHalf : ∀ t, kind (firstHalf t) = .greater

def Token.firstHalf (t : Token) : Token := { t with kind := .greater, length := 1 }

instance : SplitView Token where
  firstHalf := Token.firstHalf
  kind_firstHalf _ := rfl

namespace Grammar

open TokenView (kind secondHalf kind_secondHalf)
open SplitView (firstHalf kind_firstHalf)
open Seanet.Parser

variable {τ α β σ : Type} [SplitView τ]

/-- The tokens `us` come next in `ts`, and `rest` is left. A `>>` can be read as a whole, or its
first half only; then its second half is what comes next. -/
inductive Reads : List τ → List τ → List τ → Prop where
  | nil (ts : List τ) : Reads ts [] ts
  | token (t : τ) {ts us rest : List τ} (h : Reads ts us rest) : Reads (t :: ts) (t :: us) rest
  | half {t : τ} {ts us rest : List τ} (ht : kind t = .greaterGreater)
      (h : Reads (secondHalf t :: ts) us rest) : Reads (t :: ts) (firstHalf t :: us) rest

def Splits (ts us : List τ) : Prop := Reads ts us []

theorem Splits.refl (ts : List τ) : Splits ts ts := by
  induction ts with
  | nil => exact .nil []
  | cons t ts ih => exact .token t ih

namespace Reads

variable {ts us vs mid rest : List τ} {t : τ}

theorem append (h : Reads ts us mid) (h' : Reads mid vs rest) : Reads ts (us ++ vs) rest := by
  induction h with
  | nil ts => exact h'
  | token t _ ih => exact .token t (ih h')
  | half ht _ ih => exact .half ht (ih h')

theorem single (t : τ) (ts : List τ) : Reads (t :: ts) [t] ts := .token t (.nil ts)

theorem append_inv (h : Reads ts (us ++ vs) rest) : ∃ mid, Reads ts us mid ∧ Reads mid vs rest := by
  induction us generalizing ts with
  | nil => exact ⟨ts, .nil ts, h⟩
  | cons u us ih =>
    cases h with
    | token _ h =>
      obtain ⟨mid, hu, hv⟩ := ih h
      exact ⟨mid, .token u hu, hv⟩
    | half ht h =>
      obtain ⟨mid, hu, hv⟩ := ih h
      exact ⟨mid, .half ht hu, hv⟩

theorem nil_inv (h : Reads ts [] rest) : rest = ts := by
  cases h
  rfl

theorem cons_inv {k : Kind} (h : Reads ts (t :: us) rest) (ht : kind t = k)
    (hk : k ≠ .greater) : ∃ mid, ts = t :: mid ∧ Reads mid us rest := by
  cases h with
  | token _ h => exact ⟨_, rfl, h⟩
  | half _ _ => exact absurd (ht.symm.trans (kind_firstHalf _)) hk

theorem single_inv {k : Kind} (h : Reads ts [t] rest) (ht : kind t = k)
    (hk : k ≠ .greater) : ts = t :: rest := by
  obtain ⟨mid, rfl, hnil⟩ := h.cons_inv ht hk
  rw [hnil.nil_inv]

theorem weight_le (h : Reads ts us rest) : weight rest + us.length ≤ weight ts := by
  induction h with
  | nil ts => simp
  | token t _ ih =>
    have ht : 1 ≤ tokenWeight t := by
      unfold tokenWeight
      split <;> omega
    simp only [weight, List.length_cons]
    omega
  | @half t ts us rest ht _ ih =>
    have hw : tokenWeight t = 2 := by simp [tokenWeight, ht]
    have hs : tokenWeight (secondHalf t) = 1 := by simp [tokenWeight, kind_secondHalf]
    simp only [weight, hw, hs, List.length_cons] at ih ⊢
    omega

theorem weight_lt (h : Reads ts us rest) (hu : us ≠ []) : weight rest < weight ts := by
  have hw := h.weight_le
  have hl := List.length_pos_iff.2 hu
  omega

end Reads

theorem expectClosingAngle_of_reads {ts us rest : List τ} {t : τ} (h : Reads ts (t :: us) rest)
    (ht : kind t = .greater) :
    ∃ mid, expectClosingAngle ts = .ok ((), mid) ∧ Reads mid us rest := by
  cases h with
  | token _ h => exact ⟨_, by simp [expectClosingAngle, ht], h⟩
  | half hs h => exact ⟨_, by simp [expectClosingAngle, hs], h⟩

theorem reads_of_expectClosingAngle {ts rest : List τ}
    (h : expectClosingAngle ts = .ok ((), rest)) : ∃ t, kind t = .greater ∧ Reads ts [t] rest := by
  cases ts with
  | nil => simp [expectClosingAngle] at h
  | cons t ts =>
    simp only [expectClosingAngle] at h
    split at h
    · next ht =>
      obtain rfl : ts = rest := by simpa using h
      exact ⟨t, ht, .single t ts⟩
    · split at h
      · next ht =>
        obtain rfl : secondHalf t :: ts = rest := by simpa using h
        exact ⟨firstHalf t, kind_firstHalf t, .half ht (.nil _)⟩
      · simp at h

/-- Whatever `p` reads is a phrase of `G`. The last argument of `G` is what is left behind it. -/
def Sound (p : Parser τ α) (G : α → List τ → List τ → Prop) : Prop :=
  ∀ ⦃ts rest : List τ⦄ ⦃a : α⦄, p ts = .ok (a, rest) → ∃ us, Reads ts us rest ∧ G a us rest

def SoundFrom (first : Kind → Bool) (p : Parser τ α) (G : α → List τ → List τ → Prop) : Prop :=
  ∀ ⦃ts rest : List τ⦄ ⦃a : α⦄, ¬ Stops first ts → p ts = .ok (a, rest) →
    ∃ us, Reads ts us rest ∧ G a us rest

theorem Sound.soundFrom {p : Parser τ α} {G : α → List τ → List τ → Prop} (h : Sound p G)
    (first : Kind → Bool) : SoundFrom first p G :=
  fun _ _ _ _ hp => h hp

def Complete (p : Parser τ α) (G : α → List τ → List τ → Prop) : Prop :=
  ∀ ⦃ts us rest : List τ⦄ ⦃a : α⦄, Reads ts us rest → G a us rest → p ts = .ok (a, rest)

theorem Complete.anywhere {p : Parser τ α} {G : α → List τ → Prop}
    (h : Complete p fun a us _ => G a us) :
    Complete p fun a us rest => G a us ∧ Stops (fun _ => false) rest :=
  fun _ _ _ _ hu hg => h hu hg.1

def Begins (p : Kind → Bool) (us : List τ) : Prop := ∃ t vs, us = t :: vs ∧ p (kind t) = true

theorem Begins.ne_nil {p : Kind → Bool} {us : List τ} (h : Begins p us) : us ≠ [] := by
  obtain ⟨t, vs, rfl, -⟩ := h
  simp

theorem Begins.imp {p q : Kind → Bool} {us : List τ} (h : Begins p us)
    (hq : ∀ k, p k = true → q k = true) : Begins q us := by
  obtain ⟨t, vs, rfl, ht⟩ := h
  exact ⟨t, vs, rfl, hq _ ht⟩

theorem Begins.append {p : Kind → Bool} {us : List τ} (h : Begins p us) (vs : List τ) :
    Begins p (us ++ vs) := by
  obtain ⟨t, ws, rfl, ht⟩ := h
  exact ⟨t, ws ++ vs, rfl, ht⟩

/-- A stream begins with the first token of its next phrase, unless that token is a `>`. -/
theorem Begins.stream {p : Kind → Bool} {ts us rest : List τ} (hu : Begins p us)
    (h : Reads ts us rest) (hp : p .greater = false) :
    ∃ t mid, ts = t :: mid ∧ p (kind t) = true := by
  obtain ⟨t, vs, rfl, ht⟩ := hu
  obtain ⟨mid, rfl, -⟩ := h.cons_inv rfl (fun hk => by rw [hk, hp] at ht; cases ht)
  exact ⟨t, mid, rfl, ht⟩

theorem Begins.stops {p q : Kind → Bool} {ts us rest : List τ} (hu : Begins p us)
    (h : Reads ts us rest) (hp : p .greater = false) (hq : ∀ k, p k = true → q k = false) :
    Stops q ts := by
  obtain ⟨t, mid, rfl, ht⟩ := hu.stream h hp
  exact stops_cons.2 (hq _ ht)

theorem Begins.stops_kind {p : Kind → Bool} {k : Kind} {ts us rest : List τ} (hu : Begins p us)
    (h : Reads ts us rest) (hp : p .greater = false) (hk : p k = false) : Stops (· == k) ts := by
  refine hu.stops h hp fun k' hk' => beq_false_of_ne ?_
  rintro rfl
  rw [hk] at hk'
  cases hk'

end Grammar

end Seanet
