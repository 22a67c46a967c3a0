import Seanet.Proofs.Grammar.Types
import Seanet.Proofs.Parser.Entry
import Seanet.Tree.Printer

/-!
# Parsing whole types

The entry for types accepts exactly the phrases of `Grammar.IsType`, in the stream in which every
`>>` is cut in two: within a type a `>>` is never anything but two closing marks, however deep the
lists it closes are nested.
-/

set_option autoImplicit false

namespace Seanet

def Token.halves (t : Token) : List Token :=
  if t.kind = .greaterGreater then [t.firstHalf, t.secondHalf] else [t]

def splitAngles (tokens : List Token) : List Token := tokens.flatMap Token.halves

theorem Token.halves_of_ne {t : Token} (h : t.kind ≠ .greaterGreater) : t.halves = [t] := if_neg h

theorem Token.halves_of_eq {t : Token} (h : t.kind = .greaterGreater) :
    t.halves = [t.firstHalf, t.secondHalf] := if_pos h

theorem splitAngles_cons (t : Token) (ts : List Token) :
    splitAngles (t :: ts) = t.halves ++ splitAngles ts := rfl

theorem kind_of_mem_splitAngles {ts : List Token} {u : Token} (h : u ∈ splitAngles ts) :
    u.kind = .greater ∨ (u ∈ ts ∧ u.kind ≠ .greaterGreater) := by
  obtain ⟨t, ht, hu⟩ := List.mem_flatMap.1 h
  by_cases hk : t.kind = .greaterGreater
  · rw [Token.halves_of_eq hk] at hu
    simp only [List.mem_cons, List.not_mem_nil, or_false] at hu
    obtain rfl | rfl := hu <;> exact .inl rfl
  · rw [Token.halves_of_ne hk, List.mem_singleton] at hu
    exact .inr ⟨hu ▸ ht, hu ▸ hk⟩

theorem splitAngles_splitAngles (ts : List Token) :
    splitAngles (splitAngles ts) = splitAngles ts := by
  induction ts with
  | nil => rfl
  | cons t ts ih =>
    by_cases hk : t.kind = .greaterGreater
    · rw [splitAngles_cons, Token.halves_of_eq hk]
      exact congrArg (t.firstHalf :: t.secondHalf :: ·) ih
    · rw [splitAngles_cons, Token.halves_of_ne hk, List.singleton_append, splitAngles_cons,
        Token.halves_of_ne hk, ih]
      rfl

theorem stream_splitAngles (tokens : List Token) :
    (Stream.ofTokens (splitAngles (Stream.ofTokens tokens).tokens)).tokens =
      splitAngles (Stream.ofTokens tokens).tokens := by
  apply Stream.ofTokens_eq_self
  intro u hu
  obtain hk | ⟨hm, -⟩ := kind_of_mem_splitAngles hu
  · simp [hk]
  · exact Stream.kind_ne hm

theorem toOption_eq_of_ok_iff {ε α : Type} {x y : Except ε α} (h : ∀ a, x = .ok a ↔ y = .ok a) :
    x.toOption = y.toOption := by
  cases x with
  | ok a => rw [(h a).1 rfl]
  | error e =>
    cases y with
    | ok a => cases (h a).2 rfl
    | error e' => rfl

namespace Grammar

open Seanet.Parser

theorem splits_splitAngles (ts : List Token) : Splits ts (splitAngles ts) := by
  induction ts with
  | nil => exact .nil []
  | cons t ts ih =>
    rw [splitAngles_cons]
    by_cases ht : t.kind = .greaterGreater
    · rw [Token.halves_of_eq ht]
      exact .half ht (.token t.secondHalf ih)
    · rw [Token.halves_of_ne ht]
      exact .token t ih

/-- A reading without `>>` is the one in which all of them are cut. -/
theorem Splits.eq_splitAngles {ts us : List Token} (h : Splits ts us)
    (hu : ∀ t ∈ us, t.kind ≠ .greaterGreater) : us = splitAngles ts := by
  unfold Splits at h
  generalize hrest : ([] : List Token) = rest at h
  induction h with
  | nil ts => rw [← hrest]; rfl
  | token t _ ih =>
    rw [splitAngles_cons, Token.halves_of_ne (hu t (by simp)),
      ← ih (fun u hm => hu u (by simp [hm])) hrest]
    rfl
  | @half t ts us rest ht _ ih =>
    have hs : t.secondHalf.halves = [t.secondHalf] :=
      Token.halves_of_ne (by simp [Token.secondHalf])
    rw [ih (fun u hm => hu u (by simp [hm])) hrest, splitAngles_cons t, Token.halves_of_eq ht]
    exact congrArg (t.firstHalf :: · ++ splitAngles ts) hs

section

open TokenView (kind)

variable {τ : Type} [SplitView τ]

theorem Brackets.kind_ne {n : Nat} {us : List τ} (h : Brackets n us) :
    ∀ u ∈ us, kind u ≠ .greaterGreater := by
  induction h with
  | nil => simp
  | cons hl hr _ ih => simpa [hl, hr] using ih

theorem TypeOver.kind_ne {F : TypeExpr τ → List τ → Prop} {allowVoid : Bool} {t : TypeExpr τ}
    {us : List τ} (hf : ∀ f us, F f us → ∀ u ∈ us, kind u ≠ .greaterGreater)
    (h : TypeOver F allowVoid t us) : ∀ u ∈ us, kind u ≠ .greaterGreater := by
  cases h with
  | @name isRef rs bs t n hr ht hb =>
    have hname : kind t ≠ .greaterGreater := by
      intro hk
      rw [hk] at ht
      cases allowVoid <;> simp [namesType, isTypeName, Kind.isBuiltinType, Kind.builtinTypes] at ht
    have hmark : ∀ u ∈ rs, kind u ≠ .greaterGreater := by
      cases hr with
      | absent => simp
      | present hr => simp [hr]
    intro u hu
    rw [List.mem_append, List.mem_cons] at hu
    obtain hu | rfl | hu := hu
    · exact hmark u hu
    · exact hname
    · exact hb.kind_ne u hu
  | function h hb =>
    intro u hu
    obtain hu | hu := List.mem_append.1 hu
    · exact hf _ _ h u hu
    · exact hb.kind_ne u hu

theorem FunctionOver.kind_ne {E : TypeExpr τ → List τ → Prop} {f : TypeExpr τ} {us : List τ}
    (he : ∀ t us, E t us → ∀ u ∈ us, kind u ≠ .greaterGreater) (h : FunctionOver E f us) :
    ∀ u ∈ us, kind u ≠ .greaterGreater := by
  cases h with
  | bare ht => simp [ht]
  | list ht hl h hr =>
    have hes : ∀ u ∈ _, kind u ≠ .greaterGreater := h.closed he (fun c hc => by simp [hc]) (by simp)
      fun us vs hu hv => List.forall_mem_append.2 ⟨hu, hv⟩
    intro u hu
    simp only [List.cons_append, List.mem_cons, List.mem_append, List.not_mem_nil, or_false] at hu
    obtain rfl | rfl | hu | rfl := hu
    · simp [ht]
    · simp [hl]
    · exact hes u hu
    · simp [hr]

theorem IsFunctionType.kind_ne {n : Nat} {f : TypeExpr τ} {us : List τ}
    (h : IsFunctionType n f us) : ∀ u ∈ us, kind u ≠ .greaterGreater := by
  induction n generalizing f us with
  | zero => exact FunctionOver.kind_ne (fun _ _ => False.elim) h
  | succ n ih => exact FunctionOver.kind_ne (fun _ _ => TypeOver.kind_ne fun _ _ => ih) h

end

theorem IsType.kind_ne {n : Nat} {allowVoid : Bool} {t : TypeExpr Token} {us : List Token}
    (h : IsType n allowVoid t us) : ∀ u ∈ us, u.kind ≠ .greaterGreater :=
  TypeOver.kind_ne (fun _ _ => IsFunctionType.kind_ne) h

/-- A parser of types reads exactly the types of the cut stream. -/
theorem typeExpr_whole_iff {levels : Nat} {ts : List Token} {t : TypeExpr Token} :
    typeExpr levels true ts = .ok (t, []) ↔ IsType levels true t (splitAngles ts) := by
  constructor
  · intro h
    obtain ⟨us, hu, ht⟩ := typeExpr_sound levels true h
    rwa [← Splits.eq_splitAngles hu ht.kind_ne]
  · intro h
    exact typeExpr_complete levels true (splits_splitAngles ts) ⟨h, stops_nil _⟩

theorem parseType_iff {file : Text} {tokens : List Token} {t : TypeExpr Token} :
    parseType file tokens = .ok t ↔
      IsType maxNesting true t (splitAngles (Stream.ofTokens tokens).tokens) := by
  rw [parseType, run_whole_ok_iff, typeExpr_whole_iff]

/-- Parsing accepts exactly the types of the stream with every `>>` cut in two, and gives their
trees. So it makes no difference whether the marks are cut beforehand. -/
theorem parseType_exact (file : Text) (tokens : List Token) :
    (∀ t, parseType file tokens = .ok t ↔
      IsType maxNesting true t (splitAngles (Stream.ofTokens tokens).tokens)) ∧
    ∀ other : Text, (parseType other (splitAngles (Stream.ofTokens tokens).tokens)).toOption =
      (parseType file tokens).toOption := by
  refine ⟨fun t => parseType_iff, fun other => ?_⟩
  apply toOption_eq_of_ok_iff
  intro t
  rw [parseType_iff, parseType_iff, stream_splitAngles, splitAngles_splitAngles]

end Grammar

end Seanet
