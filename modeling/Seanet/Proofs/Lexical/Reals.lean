import Seanet.Proofs.Lexical.Numerals
import Seanet.Proofs.Number.Decimals

set_option autoImplicit false

namespace Seanet

namespace Lexical

theorem denoted_append (base : Nat) (s t : Text) :
    denoted base (s ++ t) = denoted base s * base ^ t.length + denoted base t := by
  rw [denoted, List.reverse_append, List.map_append, Nat.ofDigits_append, List.length_map,
    List.length_reverse, Nat.add_comm, Nat.mul_comm]
  rfl

theorem digitValue_lt {u : UInt16} (h : isDigit u = true) : digitValue u < 10 := by
  rw [digitValue, if_pos h]
  simp only [isDigit, Bool.and_eq_true, decide_eq_true_eq] at h
  have hle : u.toNat ≤ 0x39 := h.2
  omega

theorem denoted_lt {digits : Text} (h : ∀ u ∈ digits, isDigit u = true) :
    denoted 10 digits < 10 ^ digits.length := by
  have hlt := Nat.ofDigits_lt_base_pow_length (b := 10) (l := digits.reverse.map digitValue)
    (by decide) fun d hd => by
      obtain ⟨u, hu, rfl⟩ := List.mem_map.1 hd
      exact digitValue_lt (h u (List.mem_reverse.1 hu))
  rwa [List.length_map, List.length_reverse] at hlt

/-- The number that a real without its suffix writes. -/
inductive RealNumber : ℚ → Text → Prop where
  | mk {whole digits point power : Text} {e : Int} (hw : Digits whole) (hf : Fraction digits point)
      (he : Exponent e power) (hn : point ≠ [] ∨ power ≠ []) :
      RealNumber ((denoted 10 whole + denoted 10 digits / 10 ^ digits.length) * 10 ^ e)
        (whole ++ point ++ power)

theorem Fraction.isDigit {digits point : Text} (h : Fraction digits point) :
    ∀ u ∈ digits, isDigit u = true := by
  cases h with
  | none => exact List.forall_mem_nil _
  | some h => exact h.2

theorem RealNumber.decimal {v : ℚ} {body : Text} (h : RealNumber v body) :
    ∃ d, RealBody d body ∧ d.toRat = v ∧ d.digits < 10 ^ d.width := by
  obtain ⟨hw, hf, he, hn⟩ := h
  rename_i whole digits point power e
  refine ⟨_, .mk hw hf he hn, ?_, ?_⟩
  · have hpow : (10 : ℚ) ^ digits.length ≠ 0 := by positivity
    rw [Decimal.toRat, numeral_eq_denoted, denoted_append, zpow_sub₀ (by norm_num), zpow_natCast]
    push_cast
    field_simp
  · rw [numeral_eq_denoted]
    exact denoted_lt fun u hu => (List.mem_append.1 hu).elim (hw.2 u) (hf.isDigit u)

end Lexical

open Lexical

/-- The reals of a text, wherever they stand in it. One that writes a number below the limit of its
type is a token, and its value is the nearest number of the type; any other is no token and is
reported once, where it begins. -/
theorem scan_reals_exact (source : Source) : ∃ pieces : List Piece,
    Cut source [] source.text pieces ∧
    source.scan.tokens = pieces.filterMap Piece.token? ++ [source.endToken] ∧
    source.scan.reports = pieces.filterMap Piece.report? ∧
    ∀ front p back type suffix v body, pieces = front ++ p :: back → RealNumber v body →
      RealSuffix type suffix → p.lexeme = body ++ suffix →
      (∃ x t, v < type.limit ∧ p = .token t ∧ t.kind = type.literal ∧ t.value = some (.real x) ∧
        x.IsDouble ∧ type.Nearest v x ∧ ∀ y, type.Nearest v y → y.toRat = x.toRat) ∨
      (type.limit ≤ v ∧ p.RefusedAs type.name source.text (front.flatMap Piece.lexeme).length) := by
  refine ⟨source.pieces, source.cut_pieces, source.tokens_eq, source.reports_eq, ?_⟩
  intro front p back type suffix v body h hv hs hl
  obtain ⟨d, hbody, rfl, hd⟩ := hv.decimal
  have hspells : Spells (.real type) p.lexeme := hl ▸ .real hbody hs
  obtain ⟨hlimit, hnone⟩ | ⟨x, hlimit, hsome, hdouble, hx⟩ := type.value?_spec hd
  · refine .inr ⟨hlimit, Source.refused_of_outOfRange h hspells ?_⟩
    rw [hl]
    exact (Refuses.realRange hbody hs hnone).read
  · have hread : (Shape.real type).read p.lexeme = .token type.literal (some (.real x)) := by
      simp only [hl, Shape.read, readReal, decimalOf_lexeme hbody hs, hsome]
    obtain ⟨t, hp, hkind, hvalue⟩ := Source.token_of_read h hspells hread
    exact .inl ⟨x, t, hlimit, hp, hkind, hvalue, hdouble, hx, fun y hy => hy.unique hx⟩

-- A tenth as a double, and as a float.
example : (Source.scan ⟨"a.sn", "0.1 1e-1f"⟩).tokens.map Token.value =
    [some (.real ⟨0x1999999999999A, -56⟩), some (.real ⟨0xCCCCCD, -27⟩), none] := by
  decide +kernel

end Seanet
