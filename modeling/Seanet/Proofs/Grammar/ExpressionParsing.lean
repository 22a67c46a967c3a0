import Seanet.Proofs.Grammar.Angles
import Seanet.Proofs.Parser.Entry

set_option autoImplicit false

namespace Seanet

namespace Grammar

open Seanet.Parser

theorem expression_whole_iff {τ : Type} [SplitView τ] {n : Nat} {ts : List τ} {e : Expr τ} :
    expression n ts = .ok (e, []) ↔ ∃ us, Splits ts us ∧ Spells n e us := by
  constructor
  · intro h
    exact expression_sound n h
  · rintro ⟨us, hu, he⟩
    exact expression_complete n hu ⟨he, stops_nil _⟩

/-- Parsing gives the canonical tree whose tokens are the stream, a `>>` standing for two `>` where
the first of them closes a function type. -/
theorem parseExpr_exact (file : Text) (tokens : List Token) (e : Expr Token) :
    parseExpr file tokens = .ok e ↔ e.Canonical ∧
      ∃ us, SplitsClosing [] (Stream.ofTokens tokens).tokens us ∧ Yields maxNesting e us := by
  rw [parseExpr, run_whole_ok_iff, expression_whole_iff]
  constructor
  · rintro ⟨us, hu, he⟩
    exact ⟨he.1, us, Splits.closing hu he.anglesClose, he.2⟩
  · rintro ⟨hc, us, hu, hy⟩
    exact ⟨us, hu.splits, hc, hy⟩

end Grammar

end Seanet
