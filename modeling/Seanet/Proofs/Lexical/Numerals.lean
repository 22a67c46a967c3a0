import Mathlib.Data.Nat.Digits.Defs
import Seanet.Proofs.Lexical.MaximalMunch
import Seanet.Proofs.Lexical.Positions

set_option autoImplicit false

namespace Seanet

namespace Lexical

def denoted (base : Nat) (digits : Text) : Nat := Nat.ofDigits base (digits.reverse.map digitValue)

theorem numeral_snoc (base : Nat) (t : Text) (u : UInt16) :
    numeral base (t ++ [u]) = numeral base t * base + digitValue u := by
  rw [numeral, List.foldl_append]
  rfl

theorem numeral_eq_denoted (base : Nat) (digits : Text) :
    numeral base digits = denoted base digits := by
  induction digits using List.reverseRecOn with
  | nil => rfl
  | append_singleton t u ih =>
    rw [numeral_snoc, ih, denoted, denoted, List.reverse_append, List.reverse_singleton,
      List.singleton_append, List.map_cons, Nat.ofDigits_cons, Nat.mul_comm, Nat.add_comm]

end Lexical

open Lexical

def Piece.RefusedAs (type : String) (text : Text) (o : Nat) (p : Piece) : Prop :=
  ∃ r : Report, p = .fault p.lexeme r ∧ r.code = .invalidNumber ∧
    ("Failed to parse " ++ type ++ " \"" ++ p.lexeme ++ "\"." : Text) <+: r.message ∧
    r.place.IsAt text o

namespace Source

variable {source : Source} {front back : List Piece} {p : Piece} {shape : Shape}

theorem token_of_read (h : source.pieces = front ++ p :: back) (hs : Spells shape p.lexeme)
    {kind : Kind} {value : Option Value} (hread : shape.read p.lexeme = .token kind value) :
    ∃ t, p = .token t ∧ t.kind = kind ∧ t.value = value := by
  have hp := Source.piece_of_spells h hs
  rw [hread] at hp
  exact ⟨_, hp, rfl, rfl⟩

theorem fault_of_read (h : source.pieces = front ++ p :: back) (hs : Spells shape p.lexeme)
    {cause : LexicalFault} (hread : shape.read p.lexeme = .fault cause) :
    ∃ r : Report, p = .fault p.lexeme r ∧ r.code = cause.code ∧ r.message = cause.message ∧
      r.place.IsAt source.text (front.flatMap Piece.lexeme).length := by
  have hp := Source.piece_of_spells h hs
  obtain ⟨u, r, htext, -⟩ := Source.piece_at h
  rw [hread] at hp
  refine ⟨_, hp, rfl, rfl, ?_⟩
  rw [htext]
  exact Place.after_isAt _ _

theorem refused_of_malformed (h : source.pieces = front ++ p :: back) (hs : Spells shape p.lexeme)
    {type : String} (hread : shape.read p.lexeme = .fault (.malformed type p.lexeme)) :
    p.RefusedAs type source.text (front.flatMap Piece.lexeme).length := by
  obtain ⟨r, hp, hcode, hmessage, hplace⟩ := fault_of_read h hs hread
  exact ⟨r, hp, hcode, ⟨[], by rw [hmessage, List.append_nil]; rfl⟩, hplace⟩

theorem refused_of_outOfRange (h : source.pieces = front ++ p :: back)
    (hs : Spells shape p.lexeme) {type : String}
    (hread : shape.read p.lexeme = .fault (.outOfRange type p.lexeme)) :
    p.RefusedAs type source.text (front.flatMap Piece.lexeme).length := by
  obtain ⟨r, hp, hcode, hmessage, hplace⟩ := fault_of_read h hs hread
  refine ⟨r, hp, hcode, ⟨" Value is out of range.", ?_⟩, hplace⟩
  rw [hmessage]
  simp only [LexicalFault.message, List.append_assoc]
  rfl

end Source

end Seanet
