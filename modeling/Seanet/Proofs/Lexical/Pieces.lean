import Seanet.Proofs.Lexical.Fronts
import Seanet.Proofs.Lexical.Lossless

set_option autoImplicit false

namespace Seanet

open Lexical

def Source.pieces (source : Source) : List Piece :=
  (placed .start (Segment.ofText source.text)).map fun (p, s) => s.piece source p

namespace Source

theorem cut_pieces (source : Source) : Cut source [] source.text source.pieces :=
  Segment.cut_ofText (List.nil_append source.text).symm

theorem tokens_eq (source : Source) :
    source.scan.tokens = source.pieces.filterMap Piece.token? ++ [source.endToken] := by
  unfold pieces
  rw [List.filterMap_map]
  simp only [Function.comp_def, Segment.token?_piece]
  rfl

theorem reports_eq (source : Source) :
    source.scan.reports = source.pieces.filterMap Piece.report? := by
  unfold pieces
  rw [List.filterMap_map]
  simp only [Function.comp_def, Segment.report?_piece]
  rfl

theorem text_of_pieces {source : Source} {front back : List Piece} {p : Piece}
    (h : source.pieces = front ++ p :: back) :
    source.text = front.flatMap Piece.lexeme ++ (p.lexeme ++ back.flatMap Piece.lexeme) := by
  rw [← source.cut_pieces.flatMap_lexeme, h, List.flatMap_append, List.flatMap_cons]

theorem mem_scan_iff {source : Source} {t : Token} : t ∈ source.scan.tokens ↔
    (∃ front back, source.pieces = front ++ .token t :: back) ∨ t = source.endToken := by
  rw [source.tokens_eq, List.mem_append, List.mem_singleton, ← List.mem_iff_append]
  refine or_congr_left ⟨fun h => ?_, fun h => List.mem_filterMap.2 ⟨_, h, rfl⟩⟩
  obtain ⟨p, hp, ht⟩ := List.mem_filterMap.1 h
  cases p with
  | blank _ | fault _ _ => cases ht
  | token t' => exact Option.some.inj ht ▸ hp

theorem mem_reports_iff {source : Source} {r : Report} : r ∈ source.scan.reports ↔
    ∃ front l back, source.pieces = front ++ .fault l r :: back := by
  rw [source.reports_eq, List.mem_filterMap]
  constructor
  · rintro ⟨p, hp, hr⟩
    cases p with
    | blank _ | token _ => cases hr
    | fault l r' =>
      obtain rfl := Option.some.inj hr
      obtain ⟨front, back, h⟩ := List.append_of_mem hp
      exact ⟨front, l, back, h⟩
  · rintro ⟨front, l, back, h⟩
    exact ⟨.fault l r, by simp [h], rfl⟩

end Source

/-- Each piece is made from the front of what is left of the text, at the place where it begins. -/
theorem Segment.piece_of_mem_ofText {source : Source} {before text : Text}
    (h : source.text = before ++ text) {front back : List Piece} {p : Piece}
    (hp : ((placed (Place.start.after before) (ofText text)).map fun (p, s) => s.piece source p) =
      front ++ p :: back) :
    ∃ u r, text = front.flatMap Piece.lexeme ++ u :: r ∧
      p = (atFront u r).piece source (Place.start.after (before ++ front.flatMap Piece.lexeme)) ∧
      p.lexeme = (atFront u r).lexeme := by
  fun_induction ofText text generalizing before front with
  | case1 => simp [placed] at hp
  | case2 u r ih =>
    have hfront := atFront_lexeme u r
    obtain ⟨hlexeme, -⟩ := piece_atFront (h.trans (by rw [hfront]))
    rw [placed, List.map_cons] at hp
    cases front with
    | nil =>
      obtain ⟨rfl, -⟩ := List.cons.inj hp
      rw [List.flatMap_nil, List.append_nil]
      exact ⟨u, r, rfl, rfl, hlexeme⟩
    | cons q front =>
      obtain ⟨rfl, htail⟩ := List.cons.inj hp
      simp only at htail hlexeme
      rw [← Place.after_append] at htail
      obtain ⟨v, s, hrest, hpiece, hl⟩ := ih (by rw [h, List.append_assoc, hfront]) htail
      refine ⟨v, s, ?_, ?_, hl⟩
      · rw [← hfront, hrest, List.flatMap_cons, hlexeme, List.append_assoc]
      · rw [hpiece, List.flatMap_cons, hlexeme, List.append_assoc]

theorem Source.piece_at {source : Source} {front back : List Piece} {p : Piece}
    (h : source.pieces = front ++ p :: back) :
    ∃ u r, source.text = front.flatMap Piece.lexeme ++ u :: r ∧
      p = (Segment.atFront u r).piece source (Place.start.after (front.flatMap Piece.lexeme)) ∧
      p.lexeme = (Segment.atFront u r).lexeme :=
  Segment.piece_of_mem_ofText (List.nil_append source.text).symm h

theorem Source.piece_of_spells {source : Source} {front back : List Piece} {p : Piece}
    (h : source.pieces = front ++ p :: back) {shape : Shape} (hs : Spells shape p.lexeme) :
    p = Segment.piece source (Place.start.after (front.flatMap Piece.lexeme))
      ⟨p.lexeme, shape.read p.lexeme⟩ := by
  obtain ⟨u, r, -, hp, hl⟩ := Source.piece_at h
  have hshape : (Shape.atFront u r).shape = shape := by
    -- No more units have been taken than the lexeme has.
    obtain he | ⟨hlt, -⟩ := hs.finds (hl ▸ Segment.atFront_lexeme u r)
    · rw [he]
    · rw [hl, Segment.atFront_length] at hlt
      exact absurd hlt (Nat.lt_irrefl _)
  rw [hl, ← hshape]
  exact hp

end Seanet
