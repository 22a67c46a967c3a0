import Seanet.Lexical.Scan
import Seanet.Proofs.Lexical.Extent

set_option autoImplicit false

namespace Seanet

open Lexical

/-- A piece of a text and what scanning makes of it. -/
inductive Piece where
  | blank (unit : UInt16)
  | token (t : Token)
  | fault (lexeme : Text) (report : Report)

namespace Piece

def lexeme : Piece → Text
  | blank u => [u]
  | token t => t.lexeme
  | fault text _ => text

def token? : Piece → Option Token
  | token t => some t
  | _ => none

def report? : Piece → Option Report
  | fault _ r => some r
  | _ => none

/-- What a piece is where the text `before` stands in front of it and its shape is known: the
reading of its own units. A token points at them, and a report at the place where they begin. -/
def StandsAt (source : Source) (before : Text) (shape : Shape) : Piece → Prop
  | blank u => isBlank u = true
  | token t => shape.read t.lexeme = .token t.kind t.value ∧ t.kind ≠ .eof ∧ t.source = source ∧
      t.start = before.length ∧ t.length = t.lexeme.length
  | fault text r => ∃ cause, shape.read text = .fault cause ∧
      r = ⟨source.name, (Place.start.after before).location, cause.message, cause.code⟩

end Piece

/-- The pieces are the text behind `before`. Each has the shape of the text that begins with it, and
all the units that the shape asks for. -/
inductive Cut (source : Source) : Text → Text → List Piece → Prop where
  | nil (before : Text) : Cut source before [] []
  | cons {before rest r : Text} {u : UInt16} {p : Piece} {pieces : List Piece}
      (hp : p.StandsAt source before (Shape.atFront u r).shape) (ht : p.lexeme ++ rest = u :: r)
      (hs : p.lexeme.length = (Shape.atFront u r).size)
      (h : Cut source (before ++ p.lexeme) rest pieces) : Cut source before (u :: r) (p :: pieces)

theorem Cut.flatMap_lexeme {source : Source} {before text : Text} {pieces : List Piece}
    (h : Cut source before text pieces) : pieces.flatMap Piece.lexeme = text := by
  induction h with
  | nil _ => rfl
  | cons _ ht _ _ ih => rw [List.flatMap_cons, ih, ht]

theorem Cut.lexeme_ne_nil {source : Source} {before text : Text} {pieces : List Piece}
    (h : Cut source before text pieces) : ∀ p ∈ pieces, p.lexeme ≠ [] := by
  induction h with
  | nil _ => simp
  | @cons _ _ r u p _ _ _ hs _ ih =>
    have hpos := (Shape.atFront_size u r).1
    rw [← hs] at hpos
    exact List.forall_mem_cons.2 ⟨List.ne_nil_of_length_pos hpos, ih⟩

namespace Place

theorem after_append (p : Place) (s t : Text) : p.after (s ++ t) = (p.after s).after t :=
  List.foldl_append

theorem after_offset (p : Place) (t : Text) : (p.after t).offset = p.offset + t.length := by
  induction t generalizing p with
  | nil => rfl
  | cons u t ih =>
    have hnext : (p.next u).offset = p.offset + 1 := by
      unfold next
      split <;> rfl
    change ((p.next u).after t).offset = _
    rw [ih, hnext, List.length_cons]
    omega

end Place

namespace Segment

theorem atFront_lexeme (u : UInt16) (r : Text) :
    (atFront u r).lexeme ++ r.drop ((Shape.atFront u r).size - 1) = u :: r := by
  change u :: (r.take _ ++ r.drop _) = _
  rw [List.take_append_drop]

theorem atFront_length (u : UInt16) (r : Text) :
    (atFront u r).lexeme.length = (Shape.atFront u r).size := by
  have h := Shape.atFront_size u r
  change (r.take _).length + 1 = _
  rw [List.length_take]
  omega

theorem atFront_reading (u : UInt16) (r : Text) :
    (isBlank u = true ∧ atFront u r = ⟨[u], .blank⟩) ∨ (atFront u r).reading.IsProper := by
  obtain ⟨hu, h⟩ | h := Shape.atFront_cases u r
  · refine .inl ⟨hu, ?_⟩
    simp [atFront, h, Shape.read]
  · exact .inr (Shape.read_isProper h.not_blank h.not_end _)

def piece (source : Source) (p : Place) (s : Segment) : Piece :=
  match s.reading with
  | .blank => .blank (s.lexeme.headD 0)
  | .token kind value => .token ⟨kind, p.offset, s.lexeme.length, p.line, p.column, source, value⟩
  | .fault cause => .fault s.lexeme ⟨source.name, p.location, cause.message, cause.code⟩

theorem token?_piece (source : Source) (p : Place) (s : Segment) :
    (s.piece source p).token? = s.token? source p := by
  unfold piece token?
  cases s.reading <;> rfl

theorem report?_piece (source : Source) (p : Place) (s : Segment) :
    (s.piece source p).report? = s.report? source p := by
  unfold piece report?
  cases s.reading <;> rfl

theorem slice_eq {before lexeme rest : Text} :
    Text.slice (before ++ (lexeme ++ rest)) before.length lexeme.length = lexeme := by
  rw [Text.slice, List.drop_left, List.take_left]

theorem piece_atFront {source : Source} {before r rest : Text} {u : UInt16}
    (hsource : source.text = before ++ ((atFront u r).lexeme ++ rest)) :
    ((atFront u r).piece source (Place.start.after before)).lexeme = (atFront u r).lexeme ∧
      ((atFront u r).piece source (Place.start.after before)).StandsAt source before
        (Shape.atFront u r).shape := by
  obtain ⟨hu, hs⟩ | ⟨hblank, hend⟩ := atFront_reading u r
  · rw [hs]
    exact ⟨rfl, hu⟩
  · have hread : (Shape.atFront u r).shape.read (atFront u r).lexeme = (atFront u r).reading := rfl
    have hoffset : (Place.start.after before).offset = before.length := by
      rw [Place.after_offset]
      exact Nat.zero_add _
    unfold piece
    cases hr : (atFront u r).reading with
    | blank => exact absurd hr hblank
    | token kind value =>
      have hlexeme : Text.slice source.text (Place.start.after before).offset
          (atFront u r).lexeme.length = (atFront u r).lexeme := by
        rw [hsource, hoffset, slice_eq]
      refine ⟨hlexeme, ?_, ?_, rfl, hoffset, ?_⟩
      · change (Shape.atFront u r).shape.read (Text.slice _ _ _) = _
        rw [hlexeme, hread, hr]
      · intro hk
        obtain rfl : kind = .eof := hk
        exact hend value hr
      · change _ = (Text.slice _ _ _).length
        rw [hlexeme]
    | fault cause => exact ⟨rfl, cause, hread.trans hr, rfl⟩

theorem cut_ofText {source : Source} {before text : Text} (h : source.text = before ++ text) :
    Cut source before text ((placed (Place.start.after before) (ofText text)).map fun (p, s) =>
      s.piece source p) := by
  fun_induction ofText text generalizing before with
  | case1 => exact .nil before
  | case2 u r ih =>
    have hfront := atFront_lexeme u r
    obtain ⟨hlexeme, hstands⟩ := piece_atFront (h.trans (by rw [hfront]))
    rw [placed, List.map_cons]
    refine .cons hstands (hlexeme ▸ hfront) (hlexeme ▸ atFront_length u r) ?_
    rw [hlexeme, ← Place.after_append]
    apply ih
    rw [h, List.append_assoc, hfront]

end Segment

/-- Every unit of a text belongs to one piece: a blank, a token or a fault. The tokens that scanning
gives are those of the pieces, in order, with one end mark behind the text, and the reports are
those of the faults. -/
theorem scan_lossless (source : Source) : ∃ pieces : List Piece,
    Cut source [] source.text pieces ∧ pieces.flatMap Piece.lexeme = source.text ∧
    (∀ p ∈ pieces, p.lexeme ≠ []) ∧
    (∃ mark : Token, mark.kind = .eof ∧ mark.length = 0 ∧ mark.start = source.text.length ∧
      source.scan.tokens = pieces.filterMap Piece.token? ++ [mark]) ∧
    source.scan.reports = pieces.filterMap Piece.report? := by
  have hcut : Cut source [] source.text _ := Segment.cut_ofText (List.nil_append source.text).symm
  refine ⟨_, hcut, hcut.flatMap_lexeme, hcut.lexeme_ne_nil, ⟨source.endToken, rfl, rfl, ?_, ?_⟩, ?_⟩
  · change (Place.start.after source.text).offset = _
    rw [Place.after_offset]
    exact Nat.zero_add _
  · rw [List.filterMap_map]
    simp only [Function.comp_def, Segment.token?_piece]
    rfl
  · rw [List.filterMap_map]
    simp only [Function.comp_def, Segment.report?_piece]
    rfl

end Seanet
