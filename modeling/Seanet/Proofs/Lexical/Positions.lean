import Mathlib.Data.List.Induction
import Seanet.Proofs.Lexical.Lines
import Seanet.Proofs.Lexical.Pieces
import Seanet.Proofs.Lexical.Places

set_option autoImplicit false

namespace Seanet

/-- The offset of the last line feed in a text, or -1 if it has none. -/
inductive LastLineFeed : Text → Int → Prop where
  | none {t : Text} (h : Text.lineFeed ∉ t) : LastLineFeed t (-1)
  | some {s t : Text} (h : Text.lineFeed ∉ t) : LastLineFeed (s ++ Text.lineFeed :: t) s.length

/-- The location of the offset `o` of a text. -/
structure Location.IsAt (text : Text) (o : Nat) (p : Location) : Prop where
  line : p.line = 1 + ((text.take o).count Text.lineFeed : Nat)
  column : ∃ k, LastLineFeed (text.take o) k ∧ p.column = o - k

theorem LastLineFeed.snoc {t : Text} {k : Int} (h : LastLineFeed t k) {u : UInt16}
    (hu : u ≠ Text.lineFeed) : LastLineFeed (t ++ [u]) k := by
  have hnot : ∀ {s : Text}, Text.lineFeed ∉ s → Text.lineFeed ∉ s ++ [u] := by
    intro s hs
    simpa [hs] using hu.symm
  cases h with
  | none hn => exact .none (hnot hn)
  | some hn =>
    rw [List.append_assoc, List.cons_append]
    exact .some (hnot hn)

namespace Place

theorem after_snoc (p : Place) (t : Text) (u : UInt16) :
    p.after (t ++ [u]) = (p.after t).next u := by
  rw [after_append]
  rfl

theorem after_column (t : Text) :
    ∃ k, LastLineFeed t k ∧ ((start.after t).column : Int) = t.length - k := by
  induction t using List.reverseRecOn with
  | nil => exact ⟨-1, .none (by simp), rfl⟩
  | append_singleton t u ih =>
    obtain ⟨k, hk, hcolumn⟩ := ih
    rw [after_snoc, List.length_append, List.length_singleton]
    by_cases hu : u = Text.lineFeed
    · subst hu
      refine ⟨t.length, .some (by simp), ?_⟩
      simp only [next, if_true]
      omega
    · refine ⟨k, hk.snoc hu, ?_⟩
      simp only [next, if_neg hu]
      omega

theorem after_isAt (t rest : Text) : (start.after t).location.IsAt (t ++ rest) t.length where
  line := by
    have hline : (start.after t).line = 1 + t.count Text.lineFeed := after_line start t
    rw [List.take_left]
    simp only [location]
    omega
  column := by
    rw [List.take_left]
    exact after_column t

end Place

def Token.location (t : Token) : Location := ⟨t.line, t.column⟩

def Piece.LocatedAt (text : Text) (o : Nat) : Piece → Prop
  | blank _ => True
  | token t => t.start = o ∧ t.location.IsAt text o
  | fault _ report => report.place.IsAt text o

theorem Segment.piece_locatedAt (source : Source) (before rest : Text) (s : Segment) :
    (s.piece source (Place.start.after before)).LocatedAt (before ++ rest) before.length := by
  have hat := Place.after_isAt before rest
  have hoffset := Place.after_offset .start before
  unfold piece
  cases s.reading with
  | blank => trivial
  | token kind value =>
    refine ⟨?_, hat⟩
    change (Place.start.after before).offset = _
    rw [hoffset]
    exact Nat.zero_add _
  | fault cause => exact hat

theorem placed_before_end (p : Place) {segments : List Segment}
    (hs : ∀ s ∈ segments, s.lexeme ≠ []) :
    ∀ x ∈ placed p segments,
      x.1.location.Before (p.after (segments.flatMap Segment.lexeme)).location := by
  induction segments generalizing p with
  | nil => simp [placed]
  | cons s segments ih =>
    rw [List.forall_mem_cons] at hs
    rw [placed, List.forall_mem_cons, List.flatMap_cons, Place.after_append]
    refine ⟨?_, ih _ hs.2⟩
    rw [← Place.after_append]
    exact p.after_before (by simp [hs.1])

theorem Segment.token?_location {source : Source} {p : Place} {s : Segment} {t : Token}
    (h : s.token? source p = some t) : t.location = p.location := by
  unfold Segment.token? at h
  split at h
  · rw [← Option.some.inj h]
    rfl
  · cases h

theorem Source.tokens_pairwise (source : Source) :
    source.scan.tokens.Pairwise fun t u => t.location.Before u.location := by
  have hne : ∀ s ∈ Segment.ofText source.text, s.lexeme ≠ [] := fun _ => Segment.lexeme_ne_nil
  refine List.pairwise_append.2 ⟨?_, List.pairwise_singleton _ _, ?_⟩
  · refine (placed_pairwise .start hne).filterMap _ fun x y hxy t ht u hu => ?_
    rw [Segment.token?_location ht, Segment.token?_location hu]
    exact hxy
  · intro t ht mark hmark
    obtain ⟨x, hx, hxt⟩ := List.mem_filterMap.1 ht
    obtain rfl := List.mem_singleton.1 hmark
    rw [Segment.token?_location hxt]
    have hend := placed_before_end .start hne x hx
    rwa [Segment.flatMap_lexeme] at hend

/-- What scanning makes of the pieces of a text is located where they begin: tokens by their offset,
line and column, and reports by line and column. The end mark is located behind the last unit. Lines
and columns increase from token to token. -/
theorem scan_positions_exact (source : Source) : ∃ pieces : List Piece,
    Cut source [] source.text pieces ∧
    source.scan.tokens = pieces.filterMap Piece.token? ++ [source.endToken] ∧
    source.scan.reports = pieces.filterMap Piece.report? ∧
    (∀ front p back, pieces = front ++ p :: back →
      p.LocatedAt source.text (front.flatMap Piece.lexeme).length) ∧
    (source.endToken.start = source.text.length ∧
      source.endToken.location.IsAt source.text source.text.length) ∧
    source.scan.tokens.Pairwise fun t u => t.location.Before u.location := by
  refine ⟨source.pieces, source.cut_pieces, source.tokens_eq, source.reports_eq, ?_, ⟨?_, ?_⟩,
    source.tokens_pairwise⟩
  · intro front p back hp
    obtain ⟨u, r, htext, rfl, -⟩ := Source.piece_at hp
    rw [htext]
    exact Segment.piece_locatedAt source _ _ _
  · have hoffset := Place.after_offset .start source.text
    exact hoffset.trans (Nat.zero_add _)
  · have hat := Place.after_isAt source.text []
    rwa [List.append_nil] at hat

end Seanet
