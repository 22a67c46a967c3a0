import Seanet.Proofs.Lexical.MaximalMunch
import Seanet.Proofs.Lexical.Positions
import Seanet.Proofs.Lexical.Rescanning
import Seanet.Proofs.Lexical.Units
import Seanet.Proofs.Text.Characters

set_option autoImplicit false

namespace Seanet

open Text (unitsOf IsAstral)

namespace Lexical

theorem string_wellFormed {t rest : Text}
    (h : Text.WellFormed (Text.unit '"' :: t ++ [Text.unit '"'] ++ rest) = true) :
    Text.WellFormed (Text.unit '"' :: t ++ [Text.unit '"']) = true ∧ t.WellFormed = true := by
  rw [List.append_assoc] at h
  -- The closing quote is no half of a character, so the text can be cut in front of it.
  have hfront : Text.WellFormed (Text.unit '"' :: t) = true :=
    Text.wellFormed_left h (by rintro _ ⟨⟩; rfl)
  refine ⟨?_, ?_⟩
  · rw [Text.wellFormed_append hfront]
    rfl
  · rwa [Text.wellFormed_cons rfl rfl] at hfront

theorem Longest.wellFormed {shape : Shape} {l rest : Text} (h : Longest (l ++ rest) shape l)
    (ht : Text.WellFormed (l ++ rest) = true) : l.WellFormed = true := by
  have hspells := h.spells
  cases hspells with
  | mark _ | word _ _ | integer _ _ | real _ _ => exact (h.spells.ascii nofun nofun).wellFormed
  | @lineComment t hn =>
    refine Text.wellFormed_left ht fun u hu => ?_
    obtain ⟨r, rfl⟩ := List.head?_eq_some_iff.1 hu
    -- Any other unit than a line feed would belong to the comment.
    obtain rfl : u = Text.lineFeed := by
      by_contra hne
      have hlonger : Spells .comment (Text.unit '/' :: Text.unit '/' :: (t ++ [u])) :=
        .lineComment (by simpa [hn] using Ne.symm hne)
      have hlength := h.longest _ _ hlonger ⟨r, by simp⟩
      simp only [List.length_cons, List.length_append, List.length_nil] at hlength
      omega
    rfl
  | @blockComment t _ =>
    rw [List.append_assoc] at ht
    have hfront : Text.WellFormed (Text.unit '/' :: Text.unit '*' :: t) = true :=
      Text.wellFormed_left ht (by rintro _ ⟨⟩; rfl)
    rw [Text.wellFormed_append hfront]
    rfl
  | string _ => exact (string_wellFormed ht).1

theorem stray_eq_unitsOf {u : UInt16} {r : Text} (h : Text.WellFormed (u :: r) = true) :
    ∃ c, (u :: if Text.isHigh u then r.take 1 else []) = unitsOf c := by
  obtain ⟨c, s, he, hc⟩ := Text.exists_unitsOf_append h
  refine ⟨c, ?_⟩
  by_cases ha : IsAstral c
  · obtain ⟨u', v', hunits, -⟩ := Text.unitsOf_astral ha
    rw [hunits] at he ⊢
    obtain ⟨rfl, rfl⟩ := List.cons.inj he
    rw [if_pos (hc.1 ha)]
    rfl
  · obtain ⟨u', hunits, -⟩ := Text.unitsOf_basic ha
    rw [hunits] at he ⊢
    obtain ⟨rfl, -⟩ := List.cons.inj he
    rw [if_neg (mt hc.2 ha)]

theorem not_surrogate_of_isBlank {u : UInt16} (h : isBlank u = true) :
    Text.isHigh u = false ∧ Text.isLow u = false := by
  simp only [isBlank, Bool.or_eq_true, beq_iff_eq] at h
  obtain ((rfl | rfl) | rfl) | rfl := h <;> decide

theorem Munch.wellFormed {l rest : Text} {reading : Reading} (h : Munch (l ++ rest) l reading)
    (ht : Text.WellFormed (l ++ rest) = true) : l.WellFormed = true := by
  generalize he : l ++ rest = t at h
  cases h with
  | @blank u r _ hu =>
    obtain ⟨hhigh, hlow⟩ := not_surrogate_of_isBlank hu
    exact Text.wellFormed_cons hhigh hlow []
  | token _ h _ _ _ | number h _ => exact (he ▸ h).wellFormed ht
  | openComment _ | openString _ => exact he ▸ ht
  | stray hu _ _ _ =>
    rw [he, hu] at ht
    obtain ⟨c, hc⟩ := stray_eq_unitsOf ht
    rw [hc]
    exact Text.wellFormed_unitsOf c

theorem Munch.unexpected {t l : Text} {cause : LexicalFault} (h : Munch t l (.fault cause))
    (ht : t.WellFormed = true) (hcode : cause.code = .unexpectedCharacter) :
    ∃ c, l = unitsOf c ∧ cause = .unexpected (unitsOf c) := by
  cases h with
  | number _ hr => cases hr <;> cases hcode
  | openComment _ | openString _ => cases hcode
  | stray hu _ _ _ =>
    rw [hu] at ht
    obtain ⟨c, hc⟩ := stray_eq_unitsOf ht
    exact ⟨c, hc, by rw [hc]⟩

/-- What is cut with the first half of a character outside the basic plane is a comment or a string,
perhaps without an end, or else that character. -/
inductive Holds (x : Text) (c : Char) (l : Text) : Reading → Prop where
  | comment (v : Option Value) : Holds x c l (.token .comment v)
  | string (v : Option Value) : Holds x c l (.token .stringLiteral v)
  | openComment : Holds x c l (.fault .openComment)
  | openString : Holds x c l (.fault .openString)
  | character (hx : x = []) (hl : l = unitsOf c) : Holds x c l (.fault (.unexpected (unitsOf c)))

theorem Munch.holds {l rest x y : Text} {c : Char} {reading : Reading}
    (h : Munch (l ++ rest) l reading) (ht : Text.WellFormed (l ++ rest) = true) (hc : IsAstral c)
    (he : l ++ rest = x ++ unitsOf c ++ y) (hx : x.length < l.length) : Holds x c l reading := by
  obtain ⟨u, v, hunits, hu, hv, -⟩ := Text.unitsOf_astral hc
  have hmem : u ∈ l := by
    rw [hunits] at he
    have hget : (l ++ rest)[x.length]? = some u := by simp [he]
    rw [List.getElem?_append_left hx] at hget
    exact List.mem_of_getElem? hget
  -- With that, only a comment, a string or a stray character can be what is cut.
  have hascii : ¬ l.Ascii := fun ha => by
    rw [(Text.not_surrogate_of_ascii (ha u hmem)).1] at hu
    cases hu
  generalize ht' : l ++ rest = t at h
  cases h with
  | blank _ hb =>
    obtain rfl := List.mem_singleton.1 hmem
    rw [(not_surrogate_of_isBlank hb).1] at hu
    cases hu
  | @token shape _ k v' h _ hk _ =>
    by_cases hcomment : shape = .comment
    · subst hcomment
      cases hk
      exact .comment v'
    by_cases hstring : shape = .string
    · subst hstring
      cases hk
      exact .string v'
    exact absurd (h.spells.ascii hcomment hstring) hascii
  | number h hr => exact absurd hr.ascii hascii
  | openComment _ => exact .openComment
  | openString _ => exact .openString
  | @stray w r hw _ _ _ =>
    rw [ht', hw] at ht
    obtain ⟨d, hd⟩ := stray_eq_unitsOf ht
    rw [hd] at he hx ⊢
    obtain ⟨rfl, hsame⟩ := Text.unitsOf_eq_of_append hc he hx
    rw [hsame]
    exact .character rfl rfl

end Lexical

open Lexical

theorem Piece.Munched.munch {source : Source} {before rest : Text} {p : Piece}
    (h : p.Munched source before rest) : ∃ reading, Munch rest p.lexeme reading := by
  cases p with
  | blank _ => exact ⟨_, h⟩
  | token _ => exact ⟨_, h.1⟩
  | fault _ _ =>
    obtain ⟨cause, hmunch, -⟩ := h
    exact ⟨_, hmunch⟩

theorem Cut.wellFormed {source : Source} {before text : Text} {pieces : List Piece}
    (h : Cut source before text pieces) (ht : text.WellFormed = true) :
    ∀ p ∈ pieces, p.lexeme.WellFormed = true := by
  induction h with
  | nil _ => simp
  | @cons before rest r u p pieces hp he hs _ ih =>
    obtain ⟨reading, hmunch⟩ := (hp.munched he hs).munch
    rw [← he] at hmunch ht
    have hlexeme := hmunch.wellFormed ht
    rw [Text.wellFormed_append hlexeme] at ht
    exact List.forall_mem_cons.2 ⟨hlexeme, ih ht⟩

theorem wellFormed_lexemes {pieces : List Piece}
    (h : ∀ p ∈ pieces, p.lexeme.WellFormed = true) :
    Text.WellFormed (pieces.flatMap Piece.lexeme) = true := by
  induction pieces with
  | nil => rfl
  | cons p pieces ih =>
    rw [List.forall_mem_cons] at h
    rw [List.flatMap_cons, Text.wellFormed_append h.1, ih h.2]

theorem exists_piece_over {pieces : List Piece} {o : Nat}
    (h : o < (pieces.flatMap Piece.lexeme).length) : ∃ front p back, pieces = front ++ p :: back ∧
      (front.flatMap Piece.lexeme).length ≤ o ∧
      o < (front.flatMap Piece.lexeme).length + p.lexeme.length := by
  induction pieces generalizing o with
  | nil => simp at h
  | cons p pieces ih =>
    by_cases hp : o < p.lexeme.length
    · exact ⟨[], p, pieces, rfl, Nat.zero_le _, by simpa using hp⟩
    · rw [List.flatMap_cons, List.length_append] at h
      obtain ⟨front, q, back, rfl, hfirst, hlast⟩ := ih (o := o - p.lexeme.length) (by omega)
      refine ⟨p :: front, q, back, rfl, ?_, ?_⟩ <;> rw [List.flatMap_cons, List.length_append]
      · omega
      · omega

/-- The token begins and ends between characters of the text, and neither its lexeme nor the string
that it denotes has half a character. -/
structure Token.Whole (text : Text) (t : Token) : Prop where
  first : text.Boundary t.start
  last : text.Boundary (t.start + t.length)
  lexeme : t.lexeme.WellFormed = true
  value : ∀ x, t.value = some (.string x) → x.WellFormed = true

theorem Shape.read_string {shape : Shape} {l x : Text} {k : Kind}
    (h : shape.read l = .token k (some (.string x))) :
    shape = .string ∧ x = l.slice 1 (l.length - 2) := by
  cases shape with
  | string =>
    obtain ⟨-, hvalue⟩ := Reading.token.inj h
    cases hvalue
    exact ⟨rfl, rfl⟩
  | blank | mark _ | comment | openComment | openString | stray => cases h
  | word =>
    simp only [Shape.read, readWord] at h
    split at h <;> cases h
  | integer radix type =>
    simp only [Shape.read, readInteger] at h
    split at h
    · cases h
    · split at h
      · cases h
      · cases type <;> cases h
  | real type =>
    simp only [Shape.read, readReal] at h
    split at h <;> cases h

theorem Lexical.Spells.wellFormed_slice {l rest : Text} (h : Spells .string l)
    (ht : Text.WellFormed (l ++ rest) = true) : (l.slice 1 (l.length - 2)).WellFormed = true := by
  cases h with
  | @string t _ =>
    have hinner : Text.slice (Text.unit '"' :: t ++ [Text.unit '"']) 1
        ((Text.unit '"' :: t ++ [Text.unit '"']).length - 2) = t := by
      simp [Text.slice]
    rw [hinner]
    exact (string_wellFormed ht).2

namespace Source

variable {source : Source} {front back : List Piece} {p : Piece}
  (ht : source.text.WellFormed = true)

include ht

theorem wellFormed_of_pieces (h : source.pieces = front ++ p :: back) :
    Text.WellFormed (front.flatMap Piece.lexeme) = true ∧ p.lexeme.WellFormed = true ∧
      Text.WellFormed (p.lexeme ++ back.flatMap Piece.lexeme) = true := by
  have hlexemes := source.cut_pieces.wellFormed ht
  rw [h, List.forall_mem_append, List.forall_mem_cons] at hlexemes
  refine ⟨wellFormed_lexemes hlexemes.1, hlexemes.2.1, ?_⟩
  rw [Text.wellFormed_append hlexemes.2.1]
  exact wellFormed_lexemes hlexemes.2.2

theorem boundary_of_pieces (h : source.pieces = front ++ p :: back) :
    source.text.Boundary (front.flatMap Piece.lexeme).length ∧
      source.text.Boundary ((front.flatMap Piece.lexeme).length + p.lexeme.length) := by
  obtain ⟨hfront, hlexeme, -⟩ := wellFormed_of_pieces ht h
  have htext := text_of_pieces h
  rw [htext] at ht ⊢
  refine ⟨Text.boundary_length ht hfront, ?_⟩
  rw [← List.append_assoc] at ht ⊢
  rw [← List.length_append]
  refine Text.boundary_length ht ?_
  rw [Text.wellFormed_append hfront, hlexeme]

theorem wellFormed_value {t : Token} (h : source.pieces = front ++ .token t :: back) {x : Text}
    (hx : t.value = some (.string x)) : x.WellFormed = true := by
  obtain ⟨shape, hspells, hread⟩ := spells_of_pieces h
  rw [hx] at hread
  obtain ⟨rfl, rfl⟩ := Shape.read_string hread
  exact hspells.wellFormed_slice (wellFormed_of_pieces ht h).2.2

theorem whole_of_mem_scan {t : Token} (h : t ∈ source.scan.tokens) : t.Whole source.text := by
  obtain ⟨front, back, hpieces⟩ | rfl := mem_scan_iff.1 h
  · obtain ⟨-, -, hstart, hlength⟩ := munched_of_pieces hpieces
    obtain ⟨hfirst, hlast⟩ := boundary_of_pieces ht hpieces
    refine ⟨hstart ▸ hfirst, ?_, (wellFormed_of_pieces ht hpieces).2.1, fun x hx => ?_⟩
    · rw [hstart, hlength]
      exact hlast
    · exact wellFormed_value ht hpieces hx
  · have hstart : source.endToken.start = source.text.length :=
      (Place.after_offset .start source.text).trans (Nat.zero_add _)
    have hend : source.text.Boundary source.text.length := by
      have hb := Text.boundary_length (t := []) (by rwa [List.append_nil]) ht
      rwa [List.append_nil] at hb
    refine ⟨hstart ▸ hend, hstart ▸ hend, ?_, nofun⟩
    change Text.WellFormed (Text.slice _ _ 0) = true
    rw [Text.slice, List.take_zero]
    rfl

omit ht

/-- The offset lies in a comment or in a string, or behind the opening of one that has no end. -/
def Encloses (source : Source) (o : Nat) : Prop :=
  (∃ t ∈ source.scan.tokens, (t.kind = .comment ∨ t.kind = .stringLiteral) ∧ t.start ≤ o ∧
      o < t.start + t.length) ∨
    ∃ r ∈ source.scan.reports, (r.code = .unterminatedComment ∨ r.code = .unterminatedString) ∧
      ∃ k ≤ o, r.place.IsAt source.text k

def stray (source : Source) (place : Location) (c : Char) : Report :=
  ⟨source.name, place, ("Unexpected character \"" : Text) ++ unitsOf c ++ ("\"." : Text),
    .unexpectedCharacter⟩

theorem stray_mem_reports (ht : source.text.WellFormed = true) {before rest : Text} {c : Char}
    (he : source.text = before ++ unitsOf c ++ rest) (hc : IsAstral c)
    (ho : ¬ source.Encloses before.length) :
    source.stray (Place.start.after before).location c ∈ source.scan.reports := by
  have hlt : before.length < (source.pieces.flatMap Piece.lexeme).length := by
    obtain ⟨u, v, hunits, -⟩ := Text.unitsOf_astral hc
    rw [source.cut_pieces.flatMap_lexeme, he, hunits]
    simp
  obtain ⟨front, p, back, hpieces, hfirst, hlast⟩ := exists_piece_over hlt
  have htext := text_of_pieces hpieces
  have hmunched := munched_of_pieces hpieces
  have hwell := (wellFormed_of_pieces ht hpieces).2.2
  obtain ⟨x, rfl⟩ : front.flatMap Piece.lexeme <+: before :=
    List.prefix_of_prefix_length_le ⟨_, htext.symm⟩ ⟨_, by rw [he, List.append_assoc]⟩ hfirst
  have hx : x.length < p.lexeme.length := by simpa using hlast
  have hsame : p.lexeme ++ back.flatMap Piece.lexeme = x ++ unitsOf c ++ rest := by
    rw [htext, List.append_assoc, List.append_assoc] at he
    rw [List.append_assoc]
    exact List.append_cancel_left he
  -- The piece holds the character: it encloses it, or it is the character and nothing else.
  cases p with
  | blank w =>
    have hholds := Munch.holds hmunched hwell hc hsame hx
    cases hholds
  | token t =>
    obtain ⟨hmunch, -, hstart, hlength⟩ := hmunched
    have hholds := hmunch.holds hwell hc hsame hx
    have hkind : t.kind = .comment ∨ t.kind = .stringLiteral := by
      generalize t.kind = k, t.value = v at hholds
      cases hholds with
      | comment _ => exact .inl rfl
      | string _ => exact .inr rfl
    refine absurd (.inl ⟨t, mem_scan_iff.2 (.inl ⟨_, _, hpieces⟩), hkind, ?_, ?_⟩) ho
    · rwa [hstart]
    · rwa [hstart, hlength]
  | fault l r =>
    obtain ⟨cause, hmunch, hreport⟩ := hmunched
    have hmem := mem_reports_iff.2 ⟨_, _, _, hpieces⟩
    have hat := Place.after_isAt (front.flatMap Piece.lexeme) (l ++ back.flatMap Piece.lexeme)
    have hholds := hmunch.holds hwell hc hsame hx
    cases hholds with
    | openComment | openString =>
      refine absurd (.inr ⟨r, hmem, by simp [hreport, LexicalFault.code], _, hfirst, ?_⟩) ho
      rw [hreport, htext]
      exact hat
    | character hnil _ =>
      rw [hnil, List.append_nil]
      rwa [hreport] at hmem

theorem eq_stray_of_mem_reports (ht : source.text.WellFormed = true) {r : Report}
    (hr : r ∈ source.scan.reports) (hcode : r.code = .unexpectedCharacter) :
    ∃ before c rest, source.text = before ++ unitsOf c ++ rest ∧
      r = source.stray (Place.start.after before).location c := by
  obtain ⟨front, l, back, hpieces⟩ := mem_reports_iff.1 hr
  obtain ⟨cause, hmunch, rfl⟩ := munched_of_pieces hpieces
  have hwell := (wellFormed_of_pieces ht hpieces).2.2
  have htext : source.text = front.flatMap Piece.lexeme ++ (l ++ back.flatMap Piece.lexeme) :=
    text_of_pieces hpieces
  obtain ⟨c, rfl, rfl⟩ := hmunch.unexpected hwell hcode
  exact ⟨_, c, _, by rw [htext, List.append_assoc], rfl⟩

end Source

end Seanet
