import Seanet.Proofs.Lexical.Pieces

/-!
# Scanning lexemes again

A blank ends every lexeme but a line comment, and a line feed ends that. So lexemes that are written
one after the other, with blanks between them, are found again, whatever texts they come from, and
each reads as it did there.
-/

set_option autoImplicit false

namespace Seanet

open Lexical

namespace Lexical

def IsLineComment (l : Text) : Prop := [Text.unit '/', Text.unit '/'] <+: l

instance (l : Text) : Decidable (IsLineComment l) :=
  inferInstanceAs (Decidable ([Text.unit '/', Text.unit '/'] <+: l))

/-- A text that begins with a unit that ends the lexeme `l`, if it has a unit at all. -/
def EndsLexeme (l rest : Text) : Prop :=
  ∀ u ∈ rest.head?, isBlank u = true ∧ (IsLineComment l → u = Text.lineFeed)

theorem Spells.atFront {shape : Shape} {l rest r : Text} {u : UInt16} (h : Spells shape l)
    (ht : l ++ rest = u :: r) (hrest : EndsLexeme l rest) :
    Shape.atFront u r = ⟨shape, l.length⟩ := by
  obtain he | ⟨-, v, s, rfl, hv⟩ := h.finds ht
  · exact he
  · obtain ⟨hblank, hline⟩ := hrest v rfl
    cases h with
    | mark _ | string _ | word _ _ | integer _ _ | real _ _ =>
      change isBlank v = false at hv
      rw [hblank] at hv
      cases hv
    | @lineComment t _ =>
      obtain rfl := hline ⟨t, rfl⟩
      cases hv
    | blockComment hb =>
      obtain ⟨rfl, rfl⟩ := List.cons.inj ht
      exact atFront_blockComment hb _

end Lexical

namespace Segment

theorem ofText_lexeme {shape : Shape} {l rest : Text} (h : Spells shape l)
    (hrest : EndsLexeme l rest) : ofText (l ++ rest) = ⟨l, shape.read l⟩ :: ofText rest := by
  obtain ⟨u, l, rfl⟩ := List.exists_cons_of_ne_nil h.ne_nil
  have hfront : Shape.atFront u (l ++ rest) = ⟨shape, l.length + 1⟩ := h.atFront rfl hrest
  rw [List.cons_append, ofText]
  simp only [atFront, hfront, Nat.add_sub_cancel, List.take_left, List.drop_left]

theorem ofText_spells {shape : Shape} {l : Text} (h : Spells shape l) :
    ofText l = [⟨l, shape.read l⟩] := by
  have hends : EndsLexeme l [] := by simp [EndsLexeme]
  have hsegments := ofText_lexeme h hends
  rwa [List.append_nil, ofText] at hsegments

theorem ofText_blank {u : UInt16} (hu : isBlank u = true) (r : Text) :
    ofText (u :: r) = ⟨[u], .blank⟩ :: ofText r := by
  have hfront : Shape.atFront u r = ⟨.blank, 1⟩ := by simp [Shape.atFront, hu]
  rw [ofText]
  simp only [atFront, hfront, Nat.sub_self, List.take_zero, List.drop_zero]
  rfl

theorem ofText_blanks {w : Text} (hw : ∀ u ∈ w, isBlank u = true) (rest : Text) :
    ofText (w ++ rest) = w.map (fun u => ⟨[u], .blank⟩) ++ ofText rest := by
  induction w with
  | nil => rfl
  | cons u w ih =>
    rw [List.forall_mem_cons] at hw
    rw [List.cons_append, ofText_blank hw.1, ih hw.2, List.map_cons, List.cons_append]

def entry? (s : Segment) : Option (Text × Kind × Option Value) :=
  match s.reading with
  | .token kind value => some (s.lexeme, kind, value)
  | _ => none

end Segment

def Token.entry (t : Token) : Text × Kind × Option Value := (t.lexeme, t.kind, t.value)

theorem Segment.entry?_eq {source : Source} {before rest : Text} {s : Segment}
    (h : source.text = before ++ (s.lexeme ++ rest)) :
    (s.token? source (Place.start.after before)).map Token.entry = s.entry? := by
  have hoffset : (Place.start.after before).offset = before.length := by
    rw [Place.after_offset]
    exact Nat.zero_add _
  have hlexeme : Text.slice source.text before.length s.lexeme.length = s.lexeme := by
    rw [h, slice_eq]
  unfold token? entry?
  cases s.reading with
  | blank | fault _ => rfl
  | token kind value => simp only [Option.map_some, Token.entry, Token.lexeme, hoffset, hlexeme]

theorem Segment.entries_ofText {source : Source} {before text : Text}
    (h : source.text = before ++ text) :
    (placed (Place.start.after before) (ofText text)).filterMap
      (fun x => (x.2.token? source x.1).map Token.entry) = (ofText text).filterMap entry? := by
  fun_induction ofText text generalizing before with
  | case1 => rfl
  | case2 u r ih =>
    have hfront := atFront_lexeme u r
    have hhead := entry?_eq (h.trans (by rw [hfront]))
    have hnext : source.text = before ++ (atFront u r).lexeme ++
        r.drop ((Shape.atFront u r).size - 1) := by
      rw [h, List.append_assoc, hfront]
    have hrest := ih hnext
    rw [Place.after_append] at hrest
    rw [placed, List.filterMap_cons, List.filterMap_cons, hhead, hrest]

namespace Source

theorem entries_eq (source : Source) : source.scan.tokens.dropLast.map Token.entry =
    (Segment.ofText source.text).filterMap Segment.entry? := by
  simp only [scan, List.dropLast_concat, List.map_filterMap]
  exact Segment.entries_ofText (List.nil_append source.text).symm

theorem snd_of_mem_placed {p : Place} {segments : List Segment} {x : Place × Segment}
    (h : x ∈ placed p segments) : x.2 ∈ segments := by
  induction segments generalizing p with
  | nil => cases h
  | cons s segments ih =>
    obtain rfl | h := List.mem_cons.1 h
    · exact List.mem_cons_self
    · exact List.mem_cons_of_mem _ (ih h)

theorem reports_eq_nil {source : Source}
    (h : ∀ s ∈ Segment.ofText source.text, ∀ cause, s.reading ≠ .fault cause) :
    source.scan.reports = [] := by
  refine List.filterMap_eq_nil_iff.2 fun x hx => ?_
  have hfault := h x.2 (snd_of_mem_placed hx)
  change x.2.report? source x.1 = none
  unfold Segment.report?
  cases hr : x.2.reading with
  | blank | token _ _ => rfl
  | fault cause => exact absurd hr (hfault cause)

end Source

theorem Source.scan_lexeme {shape : Shape} {l : Text} (hs : Spells shape l) {kind : Kind}
    {value : Option Value} (hread : shape.read l = .token kind value) (name : Text) :
    Source.scan ⟨name, l⟩ = ⟨[⟨kind, 0, l.length, 1, 1, ⟨name, l⟩, value⟩,
      Source.endToken ⟨name, l⟩], []⟩ := by
  rw [Source.scan]
  simp only [Segment.ofText_spells hs, hread, placed]
  rfl

namespace Segment

theorem spells_of_reading {u : UInt16} {r : Text} {kind : Kind} {value : Option Value}
    (h : (atFront u r).reading = .token kind value) :
    Spells (Shape.atFront u r).shape (atFront u r).lexeme := by
  have hprefix : (atFront u r).lexeme <+: u :: r := ⟨_, atFront_lexeme u r⟩
  rw [List.prefix_iff_eq_take.1 hprefix, atFront_length]
  change (Shape.atFront u r).shape.read _ = _ at h
  obtain hs | ⟨-, he⟩ | ⟨-, he⟩ | ⟨-, he⟩ | ⟨-, -, -, he⟩ := Shape.atFront_found u r
  · exact hs
  -- Neither a blank nor a fault reads as a token.
  all_goals
    rw [he] at h
    cases h

theorem reading_of_piece {source : Source} {p : Place} {s : Segment} {t : Token}
    (h : Piece.token t = s.piece source p) : s.reading = .token t.kind t.value := by
  unfold piece at h
  split at h
  · cases h
  · next hread =>
    obtain rfl := Piece.token.inj h
    exact hread
  · cases h

end Segment

theorem Source.spells_of_pieces {source : Source} {front back : List Piece} {t : Token}
    (h : source.pieces = front ++ .token t :: back) :
    ∃ shape, Spells shape t.lexeme ∧ shape.read t.lexeme = .token t.kind t.value := by
  obtain ⟨u, r, -, hpiece, hlexeme⟩ := Source.piece_at h
  have hlexeme : t.lexeme = (Segment.atFront u r).lexeme := hlexeme
  have hread := Segment.reading_of_piece hpiece
  rw [hlexeme]
  exact ⟨_, Segment.spells_of_reading hread, hread⟩

namespace Token

def IsScanned (t : Token) : Prop := t.kind ≠ .eof ∧ ∃ source : Source, t ∈ source.scan.tokens

theorem IsScanned.spells {t : Token} (h : t.IsScanned) :
    ∃ shape, Spells shape t.lexeme ∧ shape.read t.lexeme = .token t.kind t.value := by
  obtain ⟨hkind, source, ht⟩ := h
  obtain ⟨front, back, hpieces⟩ | rfl := Source.mem_scan_iff.1 ht
  · exact Source.spells_of_pieces hpieces
  · exact absurd rfl hkind

theorem IsScanned.eq_of_lexeme {t u : Token} (ht : t.IsScanned) (hu : u.IsScanned)
    (h : t.lexeme = u.lexeme) : t.kind = u.kind ∧ t.value = u.value := by
  obtain ⟨shape, hs, hread⟩ := ht.spells
  obtain ⟨shape', hs', hread'⟩ := hu.spells
  rw [← h] at hs' hread'
  obtain rfl := hs.unique hs'
  rw [hread] at hread'
  obtain ⟨hkind, hvalue⟩ := Reading.token.inj hread'
  exact ⟨hkind, hvalue⟩

end Token

/-- Blanks that keep the lexeme `l` apart from the next one: behind a line comment, a new line. -/
structure Separates (l w : Text) : Prop where
  ne_nil : w ≠ []
  blank : ∀ u ∈ w, isBlank u = true
  line : IsLineComment l → w.head? = some Text.lineFeed

/-- A text that writes the lexemes of tokens in their order, with blanks between them, and perhaps
behind the last one. -/
inductive LaidOut : List Token → Text → Prop where
  | nil : LaidOut [] []
  | last (t : Token) : LaidOut [t] t.lexeme
  | cons {t : Token} {ts : List Token} {w text : Text} (hw : Separates t.lexeme w)
      (h : LaidOut ts text) : LaidOut (t :: ts) (t.lexeme ++ (w ++ text))

theorem Separates.endsLexeme {l w : Text} (h : Separates l w) (rest : Text) :
    EndsLexeme l (w ++ rest) := by
  obtain ⟨v, w', rfl⟩ := List.exists_cons_of_ne_nil h.ne_nil
  intro u hu
  obtain rfl : v = u := Option.some.inj hu
  exact ⟨h.blank v (by simp), fun hl => Option.some.inj (h.line hl)⟩

theorem LaidOut.segments {ts : List Token} {text : Text} (h : LaidOut ts text)
    (hts : ∀ t ∈ ts, t.IsScanned) :
    (Segment.ofText text).filterMap Segment.entry? = ts.map Token.entry ∧
      ∀ s ∈ Segment.ofText text, ∀ cause, s.reading ≠ .fault cause := by
  induction h with
  | nil =>
    rw [Segment.ofText]
    simp
  | last t =>
    obtain ⟨shape, hs, hread⟩ := (hts t (by simp)).spells
    rw [Segment.ofText_spells hs, hread]
    simp [Segment.entry?, Token.entry]
  | @cons t ts w text hw _ ih =>
    rw [List.forall_mem_cons] at hts
    obtain ⟨shape, hs, hread⟩ := hts.1.spells
    obtain ⟨hentries, hfaults⟩ := ih hts.2
    have hblanks : (w.map fun u => (⟨[u], .blank⟩ : Segment)).filterMap Segment.entry? = [] := by
      simp [Segment.entry?]
    rw [Segment.ofText_lexeme hs (hw.endsLexeme text), Segment.ofText_blanks hw.blank, hread]
    constructor
    · have hhead : Segment.entry? ⟨t.lexeme, .token t.kind t.value⟩ = some t.entry := rfl
      rw [List.filterMap_cons_some hhead, List.filterMap_append, hblanks, hentries]
      rfl
    · rw [List.forall_mem_cons, List.forall_mem_append]
      exact ⟨by simp, by simp, hfaults⟩

/-- Lexemes of any scanned tokens, written with blanks between them, are scanned to tokens with
these lexemes, kinds and values, in this order, and an end mark; nothing is reported. What kind and
value a token has depends on its lexeme alone. -/
theorem scan_laidOut {ts : List Token} {text : Text} (hts : ∀ t ∈ ts, t.IsScanned)
    (h : LaidOut ts text) (name : Text) :
    (Source.scan ⟨name, text⟩).reports = [] ∧
    (∃ us, (Source.scan ⟨name, text⟩).tokens = us ++ [Source.endToken ⟨name, text⟩] ∧
      us.map Token.entry = ts.map Token.entry) ∧
    ∀ t u : Token, t.IsScanned → u.IsScanned → t.lexeme = u.lexeme →
      t.kind = u.kind ∧ t.value = u.value := by
  obtain ⟨hentries, hfaults⟩ := h.segments hts
  refine ⟨Source.reports_eq_nil hfaults, ⟨(Source.scan ⟨name, text⟩).tokens.dropLast, ?_, ?_⟩,
    fun t u ht hu => ht.eq_of_lexeme hu⟩
  · simp only [Source.scan, List.dropLast_concat]
  · rw [Source.entries_eq]
    exact hentries

/-- Lexemes cut from `1e`, from `>x` and from the end of a text, written over two lines. -/
theorem scan_laidOut_lines :
    let one : Token := ⟨.intLiteral, 0, 1, 1, 1, ⟨"a.sn", "1e"⟩, some (.word 1)⟩
    let note : Token := ⟨.comment, 3, 4, 1, 4, ⟨"b.sn", ">x // c"⟩, none⟩
    let greater : Token := ⟨.greater, 0, 1, 1, 1, ⟨"b.sn", ">x // c"⟩, none⟩
    let text : Text := "1\t// c\n >\r"
    (∀ t ∈ [one, note, greater], t.IsScanned) ∧ LaidOut [one, note, greater] text ∧
    (Source.scan ⟨"c.sn", text⟩).reports = [] ∧
    (∃ us, (Source.scan ⟨"c.sn", text⟩).tokens = us ++ [Source.endToken ⟨"c.sn", text⟩] ∧
      us.map Token.entry = [one, note, greater].map Token.entry) := by
  intro one note greater text
  have hscanned : ∀ t ∈ [one, note, greater], t.IsScanned := by
    intro t ht
    simp only [List.mem_cons, List.not_mem_nil, or_false] at ht
    obtain rfl | rfl | rfl := ht
    · exact ⟨by decide, ⟨"a.sn", "1e"⟩, by decide +kernel⟩
    · exact ⟨by decide, ⟨"b.sn", ">x // c"⟩, by decide +kernel⟩
    · exact ⟨by decide, ⟨"b.sn", ">x // c"⟩, by decide +kernel⟩
  have hblank : ∀ {l w : Text}, w ≠ [] → w.all isBlank = true → ¬ IsLineComment l →
      Separates l w := fun hn hw hl => ⟨hn, List.all_eq_true.1 hw, fun h => absurd h hl⟩
  have hone : Separates one.lexeme "\t" := hblank (by decide) (by decide) (by decide)
  have hnote : Separates note.lexeme "\n " :=
    ⟨by decide, List.all_eq_true.1 (by decide), fun _ => by decide⟩
  have hgreater : Separates greater.lexeme "\r" := hblank (by decide) (by decide) (by decide)
  have htext : text = one.lexeme ++ (("\t" : Text) ++
      (note.lexeme ++ (("\n " : Text) ++ (greater.lexeme ++ (("\r" : Text) ++ []))))) := by
    decide +kernel
  have hlaid : LaidOut [one, note, greater] text :=
    htext ▸ .cons hone (.cons hnote (.cons hgreater .nil))
  obtain ⟨hreports, htokens, -⟩ := scan_laidOut hscanned hlaid "c.sn"
  exact ⟨hscanned, hlaid, hreports, htokens⟩

end Seanet
