import Seanet.Proofs.Lexical.Pieces

set_option autoImplicit false

namespace Seanet

namespace Lexical

theorem IntegerSuffix.length {type : IntegerType} {suffix : Text} (h : IntegerSuffix type suffix) :
    suffix.length = type.suffixSize := by
  cases h <;> rfl

theorem RealSuffix.length {type : RealType} {suffix : Text} (h : RealSuffix type suffix) :
    suffix.length = type.suffixSize := by
  cases h <;> rfl

theorem take_body {body suffix : Text} {n : Nat} (h : suffix.length = n) :
    (body ++ suffix).take ((body ++ suffix).length - n) = body := by
  rw [List.length_append, h, Nat.add_sub_cancel, List.take_left]

theorem integerDigits?_body {radix : Radix} {n : Option Nat} {body : Text}
    (h : IntegerBody radix n body) : integerDigits? radix body = n := by
  cases h with
  | decimal _ => rfl
  | @hexadecimal mark digits hm hn hh =>
    have hall : digits.all isHexDigit = true := List.all_eq_true.2 hh
    simp [integerDigits?, hm, hn, hall]
  | @malformed mark whole digits hw hm hh hn =>
    match whole with
    | [] => exact absurd rfl hw.1
    | [z] =>
      obtain hz | rfl := hn
      · have hne : (z == Text.unit '0') = false := by simpa using hz
        simp [integerDigits?, hne]
      · simp [integerDigits?]
    | z :: x :: whole =>
      -- A second digit stands where the mark should be.
      have hx : isEither 'x' 'X' x = false := by
        have hdigit := hw.2 x (by simp)
        rw [Bool.eq_false_iff]
        intro hx
        obtain rfl | rfl := isEither_iff.1 hx <;> exact absurd hdigit (by decide)
      simp [integerDigits?, hx]

theorem integerDigits?_lexeme {radix : Radix} {type : IntegerType} {n : Option Nat}
    {body suffix : Text} (h : IntegerBody radix n body) (hs : IntegerSuffix type suffix) :
    integerDigits? radix ((body ++ suffix).take ((body ++ suffix).length - type.suffixSize)) =
      n := by
  rw [take_body hs.length, integerDigits?_body h]

theorem takeWhile_digits {whole tail : Text} (hw : Digits whole)
    (ht : ∀ u ∈ tail.head?, isDigit u = false) : (whole ++ tail).takeWhile isDigit = whole := by
  rw [List.takeWhile_append_of_pos hw.2]
  cases tail with
  | nil => exact List.append_nil _
  | cons u r =>
    have hu : isDigit u = false := ht u rfl
    simp [hu]

theorem fraction_before {digits point power : Text} {e : Int} (hf : Fraction digits point)
    (he : Exponent e power) : fraction (point ++ power) = point.length := by
  obtain ⟨-, hs⟩ | ⟨-, u, r, rfl, hu⟩ := fraction_greedy.next (b := ()) power ⟨_, hf⟩
  · exact hs
  · obtain rfl | rfl := isEither_iff.1 he.head <;> exact absurd hu (by decide)

theorem exponent_whole {power : Text} {e : Int} (he : Exponent e power) :
    exponent power = power.length :=
  (exponent_greedy.exact (b := ()) ⟨_, he⟩).2

theorem exponent_value {e : Int} {power : Text} (h : Exponent e power) :
    (if (power.drop 1).head? == some (Text.unit '-') then
        -(numeral 10 ((power.drop 1).drop (sign (power.drop 1))) : Int)
      else numeral 10 ((power.drop 1).drop (sign (power.drop 1)))) = e := by
  cases h with
  | none => rfl
  | @some mark negative s digits hm hs hd =>
    have hsign := sign_append hs hd []
    rw [List.append_nil] at hsign
    have hhead : ((s ++ digits).head? == some (Text.unit '-')) = negative := by
      cases hs with
      | none =>
        obtain ⟨d, ds, rfl⟩ := List.exists_cons_of_ne_nil hd.1
        have hdigit := hd.2 d (by simp)
        have hne : d ≠ Text.unit '-' := by
          rintro rfl
          exact absurd hdigit (by decide)
        simpa using hne
      | plus => rfl
      | minus => rfl
    rw [List.cons_append, List.drop_succ_cons, List.drop_zero, hhead, hsign, List.drop_left]

theorem decimalOf_body {d : Decimal} {body : Text} (h : RealBody d body) : decimalOf body = d := by
  cases h with
  | @mk whole digits point power e hw hf he hn =>
    have hwhole : (whole ++ (point ++ power)).takeWhile isDigit = whole := by
      refine takeWhile_digits hw ?_
      obtain ⟨u, l, hl, hu⟩ := TailSpells.real_head hf he hn
      rw [hl]
      intro v hv
      obtain rfl : u = v := by simpa using hv
      obtain rfl | rfl | rfl := hu <;> decide
    have hdigits : point.drop 1 = digits := by
      cases hf with
      | none => rfl
      | some _ => rfl
    have hvalue := exponent_value he
    simp only [decimalOf, List.append_assoc, hwhole, List.drop_left, fraction_before hf he,
      List.take_left, hdigits, exponent_whole he, List.take_length, hvalue]

theorem decimalOf_lexeme {type : RealType} {d : Decimal} {body suffix : Text} (h : RealBody d body)
    (hs : RealSuffix type suffix) :
    decimalOf ((body ++ suffix).take ((body ++ suffix).length - type.suffixSize)) = d := by
  rw [take_body hs.length, decimalOf_body h]

theorem Refuses.read {shape : Shape} {l : Text} {cause : LexicalFault} (h : Refuses shape l cause) :
    shape.read l = .fault cause := by
  cases h with
  | malformed hb hs => simp only [Shape.read, readInteger, integerDigits?_lexeme hb hs]
  | integerRange hb hs hn =>
    simp only [Shape.read, readInteger, integerDigits?_lexeme hb hs]
    exact if_pos hn
  | realRange hb hs hd => simp only [Shape.read, readReal, decimalOf_lexeme hb hs, hd]

theorem readWord_emits (l : Text) : ∃ k v, readWord l = .token k v ∧ Emits .word l k := by
  cases hk : Kind.ofKeyword? l with
  | none =>
    refine ⟨.identifier, none, by simp only [readWord, hk], .identifier fun k hm => ?_⟩
    have hnone := List.lookup_eq_none_iff.1 hk _ hm
    simp at hnone
  | some k =>
    obtain ⟨before, after, htable, -⟩ := List.lookup_eq_some_iff.1 hk
    have hm : (l, k) ∈ Kind.keywordTexts := by simp [htable]
    have hread : ∃ v, readWord l = .token k v := by
      simp only [readWord, hk]
      split
      · next h => exact ⟨_, by rw [Option.some.inj h]⟩
      · next h => exact ⟨_, by rw [Option.some.inj h]⟩
      · next h => exact ⟨_, by rw [Option.some.inj h]⟩
      · next h => cases h
    obtain ⟨v, hv⟩ := hread
    exact ⟨k, v, hv, .keyword hm⟩

theorem Spells.read {shape : Shape} {l : Text} (h : Spells shape l) :
    (∃ cause, Refuses shape l cause) ∨ ∃ k v, shape.read l = .token k v ∧ Emits shape l k := by
  cases h with
  | mark _ => exact .inr ⟨_, _, rfl, .mark _ _⟩
  | lineComment _ => exact .inr ⟨_, _, rfl, .comment _⟩
  | blockComment _ => exact .inr ⟨_, _, rfl, .comment _⟩
  | string _ => exact .inr ⟨_, _, rfl, .string _⟩
  | word _ _ => exact .inr (readWord_emits _)
  | @integer radix type n body suffix hb hs =>
    cases n with
    | none => exact .inl ⟨_, .malformed hb hs⟩
    | some n =>
      by_cases hn : type.limit radix < n
      · exact .inl ⟨_, .integerRange hb hs hn⟩
      · refine .inr ⟨_, some (type.value (type.interpret n)), ?_, .integer _ _ _⟩
        simp only [Shape.read, readInteger, integerDigits?_lexeme hb hs]
        exact if_neg hn
  | @real type d body suffix hb hs =>
    cases hd : type.value? d with
    | none => exact .inl ⟨_, .realRange hb hs hd⟩
    | some v =>
      refine .inr ⟨_, some (.real v), ?_, .real _ _⟩
      simp only [Shape.read, readReal, decimalOf_lexeme hb hs, hd]

theorem OpensComment.atFront {u : UInt16} {r : Text} (h : OpensComment (u :: r)) :
    Shape.atFront u r = ⟨.openComment, r.length + 1⟩ := by
  obtain ⟨s, hs, hn⟩ := h
  obtain ⟨rfl, rfl⟩ := List.cons.inj hs
  cases hb : blockEnd? s with
  | none =>
    have hafter : afterSlash? (Text.unit '*' :: s) = some ⟨.openComment, 2 + s.length⟩ := by
      have hstar : (Text.unit '*' == Text.unit '/') = false := by decide
      simp [afterSlash?, hstar, hb]
    rw [Shape.atFront_slash, hafter, List.length_cons, Nat.add_comm]
    rfl
  | some n =>
    obtain ⟨t, rest, rfl, -⟩ := blockEnd?_some hb
    exact absurd ⟨t, rest, rfl⟩ hn

theorem longest_atFront {u : UInt16} {r : Text}
    (h : Spells (Shape.atFront u r).shape ((u :: r).take (Shape.atFront u r).size)) :
    Longest (u :: r) (Shape.atFront u r).shape ((u :: r).take (Shape.atFront u r).size) where
  spells := h
  front := List.take_prefix _ _
  longest shape' l' hl hp := by
    obtain ⟨rest, ht⟩ := hp
    have hsize := (Shape.atFront_size u r).2
    rw [List.length_take, List.length_cons, Nat.min_eq_left hsize]
    obtain he | ⟨hlt, -⟩ := hl.finds ht
    · exact Nat.le_of_eq (congrArg Extent.size he).symm
    · exact Nat.le_of_lt hlt

theorem strayOf_take (u : UInt16) (r : Text) :
    (u :: r).take (strayOf u r).size = u :: if Text.isHigh u then r.take 1 else [] := by
  cases hu : Text.isHigh u with
  | false => simp [strayOf, hu]
  | true => cases r <;> simp [strayOf, hu]

/-- The front of a text is cut and read by the rule. -/
theorem munch_atFront (u : UInt16) (r : Text) :
    Munch (u :: r) ((u :: r).take (Shape.atFront u r).size)
      ((Shape.atFront u r).shape.read ((u :: r).take (Shape.atFront u r).size)) := by
  have htake : (u :: r).take (r.length + 1) = u :: r := List.take_length (l := u :: r)
  obtain h | ⟨hu, he⟩ | ⟨ho, he⟩ | ⟨ho, he⟩ | ⟨hb, ho, hn, he⟩ := Shape.atFront_found u r
  · obtain ⟨cause, hc⟩ | ⟨k, v, hread, hk⟩ := h.read
    · rw [hc.read]
      exact .number (longest_atFront h) hc
    · rw [hread]
      refine .token v (longest_atFront h) (fun ho => ?_) hk fun cause hc => ?_
      · rw [ho.atFront] at h
        cases h
      · rw [hc.read] at hread
        cases hread
  · rw [he]
    exact .blank rfl hu
  · rw [he, htake]
    exact .openComment ho
  · rw [he, htake]
    exact .openString ho
  · rw [he, strayOf_take]
    exact .stray rfl hb ho hn

end Lexical

open Lexical

/-- A piece is cut by the rule from the text `rest`, which stands behind `before`. -/
def Piece.Munched (source : Source) (before rest : Text) : Piece → Prop
  | blank u => Munch rest [u] .blank
  | token t => Munch rest t.lexeme (.token t.kind t.value) ∧ t.source = source ∧
      t.start = before.length ∧ t.length = t.lexeme.length
  | fault text report => ∃ cause, Munch rest text (.fault cause) ∧
      report = ⟨source.name, (Place.start.after before).location, cause.message, cause.code⟩

theorem Piece.StandsAt.munched {source : Source} {before rest r : Text} {u : UInt16} {p : Piece}
    (h : p.StandsAt source before (Shape.atFront u r).shape) (ht : p.lexeme ++ rest = u :: r)
    (hs : p.lexeme.length = (Shape.atFront u r).size) : p.Munched source before (u :: r) := by
  have hlexeme : (u :: r).take (Shape.atFront u r).size = p.lexeme := by
    rw [← ht, ← hs, List.take_left]
  have hmunch := munch_atFront u r
  rw [hlexeme] at hmunch
  cases p with
  | blank v =>
    obtain ⟨rfl, -⟩ := List.cons.inj ht
    exact .blank rfl h
  | token t =>
    obtain ⟨hread, -, hsource, hstart, hlength⟩ := h
    change Munch _ t.lexeme (Shape.read _ t.lexeme) at hmunch
    rw [hread] at hmunch
    exact ⟨hmunch, hsource, hstart, hlength⟩
  | fault text report =>
    obtain ⟨cause, hread, hreport⟩ := h
    change Munch _ text (Shape.read _ text) at hmunch
    rw [hread] at hmunch
    exact ⟨cause, hmunch, hreport⟩

theorem Cut.munched {source : Source} {before text : Text} {pieces : List Piece}
    (h : Cut source before text pieces) {front back : List Piece} {p : Piece}
    (hp : pieces = front ++ p :: back) :
    p.Munched source (before ++ front.flatMap Piece.lexeme) ((p :: back).flatMap Piece.lexeme) := by
  induction h generalizing front with
  | nil _ => simp at hp
  | @cons before rest r u q pieces hq ht hs hcut ih =>
    cases front with
    | nil =>
      obtain ⟨rfl, rfl⟩ := List.cons.inj hp
      rw [List.flatMap_nil, List.append_nil, List.flatMap_cons, hcut.flatMap_lexeme, ht]
      exact hq.munched ht hs
    | cons q' front =>
      obtain ⟨rfl, htail⟩ := List.cons.inj hp
      rw [List.flatMap_cons, ← List.append_assoc]
      exact ih htail

theorem Source.munched_of_pieces {source : Source} {front back : List Piece} {p : Piece}
    (h : source.pieces = front ++ p :: back) :
    p.Munched source (front.flatMap Piece.lexeme) (p.lexeme ++ back.flatMap Piece.lexeme) :=
  source.cut_pieces.munched h

theorem Source.scan_cut (source : Source) : ∃ pieces : List Piece,
    Cut source [] source.text pieces ∧
    source.scan.tokens = pieces.filterMap Piece.token? ++ [source.endToken] ∧
    source.scan.reports = pieces.filterMap Piece.report? :=
  ⟨source.pieces, source.cut_pieces, source.tokens_eq, source.reports_eq⟩

/-- A scanned text is cut by the rule of the longest lexeme, from its first unit to its last: what
scanning gives are the tokens and the reports of the pieces, each cut from all that is left of the
text where the piece begins. -/
theorem scan_maximal_munch (source : Source) : ∃ pieces : List Piece,
    pieces.flatMap Piece.lexeme = source.text ∧
    source.scan.tokens = pieces.filterMap Piece.token? ++ [source.endToken] ∧
    source.scan.reports = pieces.filterMap Piece.report? ∧
    ∀ front p back, pieces = front ++ p :: back →
      p.Munched source (front.flatMap Piece.lexeme) ((p :: back).flatMap Piece.lexeme) := by
  obtain ⟨pieces, hcut, htokens, hreports⟩ := source.scan_cut
  exact ⟨pieces, hcut.flatMap_lexeme, htokens, hreports, fun front p back hp => hcut.munched hp⟩

end Seanet
