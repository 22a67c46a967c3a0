import Seanet.Lexical.Reading

set_option autoImplicit false

namespace Seanet

namespace Lexical

theorem run_le (p : UInt16 → Bool) (t : Text) : run p t ≤ t.length := by
  unfold run
  exact (List.takeWhile_prefix p).length_le

theorem run_drop_le (p : UInt16 → Bool) (t : Text) (n : Nat) (hn : n ≤ t.length) :
    n + run p (t.drop n) ≤ t.length := by
  have h := run_le p (t.drop n)
  rw [List.length_drop] at h
  omega

theorem run_pos {p : UInt16 → Bool} {u : UInt16} (hu : p u = true) (r : Text) :
    1 ≤ run p (u :: r) := by
  simp [run, hu]

theorem blockEnd?_le {t : Text} {n : Nat} (h : blockEnd? t = some n) : n ≤ t.length := by
  induction t generalizing n with
  | nil => cases h
  | cons u t ih =>
    cases t with
    | nil => cases h
    | cons v r =>
      simp only [blockEnd?] at h
      split at h
      · obtain rfl := Option.some.inj h
        simp
      · obtain ⟨m, hm, rfl⟩ := Option.map_eq_some_iff.1 h
        have hle := ih hm
        simp only [List.length_cons] at hle ⊢
        omega

theorem fraction_le (t : Text) : fraction t ≤ t.length := by
  cases t with
  | nil => simp [fraction]
  | cons u r =>
    have h := run_le isDigit r
    simp only [fraction, List.length_cons]
    split <;> omega

theorem sign_le (t : Text) : sign t ≤ t.length := by
  cases t with
  | nil => simp [sign]
  | cons u r =>
    simp only [sign, List.length_cons]
    split <;> omega

theorem exponent_le (t : Text) : exponent t ≤ t.length := by
  cases t with
  | nil => simp [exponent]
  | cons u r =>
    have h := run_drop_le isDigit r (sign r) (sign_le r)
    simp only [exponent, List.length_cons]
    split <;> omega

theorem integerSuffix_le (t : Text) : (integerSuffix t).2 ≤ t.length := by
  match t with
  | [] => simp [integerSuffix]
  | [u] =>
    simp only [integerSuffix]
    split
    · simp
    · split <;> simp
  | u :: v :: r =>
    simp only [integerSuffix, List.length_cons]
    split
    · split <;> simp
    · split <;> simp

theorem realSuffix_le (t : Text) : (realSuffix t).2 ≤ t.length := by
  cases t with
  | nil => simp [realSuffix]
  | cons u r =>
    simp only [realSuffix]
    split <;> simp

/-- A shape other than a blank, with units that are there, and not an end mark. -/
structure Proper (e : Extent) (t : Text) : Prop where
  pos : 1 ≤ e.size
  le : e.size ≤ t.length
  not_blank : e.shape ≠ .blank
  not_end : e.shape ≠ .mark .eof

theorem integerOf_proper {radix : Radix} {t : Text} {size : Nat} (hp : 1 ≤ size)
    (hs : size ≤ t.length) : Proper (integerOf radix t size) t := by
  have h := integerSuffix_le (t.drop size)
  rw [List.length_drop] at h
  unfold integerOf
  refine ⟨?_, ?_, by simp, by simp⟩ <;> simp only <;> omega

theorem decimal_proper {t : Text} {whole : Nat} (hp : 1 ≤ whole) (hw : whole ≤ t.length) :
    let mantissa := whole + fraction (t.drop whole)
    let size := mantissa + exponent (t.drop mantissa)
    Proper (if size = whole then integerOf .decimal t whole
      else ⟨.real (realSuffix (t.drop size)).1, size + (realSuffix (t.drop size)).2⟩) t := by
  intro mantissa size
  have hfraction := fraction_le (t.drop whole)
  have hexponent := exponent_le (t.drop mantissa)
  have hsuffix := realSuffix_le (t.drop size)
  rw [List.length_drop] at hfraction hexponent hsuffix
  split
  · exact integerOf_proper hp hw
  · have hmantissa : mantissa = whole + fraction (t.drop whole) := rfl
    have hsize : size = mantissa + exponent (t.drop mantissa) := rfl
    refine ⟨?_, ?_, by simp, by simp⟩ <;> simp only <;> omega

theorem number_proper {u : UInt16} (hu : isDigit u = true) (r : Text) :
    Proper (number (u :: r)) (u :: r) := by
  have hpos := run_pos hu r
  have hwhole := run_le isDigit (u :: r)
  generalize u :: r = t at hpos hwhole ⊢
  unfold number
  simp only
  split
  · exact decimal_proper hpos hwhole
  · next v s hd =>
    split
    · have hl := congrArg List.length hd
      simp only [List.length_drop, List.length_cons] at hl
      have hrun := run_drop_le isHexDigit t (run isDigit t + 1) (by omega)
      exact integerOf_proper (by omega) hrun
    · exact decimal_proper hpos hwhole

theorem markTexts_spec : ∀ m ∈ Kind.markTexts, 1 ≤ m.1.length ∧ m.2 ≠ .eof := by decide

theorem mark?_proper {t : Text} {e : Extent} (h : mark? t = some e) : Proper e t := by
  obtain ⟨m, hm, rfl⟩ := Option.map_eq_some_iff.1 h
  obtain ⟨hpos, hend⟩ := markTexts_spec m (List.mem_of_find?_eq_some hm)
  have hfront : m.1.isPrefixOf t = true := by simpa using List.find?_some hm
  exact ⟨hpos, (List.isPrefixOf_iff_prefix.1 hfront).length_le, by simp, by simpa using hend⟩

theorem afterSlash?_proper (u : UInt16) {r : Text} {e : Extent} (h : afterSlash? r = some e) :
    Proper e (u :: r) := by
  cases r with
  | nil => cases h
  | cons v r =>
    simp only [afterSlash?] at h
    split at h
    · obtain rfl := Option.some.inj h
      have hrun := run_le (· != Text.lineFeed) r
      refine ⟨?_, ?_, by simp, by simp⟩ <;> simp only [List.length_cons] <;> omega
    · split at h
      · split at h
        · next n hn =>
          obtain rfl := Option.some.inj h
          have hle := blockEnd?_le hn
          refine ⟨?_, ?_, by simp, by simp⟩ <;> simp only [List.length_cons] <;> omega
        · obtain rfl := Option.some.inj h
          refine ⟨?_, ?_, by simp, by simp⟩ <;> simp only [List.length_cons] <;> omega
      · cases h

theorem stringOf_proper (u : UInt16) (r : Text) : Proper (stringOf r) (u :: r) := by
  have hrun := run_le (· != Text.unit '"') r
  unfold stringOf
  simp only
  split <;> refine ⟨?_, ?_, by simp, by simp⟩ <;> simp only [List.length_cons] <;> omega

theorem word_proper (u : UInt16) (r : Text) : Proper ⟨.word, 1 + run isWordUnit r⟩ (u :: r) := by
  have hrun := run_le isWordUnit r
  refine ⟨?_, ?_, by simp, by simp⟩ <;> simp only [List.length_cons] <;> omega

theorem strayOf_proper (u : UInt16) (r : Text) : Proper (strayOf u r) (u :: r) := by
  unfold strayOf
  cases r with
  | nil => exact ⟨by simp, by simp, by simp, by simp⟩
  | cons v r =>
    split <;> refine ⟨?_, ?_, by simp, by simp⟩ <;> simp only [List.length_cons] <;> omega

end Lexical

open Lexical

theorem Shape.atFront_cases (u : UInt16) (r : Text) :
    (isBlank u = true ∧ Shape.atFront u r = ⟨.blank, 1⟩) ∨ Proper (Shape.atFront u r) (u :: r) := by
  unfold Shape.atFront
  split
  · next hu => exact .inl ⟨hu, rfl⟩
  refine .inr ?_
  split
  · exact stringOf_proper u r
  split
  · next hu => exact number_proper hu r
  split
  · exact word_proper u r
  split
  · next e he =>
    split at he
    · exact afterSlash?_proper u he
    · cases he
  · cases hm : mark? (u :: r) with
    | none => exact strayOf_proper u r
    | some e => exact mark?_proper hm

theorem Shape.atFront_size (u : UInt16) (r : Text) :
    1 ≤ (Shape.atFront u r).size ∧ (Shape.atFront u r).size ≤ r.length + 1 := by
  obtain ⟨-, h⟩ | h := Shape.atFront_cases u r
  · simp [h]
  · exact ⟨h.pos, h.le⟩

def Reading.IsProper (r : Reading) : Prop := r ≠ .blank ∧ ∀ v, r ≠ .token .eof v

theorem Reading.fault_isProper (cause : LexicalFault) : (Reading.fault cause).IsProper := by
  simp [Reading.IsProper]

theorem Reading.token_isProper {k : Kind} (hk : k ≠ .eof) (v : Option Value) :
    (Reading.token k v).IsProper := by
  simp [Reading.IsProper, hk]

theorem readInteger_isProper (radix : Radix) (type : IntegerType) (lexeme : Text) :
    (readInteger radix type lexeme).IsProper := by
  have hliteral : type.literal ≠ .eof := by cases type <;> decide
  unfold readInteger
  split
  · exact Reading.fault_isProper _
  · split
    · exact Reading.fault_isProper _
    · exact Reading.token_isProper hliteral _

theorem readReal_isProper (type : RealType) (lexeme : Text) : (readReal type lexeme).IsProper := by
  have hliteral : type.literal ≠ .eof := by cases type <;> decide
  unfold readReal
  split
  · exact Reading.fault_isProper _
  · exact Reading.token_isProper hliteral _

theorem ofKeyword?_ne_eof (word : Text) : Kind.ofKeyword? word ≠ some .eof := by
  intro h
  obtain ⟨before, after, hk, -⟩ := List.lookup_eq_some_iff.1 h
  have hm : (word, Kind.eof) ∈ Kind.keywordTexts := by simp [hk]
  have hall : ∀ m ∈ Kind.keywordTexts, m.2 ≠ .eof := by decide
  exact hall _ hm rfl

theorem readWord_isProper (lexeme : Text) : (readWord lexeme).IsProper := by
  unfold readWord
  split
  · exact Reading.token_isProper (by decide) _
  · exact Reading.token_isProper (by decide) _
  · next k _ _ hk =>
    refine Reading.token_isProper ?_ _
    rintro rfl
    exact ofKeyword?_ne_eof lexeme hk
  · exact Reading.token_isProper (by decide) _

theorem Shape.read_isProper {shape : Shape} (hb : shape ≠ .blank) (he : shape ≠ .mark .eof)
    (lexeme : Text) : (shape.read lexeme).IsProper := by
  cases shape with
  | blank => exact absurd rfl hb
  | mark k => exact Reading.token_isProper (by simpa using he) _
  | comment => exact Reading.token_isProper (by decide) _
  | openComment => exact Reading.fault_isProper _
  | string => exact Reading.token_isProper (by decide) _
  | openString => exact Reading.fault_isProper _
  | word => exact readWord_isProper lexeme
  | integer radix type => exact readInteger_isProper radix type lexeme
  | real type => exact readReal_isProper type lexeme
  | stray => exact Reading.fault_isProper _

end Seanet
