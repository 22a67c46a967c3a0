import Seanet.Proofs.Lexical.Units
import Seanet.Proofs.Parser.Layout
import Seanet.Proofs.Parser.Tracking

set_option autoImplicit false

namespace Seanet

open Lexical Seanet.Parser

theorem Word.IsLexeme.ascii {w : Word} (h : w.IsLexeme) (hc : w.kind ≠ .comment)
    (hs : w.kind ≠ .stringLiteral) : w.text.Ascii := by
  obtain ⟨shape, hspells, hemits⟩ := h
  refine hspells.ascii ?_ ?_
  all_goals
    rintro rfl
    generalize w.kind = k at hc hs hemits
    cases hemits
  · exact hc rfl
  · exact hs rfl

theorem Scanned.within {tokens : List Token} (h : Scanned tokens) {t : Token}
    (ht : Within (Stream.ofTokens tokens).tokens t) :
    0 < t.length ∧ t.word.IsLexeme ∧ (t ∈ tokens ∧ t.kind ≠ .comment ∨ t.kind = .greater) := by
  obtain hm | ⟨u, hu, hk, rfl⟩ := ht
  · obtain ⟨hpos, hlexeme⟩ := h.stream hm
    have hmem := (List.mem_filter.1 ((Stream.prefix_visible tokens).mem hm)).1
    exact ⟨hpos, hlexeme, .inl ⟨hmem, (Stream.kind_ne hm).1⟩⟩
  · exact ⟨Nat.one_pos, (isLexeme_halves (h.stream hu).2 hk).2, .inr rfl⟩

theorem Expected.Worded.ascii {what : Expected} (h : what.Worded) : what.message.Ascii := by
  cases what with
  | conditionOpening keyword | conditionClosing keyword =>
    have htable : ∀ k ∈ Kind.keywords.map Prod.fst, (k : Text).Ascii := by decide
    simp only [message, Text.ascii_append]
    exact ⟨⟨Text.ascii_ofList (by decide), htable keyword h⟩, Text.ascii_ofList (by decide)⟩
  | _ => exact Text.ascii_ofList (by decide)

theorem Parser.run_error {α : Type} {p : Parser Token α} {file : Text} {tokens : List Token}
    {r : Report} (hp : Tracks (Stream.ofTokens tokens).tokens p)
    (h : p.run file tokens = .error r) :
    ∃ fault, FaultIn (Stream.ofTokens tokens).tokens fault ∧
      r = fault.report file (Stream.ofTokens tokens).ending := by
  have hstop := hp _ (.refl _)
  simp only [Parser.run] at h
  split at h
  · cases h
  · next fault hf =>
    rw [hf] at hstop
    exact ⟨fault, hstop, (Except.error.inj h).symm⟩

/-- A message of the parser about scanned tokens is ASCII, or it quotes a string literal of them
behind a text that is. -/
inductive Report.Quotes (tokens : List Token) (r : Report) : Prop where
  | none (hm : r.message.Ascii)
  | literal {what : Expected} {t : Token} (hw : what.message.Ascii) (ht : t ∈ tokens)
      (hk : t.kind = .stringLiteral) (hp : r.place = ⟨t.line, t.column⟩)
      (hm : r.message = what.message ++ (" Found \"" : Text) ++ t.lexeme ++ ("\"." : Text))

theorem SyntaxFault.quotes {tokens : List Token} (hs : Scanned tokens) {fault : SyntaxFault Token}
    (h : FaultIn (Stream.ofTokens tokens).tokens fault) (file : Text) (ending : Location) :
    (fault.report file ending).Quotes tokens := by
  cases h with
  | @expected what rest hw h =>
    cases rest with
    | nil =>
      refine .none ?_
      simp only [report, message, found, Text.ascii_append]
      exact ⟨⟨hw.ascii, by decide⟩, by decide⟩
    | cons t rest =>
      obtain ⟨hpos, hlexeme, ht⟩ := hs.within h.within
      have hword := Token.word_of_pos hpos
      by_cases hk : t.kind = .stringLiteral
      · obtain ⟨hmem, -⟩ | hk' := ht
        · refine .literal hw.ascii hmem hk rfl ?_
          simp only [report, message, found, List.append_assoc]
          rfl
        · rw [hk] at hk'
          cases hk'
      · have hkind : t.kind ≠ .comment := by
          rintro hc
          obtain ⟨-, hn⟩ | hk' := ht
          · exact hn hc
          · rw [hc] at hk'
            cases hk'
        have hascii := hlexeme.ascii (by rwa [hword]) (by rwa [hword])
        rw [hword] at hascii
        refine .none ?_
        simp only [report, message, found, Text.ascii_append]
        exact ⟨⟨hw.ascii, by decide⟩, ⟨by decide, hascii⟩, by decide⟩
  | assignmentTarget _ _ _ =>
    have hmessage : Text.Ascii "Invalid assignment target." := by decide
    exact .none hmessage
  | refFunction _ _ =>
    have hmessage : Text.Ascii "ref cannot apply to a function-pointer type." := by decide
    exact .none hmessage

theorem Parser.run_quotes {α : Type} {p : Parser Token α} {file : Text} {tokens : List Token}
    {r : Report} (hs : Scanned tokens) (hp : Tracks (Stream.ofTokens tokens).tokens p)
    (h : p.run file tokens = .error r) : r.file = file ∧ r.Quotes tokens := by
  obtain ⟨fault, hf, rfl⟩ := run_error hp h
  exact ⟨rfl, SyntaxFault.quotes hs hf _ _⟩

theorem Lexical.Refuses.message {shape : Shape} {l : Text} {cause : LexicalFault}
    (h : Refuses shape l cause) : cause.message.Ascii := by
  have hinteger (type : IntegerType) : (type.name : Text).Ascii := by cases type <;> decide
  have hreal (type : RealType) : (type.name : Text).Ascii := by cases type <;> decide
  have hascii := h.ascii
  cases h with
  | malformed _ _ | integerRange _ _ _ =>
    rw [Text.ascii_append] at hascii
    simp only [LexicalFault.message, Text.ascii_append]
    exact ⟨⟨⟨⟨by decide, hinteger _⟩, by decide⟩, hascii⟩, by decide⟩
  | realRange _ _ _ =>
    rw [Text.ascii_append] at hascii
    simp only [LexicalFault.message, Text.ascii_append]
    exact ⟨⟨⟨⟨by decide, hreal _⟩, by decide⟩, hascii⟩, by decide⟩

theorem Lexical.Munch.message {t l : Text} {cause : LexicalFault} (h : Munch t l (.fault cause)) :
    cause.message.Ascii ∨ ∃ u r, t = u :: r ∧ isBlank u = false ∧
      l = (u :: if Text.isHigh u then r.take 1 else []) ∧ cause = .unexpected l := by
  cases h with
  | number _ hr => exact .inl hr.message
  | openComment _ | openString _ => exact .inl (by decide)
  | stray ht hu _ _ => exact .inr ⟨_, _, ht, hu, rfl, rfl⟩

theorem Source.mem_reports {source : Source} {r : Report} (h : r ∈ source.scan.reports) :
    ∃ before rest l cause, source.text = before ++ rest ∧ Munch rest l (.fault cause) ∧
      r = ⟨source.name, (Place.start.after before).location, cause.message, cause.code⟩ := by
  obtain ⟨front, l, back, hpieces⟩ := Source.mem_reports_iff.1 h
  obtain ⟨cause, hmunch, hreport⟩ := Source.munched_of_pieces hpieces
  exact ⟨_, _, l, cause, Source.text_of_pieces hpieces, hmunch, hreport⟩

theorem Source.mem_log {source : Source} {r : Report} (h : r ∈ source.compile.log) :
    r ∈ source.scan.reports ∨ r.file = source.name ∧ r.Quotes source.scan.tokens := by
  obtain hm | hm := List.mem_append.1 h
  · exact .inl hm
  · cases hp : parseProgram source.name source.scan.tokens with
    | ok program =>
      rw [hp] at hm
      cases hm
    | error r' =>
      rw [hp] at hm
      obtain rfl := List.mem_singleton.1 hm
      exact .inr (run_quotes (fun _ ht => ⟨source, ht⟩) (tracks_program maxNesting) hp)

end Seanet
