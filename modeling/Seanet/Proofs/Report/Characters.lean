import Seanet.Proofs.Lexical.Characters
import Seanet.Proofs.Parser.FirstFault
import Seanet.Proofs.Parser.Quoting
import Seanet.Proofs.Tree.Characters

set_option autoImplicit false

namespace Seanet

open Lexical Seanet.Parser
open Text (append_wellFormed wellFormed_ofString unitsOf IsAstral)

theorem Token.wellFormed_spelling {t : Token} (h : t.lexeme.WellFormed = true) :
    t.spelling.WellFormed = true := by
  unfold Token.spelling
  split
  · exact h
  · split <;> first | exact wellFormed_ofString _ | rfl

theorem Word.IsLexeme.wellFormed {t : Token} (h : t.word.IsLexeme) (hc : t.kind ≠ .comment)
    (hs : t.kind ≠ .stringLiteral) : t.spelling.WellFormed = true := by
  rw [← Token.word_text]
  exact (h.ascii (by rwa [Token.word_kind]) (by rwa [Token.word_kind])).wellFormed

/-- The error is told in well-formed texts, by itself and as it is listed. -/
structure Report.Whole (r : Report) : Prop where
  message : r.message.WellFormed = true
  formatted : r.formatted.WellFormed = true

/-- A tree that is printed as a well-formed text, or an error that is told in such texts. -/
inductive Parsed.Whole {α : Type} (print : α → Text) : Parsed α → Prop where
  | tree {a : α} (h : (print a).WellFormed = true) : Whole print (.ok a)
  | error {r : Report} (h : r.Whole) : Whole print (.error r)

theorem Report.whole_of_message {r : Report} (hf : r.file.WellFormed = true)
    (hm : r.message.WellFormed = true) : r.Whole := by
  have hline := (Text.ascii_ofInt r.place.line).wellFormed
  have hcolumn := (Text.ascii_ofInt r.place.column).wellFormed
  refine ⟨hm, ?_⟩
  simp only [formatted, formatError, List.append_assoc, Text.wellFormed_append, wellFormed_ofString,
    hf, hline, hcolumn, hm]

theorem Report.Quotes.wellFormed {tokens : List Token} {r : Report} (h : r.Quotes tokens)
    (hl : ∀ t ∈ tokens, t.lexeme.WellFormed = true) : r.message.WellFormed = true := by
  cases h with
  | none hm => exact hm.wellFormed
  | literal hw ht _ _ hm =>
    rw [hm]
    simp only [List.append_assoc, Text.wellFormed_append, wellFormed_ofString, hw.wellFormed,
      hl _ ht]

theorem Parsed.Whole.settle {α : Type} {print : α → Text} {outcome : Parsed α}
    (h : outcome.Whole print) {fallback : α} (hf : (print fallback).WellFormed = true) :
    (print (Parsed.settle fallback outcome).1).WellFormed = true ∧
      ∀ r ∈ (Parsed.settle fallback outcome).2, r.Whole := by
  cases h with
  | tree ha => exact ⟨ha, nofun⟩
  | error hr => exact ⟨hf, List.forall_mem_singleton.2 hr⟩

section

variable {tokens : List Token} (hs : Scanned tokens)
  (hl : ∀ t ∈ tokens, t.lexeme.WellFormed = true)

include hs hl

theorem Mark.wellFormed_spelling (m : Mark ((Stream.ofTokens tokens).tokens.map Token.kind)) :
    (Mark.tokenMap rfl m).spelling.WellFormed = true := by
  have hmem : m.source rfl ∈ (Stream.ofTokens tokens).tokens := List.get_mem _ _
  obtain ⟨i, part⟩ := m
  rw [Mark.tokenMap_apply]
  cases part with
  | whole =>
    have hvisible := (Stream.prefix_visible tokens).mem hmem
    exact Token.wellFormed_spelling (hl _ (List.mem_filter.1 hvisible).1)
  | secondHalf =>
    simp only [Part.of]
    split
    · next hk => exact (isLexeme_halves (hs.stream hmem).2 hk).2.wellFormed nofun nofun
    · rfl
  | unwrittenTrue => exact (isLexeme_unwrittenTrue _).wellFormed nofun nofun
  | unwrittenVoid => exact (isLexeme_unwrittenVoid _).wellFormed nofun nofun

theorem whole_run {α β : Type} {print : α → Text} {p : Parser Token α} {file : Text}
    {q : Parser (Mark ((Stream.ofTokens tokens).tokens.map Token.kind)) β} {g : β → α}
    (hf : file.WellFormed = true) (ht : Tracks (Stream.ofTokens tokens).tokens p)
    (hq : Parser.Follows False (Mark.tokenMap rfl) g q p)
    (hprint : ∀ b, (print (g b)).WellFormed = true) : (p.run file tokens).Whole print := by
  have hp := hq.eq (Mark.all _)
  rw [Mark.all_map_tokenMap] at hp
  cases h : p.run file tokens with
  | error r =>
    obtain ⟨rfl, hquotes⟩ := Parser.run_quotes hs ht h
    exact .error (Report.whole_of_message hf (hquotes.wellFormed hl))
  | ok a =>
    simp only [Parser.run, hp] at h
    cases hmarks : q (Mark.all _) with
    | error fault =>
      rw [hmarks] at h
      cases h
    | ok r =>
      rw [hmarks] at h
      obtain rfl := Except.ok.inj h
      exact .tree (hprint r.1)

theorem whole_parseProgram {file : Text} (hf : file.WellFormed = true) :
    (parseProgram file tokens).Whole Program.print := by
  refine whole_run hs hl hf (tracks_program maxNesting) (Parser.follows_program (.inl rfl))
    fun p => ?_
  rw [Program.print, Printer.program_map]
  exact Printer.wellFormed_program (Mark.wellFormed_spelling hs hl) p

theorem whole_parseExpr {file : Text} (hf : file.WellFormed = true) :
    (parseExpr file tokens).Whole Expr.print := by
  refine whole_run hs hl hf (tracks_whole (tracks_expression maxNesting))
    (Parser.follows_whole (Parser.follows_expression (.inl rfl))) fun e => ?_
  rw [Expr.print, Printer.expr_map]
  exact Printer.wellFormed_expr (Mark.wellFormed_spelling hs hl) e

theorem whole_parseType {file : Text} (hf : file.WellFormed = true) :
    (parseType file tokens).Whole TypeExpr.print := by
  refine whole_run hs hl hf (tracks_whole (tracks_typeExpr maxNesting true))
    (Parser.follows_whole (Parser.follows_typeExpr (.inl rfl) true)) fun t => ?_
  rw [TypeExpr.print, Printer.typeExpr_map]
  exact Printer.wellFormed_typeExpr (Mark.wellFormed_spelling hs hl) t

end

namespace Source

variable {source : Source}

theorem whole_of_mem_reports (hname : source.name.WellFormed = true)
    (htext : source.text.WellFormed = true) {r : Report} (h : r ∈ source.scan.reports) :
    r.Whole := by
  obtain ⟨front, l, back, hpieces⟩ := mem_reports_iff.1 h
  obtain ⟨cause, hmunch, rfl⟩ := munched_of_pieces hpieces
  have hlexeme : l.WellFormed = true := (wellFormed_of_pieces htext hpieces).2.1
  refine Report.whole_of_message hname ?_
  obtain hascii | ⟨u, s, -, -, -, rfl⟩ := hmunch.message
  · exact hascii.wellFormed
  · exact append_wellFormed (append_wellFormed (wellFormed_ofString _) hlexeme)
      (wellFormed_ofString _)

theorem code_ne_unexpected {r : Report}
    (h : r ∈ (Parsed.settle .empty (parseProgram source.name source.scan.tokens)).2) :
    r.code ≠ .unexpectedCharacter := by
  have hsyntactic := (settled_program source.name source.scan.tokens).errors.2.1 r h
  rintro hcode
  rw [hcode] at hsyntactic
  simp [Code.syntactic] at hsyntactic

theorem mem_reports_of_unexpected {r : Report} (h : r ∈ source.compile.log)
    (hcode : r.code = .unexpectedCharacter) : r ∈ source.scan.reports :=
  (List.mem_append.1 h).resolve_right fun hr => code_ne_unexpected hr hcode

theorem filter_log {r : Report} (h : r ∈ source.scan.reports)
    (hcode : r.code = .unexpectedCharacter) :
    source.compile.log.filter (fun r' => r'.code = .unexpectedCharacter ∧ r'.place = r.place) =
      [r] := by
  obtain ⟨before, behind, hreports⟩ := List.append_of_mem h
  have hpairwise := source.scan_reports_pairwise
  rw [hreports, List.pairwise_append, List.pairwise_cons] at hpairwise
  obtain ⟨-, ⟨hbehind, -⟩, hbefore⟩ := hpairwise
  have hlog : source.compile.log = before ++ r :: behind ++
      (Parsed.settle Program.empty (parseProgram source.name source.scan.tokens)).2 := by
    rw [← hreports]
    rfl
  rw [hlog, List.filter_append, List.filter_append, List.filter_cons_of_pos (by simp [hcode]),
    List.filter_eq_nil_iff.2, List.filter_eq_nil_iff.2, List.filter_eq_nil_iff.2]
  · rfl
  · intro e he
    simp only [decide_eq_true_eq, not_and]
    exact fun hc => absurd hc (code_ne_unexpected he)
  · intro e he
    simp only [decide_eq_true_eq, not_and]
    exact fun _ => (hbehind e he).ne.symm
  · intro e he
    simp only [decide_eq_true_eq, not_and]
    exact fun _ => (hbefore e he r List.mem_cons_self).ne

end Source

/-- Of a well-formed source with a well-formed name, each token begins and ends between characters,
and whatever is read, reported or printed is well-formed. Each character outside the basic plane is
reported once, at its place and whole, unless it lies in a comment or a string; and what is reported
as unexpected is always one character of the text. -/
theorem characters_whole (source : Source) (hname : source.name.WellFormed = true)
    (htext : source.text.WellFormed = true) :
    (∀ t ∈ source.scan.tokens, t.Whole source.text) ∧
    (∀ r ∈ source.compile.log, r.Whole) ∧ source.compile.program.print.WellFormed = true ∧
    (∀ file : Text, file.WellFormed = true →
      (parseExpr file source.scan.tokens).Whole Expr.print ∧
        (parseType file source.scan.tokens).Whole TypeExpr.print) ∧
    (∀ before c rest, source.text = before ++ unitsOf c ++ rest → IsAstral c →
      ¬ source.Encloses before.length → ∃ place, place.IsAt source.text before.length ∧
        source.compile.log.filter (fun r => r.code = .unexpectedCharacter ∧ r.place = place) =
          [source.stray place c]) ∧
    ∀ r ∈ source.compile.log, r.code = .unexpectedCharacter → ∃ before c rest,
      source.text = before ++ unitsOf c ++ rest ∧ r.place.IsAt source.text before.length ∧
        r = source.stray r.place c := by
  have htokens : ∀ t ∈ source.scan.tokens, t.Whole source.text :=
    fun t => Source.whole_of_mem_scan htext
  have hscanned : Scanned source.scan.tokens := fun t ht => ⟨source, ht⟩
  have hlexemes : ∀ t ∈ source.scan.tokens, t.lexeme.WellFormed = true :=
    fun t ht => (htokens t ht).lexeme
  have hempty : (Program.print .empty).WellFormed = true :=
    wellFormed_node "program" (List.forall_mem_nil _)
  obtain ⟨hprogram, herrors⟩ := (whole_parseProgram hscanned hlexemes hname).settle hempty
  refine ⟨htokens, fun r hr => ?_, hprogram, fun file hf => ?_, ?_, ?_⟩
  · obtain hm | hm := List.mem_append.1 hr
    · exact Source.whole_of_mem_reports hname htext hm
    · exact herrors r hm
  · exact ⟨whole_parseExpr hscanned hlexemes hf, whole_parseType hscanned hlexemes hf⟩
  · intro before c rest he hc ho
    refine ⟨_, ?_, Source.filter_log (Source.stray_mem_reports htext he hc ho) rfl⟩
    rw [he, List.append_assoc]
    exact Place.after_isAt _ _
  · intro r hr hcode
    obtain ⟨before, c, rest, he, hstray⟩ :=
      Source.eq_stray_of_mem_reports htext (Source.mem_reports_of_unexpected hr hcode) hcode
    refine ⟨before, c, rest, he, ?_, by rw [hstray]; rfl⟩
    rw [hstray, he, List.append_assoc]
    exact Place.after_isAt _ _

/-- A mathematical letter that is reported, and the same one in a comment and in a string. -/
theorem characters_whole_letter :
    let source : Source := ⟨"𝔸.sn", "𝔸 // 𝔸\n\"𝔸\""⟩
    source.name.WellFormed = true ∧ source.text.WellFormed = true ∧
      ¬ source.Encloses 0 ∧ ∃ place, place.IsAt source.text 0 ∧
        source.compile.log.filter (fun r => r.code = .unexpectedCharacter ∧ r.place = place) =
          [source.stray place '𝔸'] := by
  intro source
  have hname : source.name.WellFormed = true := by decide
  have htext : source.text.WellFormed = true := by decide
  have htokens : ∀ t ∈ source.scan.tokens, (t.kind = .comment ∨ t.kind = .stringLiteral) →
      0 < t.start := by decide +kernel
  have hreports : ∀ r ∈ source.scan.reports,
      ¬ (r.code = .unterminatedComment ∨ r.code = .unterminatedString) := by decide +kernel
  have hastral : IsAstral '𝔸' := by
    unfold IsAstral
    decide
  have ho : ¬ source.Encloses 0 := by
    rintro (⟨t, ht, hk, hle, -⟩ | ⟨r, hr, hcode, -⟩)
    · exact Nat.not_le.2 (htokens t ht hk) hle
    · exact hreports r hr hcode
  refine ⟨hname, htext, ho, ?_⟩
  exact (characters_whole source hname htext).2.2.2.2.1 [] '𝔸' " // 𝔸\n\"𝔸\"" rfl hastral ho

end Seanet
