import Seanet.Compilation
import Seanet.Proofs.Grammar.ExpressionParsing
import Seanet.Proofs.Grammar.TypeParsing
import Seanet.Proofs.Lexical.MaximalMunch
import Seanet.Proofs.Tree.Parsed
import Seanet.Proofs.Tree.Readback

set_option autoImplicit false

namespace Seanet

open Grammar Seanet.Parser

theorem Lexical.Munch.spells {t l : Text} {k : Kind} {v : Option Value}
    (h : Lexical.Munch t l (.token k v)) :
    ∃ shape, Lexical.Spells shape l ∧ Lexical.Emits shape l k := by
  cases h with
  | token _ hl _ hk _ => exact ⟨_, hl.spells, hk⟩

theorem Piece.Munched.length_pos {source : Source} {before rest : Text} {t : Token}
    (h : (Piece.token t).Munched source before rest) : 0 < t.length := by
  obtain ⟨hmunch, -, -, hlength⟩ := h
  obtain ⟨shape, hs, -⟩ := hmunch.spells
  rw [hlength]
  exact List.length_pos_iff.2 hs.ne_nil

theorem Piece.Munched.isLexeme {source : Source} {before rest : Text} {t : Token}
    (h : (Piece.token t).Munched source before rest) : t.word.IsLexeme := by
  rw [Token.word_of_pos h.length_pos]
  exact h.1.spells

theorem isLexeme_of_mem_scan {source : Source} {t : Token} (h : t ∈ source.scan.tokens)
    (hkind : t.kind ≠ .eof) : 0 < t.length ∧ t.word.IsLexeme := by
  obtain ⟨front, back, hpieces⟩ | rfl := Source.mem_scan_iff.1 h
  · have hmunched := Source.munched_of_pieces hpieces
    exact ⟨hmunched.length_pos, hmunched.isLexeme⟩
  · exact absurd rfl hkind

theorem scan_lexemes (source : Source) :
    Lexemes (Stream.ofTokens source.scan.tokens).tokens := by
  intro t ht
  have hkind := (Stream.kind_ne ht).2
  rw [Stream.ofTokens_tokens] at ht
  have hscan := (List.mem_filter.1 ((List.takeWhile_sublist _).mem ht)).1
  exact (isLexeme_of_mem_scan hscan hkind).2

theorem parseType_fits {source : Source} {file : Text} {t : TypeExpr Token}
    (h : parseType file source.scan.tokens = .ok t) : (t.map Token.word).Fits := by
  rw [parseType, run_whole_ok_iff] at h
  obtain ⟨us, hu, ht⟩ := typeExpr_sound maxNesting true h
  exact isType_fits maxNesting true ht (hu.lexemes (scan_lexemes source))

theorem parseExpr_fits {source : Source} {file : Text} {e : Expr Token}
    (h : parseExpr file source.scan.tokens = .ok e) : (e.map Token.word).Fits := by
  rw [parseExpr, run_whole_ok_iff] at h
  obtain ⟨us, hu, he⟩ := expression_sound maxNesting h
  exact spells_fits he (hu.lexemes (scan_lexemes source))

theorem parseProgram_fits {source : Source} {file : Text} {p : Program Token}
    (h : parseProgram file source.scan.tokens = .ok p) : (p.map Token.word).Fits := by
  rw [parseProgram, run_ok_iff] at h
  obtain ⟨rest, h⟩ := h
  obtain ⟨us, hu, hp, -⟩ := program_sound h
  exact isProgram_fits hp (hu.lexemes (scan_lexemes source))

theorem compile_log_eq_nil {source : Source} : source.compile.log = [] ↔
    source.scan.reports = [] ∧
      parseProgram source.name source.scan.tokens = .ok source.compile.program := by
  unfold Source.compile
  cases h : parseProgram source.name source.scan.tokens with
  | ok p => simp [Parsed.settle, h]
  | error r => simp [Parsed.settle, h]

def Source.kinds (source : Source) : List Kind :=
  (Stream.ofTokens source.scan.tokens).tokens.map Token.kind

theorem compile_emptyStruct {source : Source} (hr : source.scan.reports = [])
    (h : source.kinds = [.structWord, .identifier, .leftBrace, .rightBrace]) :
    source.compile.log = [] := by
  simp only [Source.kinds, List.map_eq_cons_iff, List.map_eq_nil_iff] at h
  obtain ⟨u, _, ht, hu, v, _, rfl, hv, l, _, rfl, hl, r, _, rfl, hr', rfl⟩ := h
  have hd : IsDeclaration maxNesting (.struct v []) [u, v, l, r] := .struct hu hv hl .nil hr'
  have hparse : parseProgram source.name source.scan.tokens = .ok ⟨[.struct v []]⟩ := by
    refine run_ok_iff.2 ⟨[], ?_⟩
    rw [ht]
    exact program_complete (.token u (.token v (.token l (.single r []))))
      ⟨.mk (.cons hd .nil), rfl⟩
  refine compile_log_eq_nil.2 ⟨hr, ?_⟩
  simp [Source.compile, hparse, Parsed.settle]

theorem parseExpr_name (source : Source) (file : Text) (h : source.kinds = [.identifier]) :
    ∃ v, parseExpr file source.scan.tokens = .ok (.variable v false) := by
  simp only [Source.kinds, List.map_eq_cons_iff, List.map_eq_nil_iff] at h
  obtain ⟨v, _, ht, hv, rfl⟩ := h
  have hspells : Spells maxNesting (.variable v false) [v] := ⟨.variable hv, YieldsOver.variable v⟩
  refine ⟨v, run_whole_ok_iff.2 (expression_whole_iff.2 ⟨[v], ?_, hspells⟩)⟩
  rw [ht]
  exact .single v []

theorem parseType_fun (source : Source) (file : Text) (h : source.kinds = [.funWord]) :
    ∃ u : Token, parseType file source.scan.tokens =
      .ok (.function [] (.named u.unwrittenVoid false)) := by
  simp only [Source.kinds, List.map_eq_cons_iff, List.map_eq_nil_iff] at h
  obtain ⟨u, _, ht, hu, rfl⟩ := h
  have hf : IsFunctionType maxNesting (.function [] (.named u.unwrittenVoid false)) [u] := .bare hu
  refine ⟨u, run_whole_ok_iff.2 ?_⟩
  rw [ht]
  exact typeExpr_complete maxNesting true (.single u []) ⟨.function hf .nil, stops_nil _⟩

theorem parseType_funVoid (source : Source) (file : Text)
    (h : source.kinds = [.funWord, .less, .void, .greater]) :
    ∃ v, parseType file source.scan.tokens = .ok (.function [] (.named v false)) := by
  simp only [Source.kinds, List.map_eq_cons_iff, List.map_eq_nil_iff] at h
  obtain ⟨u, _, ht, hu, l, _, rfl, hl, v, _, rfl, hv, r, _, rfl, hr, rfl⟩ := h
  have hentry : IsType 255 true (.named v false) [v] :=
    TypeOver.name .absent (by rw [show TokenView.kind v = .void from hv]; rfl) .nil
  have hentries : Separated (IsType 255 true) ([] ++ [.named v false]) [v] := .mk hentry .nil
  have hf : IsFunctionType maxNesting (.function [] (.named v false)) (u :: l :: [v] ++ [r]) :=
    FunctionOver.list hu hl hentries hr
  refine ⟨v, run_whole_ok_iff.2 ?_⟩
  rw [ht]
  exact typeExpr_complete maxNesting true (.token u (.token l (.token v (.single r []))))
    ⟨.function hf .nil, stops_nil _⟩

theorem TypeExpr.print_eq (t : TypeExpr Token) :
    t.print = Printer.typeExpr Word.text (t.map Token.word) := by
  rw [Printer.typeExpr_map, print, funext Token.word_text]

theorem Expr.print_eq (e : Expr Token) :
    e.print = Printer.expr Word.text (e.map Token.word) := by
  rw [Printer.expr_map, print, funext Token.word_text]

theorem Program.print_eq (p : Program Token) :
    p.print = Printer.program Word.text (p.map Token.word) := by
  rw [Printer.program_map, print, funext Token.word_text]

/-- Programs, expressions and types print alike exactly when they have the same words. -/
theorem print_faithful :
    (∀ s s' : Source, s.compile.log = [] → s'.compile.log = [] →
      (s.compile.program.print = s'.compile.program.print ↔
        s.compile.program.map Token.word = s'.compile.program.map Token.word)) ∧
    (∀ (s s' : Source) (file file' : Text) (e e' : Expr Token),
      parseExpr file s.scan.tokens = .ok e → parseExpr file' s'.scan.tokens = .ok e' →
      (e.print = e'.print ↔ e.map Token.word = e'.map Token.word)) ∧
    ∀ (s s' : Source) (file file' : Text) (t t' : TypeExpr Token),
      parseType file s.scan.tokens = .ok t → parseType file' s'.scan.tokens = .ok t' →
      (t.print = t'.print ↔ t.map Token.word = t'.map Token.word) := by
  refine ⟨fun s s' h h' => ?_, fun s s' _ _ e e' h h' => ?_, fun s s' _ _ t t' h h' => ?_⟩
  · rw [Program.print_eq, Program.print_eq]
    have hfits := parseProgram_fits (compile_log_eq_nil.1 h).2
    have hfits' := parseProgram_fits (compile_log_eq_nil.1 h').2
    exact ⟨hfits.print_inj hfits', congrArg (Printer.program Word.text)⟩
  · rw [Expr.print_eq, Expr.print_eq]
    exact ⟨(parseExpr_fits h).print_inj (parseExpr_fits h'), congrArg (Printer.expr Word.text)⟩
  · rw [TypeExpr.print_eq, TypeExpr.print_eq]
    exact ⟨(parseType_fits h).print_inj (parseType_fits h'), congrArg (Printer.typeExpr Word.text)⟩

/-- A struct in two layouts, a name with and without a comment before it, and a `void` that is
written and one that is not. -/
theorem print_faithful_layouts :
    let s : Source := ⟨"a.sn", "struct A\x7b\x7d"⟩
    let s' : Source := ⟨"b.sn", "struct A // empty\n\x7b \x7d"⟩
    (s.compile.log = [] ∧ s'.compile.log = [] ∧
      (s.compile.program.print = s'.compile.program.print ↔
        s.compile.program.map Token.word = s'.compile.program.map Token.word)) ∧
    (∃ e e', parseExpr [] (Source.scan ⟨[], "x"⟩).tokens = .ok e ∧
      parseExpr [] (Source.scan ⟨[], "/**/x"⟩).tokens = .ok e' ∧
      (e.print = e'.print ↔ e.map Token.word = e'.map Token.word)) ∧
    ∃ t t', parseType [] (Source.scan ⟨[], "fun"⟩).tokens = .ok t ∧
      parseType [] (Source.scan ⟨[], "fun<void>"⟩).tokens = .ok t' ∧
      (t.print = t'.print ↔ t.map Token.word = t'.map Token.word) := by
  intro s s'
  have hs : s.compile.log = [] := compile_emptyStruct (by decide +kernel) (by decide +kernel)
  have hs' : s'.compile.log = [] := compile_emptyStruct (by decide +kernel) (by decide +kernel)
  obtain ⟨v, he⟩ := parseExpr_name ⟨[], "x"⟩ [] (by decide +kernel)
  obtain ⟨v', he'⟩ := parseExpr_name ⟨[], "/**/x"⟩ [] (by decide +kernel)
  obtain ⟨u, ht⟩ := parseType_fun ⟨[], "fun"⟩ [] (by decide +kernel)
  obtain ⟨u', ht'⟩ := parseType_funVoid ⟨[], "fun<void>"⟩ [] (by decide +kernel)
  exact ⟨⟨hs, hs', print_faithful.1 s s' hs hs'⟩,
    ⟨_, _, he, he', print_faithful.2.1 _ _ _ _ _ _ he he'⟩,
    _, _, ht, ht', print_faithful.2.2 _ _ _ _ _ _ ht ht'⟩

end Seanet
