import Mathlib.Data.List.Forall2
import Seanet.Proofs.Parser.Quoting
import Seanet.Proofs.Report.Printable
import Seanet.Run

/-!
# Line breaks in reports

Except in the pretty format, each error of a compilation is printed by itself. It takes one line,
unless its message quotes a line break of the source as it stands there. JSON escapes line breaks;
the compact and the plain format do not.
-/

set_option autoImplicit false

namespace Seanet

namespace Text

def isBreak (u : UInt16) : Bool := u == lineFeed || u == 0x0D

def OneLine (t : Text) : Prop := ∀ u ∈ t, isBreak u = false

instance (t : Text) : Decidable t.OneLine :=
  decidable_of_iff (t.all (!isBreak ·) = true) (by simp [OneLine])

@[simp] theorem oneLine_append {s t : Text} : OneLine (s ++ t) ↔ OneLine s ∧ OneLine t :=
  List.forall_mem_append

theorem Printable.oneLine {t : Text} (h : t.Printable) : t.OneLine := by
  intro u hu
  have hprintable := h u hu
  rw [Bool.eq_false_iff]
  intro hb
  rw [isBreak, Bool.or_eq_true, beq_iff_eq, beq_iff_eq] at hb
  obtain rfl | rfl := hb <;> cases hprintable

theorem splitOn_of_notMem {separator : UInt16} {t : Text} (h : separator ∉ t) :
    splitOn separator t = [t] := by
  induction t with
  | nil => rfl
  | cons u t ih =>
    rw [List.mem_cons, not_or] at h
    simp only [splitOn, ih h.2]
    exact if_neg (Ne.symm h.1)

theorem OneLine.splitOn {t : Text} (h : t.OneLine) : splitOn lineFeed t = [t] := by
  refine splitOn_of_notMem fun hm => ?_
  cases h _ hm

end Text

/-- The message of the error quotes a line break of the source: one in a string literal that stands
where something else was expected, or one behind a high surrogate, which is quoted with the unit
that follows it. -/
inductive Report.QuotesBreak (source : Source) (r : Report) : Prop where
  | literal {what : Expected} {t : Token} (ht : t ∈ source.scan.tokens)
      (hk : t.kind = .stringLiteral) (hb : ¬ t.lexeme.OneLine) (hp : r.place = ⟨t.line, t.column⟩)
      (hm : r.message = what.message ++ (" Found \"" : Text) ++ t.lexeme ++ ("\"." : Text))
  | surrogate {u v : UInt16} (hu : Text.isHigh u = true) (hv : Text.isBreak v = true)
      (hm : r.message = (LexicalFault.unexpected [u, v]).message)

theorem Report.QuotesBreak.not_oneLine {source : Source} {r : Report} (h : r.QuotesBreak source) :
    ¬ r.message.OneLine := by
  cases h with
  | literal _ _ hb _ hm =>
    rw [hm, Text.oneLine_append, Text.oneLine_append]
    exact fun ho => hb ho.1.2
  | surrogate _ hv hm =>
    rw [hm, LexicalFault.message, Text.oneLine_append, Text.oneLine_append]
    intro ho
    have hn := ho.1.2 _ (List.mem_cons_of_mem _ (List.mem_singleton_self _))
    rw [hv] at hn
    cases hn

theorem oneLine_unexpected {u : UInt16} {r : Text} (hu : Lexical.isBlank u = false)
    (hr : Text.isHigh u = true → ∀ v ∈ r.head?, Text.isBreak v = false) :
    Text.OneLine (u :: if Text.isHigh u then r.take 1 else []) := by
  have hfirst : Text.isBreak u = false := by
    rw [Bool.eq_false_iff]
    intro hb
    rw [Text.isBreak, Bool.or_eq_true, beq_iff_eq, beq_iff_eq] at hb
    obtain rfl | rfl := hb <;> cases hu
  refine List.forall_mem_cons.2 ⟨hfirst, ?_⟩
  split
  · next hh =>
    cases r with
    | nil => simp
    | cons v r => simpa using hr hh
  · simp

theorem Source.oneLine_or_quotesBreak {source : Source} {r : Report}
    (h : r ∈ source.compile.log) : r.message.OneLine ∨ r.QuotesBreak source := by
  obtain hr | ⟨-, hq⟩ := Source.mem_log h
  · obtain ⟨before, rest, l, cause, -, hmunch, rfl⟩ := Source.mem_reports hr
    obtain hascii | ⟨u, s, -, hu, rfl, rfl⟩ := hmunch.message
    · exact .inl hascii.printable.oneLine
    · by_cases hbreak : Text.isHigh u = true ∧ ∃ v ∈ s.head?, Text.isBreak v = true
      · obtain ⟨hh, v, hv, hb⟩ := hbreak
        obtain ⟨s, rfl⟩ := List.head?_eq_some_iff.1 hv
        refine .inr (.surrogate hh hb ?_)
        simp [hh]
      · refine .inl ?_
        have hquoted := oneLine_unexpected (r := s) hu fun hh v hv => by
          rw [Bool.eq_false_iff]
          exact fun hb => hbreak ⟨hh, v, hv, hb⟩
        simp only [LexicalFault.message, Text.oneLine_append]
        exact ⟨⟨by decide, hquoted⟩, by decide⟩
  · cases hq with
    | none hm => exact .inl hm.printable.oneLine
    | @literal what t hw ht hk hp hm =>
      by_cases hb : t.lexeme.OneLine
      · refine .inl ?_
        simp only [hm, Text.oneLine_append]
        exact ⟨⟨⟨hw.printable.oneLine, by decide⟩, hb⟩, by decide⟩
      · exact .inr (.literal ht hk hb hp hm)

theorem Source.oneLine_iff {source : Source} {r : Report} (h : r ∈ source.compile.log) :
    r.message.OneLine ↔ ¬ r.QuotesBreak source :=
  ⟨fun ho hq => hq.not_oneLine ho, (Source.oneLine_or_quotesBreak h).resolve_right⟩

theorem Source.file_of_mem_log {source : Source} {r : Report} (h : r ∈ source.compile.log) :
    r.file = source.name := by
  obtain hr | ⟨hf, -⟩ := Source.mem_log h
  · obtain ⟨_, _, _, _, -, -, rfl⟩ := Source.mem_reports hr
    rfl
  · exact hf

namespace Reporter

theorem oneLine_compact {e : Report} (hf : e.file.OneLine) {r : Reporter}
    (hr : r.format = .compact) : (r.formatDiagnostic e.diagnostic).OneLine ↔ e.message.OneLine := by
  have hcode : (e.code.name : Text).OneLine := by cases e.code <;> decide
  have hline := (Text.printable_ofInt e.place.line).oneLine
  have hcolumn := (Text.printable_ofInt e.place.column).oneLine
  have hmarks : Text.OneLine " [" ∧ Text.OneLine "] " ∧ Text.OneLine "E" ∧ Text.OneLine ": " ∧
      Text.OneLine ":" := by decide
  simp only [formatDiagnostic, hr, location, Report.diagnostic, Diagnostic.errorAt, letter,
    Text.oneLine_append, hf, hcode, hline, hcolumn, hmarks, and_self, true_and]

theorem oneLine_formatted {e : Report} (hf : e.file.OneLine) :
    e.formatted.OneLine ↔ e.message.OneLine := by
  have hline := (Text.printable_ofInt e.place.line).oneLine
  have hcolumn := (Text.printable_ofInt e.place.column).oneLine
  have hmarks : Text.OneLine "Parse error at " ∧ Text.OneLine ":" ∧ Text.OneLine "," ∧
      Text.OneLine " - " := by decide
  simp only [Report.formatted, formatError, Text.oneLine_append, hf, hline, hcolumn, hmarks,
    and_self, true_and]

theorem oneLine_json {e : Report} {r : Reporter} (hr : r.format = .json) :
    (r.formatDiagnostic e.diagnostic).OneLine := by
  simp only [formatDiagnostic, hr]
  exact (Json.printable_compact _).oneLine

/-- What the formats but the pretty one print for the errors of a compilation: a text for each. -/
theorem diagnostics_forall₂ {r : Reporter} (hr : r.format ≠ .pretty) {c : Compilation}
    {P : Report → Line → Prop}
    (hplain : r.format = .plain → ∀ e ∈ c.log, P e ⟨.error, e.formatted⟩)
    (hother : r.format ≠ .plain → ∀ e ∈ c.log, P e (log (r.formatDiagnostic e.diagnostic))) :
    List.Forall₂ P c.log (r.diagnostics c.report) := by
  have hmap : ∀ f : Report → Line, (∀ e ∈ c.log, P e (f e)) → List.Forall₂ P c.log (c.log.map f) :=
    fun f hf => List.forall₂_map_right_iff.2 (List.forall₂_same.2 hf)
  unfold diagnostics
  split
  · next hf =>
    rw [Compilation.report, List.map_map]
    exact hmap _ (hplain hf)
  · next hf => exact absurd hf hr
  · next hf _ =>
    rw [Compilation.report, List.map_map]
    exact hmap _ (hother hf)

def consoleLines (lines : List Line) : List Text :=
  lines.flatMap fun l => Text.splitOn Text.lineFeed l.text

theorem consoleLines_eq {lines : List Line} (h : ∀ l ∈ lines, l.text.OneLine) :
    consoleLines lines = lines.map Line.text := by
  induction lines with
  | nil => rfl
  | cons l lines ih =>
    rw [List.forall_mem_cons] at h
    rw [consoleLines, List.flatMap_cons, h.1.splitOn, List.map_cons, ← ih h.2]
    rfl

end Reporter

open Reporter

/-- Where the name of a source is on one line, each of its errors is printed by itself, and on one
line if and only if the format is JSON or the message quotes no line break of the source. If that
is so for all of them, they take as many lines as there are errors. -/
theorem diagnostics_one_line (source : Source) (hname : source.name.OneLine) (r : Reporter)
    (hr : r.format ≠ .pretty) :
    List.Forall₂ (fun e line => line.text.OneLine ↔ r.format = .json ∨ ¬ e.QuotesBreak source)
      source.compile.log (r.diagnostics source.compile.report) ∧
    ((∀ e ∈ source.compile.log, r.format = .json ∨ ¬ e.QuotesBreak source) →
      (consoleLines (r.diagnostics source.compile.report)).length =
        source.compile.log.length) := by
  have hfile : ∀ e ∈ source.compile.log, e.file.OneLine := fun e he => by
    rw [Source.file_of_mem_log he]
    exact hname
  have hlines : List.Forall₂
      (fun e line => line.text.OneLine ↔ r.format = .json ∨ ¬ e.QuotesBreak source)
      source.compile.log (r.diagnostics source.compile.report) := by
    refine diagnostics_forall₂ hr (fun hf e he => ?_) (fun hf e he => ?_)
    · simpa [hf, Source.oneLine_iff he] using oneLine_formatted (hfile e he)
    · cases hformat : r.format with
      | pretty => exact absurd hformat hr
      | plain => exact absurd hformat hf
      | json => simpa [log] using oneLine_json hformat
      | compact => simpa [log, Source.oneLine_iff he] using oneLine_compact (hfile e he) hformat
  refine ⟨hlines, fun hnone => ?_⟩
  have hone : ∀ l ∈ r.diagnostics source.compile.report, l.text.OneLine := by
    intro l hl
    obtain ⟨i, hi, rfl⟩ := List.getElem_of_mem hl
    have hi' : i < source.compile.log.length := hlines.length_eq ▸ hi
    exact (hlines.get hi' hi).2 (hnone _ (List.getElem_mem hi'))
  rw [consoleLines_eq hone, List.length_map, hlines.length_eq]

/-- A mark that begins nothing, and a string on one line where a declaration is expected. -/
theorem diagnostics_one_line_string :
    let source : Source := ⟨"main.sn", "#\n\"a b\""⟩
    let r : Reporter := ⟨.plain, false, 0⟩
    source.name.OneLine ∧ r.format ≠ .pretty ∧ source.compile.log.length = 2 ∧
      List.Forall₂ (fun e line => line.text.OneLine ↔ r.format = .json ∨ ¬ e.QuotesBreak source)
        source.compile.log (r.diagnostics source.compile.report) := by
  intro source r
  have hname : source.name.OneLine := by decide
  exact ⟨hname, nofun, by decide +kernel, (diagnostics_one_line source hname r nofun).1⟩

/-- A string over two lines where a declaration is expected: one error, printed on two lines. -/
theorem diagnostic_on_two_lines :
    let source : Source := ⟨"main.sn", "\"\n\""⟩
    let r : Reporter := ⟨.compact, false, 0⟩
    source.name.OneLine ∧ r.format ≠ .pretty ∧ source.compile.log.length = 1 ∧
      (consoleLines (r.diagnostics source.compile.report)).length = 2 := by
  decide +kernel

end Seanet
