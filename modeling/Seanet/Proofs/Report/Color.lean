import Mathlib.Data.List.Forall2
import Seanet.Lexical.Shape
import Seanet.Proofs.Report.Printable

set_option autoImplicit false

namespace Seanet

namespace Style

def isParameter (u : UInt16) : Bool := Lexical.isDigit u || u == Text.unit ';'

def selection? : Text → Option Nat
  | [] => none
  | u :: r =>
    let parameters := Lexical.run isParameter r
    if u == Text.unit '[' && (r.drop parameters).head? == some (Text.unit 'm') then
      some (parameters + 2)
    else none

/-- The text without the escape sequences that select a style. -/
def uncolored : Text → Text
  | [] => []
  | u :: r =>
    match (if u = escape then selection? r else none) with
    | some n => uncolored (r.drop n)
    | none => u :: uncolored r
termination_by t => t.length
decreasing_by all_goals simp only [List.length_drop, List.length_cons]; omega

theorem uncolored_cons {u : UInt16} (hu : u ≠ escape) (r : Text) :
    uncolored (u :: r) = u :: uncolored r := by
  rw [uncolored, if_neg hu]

theorem uncolored_append {t : Text} (h : escape ∉ t) (r : Text) :
    uncolored (t ++ r) = t ++ uncolored r := by
  induction t with
  | nil => rfl
  | cons u t ih =>
    rw [List.mem_cons, not_or] at h
    rw [List.cons_append, uncolored_cons (Ne.symm h.1), ih h.2, List.cons_append]

theorem sequence_eq (n : Nat) :
    sequence n = escape :: Text.unit '[' :: (Text.ofNat n ++ [Text.unit 'm']) := rfl

theorem selection?_sequence (n : Nat) (r : Text) :
    selection? (Text.unit '[' :: (Text.ofNat n ++ Text.unit 'm' :: r)) =
      some ((Text.ofNat n).length + 2) := by
  have hdigits : ∀ u ∈ Text.ofNat n, isParameter u = true := by
    intro u hu
    have hdigit := Text.digit_of_mem_ofNat hu
    simp [isParameter, Lexical.isDigit, hdigit.1, hdigit.2]
  have hrun : Lexical.run isParameter (Text.ofNat n ++ Text.unit 'm' :: r) =
      (Text.ofNat n).length := by
    rw [Lexical.run, List.takeWhile_append_of_pos hdigits, List.takeWhile_cons_of_neg (by decide),
      List.append_nil]
  simp [selection?, hrun]

theorem uncolored_sequence (n : Nat) (r : Text) : uncolored (sequence n ++ r) = uncolored r := by
  have hsize : (Text.unit '[' :: (Text.ofNat n ++ Text.unit 'm' :: r)).drop
      ((Text.ofNat n).length + 2) = r := by
    simp [List.drop_append]
  rw [sequence_eq, List.cons_append, List.cons_append, List.append_assoc, List.singleton_append,
    uncolored, if_pos rfl, selection?_sequence]
  exact congrArg uncolored hsize

end Style

/-- What the colored text shows is the plain text, whatever follows it. -/
def Shows (colored plain : Text) : Prop :=
  ∀ r, Style.uncolored (colored ++ r) = plain ++ Style.uncolored r

namespace Shows

theorem eq {c p : Text} (h : Shows c p) : Style.uncolored c = p := by
  have hnil := h []
  rw [List.append_nil] at hnil
  rw [hnil, Style.uncolored, List.append_nil]

theorem plain {t : Text} (h : Style.escape ∉ t) : Shows t t := Style.uncolored_append h

theorem append {c c' p p' : Text} (h : Shows c p) (h' : Shows c' p') :
    Shows (c ++ c') (p ++ p') := by
  intro r
  rw [List.append_assoc, h, h', List.append_assoc]

theorem sequences (f : Style → Nat) (styles : List Style) :
    Shows (styles.flatMap fun s => Style.sequence (f s)) [] := by
  induction styles with
  | nil => exact fun _ => rfl
  | cons s styles ih =>
    intro r
    rw [List.flatMap_cons, List.append_assoc, Style.uncolored_sequence, ih]

theorem aroundBreaks {before after : Text} (hb : Shows before []) (ha : Shows after []) {t : Text}
    (h : Style.escape ∉ t) : Shows (Style.aroundBreaks before after t) t := by
  -- A line break shows itself, and what is put around it nothing.
  have hbreak {s c p : Text} (hs : Style.escape ∉ s) (hc : Shows c p) :
      Shows (before ++ (s ++ (after ++ c))) (s ++ p) :=
    hb.append ((plain hs).append (ha.append hc))
  fun_induction Style.aroundBreaks before after t with
  | case1 => exact plain h
  | case2 =>
    have hlast := hbreak h (plain (t := []) List.not_mem_nil)
    simpa using hlast
  | case3 u hu => exact plain h
  | case4 v r ih =>
    rw [← List.singleton_append, List.mem_append, not_or] at h
    exact hbreak h.1 (ih h.2)
  | case5 u v r hu hcr ih =>
    obtain ⟨rfl, rfl⟩ := hcr
    rw [← List.singleton_append, ← List.singleton_append (l := r), ← List.append_assoc,
      List.mem_append, not_or] at h
    exact hbreak h.1 (ih h.2)
  | case6 u v r hu hcr ih =>
    rw [← List.singleton_append, List.mem_append, not_or] at h
    exact (plain h.1).append (ih h.2)

theorem paint (styles : List Style) {t : Text} (h : Style.escape ∉ t) :
    Shows (Style.paint styles t) t := by
  unfold Style.paint
  split
  · next hn =>
    rw [List.isEmpty_iff.1 hn]
    exact plain List.not_mem_nil
  · have hfirst : Shows (styles.flatMap Style.opening) [] := sequences Style.first styles
    have hlast : Shows (styles.reverse.flatMap Style.closing) [] := sequences Style.last _
    have hcontains : t.contains Style.escape = false := by simpa using h
    have hall := (hfirst.append (aroundBreaks hlast hfirst h)).append hlast
    rw [List.nil_append, List.append_nil] at hall
    simpa only [hcontains, Bool.false_eq_true, if_false] using hall

end Shows

def Diagnostic.texts (d : Diagnostic) : List Text := [d.message, d.file]

def FileReport.texts (f : FileReport) : List Text :=
  f.path :: f.messages ++ f.diagnostics.flatMap Diagnostic.texts

def Line.uncolored (l : Line) : Line := ⟨l.channel, Style.uncolored l.text⟩

namespace Reporter

/-- A call of a reporter. What is told about times is read from a clock. -/
inductive Call where
  | formatDiagnostic (d : Diagnostic)
  | banner (now : Int) (version : Text) (count : Int)
  | header (f : FileReport)
  | diagnostics (f : FileReport)
  | summary (now : Int) (totals : Totals) (errors : Int)
  | success
  | error (message : Text)
  | warning (message : Text)
  | info (message : Text)

def Call.texts : Call → List Text
  | formatDiagnostic d => d.texts
  | banner _ version _ => [version]
  | header f | diagnostics f => f.texts
  | error message | warning message | info message => [message]
  | summary _ _ _ | success => []

/-- What a call gives back, or prints. -/
inductive Reply where
  | text (t : Text)
  | lines (lines : List Line)

namespace Reply

def channels : Reply → List Channel
  | text _ => []
  | lines ls => ls.map Line.channel

def uncolored : Reply → Reply
  | text t => text (Style.uncolored t)
  | lines ls => lines (ls.map Line.uncolored)

end Reply

def reply (r : Reporter) : Call → Reply
  | .formatDiagnostic d => .text (r.formatDiagnostic d)
  | .banner now version count => .lines (r.banner now version count)
  | .header f => .lines (r.header f)
  | .diagnostics f => .lines (r.diagnostics f)
  | .summary now totals errors => .lines (r.summary now totals errors)
  | .success => .lines r.success
  | .error message => .lines [r.error message]
  | .warning message => .lines [r.warning message]
  | .info message => .lines (r.info message)

def uncolored (r : Reporter) : Reporter := { r with colored := false }

variable (r : Reporter)

theorem shows_paint (styles : List Style) {t : Text} (h : Style.escape ∉ t) :
    Shows (r.paint styles t) (r.uncolored.paint styles t) := by
  change Shows (if r.colored then Style.paint styles t else t) t
  split
  · exact .paint styles h
  · exact .plain h

theorem uncolored_log {c p : Text} (h : Shows c p) : (log c).uncolored = log p := by
  rw [Line.uncolored, log, h.eq]
  rfl

theorem unescaped_location {d : Diagnostic} (h : ∀ t ∈ d.texts, Style.escape ∉ t) :
    Style.escape ∉ location d := by
  have hfile : Style.escape ∉ d.file := h _ (by simp [Diagnostic.texts])
  have hnumber (n : Int) := (Text.printable_ofInt n).notMem (u := Style.escape) (by decide)
  unfold location
  split
  · exact hfile
  · simp only [List.mem_append, not_or]
    exact ⟨⟨⟨⟨hfile, by decide⟩, hnumber _⟩, by decide⟩, hnumber _⟩

theorem shows_formatDiagnostic {d : Diagnostic} (h : ∀ t ∈ d.texts, Style.escape ∉ t) :
    Shows (r.formatDiagnostic d) (r.uncolored.formatDiagnostic d) := by
  have hmessage : Style.escape ∉ d.message := h _ (by simp [Diagnostic.texts])
  have hlocation := unescaped_location h
  have hname : Style.escape ∉ Text.ofString d.code.name := by cases d.code <;> decide
  have hblank : Shows ("  " : Text) "  " := .plain (by decide)
  have hicon := r.shows_paint [style d.severity] (t := icon d.severity)
    (by cases d.severity <;> decide)
  have hlabel := r.shows_paint [style d.severity] (t := label d.severity)
    (by cases d.severity <;> decide)
  have hcode := r.shows_paint [.cyan] (t := "[" ++ d.code.name ++ "]") (by
    simp only [List.mem_append, not_or]
    exact ⟨⟨by decide, hname⟩, by decide⟩)
  have hplace := r.shows_paint [.bold] hlocation
  have hcolored := ((((((((hblank.append hicon).append
    (.plain (t := (" " : Text)) (by decide))).append hlabel).append hblank).append hcode).append
    hblank).append hplace).append hblank).append (.plain hmessage)
  obtain ⟨format, colored, start⟩ := r
  cases format with
  | pretty | plain => exact hcolored
  | json =>
    exact .plain ((Json.printable_compact _).notMem (by decide))
  | compact =>
    refine .plain (t := location d ++ " [" ++ d.code.name ++ "] " ++ letter d.severity ++ ": " ++
      d.message) ?_
    simp only [List.mem_append, not_or]
    refine ⟨⟨⟨⟨⟨⟨hlocation, by decide⟩, hname⟩, by decide⟩, ?_⟩, by decide⟩, hmessage⟩
    cases d.severity <;> decide

theorem uncolored_lines {cs ps : List Text} (h : List.Forall₂ Shows cs ps) :
    (cs.map log).map Line.uncolored = ps.map log := by
  induction h with
  | nil => rfl
  | cons hs _ ih => rw [List.map_cons, List.map_cons, uncolored_log hs, ih, List.map_cons]

theorem shows_empty : Shows [] [] := .plain List.not_mem_nil

theorem uncolored_banner (now : Int) {version : Text} (h : Style.escape ∉ version) (count : Int) :
    (r.banner now version count).map Line.uncolored = r.uncolored.banner now version count := by
  have hcount := (Text.printable_ofInt count).notMem (u := Style.escape) (by decide)
  have hstamp := (Clock.printable_stamp now).notMem (u := Style.escape) (by decide)
  have hhead := r.shows_paint [.bold] (t := "┌ snc " ++ version ++ "  •  Compiling " ++
      Text.ofInt count ++ (if count = 1 then (" file" : Text) else (" files" : Text)) ++ "  •  " ++
      Clock.stamp now) (by
    simp only [List.mem_append, not_or]
    exact ⟨⟨⟨⟨⟨⟨by decide, h⟩, by decide⟩, hcount⟩, by split <;> decide⟩, by decide⟩, hstamp⟩)
  have hrule := r.shows_paint [.dim] (t := "└" ++ strokes 56) (by decide)
  have hlines := uncolored_lines (.cons hhead (.cons hrule (.cons shows_empty .nil)))
  obtain ⟨format, colored, start⟩ := r
  cases format with
  | plain | json | compact => rfl
  | pretty => exact hlines

theorem uncolored_header {f : FileReport} (h : ∀ t ∈ f.texts, Style.escape ∉ t) :
    (r.header f).map Line.uncolored = r.uncolored.header f := by
  have hpath : Style.escape ∉ f.path := h _ (by simp [FileReport.texts])
  have hhead := r.shows_paint [.bold] (t := "File: " ++ f.path) (by
    simp only [List.mem_append, not_or]
    exact ⟨by decide, hpath⟩)
  have hlines := uncolored_lines (.cons hhead .nil)
  obtain ⟨format, colored, start⟩ := r
  cases format with
  | plain | json | compact => rfl
  | pretty => exact hlines

theorem uncolored_diagnostics {f : FileReport} (h : ∀ t ∈ f.texts, Style.escape ∉ t) :
    (r.diagnostics f).map Line.uncolored = r.uncolored.diagnostics f := by
  have hmessages : (f.messages.map (⟨.error, ·⟩)).map Line.uncolored =
      f.messages.map (⟨.error, ·⟩) := by
    rw [List.map_map]
    refine List.map_congr_left fun t ht => ?_
    have hplain : Style.escape ∉ t := h _ (by simp [FileReport.texts, ht])
    exact congrArg (Line.mk .error) (Shows.plain hplain).eq
  have hformatted : (f.diagnostics.map fun d => log (r.formatDiagnostic d)).map Line.uncolored =
      f.diagnostics.map fun d => log (r.uncolored.formatDiagnostic d) := by
    rw [List.map_map]
    refine List.map_congr_left fun d hd => uncolored_log (r.shows_formatDiagnostic fun t ht => ?_)
    exact h t (List.mem_cons_of_mem _ (List.mem_append_right _ (List.mem_flatMap_of_mem hd ht)))
  have htick := r.shows_paint [.green] (t := "✓") (by decide)
  have hclean := r.shows_paint [.green] (t := "No issues found") (by decide)
  have hlines := uncolored_lines (.cons ((((Shows.plain (t := ("  " : Text)) (by decide)).append
    htick).append (.plain (t := (" " : Text)) (by decide))).append hclean) .nil)
  obtain ⟨format, colored, start⟩ := r
  cases format with
  | plain => exact hmessages
  | json | compact => exact hformatted
  | pretty =>
    simp only [diagnostics, uncolored]
    split
    · exact hlines
    · exact hformatted

theorem uncolored_summary (now : Int) (totals : Totals) (errors : Int) :
    (r.summary now totals errors).map Line.uncolored = r.uncolored.summary now totals errors := by
  have hnumber (n : Int) := (Text.printable_ofInt n).notMem (u := Style.escape) (by decide)
  have helapsed := (Clock.printable_seconds (now - r.start)).notMem (u := Style.escape) (by decide)
  have hlabeled (styles : List Style) (label : Text) (hl : Style.escape ∉ label) (n : Int) :=
    r.shows_paint styles (t := label ++ Text.ofInt n) (by
      simp only [List.mem_append, not_or]
      exact ⟨hl, hnumber n⟩)
  have hblank : Shows ("  " : Text) "  " := .plain (by decide)
  have hrule := r.shows_paint [.dim] (t := strokes 56) (by decide)
  have htitle := r.shows_paint [.bold] (t := "Summary") (by decide)
  have hfiles := ((r.shows_paint [.cyan] (t := "Files:") (by decide)).append
    (.plain (t := (" " : Text)) (by decide))).append (.plain (hnumber totals.total))
  have hcounts := ((hblank.append (hlabeled [.green] "Passed: " (by decide) totals.passed)).append
    hblank).append (hlabeled [if 0 < totals.failed then .red else .dim] "Failed: " (by decide)
      totals.failed)
  have hchecked := r.shows_paint [.dim] (t := "Checked " ++ Text.ofInt totals.total ++
      " files in " ++ Clock.seconds (now - r.start) ++ "s") (by
    simp only [List.mem_append, not_or]
    exact ⟨⟨⟨⟨by decide, hnumber _⟩, by decide⟩, helapsed⟩, by decide⟩)
  have hexit := r.shows_paint [if 0 < errors then .red else .green]
    (t := "Exit code: " ++ (if 0 < errors then ("1" : Text) else ("0" : Text))) (by
      simp only [List.mem_append, not_or]
      exact ⟨by decide, by split <;> decide⟩)
  have hlines := uncolored_lines (.cons shows_empty (.cons hrule (.cons htitle (.cons shows_empty
    (.cons hfiles (.cons hcounts (.cons shows_empty (.cons hchecked (.cons hexit .nil)))))))))
  have hcompact : Style.escape ∉ "Summary: " ++ Text.ofInt errors ++ " errors (" ++
      Clock.seconds (now - r.start) ++ "s)" := by
    simp only [List.mem_append, not_or]
    exact ⟨⟨⟨⟨by decide, hnumber _⟩, by decide⟩, helapsed⟩, by decide⟩
  have hjson (elapsed : Text) : Style.escape ∉ (summaryJson totals errors elapsed).pretty := by
    intro hm
    obtain hp | he := Json.lined_pretty _ _ hm
    · exact absurd hp (by decide)
    · exact absurd he (by decide)
  obtain ⟨format, colored, start⟩ := r
  cases format with
  | plain => rfl
  | json => exact uncolored_lines (.cons (.plain (hjson _)) .nil)
  | compact => exact uncolored_lines (.cons (.plain hcompact) .nil)
  | pretty => exact hlines

theorem uncolored_success : r.success.map Line.uncolored = r.uncolored.success := by
  have htick := r.shows_paint [.green] (t := "✓") (by decide)
  have hdone := r.shows_paint [.green, .bold] (t := "All files compiled!") (by decide)
  have hlines := uncolored_lines (.cons shows_empty (.cons ((htick.append
    (.plain (t := (" " : Text)) (by decide))).append hdone) .nil))
  obtain ⟨format, colored, start⟩ := r
  cases format with
  | plain | json | compact => rfl
  | pretty => exact hlines

theorem uncolored_message (channel : Channel) (style : Style) (label : Text) {message : Text}
    (hl : Style.escape ∉ label) (h : Style.escape ∉ message) :
    Line.uncolored ⟨channel, r.paint [style] (label ++ message)⟩ =
      ⟨channel, label ++ message⟩ := by
  have hshows := r.shows_paint [style] (t := label ++ message) (by
    simp only [List.mem_append, not_or]
    exact ⟨hl, h⟩)
  exact congrArg (Line.mk channel) hshows.eq

theorem uncolored_json (channel : Channel) (v : Json) :
    Line.uncolored ⟨channel, v.compact⟩ = ⟨channel, v.compact⟩ :=
  congrArg (Line.mk channel) (Shows.plain ((Json.printable_compact v).notMem (by decide))).eq

theorem uncolored_error {message : Text} (h : Style.escape ∉ message) :
    (r.error message).uncolored = r.uncolored.error message := by
  have hline := r.uncolored_message .error .red "Error: " (by decide) h
  obtain ⟨format, colored, start⟩ := r
  cases format with
  | json => exact uncolored_json _ _
  | pretty | plain | compact => exact hline

theorem uncolored_warning {message : Text} (h : Style.escape ∉ message) :
    (r.warning message).uncolored = r.uncolored.warning message := by
  have hline := r.uncolored_message .warn .yellow "Warning: " (by decide) h
  obtain ⟨format, colored, start⟩ := r
  cases format with
  | json => exact uncolored_json _ _
  | pretty | plain | compact => exact hline

theorem uncolored_info {message : Text} (h : Style.escape ∉ message) :
    (r.info message).map Line.uncolored = r.uncolored.info message := by
  have hlines := uncolored_lines (.cons (r.shows_paint [.dim] h) .nil)
  obtain ⟨format, colored, start⟩ := r
  cases format with
  | json => rfl
  | pretty | plain | compact => exact hlines

theorem uncolored_reply {c : Call} (h : ∀ t ∈ c.texts, Style.escape ∉ t) :
    (r.reply c).uncolored = r.uncolored.reply c := by
  cases c with
  | formatDiagnostic d => exact congrArg Reply.text (r.shows_formatDiagnostic h).eq
  | banner now version count =>
    exact congrArg Reply.lines (r.uncolored_banner now (h version (by simp [Call.texts])) count)
  | header f => exact congrArg Reply.lines (r.uncolored_header h)
  | diagnostics f => exact congrArg Reply.lines (r.uncolored_diagnostics h)
  | summary now totals errors => exact congrArg Reply.lines (r.uncolored_summary now totals errors)
  | success => exact congrArg Reply.lines r.uncolored_success
  | error message =>
    exact congrArg (Reply.lines [·]) (r.uncolored_error (h message (by simp [Call.texts])))
  | warning message =>
    exact congrArg (Reply.lines [·]) (r.uncolored_warning (h message (by simp [Call.texts])))
  | info message => exact congrArg Reply.lines (r.uncolored_info (h message (by simp [Call.texts])))

theorem wantsColor_auto {format : Format} {terminal : Terminal} :
    wantsColor format .auto terminal = true ↔ format ≠ .plain ∧ terminal.noColor = false ∧
      (terminal.forceColor = true ∨ terminal.isTty = true) := by
  simp [wantsColor, and_assoc]

theorem channels_uncolored (reply : Reply) : reply.uncolored.channels = reply.channels := by
  cases reply with
  | text _ => rfl
  | lines ls => exact List.map_map

end Reporter

open Reporter

/-- With color a reporter prints the same lines on the same channels as without, and gives back the
same texts, once the escape sequences are deleted; the texts that it is given have none. Where the
use of color is left open, it is used if the format is not the plain one, the terminal does not
refuse it, and asks for it or is one. -/
theorem color_adds_only_escapes (format : Format) (terminal : Terminal) (start : Int)
    (calls : List Call) (h : ∀ c ∈ calls, ∀ t ∈ c.texts, Style.escape ∉ t) :
    let replies (mode : ColorMode) := calls.map (make format mode terminal start).reply
    (replies .always).map Reply.channels = (replies .never).map Reply.channels ∧
    (replies .always).map Reply.uncolored = replies .never ∧
    replies .auto =
      if format ≠ .plain ∧ terminal.noColor = false ∧
          (terminal.forceColor = true ∨ terminal.isTty = true) then replies .always
      else replies .never := by
  intro replies
  have hcolors : (replies .always).map Reply.uncolored = replies .never := by
    rw [List.map_map]
    exact List.map_congr_left fun c hc => uncolored_reply _ (h c hc)
  refine ⟨?_, hcolors, ?_⟩
  · simp only [← hcolors, List.map_map, Function.comp_def, channels_uncolored]
  · have hmade : make format .auto terminal start =
        ⟨format, wantsColor format .auto terminal, start⟩ := rfl
    split
    · next hc =>
      rw [wantsColor_auto.2 hc] at hmade
      exact congrArg (fun r : Reporter => calls.map r.reply) hmade
    · next hc =>
      rw [Bool.eq_false_iff.2 (mt wantsColor_auto.1 hc)] at hmade
      exact congrArg (fun r : Reporter => calls.map r.reply) hmade

/-- A title in bold, a message of two lines in red, and an empty line. -/
theorem color_adds_only_escapes_lines :
    let calls : List Call := [.header ⟨"a.sn", [], []⟩, .error "one\ntwo", .info []]
    let replies (mode : ColorMode) :=
      calls.map (make .pretty mode ⟨false, false, true⟩ 0).reply
    (∀ c ∈ calls, ∀ t ∈ c.texts, Style.escape ∉ t) ∧
    (replies .always).map Reply.channels = (replies .never).map Reply.channels ∧
    (replies .always).map Reply.uncolored = replies .never ∧ replies .auto = replies .always := by
  intro calls replies
  have hcalls : ∀ c ∈ calls, ∀ t ∈ c.texts, Style.escape ∉ t := by decide
  obtain ⟨hchannels, hcolors, hauto⟩ :=
    color_adds_only_escapes .pretty ⟨false, false, true⟩ 0 calls hcalls
  exact ⟨hcalls, hchannels, hcolors, hauto⟩

end Seanet
