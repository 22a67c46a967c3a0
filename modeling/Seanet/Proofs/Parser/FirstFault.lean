import Seanet.Proofs.Grammar.ExpressionParsing
import Seanet.Proofs.Grammar.TypeParsing
import Seanet.Proofs.Lexical.Places
import Seanet.Proofs.Parser.Tracking
import Seanet.Session

set_option autoImplicit false

namespace Seanet

open Grammar Seanet.Parser

/-- The places where a list of tokens can stop the parser: a token that is not a comment, the second
half of a `>>`, or, where the list has no end mark, the place behind its last token. -/
inductive Stream.Spot (tokens : List Token) : Location → Prop where
  | token {t : Token} (h : t ∈ tokens.filter (·.kind ≠ .comment)) : Spot tokens ⟨t.line, t.column⟩
  | half {t : Token} (h : t ∈ tokens.filter (·.kind ≠ .comment)) (hk : t.kind = .greaterGreater) :
      Spot tokens ⟨t.line, t.column + 1⟩
  | ending (h : ∀ t ∈ tokens.filter (·.kind ≠ .comment), t.kind ≠ .eof) :
      Spot tokens (Stream.behind (tokens.filter (·.kind ≠ .comment)).getLast?)

def Code.syntactic : List Code := [.syntaxError, .invalidType, .invalidAssignmentTarget]

def Code.lexical : List Code :=
  [.unexpectedCharacter, .unterminatedString, .unterminatedComment, .invalidNumber]

/-- What parsing `tokens` gives, and what it adds to the log: a tree that stands for all of them and
nothing, or `fallback` and one report about them. The latter happens if and only if parsing
`aborted`. -/
inductive Settled {α : Type} (file : Text) (tokens : List Token) (aborted : Prop)
    (Whole : α → Prop) (fallback : α) : α × Log → Prop where
  | tree {a : α} (hn : ¬ aborted) (h : Whole a) : Settled file tokens aborted Whole fallback (a, [])
  | fault {r : Report} (ha : aborted) (hf : r.file = file) (hc : r.code ∈ Code.syntactic)
      (hp : Stream.Spot tokens r.place) : Settled file tokens aborted Whole fallback (fallback, [r])

namespace Stream

variable {tokens : List Token}

theorem mem_filter_of_mem {t : Token} (h : t ∈ (ofTokens tokens).tokens) :
    t ∈ tokens.filter (·.kind ≠ .comment) := by
  rw [ofTokens_tokens] at h
  exact (List.takeWhile_sublist _).mem h

theorem spot_of_within {t : Token} (h : Within (ofTokens tokens).tokens t) :
    Spot tokens ⟨t.line, t.column⟩ := by
  obtain h | ⟨u, hu, hk, rfl⟩ := h
  · exact .token (mem_filter_of_mem h)
  · exact .half (mem_filter_of_mem hu) hk

theorem spot_ending (tokens : List Token) : Spot tokens (ofTokens tokens).ending := by
  have hsplit := List.takeWhile_append_dropWhile
    (p := fun t : Token => decide (t.kind ≠ .eof)) (l := tokens.filter (·.kind ≠ .comment))
  simp only [ofTokens]
  split
  · next mark rest hd =>
    apply Spot.token
    rw [← hsplit, hd]
    simp
  · next hd =>
    rw [hd, List.append_nil] at hsplit
    rw [hsplit]
    refine .ending fun t ht => ?_
    rw [← hsplit] at ht
    exact of_decide_eq_true (List.all_eq_true.1 List.all_takeWhile t ht)

theorem spot_of_fault {fault : SyntaxFault Token} (h : FaultIn (ofTokens tokens).tokens fault) :
    Spot tokens (fault.place (ofTokens tokens).ending) := by
  cases h with
  | @expected what rest hw h =>
    cases rest with
    | nil => exact spot_ending tokens
    | cons t rest => exact spot_of_within h.within
  | assignmentTarget h _ _ => exact spot_of_within h.within
  | refFunction h _ => exact spot_of_within h.within

end Stream

theorem SyntaxFault.code_syntactic (fault : SyntaxFault Token) :
    fault.code ∈ Code.syntactic := by
  cases fault with
  | expected what rest => cases what <;> simp [code, Expected.code, Code.syntactic]
  | assignmentTarget _ _ => simp [code, Code.syntactic]
  | refFunction _ _ => simp [code, Code.syntactic]

theorem settled_run {α β : Type} {p : Parser Token α} {file : Text} {tokens : List Token}
    {Whole : β → Prop} (f : α → β) (fallback : β)
    (hp : Tracks (Stream.ofTokens tokens).tokens p)
    (hw : ∀ a rest, p (Stream.ofTokens tokens).tokens = .ok (a, rest) → Whole (f a)) :
    Settled file tokens (∃ fault, p (Stream.ofTokens tokens).tokens = .error fault) Whole fallback
      (Parsed.settle fallback ((p.run file tokens).map f)) := by
  have hstop := hp _ (.refl _)
  unfold Parser.run
  simp only
  cases h : p (Stream.ofTokens tokens).tokens with
  | ok r => exact .tree (by simp) (hw r.1 r.2 h)
  | error fault =>
    rw [h] at hstop
    exact .fault ⟨fault, rfl⟩ rfl fault.code_syntactic (Stream.spot_of_fault hstop)

theorem whole_apply {α : Type} (p : Parser Token α) (ts : List Token) :
    whole p ts = match p ts with
      | .error fault => .error fault
      | .ok (a, []) => .ok (a, [])
      | .ok (_, t :: rest) => .error (.expected .endOfInput (t :: rest)) := by
  refine (bind_apply p _ ts).trans ?_
  cases p ts with
  | error fault => rfl
  | ok r =>
    obtain ⟨a, rest⟩ := r
    cases rest <;> rfl

theorem whole_error_iff {α : Type} {p : Parser Token α} {ts : List Token} :
    (∃ fault, whole p ts = .error fault) ↔
      (∃ fault, p ts = .error fault) ∨ ∃ a t rest, p ts = .ok (a, t :: rest) := by
  rw [whole_apply]
  cases p ts with
  | error fault => simp
  | ok r =>
    obtain ⟨a, rest⟩ := r
    cases rest <;> simp

def WholeProgram (tokens : List Token) (p : Program Token) : Prop :=
  ∃ us, SplitsClosing [] (Stream.ofTokens tokens).tokens us ∧ IsProgram maxNesting p us

def WholeExpr (tokens : List Token) (tree : Option (Expr Token)) : Prop :=
  ∃ e us, tree = some e ∧ SplitsClosing [] (Stream.ofTokens tokens).tokens us ∧
    Spells maxNesting e us

def WholeType (tokens : List Token) (tree : Option (TypeExpr Token)) : Prop :=
  ∃ t, tree = some t ∧ IsType maxNesting true t (splitAngles (Stream.ofTokens tokens).tokens)

theorem settled_program (file : Text) (tokens : List Token) :
    Settled file tokens
      (∃ fault, program maxNesting (Stream.ofTokens tokens).tokens = .error fault)
      (WholeProgram tokens) .empty (Parsed.settle .empty (parseProgram file tokens)) := by
  have hwhole : ∀ p rest, program maxNesting (Stream.ofTokens tokens).tokens = .ok (p, rest) →
      WholeProgram tokens p := by
    intro p rest hp
    obtain ⟨us, hu, hprogram, rfl⟩ := program_sound hp
    exact ⟨us, Splits.closing hu hprogram.anglesClose, hprogram⟩
  have h : Settled file tokens _ (WholeProgram tokens) .empty
      (Parsed.settle .empty ((parseProgram file tokens).map id)) :=
    settled_run id .empty (tracks_program maxNesting) hwhole
  rwa [Except.map_id] at h

theorem settled_expr (file : Text) (tokens : List Token) :
    Settled file tokens
      ((∃ fault, expression maxNesting (Stream.ofTokens tokens).tokens = .error fault) ∨
        ∃ e t rest, expression maxNesting (Stream.ofTokens tokens).tokens = .ok (e, t :: rest))
      (WholeExpr tokens) none (Parsed.settle none ((parseExpr file tokens).map some)) := by
  rw [← whole_error_iff]
  refine settled_run some none (tracks_whole (tracks_expression maxNesting)) fun e rest he => ?_
  obtain ⟨us, hu, hspells⟩ := expression_whole_iff.1 (whole_ok_iff.1 he).1
  exact ⟨e, us, rfl, Splits.closing hu hspells.anglesClose, hspells⟩

theorem settled_type (file : Text) (tokens : List Token) :
    Settled file tokens
      ((∃ fault, typeExpr maxNesting true (Stream.ofTokens tokens).tokens = .error fault) ∨
        ∃ t u rest, typeExpr maxNesting true (Stream.ofTokens tokens).tokens = .ok (t, u :: rest))
      (WholeType tokens) none (Parsed.settle none ((parseType file tokens).map some)) := by
  rw [← whole_error_iff]
  refine settled_run some none (tracks_whole (tracks_typeExpr maxNesting true)) fun t rest ht => ?_
  exact ⟨t, rfl, typeExpr_whole_iff.1 (whole_ok_iff.1 ht).1⟩

theorem Source.scan_reports_lexical (source : Source) :
    ∀ r ∈ source.scan.reports, r.code ∈ Code.lexical := by
  intro r hr
  obtain ⟨⟨p, s⟩, -, hs⟩ := List.mem_filterMap.1 hr
  simp only [Segment.report?] at hs
  split at hs
  · next cause _ =>
    obtain rfl := Option.some.inj hs
    cases cause <;> simp [LexicalFault.code, Code.lexical]
  · cases hs

theorem Settled.errors {α : Type} {file : Text} {tokens : List Token} {aborted : Prop}
    {Whole : α → Prop} {fallback tree : α} {errors : Log}
    (h : Settled file tokens aborted Whole fallback (tree, errors)) :
    errors.length ≤ 1 ∧ (∀ r ∈ errors, r.code ∈ Code.syntactic) ∧
      (errors ≠ [] → tree = fallback) := by
  cases h with
  | tree _ _ => simp
  | fault _ _ hc _ => simp [hc]

/-- Whatever the log holds, parsing a list of tokens adds nothing to it and gives a tree for the
whole stream, or adds the report of the one fault that ended it and gives none. A compilation
reports what its scan found, in the order of the text, then at most one fault of its syntax, and
with that its program is empty. -/
theorem parsing_reports_once :
    (∀ (s : Session) (file : Text),
      (∃ tree added, s.step (.program file) =
          ((.program tree, added), ⟨s.tokens, s.log ++ added⟩) ∧
        Settled file s.tokens
          (∃ fault, program maxNesting (Stream.ofTokens s.tokens).tokens = .error fault)
          (WholeProgram s.tokens) .empty (tree, added)) ∧
      (∃ tree added, s.step (.expr file) = ((.expr tree, added), ⟨s.tokens, s.log ++ added⟩) ∧
        Settled file s.tokens
          ((∃ fault, expression maxNesting (Stream.ofTokens s.tokens).tokens = .error fault) ∨
            ∃ e t rest, expression maxNesting (Stream.ofTokens s.tokens).tokens =
              .ok (e, t :: rest))
          (WholeExpr s.tokens) none (tree, added)) ∧
      (∃ tree added, s.step (.type file) = ((.type tree, added), ⟨s.tokens, s.log ++ added⟩) ∧
        Settled file s.tokens
          ((∃ fault, typeExpr maxNesting true (Stream.ofTokens s.tokens).tokens = .error fault) ∨
            ∃ t u rest, typeExpr maxNesting true (Stream.ofTokens s.tokens).tokens =
              .ok (t, u :: rest))
          (WholeType s.tokens) none (tree, added))) ∧
    ∀ source : Source, ∃ errors : Log, source.compile.log = source.scan.reports ++ errors ∧
      (source.scan.reports.Pairwise fun r r' => r.place.Before r'.place) ∧
      (∀ r ∈ source.scan.reports, r.code ∈ Code.lexical) ∧ errors.length ≤ 1 ∧
      (∀ r ∈ errors, r.code ∈ Code.syntactic) ∧
      (errors ≠ [] → source.compile.program.declarations = []) := by
  refine ⟨fun s file => ⟨?_, ?_, ?_⟩, fun source => ?_⟩
  · exact ⟨_, _, rfl, settled_program file s.tokens⟩
  · exact ⟨_, _, rfl, settled_expr file s.tokens⟩
  · exact ⟨_, _, rfl, settled_type file s.tokens⟩
  · obtain ⟨hone, hcode, hempty⟩ := (settled_program source.name source.scan.tokens).errors
    refine ⟨_, rfl, source.scan_reports_pairwise, source.scan_reports_lexical, hone, hcode, ?_⟩
    intro he
    exact congrArg Program.declarations (hempty he)

end Seanet
