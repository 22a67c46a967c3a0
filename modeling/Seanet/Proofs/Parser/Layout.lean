import Seanet.Proofs.Parser.Entry
import Seanet.Proofs.Parser.Following
import Seanet.Proofs.Tree.Faithful

/-!
# Layout does not matter

Two lists of scanned tokens that have the same kinds and lexemes, comments aside, are parsed alike,
wherever the tokens stand and whatever they were scanned from. Both runs are images of one run over
marks: a mark says the how manieth token it is, and which part of it, and nothing else.
-/

set_option autoImplicit false

namespace Seanet

open TokenView (kind)

namespace Stream

/-- A token by its index among those that are no comments, or its second half. -/
inductive Position where
  | token (index : Nat)
  | half (index : Nat)
  deriving DecidableEq, Repr

/-- The place of a position in a list of tokens. Only a `>>` has a second half. Where no end mark is
written, the position behind the last token is the end. -/
inductive Located (tokens : List Token) : Position → Location → Prop where
  | token {i : Nat} {t : Token} (h : (visible tokens)[i]? = some t) :
      Located tokens (.token i) ⟨t.line, t.column⟩
  | half {i : Nat} {t : Token} (h : (visible tokens)[i]? = some t) (hk : t.kind = .greaterGreater) :
      Located tokens (.half i) ⟨t.line, t.column + 1⟩
  | ending (h : ∀ t ∈ visible tokens, t.kind ≠ .eof) :
      Located tokens (.token (visible tokens).length) (behind (visible tokens).getLast?)

theorem prefix_visible (tokens : List Token) : (ofTokens tokens).tokens <+: visible tokens := by
  rw [ofTokens_tokens]
  exact List.takeWhile_prefix _

theorem visible_eq (tokens : List Token) :
    (∃ mark rest, visible tokens = (ofTokens tokens).tokens ++ mark :: rest ∧
      (ofTokens tokens).ending = ⟨mark.line, mark.column⟩) ∨
    visible tokens = (ofTokens tokens).tokens ∧
      (ofTokens tokens).ending = behind (visible tokens).getLast? := by
  have hsplit := List.takeWhile_append_dropWhile
    (p := fun t : Token => decide (t.kind ≠ .eof)) (l := visible tokens)
  unfold visible at hsplit ⊢
  simp only [ofTokens]
  split
  · next mark rest hd => exact .inl ⟨mark, rest, by rw [← hd, hsplit], rfl⟩
  · next hd =>
    rw [hd, List.append_nil] at hsplit
    exact .inr ⟨hsplit.symm, congrArg (fun ts => behind (List.getLast? ts)) hsplit⟩

theorem located_ending (tokens : List Token) :
    Located tokens (.token (ofTokens tokens).tokens.length) (ofTokens tokens).ending := by
  rcases visible_eq tokens with ⟨mark, rest, hv, he⟩ | ⟨hv, he⟩
  · rw [he]
    exact .token (by simp [hv])
  · rw [he, ← hv]
    refine .ending fun t ht => ?_
    rw [hv] at ht
    exact (kind_ne ht).2

end Stream

/-- What parsing makes of a token: the token itself, or a token that it makes from it. -/
inductive Part where
  | whole | secondHalf | unwrittenTrue | unwrittenVoid
  deriving DecidableEq, Repr

def Part.of : Part → Token → Token
  | whole, t => t
  | secondHalf, t =>
    if t.kind = .greaterGreater then t.secondHalf else { t with kind := .greater, length := 0 }
  | unwrittenTrue, t => t.unwrittenTrue
  | unwrittenVoid, t => t.unwrittenVoid

/-- A part of the token with the given index, where the kinds of all tokens are known. -/
structure Mark (kinds : List Kind) where
  index : Fin kinds.length
  part : Part

namespace Mark

variable {kinds : List Kind}

instance : TokenView (Mark kinds) where
  kind m := match m.part with
    | .whole => kinds.get m.index
    | .secondHalf => .greater
    | .unwrittenTrue => .trueWord
    | .unwrittenVoid => .void
  secondHalf m := ⟨m.index, .secondHalf⟩
  unwrittenTrue m := ⟨m.index, .unwrittenTrue⟩
  unwrittenVoid m := ⟨m.index, .unwrittenVoid⟩
  kind_secondHalf _ := rfl

def all (kinds : List Kind) : List (Mark kinds) :=
  (List.finRange kinds.length).map fun i => ⟨i, .whole⟩

variable {ts : List Token}

def source (h : ts.map Token.kind = kinds) (m : Mark kinds) : Token :=
  ts.get (m.index.cast (by rw [← h, List.length_map]))

theorem kind_source (h : ts.map Token.kind = kinds) (m : Mark kinds) :
    (m.source h).kind = kinds.get m.index := by
  subst h
  simp [source]

theorem part_of_kind {m : Mark kinds} {k : Kind} (hk : kind m = k) (hg : k ≠ .greater)
    (ht : k ≠ .trueWord) (hv : k ≠ .void) : m.part = .whole := by
  obtain ⟨i, part⟩ := m
  cases part with
  | whole => rfl
  | secondHalf => exact absurd hk.symm hg
  | unwrittenTrue => exact absurd hk.symm ht
  | unwrittenVoid => exact absurd hk.symm hv

def tokenMap (h : ts.map Token.kind = kinds) : TokenMap (Mark kinds) Token where
  map m := m.part.of (m.source h)
  kind_map m := by
    obtain ⟨i, part⟩ := m
    cases part with
    | whole => exact kind_source h ⟨i, .whole⟩
    | secondHalf =>
      change (Part.of .secondHalf (source h ⟨i, .secondHalf⟩)).kind = .greater
      simp only [Part.of]
      split <;> rfl
    | unwrittenTrue => rfl
    | unwrittenVoid => rfl
  secondHalf_map m hk := by
    have hpart := part_of_kind hk (by decide) (by decide) (by decide)
    obtain ⟨i, part⟩ := m
    obtain rfl : part = .whole := hpart
    have hkind : (source h ⟨i, .whole⟩).kind = .greaterGreater := (kind_source h _).trans hk
    change Part.of .secondHalf (source h ⟨i, .whole⟩) = (source h ⟨i, .whole⟩).secondHalf
    rw [Part.of, if_pos hkind]
  unwrittenTrue_map m hk := by
    have hpart := part_of_kind hk (by decide) (by decide) (by decide)
    obtain ⟨i, part⟩ := m
    obtain rfl : part = .whole := hpart
    rfl
  unwrittenVoid_map m hk := by
    have hpart := part_of_kind hk (by decide) (by decide) (by decide)
    obtain ⟨i, part⟩ := m
    obtain rfl : part = .whole := hpart
    rfl

theorem tokenMap_apply (h : ts.map Token.kind = kinds) (m : Mark kinds) :
    tokenMap h m = m.part.of (m.source h) := rfl

theorem all_map_tokenMap (h : ts.map Token.kind = kinds) : (all kinds).map (tokenMap h) = ts := by
  subst h
  apply List.ext_getElem
  · simp [all]
  · intro i h₁ h₂
    simp [all, tokenMap, Part.of, source]

def position (m : Mark kinds) : Stream.Position :=
  if m.part = .secondHalf ∧ kinds.get m.index = .greaterGreater then .half m.index
  else .token m.index

theorem located {tokens : List Token} (h : (Stream.ofTokens tokens).tokens.map Token.kind = kinds)
    (m : Mark kinds) :
    Stream.Located tokens m.position ⟨(tokenMap h m).line, (tokenMap h m).column⟩ := by
  have hindex : (Stream.visible tokens)[(m.index : Nat)]? = some (m.source h) := by
    obtain ⟨rest, hrest⟩ := Stream.prefix_visible tokens
    have hlength : (m.index : Nat) < (Stream.ofTokens tokens).tokens.length := by
      rw [← List.length_map Token.kind, h]
      exact m.index.2
    rw [← hrest, List.getElem?_append_left hlength]
    simp [source]
  have hkind := m.kind_source h
  obtain ⟨i, part⟩ := m
  have htoken : Stream.Located tokens (.token i)
      ⟨(source h ⟨i, part⟩).line, (source h ⟨i, part⟩).column⟩ := .token hindex
  cases part with
  | whole | unwrittenTrue | unwrittenVoid => exact htoken
  | secondHalf =>
    simp only [position, tokenMap_apply, Part.of, hkind, true_and]
    split
    · next hg => exact .half hindex (hkind.trans hg)
    · exact htoken

end Mark

namespace Token

/-- The same to messages and to printed trees. -/
structure Alike (t u : Token) : Prop where
  kind : t.kind = u.kind
  lexeme : t.lexeme = u.lexeme
  spelling : t.spelling = u.spelling

theorem alike_of_pos {t u : Token} (ht : 0 < t.length) (hu : 0 < u.length)
    (hkind : t.kind = u.kind) (hlexeme : t.lexeme = u.lexeme) : t.Alike u :=
  ⟨hkind, hlexeme, by simp only [spelling, if_pos ht, if_pos hu, hlexeme]⟩

theorem alike_of_zero {t u : Token} (ht : t.length = 0) (hu : u.length = 0)
    (hkind : t.kind = u.kind) : t.Alike u := by
  refine ⟨hkind, ?_, ?_⟩
  · simp [lexeme, Text.slice, ht, hu]
  · simp [spelling, ht, hu, hkind]

theorem alike_secondHalf {t u : Token} (ht : t.word.IsLexeme) (hu : u.word.IsLexeme)
    (hkt : t.kind = .greaterGreater) (hku : u.kind = .greaterGreater) :
    t.secondHalf.Alike u.secondHalf := by
  have hword : t.secondHalf.word = u.secondHalf.word :=
    (isLexeme_halves ht hkt).2.eq_of_kind (isLexeme_halves hu hku).2
      (by simp only [word_kind]; rfl) (by simp only [word_kind]; rfl)
  rw [word_of_pos (t := t.secondHalf) Nat.one_pos, word_of_pos (t := u.secondHalf) Nat.one_pos,
    Word.mk.injEq] at hword
  exact alike_of_pos Nat.one_pos Nat.one_pos rfl hword.2

theorem alike_part {t u : Token} (ht : 0 < t.length ∧ t.word.IsLexeme)
    (hu : 0 < u.length ∧ u.word.IsLexeme) (hkind : t.kind = u.kind) (hlexeme : t.lexeme = u.lexeme)
    (part : Part) : (part.of t).Alike (part.of u) := by
  cases part with
  | whole => exact alike_of_pos ht.1 hu.1 hkind hlexeme
  | secondHalf =>
    simp only [Part.of]
    by_cases hg : t.kind = .greaterGreater
    · rw [if_pos hg, if_pos (hkind ▸ hg)]
      exact alike_secondHalf ht.2 hu.2 hg (hkind ▸ hg)
    · rw [if_neg hg, if_neg (hkind ▸ hg)]
      exact alike_of_zero rfl rfl rfl
  | unwrittenTrue | unwrittenVoid => exact alike_of_zero rfl rfl rfl

end Token

def Scanned (tokens : List Token) : Prop := ∀ t ∈ tokens, ∃ source : Source, t ∈ source.scan.tokens

def SameWords (ts us : List Token) : Prop :=
  (Stream.visible ts).map (fun t => (t.kind, t.lexeme)) =
    (Stream.visible us).map (fun t => (t.kind, t.lexeme))

/-- Two outcomes of parsing: trees that print alike, or errors with one code and one message, at
one position in either list of tokens. -/
inductive Agree {α : Type} (ts us : List Token) (print : α → Text) :
    Parsed α → Parsed α → Prop where
  | trees {a b : α} (h : print a = print b) : Agree ts us print (.ok a) (.ok b)
  | errors {r r' : Report} (position : Stream.Position) (hcode : r.code = r'.code)
      (hmessage : r.message = r'.message) (hts : Stream.Located ts position r.place)
      (hus : Stream.Located us position r'.place) : Agree ts us print (.error r) (.error r')

section

variable {ts us : List Token}

theorem map_takeWhile_kind (vs : List Token) :
    (vs.takeWhile (·.kind ≠ .eof)).map (fun t => (t.kind, t.lexeme)) =
      (vs.map (fun t => (t.kind, t.lexeme))).takeWhile (·.1 ≠ .eof) := by
  rw [List.takeWhile_map]
  rfl

theorem SameWords.stream (h : SameWords ts us) :
    (Stream.ofTokens ts).tokens.map (fun t => (t.kind, t.lexeme)) =
      (Stream.ofTokens us).tokens.map (fun t => (t.kind, t.lexeme)) := by
  rw [Stream.ofTokens_tokens, Stream.ofTokens_tokens, map_takeWhile_kind, map_takeWhile_kind]
  exact congrArg _ h

theorem SameWords.kinds (h : SameWords ts us) :
    (Stream.ofTokens us).tokens.map Token.kind = (Stream.ofTokens ts).tokens.map Token.kind := by
  have hs := congrArg (List.map Prod.fst) h.stream
  simpa [Function.comp_def] using hs.symm

theorem Scanned.stream (h : Scanned ts) {t : Token} (ht : t ∈ (Stream.ofTokens ts).tokens) :
    0 < t.length ∧ t.word.IsLexeme := by
  have hkind := (Stream.kind_ne ht).2
  have hmem := (List.mem_filter.1 ((Stream.prefix_visible ts).mem ht)).1
  obtain ⟨source, hsource⟩ := h t hmem
  exact isLexeme_of_mem_scan hsource hkind

theorem alike_tokenMap (hts : Scanned ts) (hus : Scanned us) (h : SameWords ts us)
    (m : Mark ((Stream.ofTokens ts).tokens.map Token.kind)) :
    (Mark.tokenMap rfl m).Alike (Mark.tokenMap h.kinds m) := by
  have hwords := congrArg (fun l => l[(m.index : Nat)]?) h.stream
  have hsource : (Stream.ofTokens ts).tokens[(m.index : Nat)]? = some (m.source rfl) := by
    simp [Mark.source]
  have hsource' : (Stream.ofTokens us).tokens[(m.index : Nat)]? = some (m.source h.kinds) := by
    simp [Mark.source]
  simp only [List.getElem?_map, hsource, hsource', Option.map_some, Option.some.injEq,
    Prod.mk.injEq] at hwords
  exact Token.alike_part (hts.stream (List.mem_of_getElem? hsource))
    (hus.stream (List.mem_of_getElem? hsource')) hwords.1 hwords.2 m.part

theorem errors_agree {α : Type} {print : α → Text} (hts : Scanned ts) (hus : Scanned us)
    (h : SameWords ts us) (file file' : Text)
    (fault : SyntaxFault (Mark ((Stream.ofTokens ts).tokens.map Token.kind))) :
    Agree ts us print
      (.error ((fault.map (Mark.tokenMap rfl)).report file (Stream.ofTokens ts).ending))
      (.error ((fault.map (Mark.tokenMap h.kinds)).report file' (Stream.ofTokens us).ending)) := by
  have hlength : (Stream.ofTokens us).tokens.length = (Stream.ofTokens ts).tokens.length := by
    simpa using congrArg List.length h.kinds
  cases fault with
  | expected what rest =>
    cases rest with
    | nil =>
      have hend := Stream.located_ending us
      rw [hlength] at hend
      exact .errors _ rfl rfl (Stream.located_ending ts) hend
    | cons m rest =>
      refine .errors m.position rfl ?_ (m.located rfl) (m.located h.kinds)
      simp only [SyntaxFault.report, SyntaxFault.map, SyntaxFault.message, List.map_cons,
        SyntaxFault.found, (alike_tokenMap hts hus h m).lexeme]
  | assignmentTarget m _ | refFunction m _ =>
    exact .errors m.position rfl rfl (m.located rfl) (m.located h.kinds)

/-- If the runs over both streams follow one run over marks, and its trees print alike, then the
outcomes agree. -/
theorem run_agree {α β : Type} {print : α → Text} {p : Parser Token α}
    (hts : Scanned ts) (hus : Scanned us) (h : SameWords ts us) (file file' : Text)
    {q : Parser (Mark ((Stream.ofTokens ts).tokens.map Token.kind)) β} {g g' : β → α}
    (hq : Parser.Follows False (Mark.tokenMap rfl) g q p)
    (hq' : Parser.Follows False (Mark.tokenMap h.kinds) g' q p)
    (hprint : ∀ b, print (g b) = print (g' b)) :
    Agree ts us print (p.run file ts) (p.run file' us) := by
  have hp := hq.eq (Mark.all _)
  have hp' := hq'.eq (Mark.all _)
  rw [Mark.all_map_tokenMap] at hp hp'
  simp only [Parser.run, hp, hp']
  cases q (Mark.all _) with
  | ok r => exact .trees (hprint r.1)
  | error fault => exact errors_agree hts hus h file file' fault

end

/-- Lists of scanned tokens that have the same kinds and lexemes, comments aside, are parsed
alike. -/
theorem parsing_ignores_layout (ts us : List Token) (hts : Scanned ts) (hus : Scanned us)
    (h : SameWords ts us) (file file' : Text) :
    Agree ts us Program.print (parseProgram file ts) (parseProgram file' us) ∧
    Agree ts us Expr.print (parseExpr file ts) (parseExpr file' us) ∧
    Agree ts us TypeExpr.print (parseType file ts) (parseType file' us) := by
  have hspell : (fun m => (Mark.tokenMap rfl m).spelling) =
      fun m => (Mark.tokenMap h.kinds m).spelling :=
    funext fun m => (alike_tokenMap hts hus h m).spelling
  refine ⟨?_, ?_, ?_⟩
  · refine run_agree hts hus h file file' (Parser.follows_program (.inl rfl))
      (Parser.follows_program (.inl rfl)) fun p => ?_
    simp only [Program.print, Printer.program_map, hspell]
  · refine run_agree hts hus h file file'
      (Parser.follows_whole (Parser.follows_expression (.inl rfl)))
      (Parser.follows_whole (Parser.follows_expression (.inl rfl))) fun e => ?_
    simp only [Expr.print, Printer.expr_map, hspell]
  · refine run_agree hts hus h file file'
      (Parser.follows_whole (Parser.follows_typeExpr (.inl rfl) true))
      (Parser.follows_whole (Parser.follows_typeExpr (.inl rfl) true)) fun t => ?_
    simp only [TypeExpr.print, Printer.typeExpr_map, hspell]

/-- A type with a `>>` of which one half is too much, on one line and on two with a comment. -/
theorem parsing_ignores_layout_half :
    let ts := (Source.scan ⟨"a.sn", "fun<a>>"⟩).tokens
    let us := (Source.scan ⟨"b.sn", "fun // one line\n < a >>"⟩).tokens
    ts ≠ us ∧ SameWords ts us ∧
      Agree ts us Program.print (parseProgram "a.sn" ts) (parseProgram "b.sn" us) ∧
      Agree ts us Expr.print (parseExpr "a.sn" ts) (parseExpr "b.sn" us) ∧
      Agree ts us TypeExpr.print (parseType "a.sn" ts) (parseType "b.sn" us) := by
  intro ts us
  have hwords : SameWords ts us := by
    unfold SameWords
    decide +kernel
  exact ⟨by decide +kernel, hwords,
    parsing_ignores_layout ts us (fun _ ht => ⟨_, ht⟩) (fun _ hu => ⟨_, hu⟩) hwords "a.sn" "b.sn"⟩

end Seanet
