import Mathlib.Data.List.Find
import Seanet.Lexical.Scan
import Seanet.Proofs.Lexical.Fronts
import Seanet.Proofs.Lexical.Lossless

/-!
# Scanning line by line

A line feed ends every lexeme but a string and a block comment. So where a text leaves neither of
them open, what is behind its next line feed is scanned as if the text began there: only offsets and
lines are counted on.
-/

set_option autoImplicit false

namespace Seanet

namespace Lexical

variable (b : Text)

theorem run_lineFeed {p : UInt16 → Bool} (hp : p Text.lineFeed = false) (t : Text) :
    run p (t ++ Text.lineFeed :: b) = run p t := by
  induction t with
  | nil => simp [run, hp]
  | cons u t ih =>
    unfold run at ih ⊢
    rw [List.cons_append, List.takeWhile_cons, List.takeWhile_cons]
    split
    · simp only [List.length_cons, ih]
    · rfl

theorem sign_lineFeed (t : Text) : sign (t ++ Text.lineFeed :: b) = sign t := by
  cases t <;> rfl

theorem fraction_lineFeed (t : Text) : fraction (t ++ Text.lineFeed :: b) = fraction t := by
  cases t with
  | nil => rfl
  | cons u r =>
    have hrun := run_lineFeed b (p := isDigit) rfl r
    simp only [List.cons_append, fraction, hrun]

theorem exponent_lineFeed (t : Text) : exponent (t ++ Text.lineFeed :: b) = exponent t := by
  cases t with
  | nil => rfl
  | cons u r =>
    have hdrop : (r ++ Text.lineFeed :: b).drop (sign r) = r.drop (sign r) ++ Text.lineFeed :: b :=
      List.drop_append_of_le_length (sign_le r)
    have hrun := run_lineFeed b (p := isDigit) rfl (r.drop (sign r))
    simp only [List.cons_append, exponent, sign_lineFeed, hdrop, hrun]

theorem integerSuffix_lineFeed (t : Text) :
    integerSuffix (t ++ Text.lineFeed :: b) = integerSuffix t := by
  match t with
  | [] => rfl
  | [u] => rfl
  | u :: v :: r => rfl

theorem realSuffix_lineFeed (t : Text) : realSuffix (t ++ Text.lineFeed :: b) = realSuffix t := by
  cases t <;> rfl

theorem numberTail_lineFeed (q : Text) :
    numberTail (q ++ Text.lineFeed :: b) = numberTail q := by
  have drop_append : ∀ {t : Text} {n : Nat}, n ≤ t.length →
      (t ++ Text.lineFeed :: b).drop n = t.drop n ++ Text.lineFeed :: b :=
    List.drop_append_of_le_length
  cases q with
  | nil => rfl
  | cons u r =>
    have hhex := run_lineFeed b (p := isHexDigit) rfl r
    have hsize : fraction (u :: r) + exponent ((u :: r).drop (fraction (u :: r))) ≤
        (u :: r).length := by
      have hfraction := fraction_le (u :: r)
      have hexponent := exponent_le ((u :: r).drop (fraction (u :: r)))
      rw [List.length_drop] at hexponent
      omega
    simp only [List.cons_append, numberTail]
    rw [hhex, drop_append (run_le isHexDigit r), ← List.cons_append, fraction_lineFeed,
      drop_append (fraction_le _), exponent_lineFeed, drop_append hsize]
    simp only [integerSuffix_lineFeed, realSuffix_lineFeed]

theorem number_lineFeed (t : Text) : number (t ++ Text.lineFeed :: b) = number t := by
  rw [number_eq, number_eq, run_lineFeed b rfl, List.drop_append_of_le_length (run_le isDigit t),
    numberTail_lineFeed]

theorem blockEnd?_append_right {t : Text} {n : Nat} (h : blockEnd? t = some n) (rest : Text) :
    blockEnd? (t ++ rest) = some n := by
  fun_induction blockEnd? t generalizing n with
  | case1 => cases h
  | case2 u => cases h
  | case3 u v r hm =>
    simp only [List.cons_append, blockEnd?, if_pos hm]
    exact h
  | case4 u v r hm ih =>
    obtain ⟨m, hm', rfl⟩ := Option.map_eq_some_iff.1 h
    simp only [List.cons_append, blockEnd?, if_neg hm]
    rw [← List.cons_append, ih hm']
    rfl

theorem afterSlash?_lineFeed {r : Text} (h : ∀ e ∈ afterSlash? r, e.shape ≠ .openComment) :
    afterSlash? (r ++ Text.lineFeed :: b) = afterSlash? r := by
  cases r with
  | nil => rfl
  | cons u r =>
    have hrun := run_lineFeed b (p := (· != Text.lineFeed)) rfl r
    simp only [List.cons_append, afterSlash?, hrun] at h ⊢
    split
    · rfl
    · next hu =>
      rw [if_neg hu] at h
      split
      · next hs =>
        rw [if_pos hs] at h
        cases hb : blockEnd? r with
        | some n => rw [blockEnd?_append_right hb]
        | none =>
          rw [hb] at h
          exact absurd rfl (h _ rfl)
      · rfl

theorem stringOf_append {r : Text} (h : (stringOf r).shape ≠ .openString) (rest : Text) :
    stringOf (r ++ rest) = stringOf r := by
  by_cases hq : Text.unit '"' ∈ r
  · obtain ⟨t, s, rfl, ht⟩ := List.eq_append_cons_of_mem hq
    rw [List.append_assoc, List.cons_append, stringOf_closed ht, stringOf_closed ht]
  · rw [stringOf_open hq] at h
    exact absurd rfl h

theorem prefix_lineFeed_iff {m : Text} (hm : Text.lineFeed ∉ m) (t : Text) :
    m <+: t ++ Text.lineFeed :: b ↔ m <+: t := by
  induction m generalizing t with
  | nil => simp
  | cons u m ih =>
    rw [List.mem_cons, not_or] at hm
    cases t with
    | nil =>
      rw [List.nil_append, List.cons_prefix_cons]
      simp [Ne.symm hm.1]
    | cons v t =>
      rw [List.cons_append, List.cons_prefix_cons, List.cons_prefix_cons, ih hm.2]

theorem mark?_lineFeed (t : Text) : mark? (t ++ Text.lineFeed :: b) = mark? t := by
  have hfront : ∀ m ∈ Kind.markTexts,
      m.1.isPrefixOf (t ++ Text.lineFeed :: b) = m.1.isPrefixOf t := by
    intro m hm
    have hline : Text.lineFeed ∉ m.1 := fun hu => by
      have hblank := (markTexts_units m hm _ hu).1
      cases hblank
    rw [Bool.eq_iff_iff, List.isPrefixOf_iff_prefix, List.isPrefixOf_iff_prefix,
      prefix_lineFeed_iff b hline]
  unfold mark?
  rw [List.find?_congr hfront]

theorem strayOf_lineFeed {u : UInt16} {r : Text} (h : Text.isHigh u = true → r ≠ []) :
    strayOf u (r ++ Text.lineFeed :: b) = strayOf u r := by
  unfold strayOf
  cases hu : Text.isHigh u with
  | false => rfl
  | true =>
    obtain ⟨v, r, rfl⟩ := List.exists_cons_of_ne_nil (h hu)
    rfl

end Lexical

open Lexical

theorem Shape.atFront_lineFeed {u : UInt16} {r : Text} (b : Text)
    (hs : (Shape.atFront u r).shape ≠ .openString) (hc : (Shape.atFront u r).shape ≠ .openComment)
    (hh : Text.isHigh u = true → r ≠ []) :
    Shape.atFront u (r ++ Text.lineFeed :: b) = Shape.atFront u r := by
  by_cases hb : isBlank u = true
  · simp only [Shape.atFront, if_pos hb]
  by_cases hq : u = Text.unit '"'
  · subst hq
    rw [atFront_quote] at hs
    rw [atFront_quote, atFront_quote, stringOf_append hs]
  by_cases hd : isDigit u = true
  · rw [atFront_digit hd, atFront_digit hd, ← List.cons_append, number_lineFeed]
  by_cases ha : isAlpha u = true
  · rw [atFront_alpha ha, atFront_alpha ha, run_lineFeed b rfl]
  rw [Bool.not_eq_true] at hb hd ha
  rw [atFront_other hb hq hd ha] at hc
  rw [atFront_other hb hq hd ha, atFront_other hb hq hd ha, ← List.cons_append, mark?_lineFeed,
    strayOf_lineFeed b hh]
  by_cases hu : (u == Text.unit '/') = true
  · rw [if_pos hu] at hc
    rw [if_pos hu, if_pos hu, afterSlash?_lineFeed b]
    intro e he
    rw [Option.mem_def.1 he] at hc
    exact hc
  · rw [if_neg hu, if_neg hu]

namespace Segment

/-- The text neither ends in the first half of a surrogate pair nor leaves a string or a comment
open. -/
structure Ended (text : Text) : Prop where
  last : ∀ u ∈ text.getLast?, Text.isHigh u = false
  closed : ∀ s ∈ ofText text, s.reading ≠ .fault .openString ∧ s.reading ≠ .fault .openComment

theorem Ended.atFront {u : UInt16} {r : Text} (h : Ended (u :: r)) (b : Text) :
    Shape.atFront u (r ++ Text.lineFeed :: b) = Shape.atFront u r := by
  obtain ⟨hstring, hcomment⟩ := h.closed (Segment.atFront u r) (by simp [ofText])
  apply Shape.atFront_lineFeed b
  · intro hs
    exact hstring (by simp only [Segment.atFront, hs, Shape.read])
  · intro hs
    exact hcomment (by simp only [Segment.atFront, hs, Shape.read])
  · rintro hu rfl
    rw [h.last u (by simp)] at hu
    cases hu

theorem Ended.tail {u : UInt16} {r : Text} (h : Ended (u :: r)) :
    Ended (r.drop ((Shape.atFront u r).size - 1)) where
  last v hv := by
    rw [List.getLast?_drop] at hv
    split at hv
    · cases hv
    · exact h.last v (by rw [List.getLast?_cons]; simp [Option.mem_def.1 hv])
  closed s hs := h.closed s (by rw [ofText]; exact List.mem_cons_of_mem _ hs)

/-- A line feed is a segment of its own, and the segments on both sides of it do not know of each
other. -/
theorem ofText_lineFeed {a : Text} (h : Ended a) (b : Text) :
    ofText (a ++ Text.lineFeed :: b) = ofText a ++ ⟨[Text.lineFeed], .blank⟩ :: ofText b := by
  fun_induction ofText a with
  | case1 =>
    rw [List.nil_append, List.nil_append, ofText]
    rfl
  | case2 u r ih =>
    have hsize : (Shape.atFront u r).size - 1 ≤ r.length := by
      have hle := (Shape.atFront_size u r).2
      omega
    have hfront : atFront u (r ++ Text.lineFeed :: b) = atFront u r := by
      simp only [atFront, h.atFront b, List.take_append_of_le_length hsize]
    rw [List.cons_append, ofText, hfront, h.atFront b, List.drop_append_of_le_length hsize,
      ih h.tail, List.cons_append]

theorem flatMap_lexeme (text : Text) : (ofText text).flatMap Segment.lexeme = text := by
  fun_induction ofText text with
  | case1 => rfl
  | case2 u r ih => rw [List.flatMap_cons, ih, atFront_lexeme]

end Segment

namespace Place

def moved (units lines : Nat) (p : Place) : Place := ⟨p.offset + units, p.line + lines, p.column⟩

theorem after_moved (units lines : Nat) (p : Place) (t : Text) :
    (p.moved units lines).after t = (p.after t).moved units lines := by
  induction t generalizing p with
  | nil => rfl
  | cons u t ih =>
    have hnext : (p.moved units lines).next u = (p.next u).moved units lines := by
      unfold next
      split <;> simp only [moved] <;> congr 1 <;> omega
    change ((p.moved units lines).next u).after t = ((p.next u).after t).moved units lines
    rw [hnext, ih]

theorem after_line (p : Place) (t : Text) :
    (p.after t).line = p.line + t.count Text.lineFeed := by
  induction t generalizing p with
  | nil => rfl
  | cons u t ih =>
    change ((p.next u).after t).line = _
    rw [ih, List.count_cons]
    unfold next
    split
    · next hu =>
      simp only [hu, beq_self_eq_true, if_true]
      omega
    · next hu => simp [hu]

theorem after_lineFeed (a : Text) : (start.after a).next Text.lineFeed =
    start.moved (a.length + 1) (a.count Text.lineFeed + 1) := by
  have hoffset := after_offset start a
  have hline := after_line start a
  simp only [next, if_true, hoffset, hline, moved, Nat.add_assoc]
  rfl

end Place

theorem placed_append (p : Place) (xs ys : List Segment) :
    placed p (xs ++ ys) = placed p xs ++ placed (p.after (xs.flatMap Segment.lexeme)) ys := by
  induction xs generalizing p with
  | nil => rfl
  | cons s xs ih =>
    rw [List.cons_append, placed, ih, placed, List.cons_append, List.flatMap_cons,
      Place.after_append]

theorem placed_moved (units lines : Nat) (p : Place) (segments : List Segment) :
    placed (p.moved units lines) segments =
      (placed p segments).map fun (p, s) => (p.moved units lines, s) := by
  induction segments generalizing p with
  | nil => rfl
  | cons s segments ih => rw [placed, placed, List.map_cons, Place.after_moved, ih]

def Token.movedTo (source : Source) (units lines : Nat) (t : Token) : Token :=
  { t with source := source, start := t.start + units, line := t.line + lines }

def Report.movedDown (lines : Nat) (r : Report) : Report :=
  { r with place := ⟨r.place.line + lines, r.place.column⟩ }

theorem Segment.token?_moved (source source' : Source) (units lines : Nat) (p : Place)
    (s : Segment) : s.token? source (p.moved units lines) =
      (s.token? source' p).map (Token.movedTo source units lines) := by
  unfold Segment.token?
  cases s.reading <;> rfl

theorem Segment.report?_moved {source source' : Source} (h : source.name = source'.name)
    (units lines : Nat) (p : Place) (s : Segment) : s.report? source (p.moved units lines) =
      (s.report? source' p).map (Report.movedDown lines) := by
  unfold Segment.report?
  cases s.reading with
  | blank | token _ _ => rfl
  | fault cause =>
    simp only [Option.map_some, Report.movedDown, Place.location, Place.moved, h]
    rfl

theorem Source.placed_lineFeed {a : Text} (h : Segment.Ended a) (b : Text) :
    placed .start (Segment.ofText (a ++ Text.lineFeed :: b)) =
      placed .start (Segment.ofText a) ++
        (Place.start.after a, ⟨[Text.lineFeed], .blank⟩) ::
          (placed .start (Segment.ofText b)).map fun (p, s) =>
            (p.moved (a.length + 1) (a.count Text.lineFeed + 1), s) := by
  have hnext : (Place.start.after a).after [Text.lineFeed] =
      Place.start.moved (a.length + 1) (a.count Text.lineFeed + 1) := Place.after_lineFeed a
  rw [Segment.ofText_lineFeed h, placed_append, Segment.flatMap_lexeme, placed, hnext, placed_moved]

theorem Source.endToken_lineFeed (name a b : Text) :
    Source.endToken ⟨name, a ++ Text.lineFeed :: b⟩ =
      (Source.endToken ⟨name, b⟩).movedTo ⟨name, a ++ Text.lineFeed :: b⟩ (a.length + 1)
        (a.count Text.lineFeed + 1) := by
  have hplace : Place.start.after (a ++ Text.lineFeed :: b) =
      (Place.start.after b).moved (a.length + 1) (a.count Text.lineFeed + 1) := by
    rw [Place.after_append, ← Place.after_moved, ← Place.after_lineFeed]
    rfl
  simp only [Source.endToken, hplace]
  rfl

theorem filterMap_token?_moved (source source' : Source) (units lines : Nat)
    (segments : List (Place × Segment)) :
    segments.filterMap (fun (p, s) => s.token? source (p.moved units lines)) =
      (segments.filterMap fun (p, s) => s.token? source' p).map
        (Token.movedTo source units lines) := by
  rw [List.map_filterMap]
  exact congrArg (List.filterMap · segments)
    (funext fun x => x.2.token?_moved source source' units lines x.1)

theorem filterMap_report?_moved (source source' : Source) (h : source.name = source'.name)
    (units lines : Nat) (segments : List (Place × Segment)) :
    segments.filterMap (fun (p, s) => s.report? source (p.moved units lines)) =
      (segments.filterMap fun (p, s) => s.report? source' p).map (Report.movedDown lines) := by
  rw [List.map_filterMap]
  exact congrArg (List.filterMap · segments)
    (funext fun x => x.2.report?_moved h units lines x.1)

theorem Source.ended_of_reports {name a : Text} (hlast : ∀ u ∈ a.getLast?, Text.isHigh u = false)
    (hopen : ∀ r ∈ (Source.scan ⟨name, a⟩).reports,
      r.code ≠ .unterminatedString ∧ r.code ≠ .unterminatedComment) : Segment.Ended a where
  last := hlast
  closed s hs := by
    have hmem : ∀ {p : Place} {segments : List Segment}, s ∈ segments →
        ∃ q, (q, s) ∈ placed p segments := by
      intro p segments hs
      induction segments generalizing p with
      | nil => cases hs
      | cons s' segments ih =>
        obtain rfl | hs := List.mem_cons.1 hs
        · exact ⟨p, by simp [placed]⟩
        · obtain ⟨q, hq⟩ := ih hs
          exact ⟨q, List.mem_cons_of_mem _ hq⟩
    obtain ⟨p, hp⟩ := hmem (p := .start) hs
    have hreport : ∀ r, s.report? ⟨name, a⟩ p = some r → r ∈ (Source.scan ⟨name, a⟩).reports :=
      fun r hr => List.mem_filterMap.2 ⟨(p, s), hp, hr⟩
    constructor
    · intro hread
      exact (hopen _ (hreport _ (by rw [Segment.report?, hread]))).1 rfl
    · intro hread
      exact (hopen _ (hreport _ (by rw [Segment.report?, hread]))).2 rfl

/-- A text that ends within no string, comment or surrogate pair, a line feed, and a second text are
scanned as the two texts are. The tokens of the second text stand further on by the length of the
first and of the line feed, and further down by its lines, and so do the reports. -/
theorem scan_append_lineFeed (name a b : Text) (hlast : ∀ u ∈ a.getLast?, Text.isHigh u = false)
    (hopen : ∀ r ∈ (Source.scan ⟨name, a⟩).reports,
      r.code ≠ .unterminatedString ∧ r.code ≠ .unterminatedComment) :
    let whole : Source := ⟨name, a ++ Text.lineFeed :: b⟩
    let lines := a.count Text.lineFeed + 1
    whole.scan.tokens =
        (Source.scan ⟨name, a⟩).tokens.dropLast.map (Token.movedTo whole 0 0) ++
          (Source.scan ⟨name, b⟩).tokens.map (Token.movedTo whole (a.length + 1) lines) ∧
      whole.scan.reports = (Source.scan ⟨name, a⟩).reports ++
        (Source.scan ⟨name, b⟩).reports.map (Report.movedDown lines) := by
  intro whole lines
  have hplaced := Source.placed_lineFeed (Source.ended_of_reports hlast hopen) b
  constructor
  · have hfront := filterMap_token?_moved whole ⟨name, a⟩ 0 0 (placed .start (Segment.ofText a))
    have hback := filterMap_token?_moved whole ⟨name, b⟩ (a.length + 1) lines
      (placed .start (Segment.ofText b))
    simp only [Source.scan, List.dropLast_concat, List.map_append, List.map_cons, List.map_nil]
    rw [hplaced, List.filterMap_append, List.filterMap_cons_none rfl, List.filterMap_map,
      ← hfront, ← hback, ← Source.endToken_lineFeed, List.append_assoc]
    rfl
  · have hback := filterMap_report?_moved whole ⟨name, b⟩ rfl (a.length + 1) lines
      (placed .start (Segment.ofText b))
    simp only [Source.scan]
    rw [hplaced, List.filterMap_append, List.filterMap_cons_none rfl, List.filterMap_map, ← hback]
    rfl

/-- A line with an odd character and a comment at its end, and behind it a string over two lines. -/
theorem scan_append_lineFeed_string :
    let a : Text := "x = 1e #\n// \"y"
    let b : Text := "\"p\nq\" @ 7"
    let whole : Source := ⟨"m.sn", a ++ Text.lineFeed :: b⟩
    (∀ u ∈ a.getLast?, Text.isHigh u = false) ∧
    (∀ r ∈ (Source.scan ⟨"m.sn", a⟩).reports,
      r.code ≠ .unterminatedString ∧ r.code ≠ .unterminatedComment) ∧
    (whole.scan.tokens =
        (Source.scan ⟨"m.sn", a⟩).tokens.dropLast.map (Token.movedTo whole 0 0) ++
          (Source.scan ⟨"m.sn", b⟩).tokens.map (Token.movedTo whole (a.length + 1) 2) ∧
      whole.scan.reports = (Source.scan ⟨"m.sn", a⟩).reports ++
        (Source.scan ⟨"m.sn", b⟩).reports.map (Report.movedDown 2)) ∧
    whole.scan.tokens.map (fun t => (t.kind, t.start, t.line, t.column)) =
      [(.identifier, 0, 1, 1), (.equal, 2, 1, 3), (.intLiteral, 4, 1, 5), (.identifier, 5, 1, 6),
        (.comment, 9, 2, 1), (.stringLiteral, 15, 3, 1), (.intLiteral, 23, 4, 6),
        (.eof, 24, 4, 7)] := by
  intro a b whole
  have hlast : ∀ u ∈ a.getLast?, Text.isHigh u = false := by
    have hy : a.getLast? = some (Text.unit 'y') := by decide
    rw [hy]
    rintro u ⟨⟩
    decide
  have hopen : ∀ r ∈ (Source.scan ⟨"m.sn", a⟩).reports,
      r.code ≠ .unterminatedString ∧ r.code ≠ .unterminatedComment := by decide +kernel
  exact ⟨hlast, hopen, scan_append_lineFeed "m.sn" a b hlast hopen, by decide +kernel⟩

end Seanet
