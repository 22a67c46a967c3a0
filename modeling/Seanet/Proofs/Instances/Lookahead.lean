import Seanet.Proofs.Instances.Runs

/-!
# Lookahead

Whether a statement is read as a declaration or as an expression is decided on at most three tokens,
and the choice is never taken back. No parse is lost by that: where a declaration can be read the
lookahead sees one, and where an expression can be read that does not begin with `fun` it sees none.
So at most one of the two can be read, and it is the one that is chosen, both for a statement and at
the beginning of a `for`. This is shown for the parsers, and the methods follow them wherever the
cursor stands in a stream.
-/

set_option autoImplicit false

namespace Seanet

open Seanet.Parser

namespace Grammar

open TokenView (kind)

variable {τ : Type} [SplitView τ] {n : Nat} {ts rest : List τ} {s : Stmt τ}

theorem declaration_begins
    (h : declaration (expression n) (typeExpr n false) ts = .ok (s, rest)) :
    ∃ t mid, ts = t :: mid ∧ startsType (kind t) = true ∧
      beginsDeclaration (ts.map kind) = true := by
  rw [declaration, bind_ok_iff] at h
  obtain ⟨type, mid, htype, h⟩ := h
  obtain ⟨name, tail, hname, -⟩ := bind_ok_iff.1 h
  obtain ⟨us, hu, hT⟩ := typeExpr_sound n false htype
  obtain ⟨rfl, hn⟩ := expect_ok hname
  obtain ⟨t, front, rfl, ht⟩ := hT.begins.stream hu rfl
  refine ⟨t, front, rfl, ht, ?_⟩
  rw [beginsDeclaration_reads hu]
  exact beginsDeclaration_type hT hn tail

theorem expressionStatement_begins
    (h : expressionStatement (expression n) ts = .ok (s, rest)) :
    ∃ t mid, ts = t :: mid ∧ startsExpression (kind t) = true ∧
      (kind t ≠ .funWord → beginsDeclaration (ts.map kind) = false) := by
  simp only [expressionStatement, bind_ok_iff, pure_ok_iff] at h
  obtain ⟨e, mid, he, semicolon, tail, hs, rfl, rfl⟩ := h
  obtain ⟨us, hu, hE⟩ := expression_sound n he
  obtain ⟨rfl, hk⟩ := expect_ok hs
  obtain ⟨t, front, rfl, ht⟩ := hE.begins.stream hu rfl
  refine ⟨t, front, rfl, ht, fun hf => ?_⟩
  have hfun : ¬ Begins (· == .funWord) us := by
    intro hb
    obtain ⟨t', front', heq, ht'⟩ := hb.stream hu rfl
    obtain ⟨rfl, rfl⟩ := List.cons.inj heq
    exact hf (by simpa using ht')
  -- A lone identifier is no type either, because a `;` is behind it.
  rw [beginsDeclaration_reads hu]
  exact hE.not_declaration (opensName_of_ne (by simp [hk]) (by simp [hk]) _) hfun

theorem startsSimple_of_starts {k : Kind}
    (h : startsType k = true ∨ startsExpression k = true) :
    startsSimple k = true ∧ k ≠ .varWord ∧ k ≠ .semicolon := by
  refine ⟨by simpa [startsSimple, or_assoc] using .inr h, ?_, ?_⟩ <;>
  · rintro rfl
    revert h
    decide

end Grammar

open Grammar (startsSimple)

namespace Instances

open Machine Memory

/-- Before `ts` the lookahead sees a declaration or none, as `declares` says, and then a statement
is read as `s`, and so is the beginning of a `for`. -/
structure Chosen (levels : Nat) (ts : List Token) (declares : Bool) (s : Stmt Token)
    (rest : List Token) : Prop where
  lookahead : seesDeclaration ts = .ok (declares, ts)
  statement : statement levels ts = .ok (s, rest)
  initializer :
    Grammar.forInitializer (expression levels) (typeExpr levels false) ts = .ok (some s, rest)

section

variable {n : Nat} {t : Token} {ts rest : List Token} {s : Stmt Token}

theorem chosen_of_simple {declares : Bool}
    (hd : beginsDeclaration ((t :: ts).map Token.kind) = declares)
    (ht : startsSimple t.kind = true) (hs : t.kind ≠ .semicolon)
    (h : simpleStatement (expression n) (typeExpr n false) (t :: ts) = .ok (s, rest)) :
    Chosen n (t :: ts) declares s rest where
  lookahead := by
    rw [← hd]
    rfl
  statement := (Grammar.statementOver_simple ht ts).trans h
  initializer := by
    rw [Grammar.forInitializer, bind_of_ok (accept_of_stops (by simpa using hs))]
    exact map_of_ok some h

theorem chosen_declaration
    (h : declaration (expression n) (typeExpr n false) ts = .ok (s, rest)) :
    Chosen n ts true s rest := by
  obtain ⟨t, mid, rfl, ht, hd⟩ := Grammar.declaration_begins h
  obtain ⟨hsimple, -, hs⟩ := Grammar.startsSimple_of_starts (.inl ht)
  exact chosen_of_simple hd hsimple hs ((Grammar.simpleStatement_declaration hd).trans h)

theorem chosen_expressionStatement (h : expressionStatement (expression n) ts = .ok (s, rest))
    (hf : Stops (· == .funWord) ts) : Chosen n ts false s rest := by
  obtain ⟨t, mid, rfl, ht, hbegins⟩ := Grammar.expressionStatement_begins h
  obtain ⟨hsimple, hvar, hs⟩ := Grammar.startsSimple_of_starts (.inr ht)
  have hd := hbegins (by simpa using hf)
  refine chosen_of_simple hd hsimple hs ?_
  rw [Grammar.simpleStatement_expression (by simpa using hvar) hd]
  exact h

end

/-- As `Chosen`, for the methods with so many calls left, at the memory `m`. The lookahead leaves
the memory as it is, so what is chosen is read from there. -/
structure ChosenAt (limit fuel : Nat) (m : Memory) (declares : Bool) (s : Stmt Token)
    (m' : Memory) : Prop where
  lookahead : Methods.beginsDeclaration m = (.value declares, m)
  statement : (methods limit (fuel + 1)).statement m = (.value s, m')
  initializer : (methods limit fuel).forInitializer m = (.value (some s), m')

variable {limit fuel n : Nat} {self : Methods} {m m' : Memory} {ts : List Token} {e : Token}
  {s : Stmt Token}

theorem Methods.statementBody_simple (hk : startsSimple m.peek.kind = true) :
    self.statementBody m = self.simpleStatement m := by
  rw [Methods.statementBody, Methods.simpleStatement, check_bind, check_bind]
  split
  · rfl
  · rw [bind_of_value (beginsDeclaration_eq m), bind_of_value (beginsDeclaration_eq m)]
    split
    · rfl
    · rw [peek_bind]
      generalize m.peek.kind = k at hk
      cases k <;> first | rfl | cases hk

theorem Methods.simpleStatement_choice (hv : m.peek.kind ≠ .varWord) :
    self.simpleStatement m =
      (if m.opens = true then self.declaration else self.expressionStatement) m := by
  rw [Methods.simpleStatement, check_bind, if_neg (by simpa using hv),
    bind_of_value (beginsDeclaration_eq m)]

theorem chosenAt_of_simple {declares : Bool} (hd : m.opens = declares)
    (hk : startsSimple m.peek.kind = true) (hs : m.peek.kind ≠ .semicolon)
    (h : (methods limit fuel).simpleStatement m = (.value s, m')) :
    ChosenAt limit fuel m declares s m' where
  lookahead := by rw [beginsDeclaration_eq, hd]
  statement := (Methods.statementBody_simple hk).trans h
  initializer := by
    have htake : Machine.take (· == .semicolon) m = (.value none, m) := by
      rw [Machine.take, check_bind, if_neg (by simpa using hs)]
      rfl
    rw [Methods.forInitializer, bind_of_value htake]
    exact bind_of_value h

theorem Does.of_value {α : Type} {method : Machine α} {a : α}
    {outcome : Except (SyntaxFault Token) (α × List Token)} (h : Does method m e outcome)
    (hv : method m = (.value a, m')) : ∃ rest, outcome = .ok (a, rest) := by
  cases outcome with
  | ok r =>
    obtain ⟨m₁, hr, -, -⟩ := h
    rw [hv] at hr
    cases hr
    exact ⟨r.2, rfl⟩
  | error fault =>
    obtain ⟨m₁, hr, -, -⟩ := h
    rw [hv] at hr
    cases hr

theorem Memory.Faces.opens (h : m.Faces ts e) :
    m.opens = beginsDeclaration (ts.map Token.kind) := by
  -- Looking ahead takes no level, so any limit will do.
  have himplements : Implements m.parser.depth 0 Methods.beginsDeclaration seesDeclaration :=
    implements_beginsDeclaration
  obtain ⟨m₁, hv, -, -⟩ := himplements ts m e h rfl
  rw [beginsDeclaration_eq] at hv
  exact Answer.value.inj (Prod.mk.inj hv).1

theorem Memory.faces_ahead (h : ∃ e ∈ m.tokens.drop m.parser.current, e.kind = .eof) :
    ∃ e, m.Faces m.ahead e := by
  obtain ⟨e, back, hsplit, he⟩ := Stream.exists_split h
  obtain ⟨t, ht, -⟩ := h
  have hlength : m.parser.current < m.tokens.length := by
    have hpos := List.length_pos_of_mem ht
    rw [List.length_drop] at hpos
    omega
  have howned : m.parser.tokens < m.arrays.length := by
    refine Nat.lt_of_not_le fun hge => ?_
    simp [Memory.tokens, Memory.array, List.getElem?_eq_none hge] at hlength
  refine ⟨e, howned, ⟨m.tokens.take m.parser.current, back, ?_, ?_⟩,
    fun t => Stream.ne_eof_of_mem, he⟩
  · rw [Memory.ahead, ← hsplit, List.take_append_drop]
  · rw [List.length_take, Nat.min_eq_left (Nat.le_of_lt hlength)]

theorem implements_simple (hf : enough limit ≤ fuel) (hn : n ≤ limit) :
    Implements limit n (methods limit fuel).declaration
        (declaration (expression n) (typeExpr n false)) ∧
      Implements limit n (methods limit fuel).expressionStatement
        (expressionStatement (expression n)) := by
  have hsimple : Eventually limit (32 * (n + 1) + 1) fun self =>
      Implements limit n self.declaration (declaration (expression n) (typeExpr n false)) ∧
        Implements limit n self.expressionStatement (expressionStatement (expression n)) :=
    (exprMethods limit n).next fun self hs =>
      ⟨implements_declaration hs.expression (hs.types.type false),
        implements_expressionStatement hs.expression⟩
  unfold enough at hf
  exact hsimple fuel (by omega)

theorem chosenAt_declaration (himplements : Implements limit n (methods limit fuel).declaration
      (declaration (expression n) (typeExpr n false)))
    (hfaces : m.Faces ts e) (hd : m.parser.depth + n = limit)
    (h : (methods limit fuel).declaration m = (.value s, m')) :
    ChosenAt limit fuel m true s m' := by
  obtain ⟨rest, hp⟩ := (himplements ts m e hfaces hd).of_value h
  obtain ⟨t, mid, rfl, ht, hbegins⟩ := Grammar.declaration_begins hp
  obtain ⟨hsimple, hvar, hs⟩ := Grammar.startsSimple_of_starts (.inl ht)
  obtain rfl : m.peek = t := hfaces.peek
  have hopens : m.opens = true := hfaces.opens.trans hbegins
  refine chosenAt_of_simple hopens hsimple hs ?_
  rw [Methods.simpleStatement_choice hvar, if_pos hopens]
  exact h

theorem chosenAt_expressionStatement
    (himplements : Implements limit n (methods limit fuel).expressionStatement
      (expressionStatement (expression n)))
    (hfaces : m.Faces ts e) (hd : m.parser.depth + n = limit) (hf : m.peek.kind ≠ .funWord)
    (h : (methods limit fuel).expressionStatement m = (.value s, m')) :
    ChosenAt limit fuel m false s m' := by
  obtain ⟨rest, hp⟩ := (himplements ts m e hfaces hd).of_value h
  obtain ⟨t, mid, rfl, ht, hbegins⟩ := Grammar.expressionStatement_begins hp
  obtain ⟨hsimple, hvar, hs⟩ := Grammar.startsSimple_of_starts (.inr ht)
  obtain rfl : m.peek = t := hfaces.peek
  have hopens : m.opens = false := hfaces.opens.trans (hbegins hf)
  refine chosenAt_of_simple hopens hsimple hs ?_
  rw [Methods.simpleStatement_choice hvar, if_neg (by simp [hopens])]
  exact h

/-- The choice between a declaration and an expression statement loses no parse. It does not before
any stream, with any number of levels left, and it does not for the methods, wherever the cursor
stands in a stream and at any depth. Where a declaration can be read the lookahead sees one. Where
an expression statement can be read it sees none, unless a `fun` is next. So, unless a `fun` is
next, at most one of the two can be read; and the one that can is what a statement and the beginning
of a `for` read, from where the choice was made. -/
theorem lookahead_loses_no_parse :
    (∀ (levels : Nat) (ts : List Token),
      (∀ s rest, declaration (expression levels) (typeExpr levels false) ts = .ok (s, rest) →
        Chosen levels ts true s rest) ∧
      (Stops (· == .funWord) ts →
        (∀ s rest, expressionStatement (expression levels) ts = .ok (s, rest) →
          Chosen levels ts false s rest) ∧
        ¬ ((∃ r, declaration (expression levels) (typeExpr levels false) ts = .ok r) ∧
          ∃ r, expressionStatement (expression levels) ts = .ok r))) ∧
    ∀ (limit fuel : Nat) (m : Memory), enough limit ≤ fuel → m.parser.depth ≤ limit →
      (∃ e ∈ m.tokens.drop m.parser.current, e.kind = .eof) →
      (∀ s m', (methods limit fuel).declaration m = (.value s, m') →
        ChosenAt limit fuel m true s m') ∧
      (m.peek.kind ≠ .funWord →
        (∀ s m', (methods limit fuel).expressionStatement m = (.value s, m') →
          ChosenAt limit fuel m false s m') ∧
        ¬ ((∃ s m', (methods limit fuel).declaration m = (.value s, m')) ∧
          ∃ s m', (methods limit fuel).expressionStatement m = (.value s, m'))) := by
  refine ⟨fun levels ts => ⟨fun s rest => chosen_declaration, fun hf =>
    ⟨fun s rest h => chosen_expressionStatement h hf, ?_⟩⟩,
    fun limit fuel m hfuel hdepth hend => ?_⟩
  · rintro ⟨⟨⟨s, rest⟩, hd⟩, ⟨s', rest'⟩, he⟩
    have hsees := (chosen_declaration hd).lookahead
    rw [(chosen_expressionStatement he hf).lookahead] at hsees
    cases hsees
  obtain ⟨e, hfaces⟩ := Memory.faces_ahead hend
  have hd : m.parser.depth + (limit - m.parser.depth) = limit := by omega
  obtain ⟨hdeclaration, hexpression⟩ := implements_simple hfuel (Nat.sub_le limit m.parser.depth)
  refine ⟨fun s m' => chosenAt_declaration hdeclaration hfaces hd, fun hf =>
    ⟨fun s m' => chosenAt_expressionStatement hexpression hfaces hd hf, ?_⟩⟩
  rintro ⟨⟨s, m₁, h⟩, s', m₂, h'⟩
  have hsees := (chosenAt_declaration hdeclaration hfaces hd h).lookahead
  rw [(chosenAt_expressionStatement hexpression hfaces hd hf h').lookahead] at hsees
  cases hsees

/-- In `x[] y; x[y];` a declaration can be read at the beginning, and an expression behind it. -/
theorem lookahead_loses_no_parse_brackets :
    let token (k : Kind) (column : Nat) : Token := ⟨k, 0, 1, 1, column, ⟨[], []⟩, none⟩
    let x := token .identifier 1
    let y := token .identifier 4
    let x' := token .identifier 6
    let y' := token .identifier 8
    let code' := [x', token .leftBracket 7, y', token .rightBracket 9, token .semicolon 10]
    let code := [x, token .leftBracket 2, token .rightBracket 3, y, token .semicolon 5] ++ code'
    let array : Stmt Token := .declare ((TypeExpr.named x false).arrays 1 false) y
    let index : Stmt Token := .expr (.index (.variable x' false) (.variable y' false))
    let loaded := start "a.sn" (code ++ [token .eof 11])
    let m : Memory := { loaded with parser := { loaded.parser with depth := 1 } }
    let m' : Memory := { m with parser := { m.parser with current := 5 } }
    (declaration (expression 2) (typeExpr 2 false) code = .ok (array, code') ∧
      Chosen 2 code true array code') ∧
    (Stops (· == .funWord) code' ∧ expressionStatement (expression 2) code' = .ok (index, []) ∧
      Chosen 2 code' false index []) ∧
    (m.parser.depth ≤ 3 ∧ (∃ e ∈ m.tokens.drop m.parser.current, e.kind = .eof) ∧
      ∃ after, (methods 3 (enough 3)).declaration m = (.value array, after) ∧
        ChosenAt 3 (enough 3) m true array after) ∧
    (m'.parser.depth ≤ 3 ∧ (∃ e ∈ m'.tokens.drop m'.parser.current, e.kind = .eof) ∧
      m'.peek.kind ≠ .funWord ∧
      ∃ after, (methods 3 (enough 3)).expressionStatement m' = (.value index, after) ∧
        ChosenAt 3 (enough 3) m' false index after) := by
  intro token x y x' y' code' code array index loaded m m'
  obtain ⟨hparsers, hmethods⟩ := lookahead_loses_no_parse
  have hdeclared : declaration (expression 2) (typeExpr 2 false) code = .ok (array, code') := by
    with_unfolding_all rfl
  have hstops : Stops (· == .funWord) code' := stops_cons.2 rfl
  have hindexed : expressionStatement (expression 2) code' = .ok (index, []) := by
    with_unfolding_all rfl
  have himplements : Implements 3 2 (methods 3 (enough 3)).declaration
        (declaration (expression 2) (typeExpr 2 false)) ∧
      Implements 3 2 (methods 3 (enough 3)).expressionStatement
        (expressionStatement (expression 2)) := implements_simple (Nat.le_refl _) (by decide)
  have hfaces : m.Faces code (token .eof 11) := ⟨by decide, ⟨[], [], rfl, rfl⟩, by decide, rfl⟩
  have hfaces' : m'.Faces code' (token .eof 11) :=
    ⟨by decide, ⟨code.take 5, [], rfl, rfl⟩, by decide, rfl⟩
  have hend : ∃ e ∈ m.tokens.drop m.parser.current, e.kind = .eof := by decide
  have hend' : ∃ e ∈ m'.tokens.drop m'.parser.current, e.kind = .eof := by decide
  have hdoes := himplements.1 code m _ hfaces rfl
  have hdoes' := himplements.2 code' m' _ hfaces' rfl
  rw [hdeclared] at hdoes
  rw [hindexed] at hdoes'
  obtain ⟨after, hread, -, -⟩ := hdoes
  obtain ⟨after', hread', -, -⟩ := hdoes'
  refine ⟨⟨hdeclared, (hparsers 2 code).1 _ _ hdeclared⟩,
    ⟨hstops, hindexed, ((hparsers 2 code').2 hstops).1 _ _ hindexed⟩,
    ⟨by decide, hend, after, hread, ?_⟩, ⟨by decide, hend', by decide, after', hread', ?_⟩⟩
  · exact (hmethods 3 (enough 3) m (Nat.le_refl _) (by decide) hend).1 _ _ hread
  · exact ((hmethods 3 (enough 3) m' (Nat.le_refl _) (by decide) hend').2 (by decide)).1 _ _ hread'

end Instances

end Seanet
