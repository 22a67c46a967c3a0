import Seanet.Proofs.Lexical.Units
import Seanet.Proofs.Tree.Listings

set_option autoImplicit false

namespace Seanet

/-- A kind and a text. -/
structure Word where
  kind : Kind
  text : Text
  deriving DecidableEq, Repr

/-- A token without its place. One that is not written is the same word as a written one. -/
def Token.word (t : Token) : Word :=
  match t.length, t.kind with
  | 0, .trueWord => ⟨.trueWord, "true"⟩
  | 0, .void => ⟨.void, "void"⟩
  | _, kind => ⟨kind, t.lexeme⟩

theorem Token.word_of_pos {t : Token} (h : 0 < t.length) : t.word = ⟨t.kind, t.lexeme⟩ := by
  obtain ⟨n, hn⟩ : ∃ n, t.length = n + 1 := ⟨t.length - 1, by omega⟩
  simp only [word, hn]

theorem Token.word_kind (t : Token) : t.word.kind = t.kind := by
  unfold word
  split
  · next h => exact h.symm
  · next h => exact h.symm
  · rfl

theorem Token.word_text (t : Token) : t.word.text = t.spelling := by
  unfold word spelling
  split
  · next hl hk => simp [hl, hk]
  · next hl hk => simp [hl, hk]
  · next hl hk hk' =>
    split
    · rfl
    · next hpos =>
      have hzero : t.length = 0 := by omega
      have hlexeme : t.lexeme = [] := by simp [lexeme, Text.slice, hzero]
      split
      · next hkind => exact (hk hzero hkind).elim
      · next hkind => exact (hk' hzero hkind).elim
      · exact hlexeme

section

variable {α β : Type} (f : α → β)

mutual

def TypeExpr.map : TypeExpr α → TypeExpr β
  | .named name isRef => .named (f name) isRef
  | .array element isRef => .array element.map isRef
  | .function parameters result => .function (mapList parameters) result.map

def TypeExpr.mapList : List (TypeExpr α) → List (TypeExpr β)
  | [] => []
  | t :: rest => t.map :: mapList rest

end

mutual

def Expr.map : Expr α → Expr β
  | .literal value => .literal (f value)
  | .grouped inner => .grouped inner.map
  | .unary operator operand => .unary (f operator) operand.map
  | .binary operator left right => .binary (f operator) left.map right.map
  | .logical operator left right => .logical (f operator) left.map right.map
  | .assign name operator value => .assign (f name) (f operator) value.map
  | .assignProperty object name operator value =>
    .assignProperty object.map (f name) (f operator) value.map
  | .call callee arguments paren => .call callee.map (mapList arguments) (f paren)
  | .property object name => .property object.map (f name)
  | .variable name isRef => .variable (f name) isRef
  | .increment name operator => .increment (f name) (f operator)
  | .decrement name operator => .decrement (f name) (f operator)
  | .index array position => .index array.map position.map
  | .newArray type sizes => .newArray (type.map f) (mapList sizes)
  | .newStruct type => .newStruct (type.map f)
  | .functionType type => .functionType (type.map f)

def Expr.mapList : List (Expr α) → List (Expr β)
  | [] => []
  | e :: rest => e.map :: mapList rest

end

def Field.map (field : Field α) : Field β := ⟨field.type.map f, f field.name⟩

mutual

def Stmt.map : Stmt α → Stmt β
  | .block statements => .block (mapList statements)
  | .expr value => .expr (value.map f)
  | .declare type name => .declare (type.map f) (f name)
  | .define type name initializer => .define (type.map f) (f name) (initializer.map f)
  | .ifThen condition body => .ifThen (condition.map f) (mapList body)
  | .ifElse condition body other => .ifElse (condition.map f) (mapList body) other.map
  | .whileLoop condition body => .whileLoop (condition.map f) (mapList body)
  | .returnValue keyword value => .returnValue (f keyword) (value.map f)
  | .returnVoid keyword => .returnVoid (f keyword)

def Stmt.mapList : List (Stmt α) → List (Stmt β)
  | [] => []
  | s :: rest => s.map :: mapList rest

end

def Declaration.map : Declaration α → Declaration β
  | .struct name fields => .struct (f name) (fields.map (Field.map f))
  | .function result name parameters body =>
    .function (result.map f) (f name) (parameters.map (Field.map f)) (Stmt.mapList f body)

def Program.map (p : Program α) : Program β := ⟨p.declarations.map (Declaration.map f)⟩

theorem TypeExpr.mapList_eq (ts : List (TypeExpr α)) : mapList f ts = ts.map (TypeExpr.map f) := by
  induction ts with
  | nil => rfl
  | cons t ts ih => rw [mapList, ih, List.map_cons]

theorem Expr.mapList_eq (es : List (Expr α)) : mapList f es = es.map (Expr.map f) := by
  induction es with
  | nil => rfl
  | cons e es ih => rw [mapList, ih, List.map_cons]

theorem Stmt.mapList_eq (ss : List (Stmt α)) : mapList f ss = ss.map (Stmt.map f) := by
  induction ss with
  | nil => rfl
  | cons s ss ih => rw [mapList, ih, List.map_cons]

end

namespace Printer

variable {α β : Type} (f : α → β) (spell : β → Text)

mutual

theorem typeExpr_map : ∀ t : TypeExpr α,
    typeExpr spell (t.map f) = typeExpr (fun a => spell (f a)) t
  | .named _ _ => rfl
  | .array element _ => by simp only [TypeExpr.map, typeExpr, typeExpr_map element]
  | .function parameters result => by
    simp only [TypeExpr.map, typeExpr, typeExprs_map parameters, typeExpr_map result]

theorem typeExprs_map : ∀ ts : List (TypeExpr α),
    typeExprs spell (TypeExpr.mapList f ts) = typeExprs (fun a => spell (f a)) ts
  | [] => rfl
  | t :: ts => by simp only [TypeExpr.mapList, typeExprs, typeExpr_map t, typeExprs_map ts]

end

mutual

theorem expr_map : ∀ e : Expr α, expr spell (e.map f) = expr (fun a => spell (f a)) e
  | .literal _ => rfl
  | .grouped inner => by simp only [Expr.map, expr, expr_map inner]
  | .unary _ operand => by simp only [Expr.map, expr, expr_map operand]
  | .binary _ left right => by simp only [Expr.map, expr, expr_map left, expr_map right]
  | .logical _ left right => by simp only [Expr.map, expr, expr_map left, expr_map right]
  | .assign _ _ value => by simp only [Expr.map, expr, expr_map value]
  | .assignProperty object _ _ value => by
    simp only [Expr.map, expr, expr_map object, expr_map value]
  | .call callee arguments _ => by
    simp only [Expr.map, expr, expr_map callee, exprs_map arguments]
  | .property object _ => by simp only [Expr.map, expr, expr_map object]
  | .variable _ _ => rfl
  | .increment _ _ => rfl
  | .decrement _ _ => rfl
  | .index array position => by simp only [Expr.map, expr, expr_map array, expr_map position]
  | .newArray _ sizes => by simp only [Expr.map, expr, typeExpr_map, exprs_map sizes]
  | .newStruct _ => by simp only [Expr.map, expr, typeExpr_map]
  | .functionType _ => by simp only [Expr.map, expr, typeExpr_map]

theorem exprs_map : ∀ es : List (Expr α),
    exprs spell (Expr.mapList f es) = exprs (fun a => spell (f a)) es
  | [] => rfl
  | e :: es => by simp only [Expr.mapList, exprs, expr_map e, exprs_map es]

end

theorem fields_map (fs : List (Field α)) :
    (fs.map (Field.map f)).map (field spell) = fs.map (field fun a => spell (f a)) := by
  simp [Function.comp_def, field, Field.map, typeExpr_map]

mutual

theorem stmt_map : ∀ s : Stmt α, stmt spell (s.map f) = stmt (fun a => spell (f a)) s
  | .block statements => by simp only [Stmt.map, stmt, stmts_map statements]
  | .expr _ => by simp only [Stmt.map, stmt, expr_map]
  | .declare _ _ => by simp only [Stmt.map, stmt, typeExpr_map]
  | .define _ _ _ => by simp only [Stmt.map, stmt, typeExpr_map, expr_map]
  | .ifThen _ body => by simp only [Stmt.map, stmt, expr_map, stmts_map body]
  | .ifElse _ body other => by
    simp only [Stmt.map, stmt, expr_map, stmts_map body, stmt_map other]
  | .whileLoop _ body => by simp only [Stmt.map, stmt, expr_map, stmts_map body]
  | .returnValue _ _ => by simp only [Stmt.map, stmt, expr_map]
  | .returnVoid _ => rfl

theorem stmts_map : ∀ ss : List (Stmt α),
    stmts spell (Stmt.mapList f ss) = stmts (fun a => spell (f a)) ss
  | [] => rfl
  | s :: ss => by simp only [Stmt.mapList, stmts, stmt_map s, stmts_map ss]

end

theorem declaration_map (d : Declaration α) :
    declaration spell (d.map f) = declaration (fun a => spell (f a)) d := by
  cases d with
  | struct _ _ => simp only [Declaration.map, declaration, fields_map]
  | function _ _ _ _ =>
    simp only [Declaration.map, declaration, fields_map, typeExpr_map, stmts_map]

theorem program_map (p : Program α) :
    program spell (p.map f) = program (fun a => spell (f a)) p := by
  simp only [program, Program.map, List.map_map, Function.comp_def, declaration_map]

end Printer

namespace Lexical

theorem keywordTexts_inj : ∀ x ∈ Kind.keywordTexts, ∀ y ∈ Kind.keywordTexts,
    x.1 = y.1 → x = y := by decide

theorem Emits.unique {shape : Shape} {l : Text} {k k' : Kind} (h : Emits shape l k)
    (h' : Emits shape l k') : k = k' := by
  cases h with
  | mark _ _ | comment _ | string _ | integer _ _ _ | real _ _ =>
    cases h'
    rfl
  | keyword hk =>
    cases h' with
    | keyword hk' => exact congrArg Prod.snd (keywordTexts_inj _ hk _ hk' rfl)
    | identifier hn => exact absurd hk (hn k)
  | identifier hn =>
    cases h' with
    | keyword hk' => exact absurd hk' (hn k')
    | identifier _ => rfl

theorem delimiter_of_wordUnit {u : UInt16} (h : isWordUnit u = true) : isDelimiter u = false := by
  grind [isWordUnit, isAlpha, isDigit, isDelimiter, Text.unit]

theorem delimiter_of_numberUnit {u : UInt16} (h : isNumberUnit u = true) :
    isDelimiter u = false := by
  simp only [isNumberUnit, Bool.or_eq_true, beq_iff_eq] at h
  obtain ((h | rfl) | rfl) | rfl := h
  · exact delimiter_of_wordUnit h
  all_goals decide

theorem markTexts_atomic : ∀ x ∈ Kind.markTexts, x.2 ≠ .leftParen → x.2 ≠ .rightParen →
    ∀ u ∈ x.1, isDelimiter u = false := by
  have htable : ∀ x ∈ Kind.markTexts, x.2 ≠ .leftParen → x.2 ≠ .rightParen →
      x.1.all (fun u => !isDelimiter u) = true := by decide
  intro x hx hl hr u hu
  simpa using List.all_eq_true.1 (htable x hx hl hr) u hu

end Lexical

namespace Word

open Lexical

def IsLexeme (w : Word) : Prop := ∃ shape, Spells shape w.text ∧ Emits shape w.text w.kind

theorem IsLexeme.eq_of_text {w w' : Word} (h : w.IsLexeme) (h' : w'.IsLexeme)
    (ht : w.text = w'.text) : w = w' := by
  obtain ⟨shape, hs, he⟩ := h
  obtain ⟨shape', hs', he'⟩ := h'
  rw [← ht] at hs' he'
  obtain rfl := hs.unique hs'
  cases w
  cases w'
  simp only [Word.mk.injEq]
  exact ⟨he.unique he', ht⟩

def isApart (k : Kind) : Bool := k == .leftParen || k == .rightParen || k == .comment

theorem IsLexeme.atomic {w : Word} (h : w.IsLexeme) (hk : isApart w.kind = false) :
    Atomic w.text := by
  obtain ⟨shape, hs, he⟩ := h
  simp only [isApart, Bool.or_eq_false_iff, beq_eq_false_iff_ne] at hk
  generalize w.text = t at hs he
  cases hs with
  | mark hm =>
    cases he
    exact .plain (List.ne_nil_of_length_pos (markTexts_spec _ hm).1)
      (markTexts_atomic _ hm hk.1.1 hk.1.2)
  | lineComment _ =>
    generalize hc : w.kind = k at he hk
    cases he
    exact absurd rfl hk.2
  | blockComment _ =>
    generalize hc : w.kind = k at he hk
    cases he
    exact absurd rfl hk.2
  | string hs => exact .quoted hs
  | word hu hw =>
    refine .plain (by simp) ?_
    rw [List.forall_mem_cons]
    refine ⟨delimiter_of_wordUnit (by simp [isWordUnit, hu]), ?_⟩
    exact fun v hv => delimiter_of_wordUnit (hw v hv)
  | integer hb hs =>
    exact .plain (Spells.integer hb hs).ne_nil fun u hu =>
      delimiter_of_numberUnit (hb.units hs u hu)
  | real hb hs =>
    exact .plain (Spells.real hb hs).ne_nil fun u hu => delimiter_of_numberUnit (hb.units hs u hu)

def isOpen (k : Kind) : Bool := k == .comment || k == .identifier || k.isLiteral

def table : List (Text × Kind) := Kind.markTexts ++ Kind.keywordTexts

theorem IsLexeme.mem_table {w : Word} (h : w.IsLexeme) (hk : isOpen w.kind = false) :
    (w.text, w.kind) ∈ table := by
  obtain ⟨shape, hs, he⟩ := h
  generalize w.kind = k at hk he
  cases he with
  | mark _ _ =>
    cases hs with
    | mark hm => exact List.mem_append_left _ hm
  | comment _ | string _ | identifier _ => cases hk
  | keyword hm => exact List.mem_append_right _ hm
  | integer _ type _ => cases type <;> cases hk
  | real type _ => cases type <;> cases hk

theorem table_inj : ∀ x ∈ table, ∀ y ∈ table, x.2 = y.2 → x = y := by decide +kernel

/-- Marks and keywords have one text. -/
theorem IsLexeme.eq_of_kind {w w' : Word} (h : w.IsLexeme) (h' : w'.IsLexeme)
    (hk : w.kind = w'.kind) (ho : isOpen w.kind = false) : w = w' := by
  have heq := table_inj _ (h.mem_table ho) _ (h'.mem_table (hk ▸ ho)) hk
  cases w
  cases w'
  simp only [Prod.mk.injEq] at heq
  simp only [Word.mk.injEq]
  exact heq.symm

end Word

end Seanet
