import Seanet.Proofs.Text.Characters
import Seanet.Tree.Printer

set_option autoImplicit false

namespace Seanet

open Text (append_wellFormed wellFormed_ofString)

theorem wellFormed_listing {parts : List Text} (h : ∀ p ∈ parts, p.WellFormed = true) :
    (listing parts).WellFormed = true := by
  have hjoin : (Text.join " " parts).WellFormed = true :=
    Text.join_induction (P := fun t => t.WellFormed = true) rfl (fun _ _ => append_wellFormed)
      (wellFormed_ofString " ") h
  exact append_wellFormed (append_wellFormed (wellFormed_ofString "(") hjoin)
    (wellFormed_ofString ")")

theorem wellFormed_node (head : String) {parts : List Text}
    (h : ∀ p ∈ parts, p.WellFormed = true) :
    (listing ((head : Text) :: parts)).WellFormed = true :=
  wellFormed_listing (List.forall_mem_cons.2 ⟨wellFormed_ofString head, h⟩)

namespace Printer

variable {τ : Type} {spell : τ → Text}

mutual

theorem wellFormed_typeExpr (hs : ∀ t, (spell t).WellFormed = true) :
    ∀ t : TypeExpr τ, (typeExpr spell t).WellFormed = true
  | .named name isRef => by
    cases isRef with
    | false => exact hs name
    | true => exact wellFormed_node "ref" (by simp [hs])
  | .array element isRef => by
    have harray : (listing ["array", typeExpr spell element]).WellFormed = true :=
      wellFormed_node "array" (by simp [wellFormed_typeExpr hs element])
    cases isRef with
    | false => exact harray
    | true => exact wellFormed_node "ref" (by simp [harray])
  | .function parameters result => by
    have hparameters := wellFormed_listing (wellFormed_typeExprs hs parameters)
    exact wellFormed_node "fun" (by simp [hparameters, wellFormed_typeExpr hs result])

theorem wellFormed_typeExprs (hs : ∀ t, (spell t).WellFormed = true) :
    ∀ ts : List (TypeExpr τ), ∀ p ∈ typeExprs spell ts, p.WellFormed = true
  | [] => by simp [typeExprs]
  | t :: ts => List.forall_mem_cons.2 ⟨wellFormed_typeExpr hs t, wellFormed_typeExprs hs ts⟩

end

mutual

theorem wellFormed_expr (hs : ∀ t, (spell t).WellFormed = true) :
    ∀ e : Expr τ, (expr spell e).WellFormed = true
  | .literal value => hs value
  | .grouped inner => wellFormed_node "group" (by simp [wellFormed_expr hs inner])
  | .unary _ operand => wellFormed_listing (by simp [hs, wellFormed_expr hs operand])
  | .binary _ left right | .logical _ left right =>
    wellFormed_listing (by simp [hs, wellFormed_expr hs left, wellFormed_expr hs right])
  | .assign _ _ value => wellFormed_listing (by simp [hs, wellFormed_expr hs value])
  | .assignProperty object property _ value => by
    have hproperty : (listing [".", expr spell object, spell property]).WellFormed = true :=
      wellFormed_node "." (by simp [hs, wellFormed_expr hs object])
    exact wellFormed_listing (by simp [hs, hproperty, wellFormed_expr hs value])
  | .call callee arguments _ => wellFormed_node "call"
      (List.forall_mem_cons.2 ⟨wellFormed_expr hs callee, wellFormed_exprs hs arguments⟩)
  | .property object _ => wellFormed_node "." (by simp [hs, wellFormed_expr hs object])
  | .variable name isRef => by
    cases isRef with
    | false => exact hs name
    | true => exact wellFormed_node "ref" (by simp [hs])
  | .increment _ _ => wellFormed_node "postfix++" (by simp [hs])
  | .decrement _ _ => wellFormed_node "postfix--" (by simp [hs])
  | .index array position =>
    wellFormed_node "index" (by simp [wellFormed_expr hs array, wellFormed_expr hs position])
  | .newArray type sizes => wellFormed_node "new"
      (List.forall_mem_cons.2 ⟨wellFormed_typeExpr hs type, wellFormed_exprs hs sizes⟩)
  | .newStruct type => wellFormed_node "new" (by simp [wellFormed_typeExpr hs type])
  | .functionType type => wellFormed_typeExpr hs type

theorem wellFormed_exprs (hs : ∀ t, (spell t).WellFormed = true) :
    ∀ es : List (Expr τ), ∀ p ∈ exprs spell es, p.WellFormed = true
  | [] => by simp [exprs]
  | e :: es => List.forall_mem_cons.2 ⟨wellFormed_expr hs e, wellFormed_exprs hs es⟩

end

mutual

theorem wellFormed_stmt (hs : ∀ t, (spell t).WellFormed = true) :
    ∀ s : Stmt τ, (stmt spell s).WellFormed = true
  | .block statements => wellFormed_node "block" (wellFormed_stmts hs statements)
  | .expr value => wellFormed_node "expr" (by simp [wellFormed_expr hs value])
  | .declare type _ => wellFormed_node "declare" (by simp [hs, wellFormed_typeExpr hs type])
  | .define type _ initializer => wellFormed_node "declare"
      (by simp [hs, wellFormed_typeExpr hs type, wellFormed_expr hs initializer])
  | .ifThen condition body => by
    have hbody := wellFormed_node "block" (wellFormed_stmts hs body)
    exact wellFormed_node "if" (by simp [wellFormed_expr hs condition, hbody])
  | .ifElse condition body other => by
    have hbody := wellFormed_node "block" (wellFormed_stmts hs body)
    exact wellFormed_node "if"
      (by simp [wellFormed_expr hs condition, hbody, wellFormed_stmt hs other])
  | .whileLoop condition body => by
    have hbody := wellFormed_node "block" (wellFormed_stmts hs body)
    exact wellFormed_node "while" (by simp [wellFormed_expr hs condition, hbody])
  | .returnValue _ value => wellFormed_node "return" (by simp [wellFormed_expr hs value])
  | .returnVoid _ => wellFormed_node "return" (by simp)

theorem wellFormed_stmts (hs : ∀ t, (spell t).WellFormed = true) :
    ∀ ss : List (Stmt τ), ∀ p ∈ stmts spell ss, p.WellFormed = true
  | [] => by simp [stmts]
  | s :: ss => List.forall_mem_cons.2 ⟨wellFormed_stmt hs s, wellFormed_stmts hs ss⟩

end

theorem wellFormed_fields (hs : ∀ t, (spell t).WellFormed = true) (fs : List (Field τ)) :
    (listing (fs.map (field spell))).WellFormed = true := by
  refine wellFormed_listing (List.forall_mem_map.2 fun f _ => ?_)
  exact wellFormed_listing (by simp [hs, wellFormed_typeExpr hs f.type])

theorem wellFormed_program (hs : ∀ t, (spell t).WellFormed = true) (p : Program τ) :
    (program spell p).WellFormed = true := by
  refine wellFormed_node "program" (List.forall_mem_map.2 fun d _ => ?_)
  cases d with
  | struct _ fields => exact wellFormed_node "struct" (by simp [hs, wellFormed_fields hs fields])
  | function result _ parameters body =>
    have hbody := wellFormed_node "block" (wellFormed_stmts hs body)
    exact wellFormed_node "function" (by
      simp [hs, wellFormed_typeExpr hs result, wellFormed_fields hs parameters, hbody])

end Printer

end Seanet
