set_option autoImplicit false

namespace Seanet

inductive TypeExpr (τ : Type) where
  | named (name : τ) (isRef : Bool)
  | array (element : TypeExpr τ) (isRef : Bool)
  | function (parameters : List (TypeExpr τ)) (result : TypeExpr τ)
  deriving Repr

namespace TypeExpr

variable {τ : Type}

/-- `element` inside so many array types; only the outermost one carries `isRef`. -/
def arrays (element : TypeExpr τ) (dimensions : Nat) (isRef : Bool) : TypeExpr τ :=
  match dimensions with
  | 0 => element
  | n + 1 => array (arrays element n false) isRef

end TypeExpr

inductive Expr (τ : Type) where
  | literal (value : τ)
  | grouped (inner : Expr τ)
  | unary (operator : τ) (operand : Expr τ)
  | binary (operator : τ) (left right : Expr τ)
  | logical (operator : τ) (left right : Expr τ)
  | assign (name operator : τ) (value : Expr τ)
  | assignProperty (object : Expr τ) (property operator : τ) (value : Expr τ)
  | call (callee : Expr τ) (arguments : List (Expr τ)) (paren : τ)
  | property (object : Expr τ) (name : τ)
  | variable (name : τ) (isRef : Bool)
  | increment (name operator : τ)
  | decrement (name operator : τ)
  | index (array position : Expr τ)
  | newArray (type : TypeExpr τ) (sizes : List (Expr τ))
  | newStruct (type : TypeExpr τ)
  | functionType (type : TypeExpr τ)
  deriving Repr

structure Field (τ : Type) where
  type : TypeExpr τ
  name : τ
  deriving Repr

inductive Stmt (τ : Type) where
  | block (statements : List (Stmt τ))
  | expr (value : Expr τ)
  | declare (type : TypeExpr τ) (name : τ)
  | define (type : TypeExpr τ) (name : τ) (initializer : Expr τ)
  | ifThen (condition : Expr τ) (body : List (Stmt τ))
  /-- `other` is a block, or another conditional after `else if`. -/
  | ifElse (condition : Expr τ) (body : List (Stmt τ)) (other : Stmt τ)
  | whileLoop (condition : Expr τ) (body : List (Stmt τ))
  | returnValue (keyword : τ) (value : Expr τ)
  | returnVoid (keyword : τ)
  deriving Repr

inductive Declaration (τ : Type) where
  | struct (name : τ) (fields : List (Field τ))
  | function (result : TypeExpr τ) (name : τ) (parameters : List (Field τ))
      (body : List (Stmt τ))
  deriving Repr

structure Program (τ : Type) where
  declarations : List (Declaration τ)
  deriving Repr

namespace Program

def empty {τ : Type} : Program τ := ⟨[]⟩

end Program

end Seanet
