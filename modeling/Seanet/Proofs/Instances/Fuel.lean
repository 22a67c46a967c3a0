import Seanet.Proofs.Instances.Implementation

set_option autoImplicit false

namespace Seanet

namespace Instances

open Machine Seanet.Parser

variable {limit n : Nat}

/-- What holds of the methods whenever at least so many calls are left. -/
def Eventually (limit calls : Nat) (P : Methods → Prop) : Prop :=
  ∀ fuel, calls ≤ fuel → P (methods limit fuel)

namespace Eventually

variable {c d : Nat} {P Q : Methods → Prop}

theorem mono (h : Eventually limit c P) (hc : c ≤ d) : Eventually limit d P :=
  fun fuel hf => h fuel (Nat.le_trans hc hf)

theorem and (h : Eventually limit c P) (h' : Eventually limit c Q) :
    Eventually limit c fun self => P self ∧ Q self :=
  fun fuel hf => ⟨h fuel hf, h' fuel hf⟩

theorem imp (h : Eventually limit c P) (hq : ∀ self, P self → Q self) : Eventually limit c Q :=
  fun fuel hf => hq _ (h fuel hf)

theorem next (h : Eventually limit c P) (hn : ∀ self, P self → Q (self.next limit)) :
    Eventually limit (c + 1) Q := by
  intro fuel hf
  cases fuel with
  | zero => omega
  | succ fuel => exact hn _ (h fuel (by omega))

theorem first (hn : ∀ self : Methods, Q (self.next limit)) : Eventually limit 1 Q :=
  next (c := 0) (P := fun _ => True) (fun _ _ => trivial) fun self _ => hn self

end Eventually

structure TypeMethods (limit n : Nat) (parser : Methods) : Prop where
  functionType : Implements limit n parser.functionType (functionType n)
  type (allowVoid : Bool) : Implements limit n (parser.type allowVoid) (typeExpr n allowVoid)
  namedType : Implements limit n parser.namedType
    ((fun name => .named name false) <$> require isTypeName .typeName)

theorem typeMethods_of_functionType {c : Nat}
    (h : Eventually limit (c + 1) fun self =>
      Implements limit n self.functionType (functionType n)) :
    Eventually limit (c + 2) (TypeMethods limit n) := by
  have hleaf : Eventually limit 1 fun self =>
      Implements limit n self.typeName (require isTypeName .typeName) ∧
        Implements limit n self.arraySuffix arraySuffix :=
    .first fun _ => ⟨implements_typeName, implements_arraySuffix⟩
  have htype : Eventually limit (c + 2) fun self =>
      (∀ allowVoid, Implements limit n (self.type allowVoid) (typeExpr n allowVoid)) ∧
        Implements limit n self.namedType
          ((fun name => .named name false) <$> require isTypeName .typeName) := by
    refine (h.and (hleaf.mono (by omega))).next fun self hs => ⟨fun allowVoid => ?_, ?_⟩
    · rw [Grammar.typeExpr_eq]
      exact implements_type hs.1 hs.2.1 hs.2.2 allowVoid
    · exact implements_namedType hs.2.1
  exact ((h.mono (by omega)).and htype).imp fun _ hs => ⟨hs.1, hs.2.1, hs.2.2⟩

theorem typeMethods (limit n : Nat) : Eventually limit (2 * n + 2) (TypeMethods limit n) := by
  induction n with
  | zero =>
    refine typeMethods_of_functionType (.first fun self => ?_)
    exact implements_functionType (implements_nested_zero _) fun _ => tracks_tooDeep
  | succ n ih =>
    refine typeMethods_of_functionType (ih.next fun self hs => ?_)
    exact implements_functionType (hs.type true).nested fun _ => tracks_typeExpr n true

structure ExprMethods (limit n : Nat) (parser : Methods) : Prop where
  types : TypeMethods limit n parser
  expression : Implements limit n parser.expression (expression n)
  unary : Implements limit n parser.unary (layer n).unary

theorem functionType_ok {ts rest : List Token} {f : TypeExpr Token}
    (h : functionType n ts = .ok (f, rest)) :
    ∃ parameters result, f = .function parameters result := by
  obtain ⟨us, -, hf, -⟩ := Grammar.functionType_sound n h
  cases n <;> cases hf <;> exact ⟨_, _, rfl⟩

theorem eventually_suffixed {c : Nat} (h : Eventually limit c fun self =>
      TypeMethods limit n self ∧ Implements limit n self.expression (expression n)) :
    Eventually limit (c + 3) fun self =>
      Implements limit n self.suffixed (postfixOver (expression n) (functionType n)) := by
  have hparts : Eventually limit (c + 1) fun self =>
      Implements limit n self.argument (argumentOver (expression n)) ∧
        Implements limit n self.newObject (newOver (expression n) (functionType n)) := by
    refine h.next fun self ⟨ht, he⟩ => ⟨implements_argument he, ?_⟩
    exact implements_newObject he (implements_newElement ht.functionType ht.namedType)
      (fun _ _ _ => functionType_ok) (Grammar.newSize_sound (Grammar.expression_sound n))
  have hheads : Eventually limit (c + 2) fun self =>
      (∀ callee, Implements limit n (self.call callee) (callOver (expression n) callee)) ∧
        Implements limit n self.primary (primaryOver (expression n) (functionType n)) := by
    refine ((h.mono (by omega)).and hparts).next fun self ⟨⟨ht, he⟩, ha, hnew⟩ => ⟨?_, ?_⟩
    · exact implements_call ha fun _ => tracks_expression n
    · exact implements_primary he ht.functionType hnew
  refine ((h.mono (by omega)).and hheads).next fun self ⟨⟨_, he⟩, hc, hp⟩ => ?_
  exact implements_suffixed hp hc he fun _ => tracks_expression n

/-- The levels of operators are ten calls, and the operand is one more. -/
theorem eventually_binary {c : Nat} {operand : Parser Token (Expr Token)}
    (hu : Eventually limit c fun self => Implements limit n self.unary operand)
    (ht : ∀ origin, Tracks origin operand) {i k : Nat} (hk : i + k = BinaryLevel.all.length) :
    Eventually limit (c + k + 1) fun self =>
      Implements limit n (self.binary i) (binaryOver operand (BinaryLevel.all.drop i)) := by
  induction k generalizing i with
  | zero =>
    obtain rfl : i = BinaryLevel.all.length := hk
    exact hu.next fun self hs => implements_binary_last hs
  | succ k ih =>
    have hb := ih (i := i + 1) (by omega)
    exact hb.next fun self hs => implements_binary (by omega) hs ht

theorem exprMethods_of_expression {c : Nat} {operand : Parser Token (Expr Token)}
    (ht : Eventually limit c (TypeMethods limit n))
    (he : Eventually limit c fun self => Implements limit n self.expression (expression n))
    (ho : Eventually limit c fun self => Implements limit n (nested limit self.unary) operand)
    (hu : (layer n).unary = unaryOver operand (expression n) (functionType n)) :
    Eventually limit (c + 4) (ExprMethods limit n) := by
  have hunary : Eventually limit (c + 4) fun self =>
      Implements limit n self.unary (layer n).unary := by
    refine ((eventually_suffixed (ht.and he)).and (ho.mono (by omega))).next fun self hs => ?_
    rw [hu]
    exact implements_unary hs.1 hs.2
  exact (((ht.and he).mono (by omega)).and hunary).imp fun _ hs => ⟨hs.1.1, hs.1.2, hs.2⟩

theorem exprMethods (limit n : Nat) : Eventually limit (32 * (n + 1)) (ExprMethods limit n) := by
  induction n with
  | zero =>
    have ht := (typeMethods limit 0).mono (d := 2) (by omega)
    have he : Eventually limit 2 fun self =>
        Implements limit 0 self.expression (expression 0) :=
      (Eventually.first fun self => implements_nested_zero _).mono (by omega)
    have ho : Eventually limit 2 fun self =>
        Implements limit 0 (nested limit self.unary) tooDeep :=
      fun _ _ => implements_nested_zero _
    exact (exprMethods_of_expression ht he ho rfl).mono (by omega)
  | succ n ih =>
    have hbinary := eventually_binary (ih.imp fun _ hs => hs.unary)
      (fun _ => (tracks_layer n).2) (i := 0) (k := 10) rfl
    have hassign : Eventually limit (32 * (n + 1) + 12) fun self =>
        Implements limit n self.assignment (expression (n + 1)) :=
      (hbinary.and (ih.mono (by omega))).next fun self hs =>
        implements_assignment hs.1 hs.2.expression
    have he : Eventually limit (32 * (n + 1) + 13) fun self =>
        Implements limit (n + 1) self.expression (expression (n + 1)) :=
      hassign.next fun self hs => hs.nested
    have ho : Eventually limit (32 * (n + 1) + 13) fun self =>
        Implements limit (n + 1) (nested limit self.unary) (layer n).unary :=
      (ih.mono (by omega)).imp fun _ hs => hs.unary.nested
    have ht := (typeMethods limit (n + 1)).mono (d := 32 * (n + 1) + 13) (by omega)
    exact (exprMethods_of_expression ht he ho rfl).mono (by omega)

structure StmtMethods (limit n : Nat) (parser : Methods) : Prop where
  exprs : ExprMethods limit n parser
  block : Implements limit n parser.block (block n)
  conditional (t : Token) (ts : List Token) (h : t.kind = .ifWord) :
    ImplementsAt limit n parser.conditional (stmtLayer n).conditional (t :: ts)

def statement (n : Nat) : Parser Token (Stmt Token) :=
  statementOver (expression n) (typeExpr n false) (block n) (stmtLayer n).conditional

theorem statement_sound (n : Nat) :
    Grammar.Sound (statement n) fun s us _ => Grammar.IsStatement n s us ∧ us ≠ [] := by
  intro ts rest s h
  obtain ⟨us, hu, hs⟩ := Grammar.statementOver_sound (Grammar.expression_sound n)
    (Grammar.typeExpr_sound n false) (Grammar.stmtLayer_sound n).1 (Grammar.stmtLayer_sound n).2 h
  exact ⟨us, hu, hs, Grammar.IsStatement.ne_nil hs⟩

theorem eventually_statement {c : Nat} (h : Eventually limit c (StmtMethods limit n)) :
    Eventually limit (c + 3) fun self => Implements limit n self.statement (statement n) := by
  have hsimple : Eventually limit (c + 1) fun self =>
      ImplementsAfter limit n self.varDeclaration (varDeclaration (expression n)) ∧
        Implements limit n self.declaration (declaration (expression n) (typeExpr n false)) ∧
        Implements limit n self.expressionStatement (expressionStatement (expression n)) ∧
        (∀ keyword, Implements limit n (self.condition keyword)
          (condition (expression n) keyword)) ∧
        ImplementsAfter limit n self.returnStatement (returnOver (expression n)) := by
    refine h.next fun self hs => ?_
    have he := hs.exprs.expression
    exact ⟨implementsAfter_varDeclaration he,
      implements_declaration he (hs.exprs.types.type false), implements_expressionStatement he,
      implements_condition he, implementsAfter_returnStatement he⟩
  have hloops : Eventually limit (c + 2) fun self =>
      ImplementsAfter limit n self.whileLoop (fun _ => whileOver (expression n) (block n)) ∧
        ImplementsAfter limit n self.forLoop
          (fun _ => forOver (expression n) (typeExpr n false) (block n)) := by
    refine ((h.mono (by omega)).and hsimple).next fun self ⟨hs, hv, hd, he, hc, _⟩ => ⟨?_, ?_⟩
    · exact implementsAfter_whileLoop hc hs.block
    · exact implementsAfter_forLoop hs.exprs.expression (implements_simpleStatement hv hd he)
        hs.block
  refine (((h.mono (by omega)).and (hsimple.mono (by omega))).and hloops).next
    fun self ⟨⟨hs, hv, hd, he, _, hr⟩, hw, hf⟩ => ?_
  exact implements_statement hv hd he hs.block hs.conditional hw hf hr

theorem stmtMethods_of_block {c : Nat} {other : Parser Token (Stmt Token)}
    (he : Eventually limit c (ExprMethods limit n))
    (hb : Eventually limit c fun self => Implements limit n self.block (block n))
    (ho : Eventually limit c fun self => ∀ t ts, t.kind = .ifWord →
      ImplementsAt limit n (nested limit self.conditional) other (t :: ts))
    (hother : (stmtLayer n).conditional = ifWith (expression n) (block n) other) :
    Eventually limit (c + 2) (StmtMethods limit n) := by
  have hcondition : Eventually limit (c + 1) fun self => ∀ keyword,
      Implements limit n (self.condition keyword) (condition (expression n) keyword) :=
    he.next fun self hs => implements_condition hs.expression
  have hconditional : Eventually limit (c + 2) fun self => ∀ t ts, t.kind = .ifWord →
      ImplementsAt limit n self.conditional (stmtLayer n).conditional (t :: ts) := by
    refine (hcondition.and ((hb.and ho).mono (by omega))).next fun self hs t ts ht => ?_
    refine (implementsAfter_conditional hs.1 hs.2.1 hs.2.2 t ts).congr ?_
    rw [hother, ifWith, bind_of_ok (accept_cons (by simp [ht]))]
  exact (((he.and hb).mono (by omega)).and hconditional).imp fun _ hs =>
    ⟨hs.1.1, hs.1.2, hs.2⟩

theorem stmtMethods (limit n : Nat) :
    Eventually limit (32 * (n + 1) + 8) (StmtMethods limit n) := by
  induction n with
  | zero =>
    have he := (exprMethods limit 0).mono (d := 33) (by omega)
    have hb : Eventually limit 33 fun self => Implements limit 0 self.block (block 0) :=
      (Eventually.first fun self => implements_nested_zero _).mono (by omega)
    have ho : Eventually limit 33 fun self => ∀ t ts, t.kind = .ifWord →
        ImplementsAt limit 0 (nested limit self.conditional) tooDeep (t :: ts) :=
      fun _ _ t ts _ => implements_nested_zero _ (t :: ts)
    exact (stmtMethods_of_block he hb ho rfl).mono (by omega)
  | succ n ih =>
    have hbraced : Eventually limit (32 * (n + 1) + 12) fun self =>
        Implements limit n self.braced (block (n + 1)) :=
      (eventually_statement ih).next fun self hs => implements_braced hs (statement_sound n)
    have hb : Eventually limit (32 * (n + 2)) fun self =>
        Implements limit (n + 1) self.block (block (n + 1)) :=
      (hbraced.next fun self hs => hs.nested).mono (by omega)
    have ho : Eventually limit (32 * (n + 2)) fun self => ∀ t ts, t.kind = .ifWord →
        ImplementsAt limit (n + 1) (nested limit self.conditional)
          (stmtLayer n).conditional (t :: ts) :=
      (ih.mono (by omega)).imp fun _ hs t ts ht => (hs.conditional t ts ht).nested
    exact (stmtMethods_of_block (exprMethods limit (n + 1)) hb ho rfl).mono (by omega)

theorem eventually_program (limit n : Nat) :
    Eventually limit (32 * (n + 2)) fun self => Implements limit n self.program (program n) := by
  have hdeclarations : Eventually limit (32 * (n + 1) + 9) fun self =>
      ImplementsAfter limit n self.structDeclaration
          (fun _ => structDeclaration (typeExpr n false)) ∧
        Implements limit n self.functionDeclaration (functionDeclaration n) :=
    (stmtMethods limit n).next fun self hs =>
      ⟨implementsAfter_structDeclaration (hs.exprs.types.type false),
        implements_functionDeclaration hs.exprs.types.type hs.block⟩
  exact (hdeclarations.next fun self hs => implements_program hs.1 hs.2).mono (by omega)

end Instances

end Seanet
