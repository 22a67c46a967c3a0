import Seanet.Proofs.Instances.Cursor

set_option autoImplicit false

namespace Seanet

namespace Instances

open Machine Seanet.Parser

variable {limit n : Nat} {ts : List Token} {self : Methods}

theorem implements_typeName :
    Implements limit n Methods.typeNameBody (require isTypeName .typeName) :=
  implements_require rfl .typeName

theorem implements_namedType
    (hn : Implements limit n self.typeName (require isTypeName .typeName)) :
    Implements limit n self.namedTypeBody
      ((fun name => .named name false) <$> require isTypeName .typeName) :=
  hn.map _

theorem suffixStep_of_no_pair {ts : List Token}
    (h : ∀ l r mid, ts = l :: r :: mid → l.kind = .leftBracket → r.kind ≠ .rightBracket) (i : Nat) :
    Grammar.suffixStep i ts = .ok (none, ts) := by
  have hp : [Kind.leftBracket, .rightBracket].isPrefixOf (ts.map TokenView.kind) = false := by
    rw [Bool.eq_false_iff]
    intro hp
    obtain ⟨l, r, mid, rfl, hl, hr⟩ := Grammar.isPrefixOf_brackets_iff.1 hp
    exact h l r mid rfl hl hr
  rw [Grammar.suffixStep, bind_of_ok (show seesAll _ ts = .ok (false, ts) by rw [seesAll, hp])]
  rfl

theorem implements_arraySuffix : Implements limit n Methods.arraySuffixBody arraySuffix := by
  rw [Grammar.arraySuffix_eq]
  refine implements_loop (fun i ts => ?_) (fun i j ts rest h => ?_) 0
  · refine implementsAt_check rfl (fun hs => ?_) fun hs => ?_
    · obtain ⟨l, ts, rfl, hl⟩ := not_stops_iff.1 hs
      refine implementsAt_checkAt (d := 1) (by simp) (by decide) (fun hr => ?_) fun hr => ?_
      · cases ts with
        | nil => simp at hr
        | cons r ts =>
          have hr : r.kind = .rightBracket := by simpa using hr
          have hpair := Grammar.suffixStep_pair (by simpa using hl) hr i ts
          exact (implements_pure (some (i + 1)) ts).of_advance.of_advance.congr hpair
      · refine (implements_pure none (l :: ts)).congr (suffixStep_of_no_pair ?_ i)
        rintro l r mid ⟨⟩ - hk
        exact hr (by simp [hk])
    · exact (implements_pure none ts).congr (Grammar.suffixStep_of_stops hs i)
  · obtain ⟨ho, -⟩ | ⟨l, r, -, rfl, -, -⟩ := Grammar.suffixStep_ok h
    · cases ho
    · exact (Grammar.Reads.token l (.single r rest)).weight_lt (by simp)

theorem commaStep_snoc (entry : Parser Token (TypeExpr Token))
    (entries : List (TypeExpr Token) × TypeExpr Token) :
    Grammar.commaStep entry (fun items a => items ++ [a]) (entries.1 ++ [entries.2]) =
      Option.map (fun entries => entries.1 ++ [entries.2]) <$>
        Grammar.commaStep entry Grammar.addEntry entries := by
  change _ = Grammar.commaStep entry Grammar.addEntry entries >>= fun o => pure (o.map _)
  rw [Grammar.commaStep, Grammar.commaStep, bind_bind]
  congr 1
  funext o
  cases o with
  | none => rfl
  | some _ => rw [bind_bind]; rfl

theorem functionTypeOver_eq_separated (entry : Parser Token (TypeExpr Token)) :
    functionTypeOver entry = (do
      let keyword ← expect .funWord .funWord
      match ← accept (· == .less) with
      | none => return .function [] (.named keyword.unwrittenVoid false)
      | some _ =>
        let entries ← separated entry
        expectClosingAngle
        return .function entries.dropLast (entries.getLastD (.named keyword false))) := by
  have hloop (first : TypeExpr Token) :=
    iterate_map (g := fun entries => entries.1 ++ [entries.2]) (commaStep_snoc entry) ([], first)
  simp only [List.nil_append] at hloop
  simp only [Grammar.functionTypeOver_eq, Grammar.separated_eq, bind_bind, hloop, map_bind,
    List.dropLast_concat, List.getLastD_concat]
  congr 1
  funext keyword
  congr 1
  funext o
  cases o <;> rfl

theorem implements_functionType {entry : Parser Token (TypeExpr Token)}
    (he : Implements limit n (nested limit (self.type true)) entry)
    (ht : ∀ origin, Tracks origin entry) :
    Implements limit n (self.functionTypeBody limit) (functionTypeOver entry) := by
  rw [functionTypeOver_eq_separated]
  refine (implements_consume (by decide) _).bind fun keyword =>
    (implements_take rfl).bind fun o => ?_
  cases o with
  | none => exact implements_pure _
  | some _ =>
    exact (implements_commaLoop he ht).bind fun entries =>
      Implements.closingAngle (implements_pure _)

theorem implements_namedOrVoid
    (hn : Implements limit n self.typeName (require isTypeName .typeName)) (allowVoid : Bool) :
    Implements limit n (self.namedOrVoid allowVoid)
      (require (fun k => (allowVoid && k == .void) || isTypeName k) .typeName) := by
  intro ts
  refine implementsAt_check (by cases allowVoid <;> rfl) (fun hs => ?_) fun hs => ?_
  · obtain ⟨t, ts, rfl, ht⟩ := not_stops_iff.1 hs
    exact (implementsAfter_advance t ts).congr (require_cons _ (by rw [ht, Bool.true_or]))
  · refine (hn ts).congr ?_
    cases ts with
    | nil => rfl
    | cons t ts =>
      have ht : (allowVoid && t.kind == .void) = false := stops_cons.1 hs
      simp only [require, Token.kind_view, ht, Bool.false_or]

theorem implements_type {function : Parser Token (TypeExpr Token)}
    (hf : Implements limit n self.functionType function)
    (hn : Implements limit n self.typeName (require isTypeName .typeName))
    (hs : Implements limit n self.arraySuffix arraySuffix) (allowVoid : Bool) :
    Implements limit n (self.typeBody allowVoid) (typeOver function allowVoid) := by
  refine (implements_take rfl).bind fun ref => (implements_check rfl).ite ?_ ?_
  · cases ref with
    | some t => exact implements_fail _ (fun _ => rfl) fun _ _ _ => rfl
    | none => exact hf.bind fun type => hs.bind fun i => implements_pure _
  · refine (implements_namedOrVoid hn allowVoid).bind fun name => hs.bind fun i => ?_
    cases i <;> exact implements_pure _

section

variable {expression operand : Parser Token (Expr Token)} {function : Parser Token (TypeExpr Token)}

theorem operators_eof {level : BinaryLevel} (h : level ∈ BinaryLevel.all) :
    level.operators.contains .eof = false := by
  revert level
  decide

theorem implements_binary_last (hu : Implements limit n self.unary operand) :
    Implements limit n (self.binaryBody BinaryLevel.all.length)
      (binaryOver operand (BinaryLevel.all.drop BinaryLevel.all.length)) :=
  hu

theorem implements_binary {i : Nat} (hi : i < BinaryLevel.all.length)
    (hb : Implements limit n (self.binary (i + 1))
      (binaryOver operand (BinaryLevel.all.drop (i + 1))))
    (ht : ∀ origin, Tracks origin operand) :
    Implements limit n (self.binaryBody i) (binaryOver operand (BinaryLevel.all.drop i)) := by
  rw [Methods.binaryBody, List.getElem?_eq_getElem hi, List.drop_eq_getElem_cons hi,
    Grammar.binaryOver_cons]
  refine hb.bind fun first => implements_loop (fun left => ?_) ?_ first
  · refine (implements_take (operators_eof (List.getElem_mem hi))).bind fun o => ?_
    cases o with
    | none => exact implements_pure none
    | some operator => exact hb.bind fun right => implements_pure _
  · exact progresses_of_accept (fun _ => rfl) fun left operator origin =>
      (tracks_binaryOver (ht origin) _).bind fun right => tracks_pure _

theorem implements_assignment
    (hb : Implements limit n (self.binary 0) (binaryOver operand BinaryLevel.all))
    (he : Implements limit n self.expression expression) :
    Implements limit n self.assignmentBody (assignmentOver operand expression) := by
  refine hb.bind fun target => (implements_take rfl).bind fun o => ?_
  cases o with
  | none => exact implements_pure target
  | some operator =>
    refine he.bind fun value => ?_
    cases target with
    | «variable» _ _ | property _ _ => exact implements_pure _
    | _ => exact implements_fail _ (fun _ => rfl) fun _ _ _ => rfl

theorem implements_argument (he : Implements limit n self.expression expression) :
    Implements limit n self.argumentBody (argumentOver expression) := by
  refine (implements_take rfl).bind fun o => ?_
  cases o with
  | none => exact he
  | some _ => exact (implements_consume (by decide) _).bind fun name => implements_pure _

theorem implements_call (ha : Implements limit n self.argument (argumentOver expression))
    (ht : ∀ origin, Tracks origin expression) (callee : Expr Token) :
    Implements limit n (self.callBody callee) (callOver expression callee) :=
  (implements_commaLoopUntil (by decide) ha fun origin => tracks_argumentOver (ht origin)).bind
    fun _ => (implements_consume (by decide) _).bind fun _ => implements_pure _

theorem postfixStep_cons (expression : Parser Token (Expr Token)) (e : Expr Token) {t : Token}
    (ts : List Token) (ht : t.kind = .leftParen ∨ t.kind = .dot ∨ t.kind = .leftBracket) :
    postfixStep expression e (t :: ts) =
      (match t.kind with
      | .leftParen => some <$> callOver expression e
      | .dot => do
        let name ← expect .identifier .propertyName
        return some (.property e name)
      | _ => do
        let position ← bracketed expression .closingIndex
        return some (.index e position) : Parser Token (Option (Expr Token))) ts := by
  rw [postfixStep, bind_of_ok (accept_cons (by simpa [or_assoc] using ht))]
  rfl

theorem implements_suffixStep
    (hc : ∀ callee, Implements limit n (self.call callee) (callOver expression callee))
    (he : Implements limit n self.expression expression) (e : Expr Token) :
    Implements limit n (self.suffixStep e) (postfixStep expression e) := by
  intro ts
  refine implementsAt_take rfl (fun t rest hts ht => ?_) fun hparen => ?_
  · subst hts
    have ht : t.kind = .leftParen := by simpa using ht
    refine ((hc e).map some rest).congr ?_
    rw [postfixStep_cons expression e rest (.inl ht), ht]
  refine implementsAt_take rfl (fun t rest hts ht => ?_) fun hdot => ?_
  · subst hts
    have ht : t.kind = .dot := by simpa using ht
    refine ImplementsAt.congr (Implements.bind (implements_consume (by decide) _)
      (fun name => implements_pure _) rest) ?_
    rw [postfixStep_cons expression e rest (.inr (.inl ht)), ht]
  refine implementsAt_take rfl (fun t rest hts ht => ?_) fun hbracket => ?_
  · subst hts
    have ht : t.kind = .leftBracket := by simpa using ht
    refine ImplementsAt.congr (he.bind (fun position =>
      (implements_consume (by decide) _).bind fun _ => implements_pure _) rest) ?_
    rw [postfixStep_cons expression e rest (.inr (.inr ht)), ht]
    simp only [bracketed, bind_bind]
    rfl
  · refine (implements_pure none ts).congr ?_
    have hstop : Stops (fun k => k == .leftParen || k == .dot || k == .leftBracket) ts := by
      cases ts with
      | nil => exact stops_nil _
      | cons t ts => simp_all
    rw [postfixStep, bind_of_ok (accept_of_stops hstop)]

theorem implements_suffixed (hp : Implements limit n self.primary (primaryOver expression function))
    (hc : ∀ callee, Implements limit n (self.call callee) (callOver expression callee))
    (he : Implements limit n self.expression expression)
    (ht : ∀ origin, Tracks origin expression) :
    Implements limit n self.suffixedBody (postfixOver expression function) := by
  refine hp.bind fun e => implements_loop (implements_suffixStep hc he) ?_ e
  refine progresses_of_accept (fun _ => rfl) fun e t origin => ?_
  have he := ht origin
  simp only
  split
  · exact (tracks_callOver he e).map _
  · exact (tracks_expect _ (by trivial)).bind fun name => tracks_pure _
  · exact (tracks_bracketed he (by trivial)).bind fun position => tracks_pure _

theorem implements_variableAfter (name : Token) :
    Implements limit n (Methods.variableAfter name) (variableAfter name) := by
  refine (implements_take rfl).bind fun o => ?_
  cases o <;> exact implements_pure _

theorem implements_primary (he : Implements limit n self.expression expression)
    (hf : Implements limit n self.functionType function)
    (hnew : Implements limit n self.newObject (newOver expression function)) :
    Implements limit n self.primaryBody (primaryOver expression function) := by
  intro ts
  refine implementsAt_peek (fun t rest hts => ?_) fun e hts hend => ?_
  · subst hts
    split
    · next hl =>
      refine ImplementsAt.congr (.of_advance (implements_pure _ rest)) ?_
      exact if_pos hl
    · next hl =>
      have hprimary : primaryOver expression function (t :: rest) = _ := if_neg hl
      split
      · next hk =>
        refine ImplementsAt.congr (.of_advance (he.bind (fun e =>
          (implements_consume (by decide) _).bind fun _ => implements_pure _) rest)) ?_
        simp only [hprimary, Token.kind_view, hk]
      · next hk =>
        refine ImplementsAt.congr (.of_advance (implements_variableAfter t rest)) ?_
        simp only [hprimary, Token.kind_view, hk]
      · next hk =>
        refine ImplementsAt.congr (.of_advance (hnew rest)) ?_
        simp only [hprimary, Token.kind_view, hk]
      · next hk =>
        refine ImplementsAt.congr (hf.map _ (t :: rest)) ?_
        simp only [hprimary, Token.kind_view, hk]
      · refine (implements_errorAtCurrent .expression (t :: rest)).congr ?_
        rw [hprimary, Token.kind_view]
        split <;> first | contradiction | rfl
  · subst hts
    simp only [hend]
    exact (implements_errorAtCurrent .expression []).congr rfl

theorem implements_newElement (hf : Implements limit n self.functionType function)
    (hn : Implements limit n self.namedType
      ((fun name => .named name false) <$> require isTypeName .typeName)) :
    Implements limit n self.newElement (do
      let isFunction ← sees (· == .funWord)
      Grammar.newElement function isFunction) := by
  refine (implements_check rfl).bind fun isFunction => ?_
  cases isFunction with
  | true => exact hf
  | false => exact hn

theorem implements_sizeStep (he : Implements limit n self.expression expression)
    (sizes : List (Expr Token)) :
    Implements limit n (self.sizeStep sizes)
      (Grammar.manyStep (· == .leftBracket) (Grammar.newSize expression) sizes) := by
  intro ts
  refine implementsAt_take rfl (fun t rest hts ht => ?_) fun hs => ?_
  · subst hts
    refine ImplementsAt.congr (he.bind (fun size =>
      (implements_consume (by decide) _).bind fun _ => implements_pure _) rest) ?_
    rw [Grammar.manyStep, bind_of_ok (sees_cons ht), if_pos rfl, Grammar.newSize, bind_bind,
      bind_of_ok (accept_cons ht)]
    simp only [bracketed, bind_bind]
    rfl
  · refine (implements_pure none ts).congr ?_
    rw [Grammar.manyStep, bind_of_ok (sees_of_stops hs)]
    rfl

/-- What a type is made of tells whether it was read as a function type. -/
theorem newElement_ok {isFunction : Bool} {rest : List Token} {element : TypeExpr Token}
    (hf : ∀ ts f rest, function ts = .ok (f, rest) → ∃ parameters result,
      f = .function parameters result)
    (h : Grammar.newElement function isFunction ts = .ok (element, rest)) :
    (isFunction = true ∧ ∃ parameters result, element = .function parameters result) ∨
      (isFunction = false ∧ ∃ name, element = .named name false) := by
  cases isFunction with
  | true => exact .inl ⟨rfl, hf ts element rest h⟩
  | false =>
    obtain ⟨name, -, rfl⟩ := map_ok_iff.1 h
    exact .inr ⟨rfl, name, rfl⟩

theorem implements_newObject {G : Expr Token → List Token → Prop}
    (he : Implements limit n self.expression expression)
    (hel : Implements limit n self.newElement (do
      let isFunction ← sees (· == .funWord)
      Grammar.newElement function isFunction))
    (hf : ∀ ts f rest, function ts = .ok (f, rest) → ∃ parameters result,
      f = .function parameters result)
    (hsize : Grammar.SoundFrom (· == .leftBracket) (Grammar.newSize expression) fun e us _ =>
      G e us ∧ us ≠ []) :
    Implements limit n self.newObjectBody (newOver expression function) := by
  intro ts
  rw [Grammar.newOver_eq]
  obtain ⟨isFunction, hsees⟩ : ∃ b, sees (· == .funWord) ts = .ok (b, ts) := by
    cases ts <;> exact ⟨_, rfl⟩
  have helement := (hel ts).congr (q := Grammar.newElement function isFunction)
    (bind_of_ok hsees).symm
  refine ImplementsAt.congr (helement.bind (g := Grammar.newContents expression isFunction)
    fun element rest hr => ?_) (bind_of_ok hsees)
  refine (implements_check rfl).ite ?_ ?_ rest
  · exact (implements_loop (implements_sizeStep he) (progresses_manyStep hsize) []).bind
      fun sizes => implements_pure _
  · obtain ⟨rfl, parameters, result, rfl⟩ | ⟨rfl, name, rfl⟩ := newElement_ok hf hr
    · exact implements_errorAtCurrent _
    · exact (implements_consume (by decide) _).bind fun _ =>
        (implements_consume (by decide) _).bind fun _ => implements_pure _

theorem implements_unary
    (hs : Implements limit n self.suffixed (postfixOver expression function))
    (ho : Implements limit n (nested limit self.unary) operand) :
    Implements limit n (self.unaryBody limit) (unaryOver operand expression function) := by
  refine (implements_take rfl).bind fun o => ?_
  cases o with
  | none => exact hs
  | some operator => exact ho.bind fun e => implements_pure _

end

section

variable {expression : Parser Token (Expr Token)} {type : Parser Token (TypeExpr Token)}
  {block : Parser Token (List (Stmt Token))} {conditional : Parser Token (Stmt Token)}

theorem implements_beginsDeclaration :
    Implements limit n Methods.beginsDeclaration seesDeclaration := by
  intro ts
  have hanswer : ∀ b, beginsDeclaration (ts.map Token.kind) = b →
      ImplementsAt limit n (pure b) seesDeclaration ts := by
    rintro _ rfl
    exact (implements_pure _ ts).congr rfl
  refine implementsAt_check rfl (fun hs => ?_) fun hother => ?_
  · obtain ⟨t, ts, rfl, ht⟩ := not_stops_iff.1 hs
    refine hanswer true ?_
    have hne : t.kind ≠ .identifier := by
      intro hk
      simp [hk, Kind.isBuiltinType, Kind.builtinTypes] at ht
    rw [List.map_cons, Grammar.beginsDeclaration_of_ne hne]
    exact ht
  refine implementsAt_check rfl (fun hs => ?_) fun hname => ?_
  · obtain ⟨t, ts, rfl, ht⟩ := not_stops_iff.1 hs
    have ht : t.kind = .identifier := by simpa using ht
    rw [List.map_cons, ht, Grammar.beginsDeclaration_identifier] at hanswer
    have hopens := Grammar.opensName_iff (ts.map Token.kind)
    simp only [List.getElem?_map] at hopens
    refine implementsAt_checkAt (d := 1) (by simp) (by decide) (fun h₁ => hanswer true ?_)
      fun h₁ => ?_
    · exact hopens.2 (.inl h₁)
    refine implementsAt_checkAt (d := 1) (by simp) (by decide) (fun h₂ => ?_)
      fun h₂ => hanswer false ?_
    · refine implementsAt_checkAt (d := 2) ?_ (by decide) (fun h₃ => hanswer true ?_)
        fun h₃ => hanswer false ?_
      · cases ts <;> simp at h₂ ⊢
      · exact hopens.2 (.inr ⟨h₂, h₃⟩)
      · exact Bool.eq_false_iff.2 fun h => (hopens.1 h).elim h₁ fun hpair => h₃ hpair.2
    · exact Bool.eq_false_iff.2 fun h => (hopens.1 h).elim h₁ fun hpair => h₂ hpair.1
  · refine hanswer false ?_
    cases ts with
    | nil => rfl
    | cons t ts =>
      rw [List.map_cons, Grammar.beginsDeclaration_of_ne (by simpa using hname)]
      exact stops_cons.1 hother

theorem implementsAfter_varDeclaration (he : Implements limit n self.expression expression) :
    ImplementsAfter limit n self.varDeclarationBody (varDeclaration expression) :=
  .of_advance fun _ => (implements_consume (by decide) _).bind fun _ =>
    (implements_consume (by decide) _).bind fun _ => he.bind fun _ =>
      (implements_consume (by decide) _).bind fun _ => implements_pure _

theorem implements_declaration (he : Implements limit n self.expression expression)
    (ht : Implements limit n (self.type false) type) :
    Implements limit n self.declarationBody (declaration expression type) := by
  refine ht.bind fun type => (implements_consume (by decide) _).bind fun name =>
    (implements_take rfl).bind fun o => ?_
  cases o with
  | none => exact (implements_consume (by decide) _).bind fun _ => implements_pure _
  | some _ =>
    exact he.bind fun _ => (implements_consume (by decide) _).bind fun _ => implements_pure _

theorem implements_expressionStatement (he : Implements limit n self.expression expression) :
    Implements limit n self.expressionStatementBody (expressionStatement expression) :=
  he.bind fun _ => (implements_consume (by decide) _).bind fun _ => implements_pure _

theorem implements_condition (he : Implements limit n self.expression expression)
    (keyword : String) :
    Implements limit n (self.conditionBody keyword) (condition expression keyword) :=
  (implements_consume (by decide) _).bind fun _ => he.bind fun _ =>
    (implements_consume (by decide) _).bind fun _ => implements_pure _

theorem implementsAfter_conditional
    (hc : ∀ keyword, Implements limit n (self.condition keyword) (condition expression keyword))
    (hb : Implements limit n self.block block)
    (ho : ∀ t ts, t.kind = .ifWord →
      ImplementsAt limit n (nested limit self.conditional) conditional (t :: ts)) :
    ImplementsAfter limit n (self.conditionalBody limit)
      fun _ => ifOver expression block conditional := by
  refine .of_advance fun _ => (hc "if").bind fun test => hb.bind fun body =>
    (implements_take rfl).bind fun o => ?_
  cases o with
  | none => exact implements_pure _
  | some _ =>
    intro ts
    refine implementsAt_check rfl (fun hs => ?_) fun hs => ?_
    · obtain ⟨t, ts, rfl, ht⟩ := not_stops_iff.1 hs
      exact ((ho t ts (by simpa using ht)).bind fun other _ _ => implements_pure _ _).congr
        (bind_of_ok (sees_cons ht))
    · exact (hb.bind (fun other => implements_pure _) ts).congr (bind_of_ok (sees_of_stops hs))

theorem implementsAfter_whileLoop
    (hc : ∀ keyword, Implements limit n (self.condition keyword) (condition expression keyword))
    (hb : Implements limit n self.block block) :
    ImplementsAfter limit n self.whileLoopBody fun _ => whileOver expression block :=
  .of_advance fun _ => (hc "while").bind fun _ => hb.bind fun _ => implements_pure _

theorem implementsAt_beginsDeclaration {f g : Machine (Stmt Token)} {q : Parser Token (Stmt Token)}
    (hf : beginsDeclaration (ts.map Token.kind) = true → ImplementsAt limit n f q ts)
    (hg : beginsDeclaration (ts.map Token.kind) = false → ImplementsAt limit n g q ts) :
    ImplementsAt limit n (do if ← Methods.beginsDeclaration then f else g) q ts := by
  intro m e hfaces hd
  obtain ⟨m', hv, hm, hfaces'⟩ := implements_beginsDeclaration ts m e hfaces hd
  refine .of_later (bind_of_value hv) hm ?_
  cases hb : beginsDeclaration (ts.map TokenView.kind) with
  | true => exact hf hb m' e hfaces' (hm.depth ▸ hd)
  | false => exact hg hb m' e hfaces' (hm.depth ▸ hd)

theorem simpleStatement_var {t : Token} (ht : t.kind = .varWord) (ts : List Token) :
    simpleStatement expression type (t :: ts) = varDeclaration expression t ts := by
  rw [simpleStatement, bind_of_ok (accept_cons (by simp [ht]))]

theorem implements_simpleStatement
    (hv : ImplementsAfter limit n self.varDeclaration (varDeclaration expression))
    (hd : Implements limit n self.declaration (declaration expression type))
    (he : Implements limit n self.expressionStatement (expressionStatement expression)) :
    Implements limit n self.simpleStatement (simpleStatement expression type) := by
  intro ts
  refine implementsAt_check rfl (fun hs => ?_) fun hs => ?_
  · obtain ⟨t, ts, rfl, ht⟩ := not_stops_iff.1 hs
    exact (hv t ts).congr (simpleStatement_var (by simpa using ht) ts)
  · refine implementsAt_beginsDeclaration (fun hb => ?_) fun hb => ?_
    · exact (hd ts).congr (Grammar.simpleStatement_declaration hb)
    · exact (he ts).congr (Grammar.simpleStatement_expression hs hb)

theorem implements_forInitializer
    (hs : Implements limit n self.simpleStatement (simpleStatement expression type)) :
    Implements limit n self.forInitializer (Grammar.forInitializer expression type) := by
  refine (implements_take rfl).bind fun o => ?_
  cases o with
  | some _ => exact implements_pure none
  | none => exact hs.map some

theorem implements_forCondition (he : Implements limit n self.expression expression) :
    Implements limit n self.forCondition (forCondition expression) := by
  intro ts
  refine implementsAt_peek (fun t rest hts => ?_) fun e hts _ => ?_
  · subst hts
    refine implementsAt_check rfl (fun hs => ?_) fun hs => ?_
    · exact (implements_pure _ (t :: rest)).congr
        (Grammar.forCondition_missing expression (by simpa using hs))
    · exact (he (t :: rest)).congr (Grammar.forCondition_written expression hs)
  · subst hts
    exact implementsAt_check rfl (fun hs => absurd (stops_nil _) hs) fun _ => he []

theorem implements_forIncrement (he : Implements limit n self.expression expression) :
    Implements limit n self.forIncrement (Grammar.forIncrement expression) :=
  (implements_check rfl).ite (implements_pure none) (he.map some)

theorem implementsAfter_forLoop (he : Implements limit n self.expression expression)
    (hs : Implements limit n self.simpleStatement (simpleStatement expression type))
    (hb : Implements limit n self.block block) :
    ImplementsAfter limit n self.forLoopBody fun _ => forOver expression type block := by
  rw [Grammar.forOver_eq]
  exact .of_advance fun _ => (implements_consume (by decide) _).bind fun _ =>
    (implements_forInitializer hs).bind fun _ => (implements_forCondition he).bind fun _ =>
    (implements_consume (by decide) _).bind fun _ => (implements_forIncrement he).bind fun _ =>
    (implements_consume (by decide) _).bind fun _ => hb.bind fun _ => implements_pure _

theorem implementsAfter_returnStatement (he : Implements limit n self.expression expression) :
    ImplementsAfter limit n self.returnStatementBody (returnOver expression) := by
  refine .of_advance fun keyword => (implements_take rfl).bind fun o => ?_
  cases o with
  | some _ => exact implements_pure _
  | none =>
    exact he.bind fun _ => (implements_consume (by decide) _).bind fun _ => implements_pure _

theorem statementOver_eq_simple (hk : ∀ t ∈ ts.head?, t.kind ≠ .leftBrace ∧ t.kind ≠ .ifWord ∧
      t.kind ≠ .whileWord ∧ t.kind ≠ .forWord ∧ t.kind ≠ .returnWord) :
    statementOver expression type block conditional ts = simpleStatement expression type ts := by
  cases ts with
  | nil => rfl
  | cons t ts =>
    have hk := hk t rfl
    simp only [statementOver]
    split <;> simp_all

theorem implements_statement
    (hv : ImplementsAfter limit n self.varDeclaration (varDeclaration expression))
    (hd : Implements limit n self.declaration (declaration expression type))
    (he : Implements limit n self.expressionStatement (expressionStatement expression))
    (hb : Implements limit n self.block block)
    (hc : ∀ t ts, t.kind = .ifWord → ImplementsAt limit n self.conditional conditional (t :: ts))
    (hw : ImplementsAfter limit n self.whileLoop fun _ => whileOver expression block)
    (hf : ImplementsAfter limit n self.forLoop fun _ => forOver expression type block)
    (hr : ImplementsAfter limit n self.returnStatement (returnOver expression)) :
    Implements limit n self.statementBody (statementOver expression type block conditional) := by
  intro ts
  refine implementsAt_check rfl (fun hs => ?_) fun hvar => ?_
  · obtain ⟨t, ts, rfl, ht⟩ := not_stops_iff.1 hs
    have ht : t.kind = .varWord := by simpa using ht
    refine (hv t ts).congr ?_
    rw [statementOver_eq_simple (by simp [ht]), simpleStatement_var ht]
  refine implementsAt_beginsDeclaration (fun hb => ?_) fun hno => ?_
  · exact (hd ts).congr (Grammar.statementOver_declaration hb)
  refine implementsAt_peek (fun t rest hts => ?_) fun e hts hend => ?_
  · subst hts
    split
    · next hk =>
      refine (hb.map Stmt.block (t :: rest)).congr ?_
      simp only [statementOver, Token.kind_view, hk]
    · next hk =>
      refine (hc t rest hk).congr ?_
      simp only [statementOver, Token.kind_view, hk]
    · next hk =>
      refine (hw t rest).congr ?_
      simp only [statementOver, Token.kind_view, hk]
    · next hk =>
      refine (hf t rest).congr ?_
      simp only [statementOver, Token.kind_view, hk]
    · next hk =>
      refine (hr t rest).congr ?_
      simp only [statementOver, Token.kind_view, hk]
    · refine (he (t :: rest)).congr ?_
      rw [statementOver_eq_simple (by simp_all), Grammar.simpleStatement_expression hvar hno]
  · subst hts
    simp only [hend]
    exact (he []).congr (Grammar.simpleStatement_expression hvar hno)

theorem implements_braced {statement : Parser Token (Stmt Token)}
    {S : Stmt Token → List Token → Prop} (hs : Implements limit n self.statement statement)
    (hp : Grammar.Sound statement fun s us _ => S s us ∧ us ≠ []) :
    Implements limit n self.bracedBody (blockOver statement) :=
  (implements_consume (by decide) _).bind fun _ =>
    (implements_whileLoop (implements_isBefore (by decide)) hs (hp.soundFrom _)).bind fun _ =>
    (implements_consume (by decide) _).bind fun _ => implements_pure _

end

theorem implements_field {type : Parser Token (TypeExpr Token)} {what : Expected}
    (ht : Implements limit n (self.type false) type) :
    Implements limit n (do
      let type ← self.type false
      let name ← consume .identifier what
      return ⟨type, name⟩) (field type what) :=
  ht.bind fun _ => (implements_consume (by decide) _).bind fun _ => implements_pure _

theorem implementsAfter_structDeclaration
    (ht : Implements limit n (self.type false) (typeExpr n false)) :
    ImplementsAfter limit n self.structDeclarationBody
      fun _ => structDeclaration (typeExpr n false) := by
  have hmember : Grammar.member (typeExpr n false) = (do
      let type ← typeExpr n false
      let name ← expect .identifier .fieldName
      let _ ← expect .semicolon .fieldEnd
      return ⟨type, name⟩ : Parser Token (Field Token)) := by
    simp only [Grammar.member, field, bind_bind]
    rfl
  have hsound := Grammar.member_sound (Grammar.typeExpr_sound (τ := Token) n false)
  simp only [Grammar.structDeclaration_eq]
  rw [hmember] at hsound ⊢
  refine .of_advance fun _ => (implements_consume (by decide) _).bind fun _ =>
    (implements_consume (by decide) _).bind fun _ =>
    (implements_whileLoop (implements_isBefore (by decide)) ?_ (hsound.soundFrom _)).bind fun _ =>
    (implements_consume (by decide) _).bind fun _ => implements_pure _
  exact ht.bind fun _ => (implements_consume (by decide) _).bind fun _ =>
    (implements_consume (by decide) _).bind fun _ => implements_pure _

theorem implements_functionDeclaration
    (ht : ∀ allowVoid, Implements limit n (self.type allowVoid) (typeExpr n allowVoid))
    (hb : Implements limit n self.block (block n)) :
    Implements limit n self.functionDeclarationBody (functionDeclaration n) :=
  (ht true).bind fun _ => (implements_consume (by decide) _).bind fun _ =>
    (implements_consume (by decide) _).bind fun _ =>
    (implements_commaLoopUntil (by decide) (implements_field (ht false)) fun _ =>
      tracks_field (tracks_typeExpr n false) (by trivial)).bind fun _ =>
    (implements_consume (by decide) _).bind fun _ => hb.bind fun _ => implements_pure _

theorem implements_topDeclaration
    (hs : ImplementsAfter limit n self.structDeclaration
      fun _ => structDeclaration (typeExpr n false))
    (hf : Implements limit n self.functionDeclaration (functionDeclaration n)) :
    Implements limit n (do
      if ← check (· == .structWord) then self.structDeclaration else self.functionDeclaration)
      (topDeclaration n) := by
  intro ts
  refine implementsAt_check rfl (fun hstruct => ?_) fun hstruct => ?_
  · obtain ⟨t, ts, rfl, ht⟩ := not_stops_iff.1 hstruct
    exact (hs t ts).congr (bind_of_ok (accept_cons ht))
  · exact (hf ts).congr (bind_of_ok (accept_of_stops hstruct))

theorem implements_program
    (hs : ImplementsAfter limit n self.structDeclaration
      fun _ => structDeclaration (typeExpr n false))
    (hf : Implements limit n self.functionDeclaration (functionDeclaration n)) :
    Implements limit n self.programBody (program n) := by
  refine (implements_whileLoop (implements_check rfl) (implements_topDeclaration hs hf)
    (Grammar.topDeclaration_sound.soundFrom _)).bind fun declarations ts => ?_
  refine implementsAt_isAtEnd (fun hts => ?_) fun hts => ?_
  · subst hts
    exact (implements_pure _ []).congr rfl
  · obtain ⟨t, ts, rfl⟩ := List.exists_cons_of_ne_nil hts
    exact (implements_errorAtCurrent _ (t :: ts)).congr rfl

end Instances

end Seanet
