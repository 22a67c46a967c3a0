import Seanet.Proofs.Grammar.Programs

set_option autoImplicit false

namespace Seanet

def SyntaxFault.rest {τ : Type} : SyntaxFault τ → List τ
  | expected _ rest | assignmentTarget _ rest | refFunction _ rest => rest

def Expected.Worded : Expected → Prop
  | conditionOpening keyword | conditionClosing keyword => keyword ∈ Kind.keywords.map Prod.fst
  | _ => True

namespace Parser

open TokenView (kind secondHalf)
open Grammar

variable {τ α β : Type} [SplitView τ]

def Remains (origin ts : List τ) : Prop := ∃ us, Reads origin us ts

def Within (origin : List τ) (t : τ) : Prop :=
  t ∈ origin ∨ ∃ u ∈ origin, kind u = .greaterGreater ∧ t = secondHalf u

/-- A fault found where a part of `origin` was still to be read, that names a token of `origin`.
A `ref` before a function type has been read last, the operator of an assignment before its
value. -/
inductive FaultIn (origin : List τ) : SyntaxFault τ → Prop where
  | expected {what : Expected} {rest : List τ} (hw : what.Worded) (h : Remains origin rest) :
      FaultIn origin (.expected what rest)
  | assignmentTarget {t : τ} {value rest : List τ} (h : Remains origin (t :: value))
      (ht : (kind t).isAssignment = true) (hrest : Remains value rest) :
      FaultIn origin (.assignmentTarget t rest)
  | refFunction {t : τ} {rest : List τ} (h : Remains origin (t :: rest)) (ht : kind t = .refWord) :
      FaultIn origin (.refFunction t rest)

def StopsIn (origin : List τ) : Except (SyntaxFault τ) (α × List τ) → Prop
  | .ok (_, rest) => Remains origin rest
  | .error fault => FaultIn origin fault

/-- From every part of `origin` the parser goes forward, and never leaves `origin`. -/
def Tracks (origin : List τ) (p : Parser τ α) : Prop :=
  ∀ ts, Remains origin ts → StopsIn origin (p ts)

namespace Remains

variable {origin ts : List τ} {t : τ}

theorem refl (origin : List τ) : Remains origin origin := ⟨[], .nil origin⟩

theorem tail (h : Remains origin (t :: ts)) : Remains origin ts := by
  obtain ⟨us, hu⟩ := h
  exact ⟨us ++ [t], hu.append (.single t ts)⟩

theorem half (h : Remains origin (t :: ts)) (ht : kind t = .greaterGreater) :
    Remains origin (secondHalf t :: ts) := by
  obtain ⟨us, hu⟩ := h
  exact ⟨us ++ [SplitView.firstHalf t], hu.append (.half ht (.nil _))⟩

end Remains

theorem Within.of_half {ts : List τ} {t u : τ} (ht : kind t = .greaterGreater)
    (h : Within (secondHalf t :: ts) u) : Within (t :: ts) u := by
  obtain hm | ⟨v, hv, hk, rfl⟩ := h
  · obtain rfl | hm := List.mem_cons.1 hm
    · exact .inr ⟨t, by simp, ht, rfl⟩
    · exact .inl (by simp [hm])
  · obtain rfl | hv := List.mem_cons.1 hv
    · -- The second half of a `>>` is a `>`, which has no halves.
      rw [TokenView.kind_secondHalf] at hk
      cases hk
    · exact .inr ⟨v, by simp [hv], hk, rfl⟩

theorem Within.of_reads {origin us rest : List τ} {t : τ} (h : Reads origin us rest)
    (ht : Within rest t) : Within origin t := by
  induction h with
  | nil ts => exact ht
  | token u _ ih =>
    obtain hm | ⟨v, hv, hk, rfl⟩ := ih ht
    · exact .inl (by simp [hm])
    · exact .inr ⟨v, by simp [hv], hk, rfl⟩
  | half hk _ ih => exact .of_half hk (ih ht)

theorem Remains.within {origin ts : List τ} {t : τ} (h : Remains origin (t :: ts)) :
    Within origin t := by
  obtain ⟨us, hu⟩ := h
  exact .of_reads hu (.inl (by simp))

/-- What can stand at an index of a stream: the token there, or the second half of a `>>`. -/
inductive StandsAt (origin : List τ) (k : Nat) : τ → Prop where
  | whole {t : τ} (h : origin[k]? = some t) : StandsAt origin k t
  | half {t : τ} (h : origin[k]? = some t) (ht : kind t = .greaterGreater) :
      StandsAt origin k (secondHalf t)

theorem StandsAt.cons {origin : List τ} {k : Nat} {t u : τ} (h : StandsAt origin k t) :
    StandsAt (u :: origin) (k + 1) t := by
  cases h with
  | whole h => exact .whole (by simpa using h)
  | half h ht => exact .half (by simpa using h) ht

theorem StandsAt.append {origin us : List τ} {k : Nat} {t : τ} (h : StandsAt origin k t) :
    StandsAt (origin ++ us) k t := by
  have hleft {u : τ} (hu : origin[k]? = some u) : (origin ++ us)[k]? = some u := by
    rwa [List.getElem?_append_left (List.getElem?_eq_some_iff.1 hu).1]
  cases h with
  | whole h => exact .whole (hleft h)
  | half h ht => exact .half (hleft h) ht

theorem StandsAt.getElem? {origin : List τ} {k : Nat} {t : τ} (h : StandsAt origin k t)
    (ht : kind t ≠ .greater) : origin[k]? = some t := by
  cases h with
  | whole h => exact h
  | half _ _ => exact absurd (TokenView.kind_secondHalf _) ht

theorem Remains.index {origin ts : List τ} (h : Remains origin ts) :
    ∃ k, k + ts.length = origin.length ∧ ∀ t ∈ ts.head?, StandsAt origin k t := by
  obtain ⟨us, hu⟩ := h
  induction hu with
  | nil ts => exact ⟨0, Nat.zero_add _, fun t ht => .whole (by rwa [← List.head?_eq_getElem?])⟩
  | token u _ ih =>
    obtain ⟨k, hk, hstands⟩ := ih
    exact ⟨k + 1, by rw [List.length_cons]; omega, fun t ht => (hstands t ht).cons⟩
  | @half u ts us rest hu _ ih =>
    obtain ⟨k, hk, hstands⟩ := ih
    refine ⟨k, hk, fun t ht => ?_⟩
    cases k with
    | zero =>
      cases hstands t ht with
      | whole h =>
        obtain rfl : secondHalf u = t := by simpa using h
        exact .half rfl hu
      | half h ht' =>
        obtain rfl : secondHalf u = _ := by simpa using h
        rw [TokenView.kind_secondHalf] at ht'
        cases ht'
    | succ k =>
      cases hstands t ht with
      | whole h => exact .whole (by simpa using h)
      | half h ht' => exact .half (by simpa using h) ht'

section

variable {origin : List τ}

theorem tracks_pure (a : α) : Tracks origin (pure a : Parser τ α) := fun _ h => h

theorem tracks_fail {what : Expected} (hw : what.Worded) :
    Tracks origin (fail what : Parser τ α) :=
  fun _ h => .expected hw h

theorem Tracks.bind {p : Parser τ α} {f : α → Parser τ β} (hp : Tracks origin p)
    (hf : ∀ a, Tracks origin (f a)) : Tracks origin (p >>= f) := by
  intro ts h
  have hstop := hp ts h
  rw [bind_apply]
  cases hr : p ts with
  | error fault =>
    rw [hr] at hstop
    exact hstop
  | ok r =>
    rw [hr] at hstop
    exact hf r.1 r.2 hstop

theorem Tracks.map {p : Parser τ α} (f : α → β) (hp : Tracks origin p) :
    Tracks origin (f <$> p) :=
  hp.bind fun a => tracks_pure (f a)

theorem tracks_sees (p : Kind → Bool) : Tracks origin (sees p : Parser τ Bool) := by
  intro ts h
  cases ts <;> exact h

theorem tracks_seesAll (kinds : List Kind) : Tracks origin (seesAll kinds : Parser τ Bool) :=
  fun _ h => h

theorem Tracks.ite {p : Parser τ Bool} {f g : Parser τ α} (hp : Tracks origin p)
    (hf : Tracks origin f) (hg : Tracks origin g) :
    Tracks origin (do if ← p then f else g) := by
  refine hp.bind fun b => ?_
  cases b with
  | true => exact hf
  | false => exact hg

theorem tracks_accept {p : Kind → Bool} {f : Option τ → Parser τ α} (hn : Tracks origin (f none))
    (hs : ∀ t ts, Remains origin (t :: ts) → p (kind t) = true → StopsIn origin (f (some t) ts)) :
    Tracks origin (accept p >>= f) := by
  intro ts h
  by_cases hp : Stops p ts
  · rw [bind_of_ok (accept_of_stops hp)]
    exact hn ts h
  · obtain ⟨t, ts, rfl, ht⟩ := not_stops_iff.1 hp
    rw [bind_of_ok (accept_cons ht)]
    exact hs t ts h ht

theorem tracks_accept_of {p : Kind → Bool} {f : Option τ → Parser τ α}
    (hf : ∀ o, Tracks origin (f o)) : Tracks origin (accept p >>= f) :=
  tracks_accept (hf none) fun t ts h _ => hf (some t) ts h.tail

theorem tracks_require (p : Kind → Bool) {what : Expected} (hw : what.Worded) :
    Tracks origin (require p what : Parser τ τ) := by
  intro ts h
  cases ts with
  | nil => exact .expected hw h
  | cons t ts =>
    simp only [require]
    split
    · exact h.tail
    · exact .expected hw h

theorem tracks_expect (k : Kind) {what : Expected} (hw : what.Worded) :
    Tracks origin (expect k what : Parser τ τ) := tracks_require _ hw

theorem tracks_expectClosingAngle : Tracks origin (expectClosingAngle : Parser τ Unit) := by
  intro ts h
  cases ts with
  | nil => exact .expected trivial h
  | cons t ts =>
    simp only [expectClosingAngle]
    split
    · exact h.tail
    · split
      · next ht => exact h.half ht
      · exact .expected trivial h

theorem tracks_iterate {step : α → Parser τ (Option α)} (hs : ∀ a, Tracks origin (step a))
    (a : α) : Tracks origin (iterate step a) := by
  intro ts h
  have hstop := hs a ts h
  fun_induction iterate step a ts with
  | case1 a ts fault he =>
    rw [he] at hstop
    exact hstop
  | case2 a ts rest he =>
    rw [he] at hstop
    exact hstop
  | case3 a ts b rest he hw ih =>
    rw [he] at hstop
    exact ih hstop (hs b rest hstop)
  | case4 a ts b rest he hw =>
    rw [he] at hstop
    exact hstop

theorem tracks_manyWhile {more : Kind → Bool} {item : Parser τ α} (hi : Tracks origin item) :
    Tracks origin (manyWhile more item) :=
  tracks_iterate (fun _ => (tracks_sees more).ite (hi.bind fun _ => tracks_pure _)
    (tracks_pure none)) []

theorem tracks_commaStep {σ : Type} {item : Parser τ α} (hi : Tracks origin item)
    (add : σ → α → σ) (s : σ) : Tracks origin (commaStep item add s) := by
  refine tracks_accept_of fun o => ?_
  cases o with
  | none => exact tracks_pure none
  | some _ => exact hi.bind fun a => tracks_pure (some (add s a))

theorem tracks_separated {item : Parser τ α} (hi : Tracks origin item) :
    Tracks origin (separated item) := by
  rw [separated_eq]
  exact hi.bind fun first => tracks_iterate (tracks_commaStep hi _) [first]

theorem tracks_separatedUntil {item : Parser τ α} (closing : Kind) (hi : Tracks origin item) :
    Tracks origin (separatedUntil closing item) :=
  (tracks_sees _).ite (tracks_pure []) (tracks_separated hi)

theorem tracks_arraySuffix : Tracks origin (arraySuffix : Parser τ Nat) := by
  rw [arraySuffix_eq]
  refine tracks_iterate (fun n => (tracks_seesAll _).ite ?_ (tracks_pure none)) 0
  exact tracks_accept_of fun _ => tracks_accept_of fun _ => tracks_pure (some (n + 1))

theorem tracks_functionTypeOver {entry : Parser τ (TypeExpr τ)} (he : Tracks origin entry) :
    Tracks origin (functionTypeOver entry) := by
  rw [functionTypeOver_eq]
  refine (tracks_expect _ (by trivial)).bind fun keyword => tracks_accept_of fun o => ?_
  cases o with
  | none => exact tracks_pure _
  | some _ =>
    refine he.bind fun first => (tracks_iterate (tracks_commaStep he _) _).bind fun entries => ?_
    exact tracks_expectClosingAngle.bind fun _ => tracks_pure _

theorem tracks_typeOver {function : Parser τ (TypeExpr τ)} (hf : Tracks origin function)
    (allowVoid : Bool) : Tracks origin (typeOver function allowVoid) := by
  have hname : ∀ after : τ → Nat → Parser τ (TypeExpr τ),
      (∀ name n, Tracks origin (after name n)) → Tracks origin (do
        let name ← require (namesType allowVoid) .typeName
        let dimensions ← arraySuffix
        after name dimensions) :=
    fun after h => (tracks_require _ (by trivial)).bind fun name => tracks_arraySuffix.bind (h name)
  refine tracks_accept ((tracks_sees _).ite ?_ (hname _ fun name n => ?_)) fun t ts h ht => ?_
  · exact hf.bind fun type => tracks_arraySuffix.bind fun n => tracks_pure _
  · cases n <;> exact tracks_pure _
  · -- The fault of a `ref` before a function type is found right behind the `ref`.
    by_cases hfun : Stops (· == .funWord) ts
    · rw [bind_of_ok (sees_of_stops hfun)]
      refine hname _ (fun name n => ?_) ts h.tail
      cases n <;> exact tracks_pure _
    · obtain ⟨u, ts, rfl, hu⟩ := not_stops_iff.1 hfun
      rw [bind_of_ok (sees_cons hu)]
      exact .refFunction h (beq_iff_eq.1 ht)

theorem tracks_tooDeep : Tracks origin (tooDeep : Parser τ α) := tracks_fail trivial

theorem tracks_functionType (n : Nat) : Tracks origin (functionType n : Parser τ (TypeExpr τ)) := by
  induction n with
  | zero => exact tracks_functionTypeOver tracks_tooDeep
  | succ n ih =>
    have hentry := tracks_typeOver ih true
    rw [← typeExpr_eq] at hentry
    exact tracks_functionTypeOver hentry

theorem tracks_typeExpr (n : Nat) (allowVoid : Bool) :
    Tracks origin (typeExpr n allowVoid : Parser τ (TypeExpr τ)) := by
  rw [typeExpr_eq]
  exact tracks_typeOver (tracks_functionType n) allowVoid

section

variable {expression operand : Parser τ (Expr τ)} {function : Parser τ (TypeExpr τ)}

theorem tracks_binaryOver (ho : Tracks origin operand) (levels : List BinaryLevel) :
    Tracks origin (binaryOver operand levels) := by
  induction levels with
  | nil => exact ho
  | cons level tighter ih =>
    rw [binaryOver_cons]
    refine ih.bind fun first => tracks_iterate (fun left => tracks_accept_of fun o => ?_) first
    cases o with
    | none => exact tracks_pure none
    | some operator => exact ih.bind fun right => tracks_pure _

def wrongTarget (operator : τ) : Parser τ (Expr τ) := fun ts =>
  .error (.assignmentTarget operator ts)

theorem stopsIn_wrongTarget (he : ∀ origin, Tracks origin expression) {operator : τ} {ts : List τ}
    (h : Remains origin (operator :: ts)) (ht : (kind operator).isAssignment = true) :
    StopsIn origin ((expression >>= fun _ => wrongTarget operator) ts) := by
  have hvalue := he ts ts (.refl ts)
  have hwhole := he origin ts h.tail
  rw [bind_apply]
  generalize expression ts = outcome at hvalue hwhole ⊢
  cases outcome with
  | error fault => exact hwhole
  | ok r => exact .assignmentTarget h ht hvalue

theorem tracks_assignmentOver (ho : Tracks origin operand)
    (he : ∀ origin, Tracks origin expression) :
    Tracks origin (assignmentOver operand expression) := by
  refine (tracks_binaryOver ho _).bind fun target => tracks_accept (tracks_pure target) ?_
  intro operator ts h ht
  cases target with
  | «variable» _ _ | property _ _ =>
    exact (he origin).bind (fun value => tracks_pure _) ts h.tail
  | _ => exact stopsIn_wrongTarget he h ht

theorem tracks_argumentOver (he : Tracks origin expression) :
    Tracks origin (argumentOver expression) := by
  refine tracks_accept_of fun o => ?_
  cases o with
  | none => exact he
  | some _ => exact (tracks_expect _ (by trivial)).bind fun name => tracks_pure _

theorem tracks_callOver (he : Tracks origin expression) (callee : Expr τ) :
    Tracks origin (callOver expression callee) :=
  (tracks_separatedUntil _ (tracks_argumentOver he)).bind fun _ =>
    (tracks_expect _ (by trivial)).bind fun _ => tracks_pure _

theorem tracks_bracketed (he : Tracks origin expression) {what : Expected} (hw : what.Worded) :
    Tracks origin (bracketed expression what) :=
  he.bind fun e => (tracks_expect _ hw).bind fun _ => tracks_pure e

theorem tracks_newOver (he : Tracks origin expression) (hf : Tracks origin function) :
    Tracks origin (newOver expression function) := by
  rw [newOver_eq]
  refine (tracks_sees _).bind fun isFunction => ?_
  have helement : Tracks origin (newElement function isFunction) := by
    cases isFunction with
    | true => exact hf
    | false => exact (tracks_require _ (by trivial)).map _
  refine helement.bind fun element => (tracks_sees _).ite ?_ ?_
  · have hsize : Tracks origin (newSize expression) :=
      tracks_accept_of fun _ => tracks_bracketed he (by trivial)
    exact (tracks_manyWhile hsize).bind fun sizes => tracks_pure _
  · split
    · exact tracks_fail trivial
    · exact (tracks_expect _ (by trivial)).bind fun _ =>
        (tracks_expect _ (by trivial)).bind fun _ => tracks_pure _

theorem tracks_variableAfter (name : τ) : Tracks origin (variableAfter name) := by
  refine tracks_accept_of fun o => ?_
  cases o <;> exact tracks_pure _

theorem tracks_primaryOver (he : Tracks origin expression) (hf : Tracks origin function) :
    Tracks origin (primaryOver expression function) := by
  intro ts h
  cases ts with
  | nil => exact .expected trivial h
  | cons t ts =>
    simp only [primaryOver]
    split
    · exact h.tail
    · split
      · have hgroup : Tracks origin (do
            let e ← expression
            let _ ← expect .rightParen .closingGroup
            return Expr.grouped e) :=
          he.bind fun e => (tracks_expect _ (by trivial)).bind fun _ => tracks_pure _
        exact hgroup ts h.tail
      · exact tracks_variableAfter t ts h.tail
      · exact tracks_newOver he hf ts h.tail
      · exact hf.map _ (t :: ts) h
      · exact .expected trivial h

theorem tracks_postfixStep (he : Tracks origin expression) (e : Expr τ) :
    Tracks origin (postfixStep expression e) := by
  refine tracks_accept_of fun o => ?_
  cases o with
  | none => exact tracks_pure none
  | some t =>
    simp only
    split
    · exact (tracks_callOver he e).map _
    · exact (tracks_expect _ (by trivial)).bind fun name => tracks_pure _
    · exact (tracks_bracketed he (by trivial)).bind fun position => tracks_pure _

theorem tracks_unaryOver (ho : Tracks origin operand) (he : Tracks origin expression)
    (hf : Tracks origin function) : Tracks origin (unaryOver operand expression function) := by
  refine tracks_accept_of fun o => ?_
  cases o with
  | none => exact (tracks_primaryOver he hf).bind fun e => tracks_iterate (tracks_postfixStep he) e
  | some operator => exact ho.bind fun e => tracks_pure _

end

theorem tracks_layer (n : Nat) : Tracks origin (layer n : Layer τ).expression ∧
    Tracks origin (layer n : Layer τ).unary := by
  induction n generalizing origin with
  | zero =>
    exact ⟨tracks_tooDeep,
      tracks_unaryOver tracks_tooDeep tracks_tooDeep (tracks_functionType 0)⟩
  | succ n ih =>
    have hexpression : Tracks origin (layer (n + 1) : Layer τ).expression :=
      tracks_assignmentOver ih.2 fun _ => ih.1
    exact ⟨hexpression, tracks_unaryOver ih.2 hexpression (tracks_functionType (n + 1))⟩

theorem tracks_expression (n : Nat) : Tracks origin (expression n : Parser τ (Expr τ)) :=
  (tracks_layer n).1

section

variable {expression : Parser τ (Expr τ)} {type : Parser τ (TypeExpr τ)}
  {block : Parser τ (List (Stmt τ))} {conditional : Parser τ (Stmt τ)}

theorem tracks_varDeclaration (he : Tracks origin expression) (keyword : τ) :
    Tracks origin (varDeclaration expression keyword) :=
  (tracks_expect _ (by trivial)).bind fun _ => (tracks_expect _ (by trivial)).bind fun _ =>
    he.bind fun _ => (tracks_expect _ (by trivial)).bind fun _ => tracks_pure _

theorem tracks_declaration (he : Tracks origin expression) (ht : Tracks origin type) :
    Tracks origin (declaration expression type) := by
  refine ht.bind fun type => (tracks_expect _ (by trivial)).bind fun name =>
    tracks_accept_of fun o => ?_
  cases o with
  | none => exact (tracks_expect _ (by trivial)).bind fun _ => tracks_pure _
  | some _ => exact he.bind fun value => (tracks_expect _ (by trivial)).bind fun _ => tracks_pure _

theorem tracks_simpleStatement (he : Tracks origin expression) (ht : Tracks origin type) :
    Tracks origin (simpleStatement expression type) := by
  have hsees : Tracks origin (seesDeclaration : Parser τ Bool) := fun _ h => h
  refine tracks_accept_of fun o => ?_
  cases o with
  | some keyword => exact tracks_varDeclaration he keyword
  | none =>
    exact hsees.ite (tracks_declaration he ht)
      (he.bind fun e => (tracks_expect _ (by trivial)).bind fun _ => tracks_pure _)

theorem tracks_condition (he : Tracks origin expression) {keyword : String}
    (hk : keyword ∈ Kind.keywords.map Prod.fst) : Tracks origin (condition expression keyword) :=
  (tracks_expect _ (by exact hk)).bind fun _ => he.bind fun _ =>
    (tracks_expect _ (by exact hk)).bind fun _ => tracks_pure _

theorem tracks_ifWith (he : Tracks origin expression) (hb : Tracks origin block)
    (hc : Tracks origin conditional) : Tracks origin (ifWith expression block conditional) := by
  refine tracks_accept_of fun _ => (tracks_condition he (by decide)).bind fun test =>
    hb.bind fun body => tracks_accept_of fun o => ?_
  cases o with
  | none => exact tracks_pure _
  | some _ =>
    exact (tracks_sees _).ite (hc.bind fun other => tracks_pure _)
      (hb.bind fun other => tracks_pure _)

theorem tracks_forCondition (he : Tracks origin expression) :
    Tracks origin (forCondition expression) := by
  intro ts h
  by_cases hs : Stops (· == .semicolon) ts
  · rw [forCondition_written expression hs]
    exact he ts h
  · obtain ⟨t, ts, rfl, ht⟩ := not_stops_iff.1 hs
    rw [forCondition_missing expression (by simpa using ht)]
    exact h

theorem tracks_forOver (he : Tracks origin expression) (ht : Tracks origin type)
    (hb : Tracks origin block) : Tracks origin (forOver expression type block) := by
  have hinitializer : Tracks origin (forInitializer expression type) := by
    refine tracks_accept_of fun o => ?_
    cases o with
    | some _ => exact tracks_pure none
    | none => exact (tracks_simpleStatement he ht).map some
  have hincrement : Tracks origin (forIncrement expression) :=
    (tracks_sees _).ite (tracks_pure none) (he.map some)
  rw [forOver_eq]
  exact (tracks_expect _ (by trivial)).bind fun _ => hinitializer.bind fun _ =>
    (tracks_forCondition he).bind fun _ => (tracks_expect _ (by trivial)).bind fun _ =>
      hincrement.bind fun _ => (tracks_expect _ (by trivial)).bind fun _ =>
        hb.bind fun _ => tracks_pure _

theorem tracks_returnOver (he : Tracks origin expression) (keyword : τ) :
    Tracks origin (returnOver expression keyword) := by
  refine tracks_accept_of fun o => ?_
  cases o with
  | some _ => exact tracks_pure _
  | none => exact he.bind fun value => (tracks_expect _ (by trivial)).bind fun _ => tracks_pure _

theorem tracks_statementOver (he : Tracks origin expression) (ht : Tracks origin type)
    (hb : Tracks origin block) (hc : Tracks origin conditional) :
    Tracks origin (statementOver expression type block conditional) := by
  have hwhile : Tracks origin (whileOver expression block) :=
    (tracks_condition he (by decide)).bind fun _ => hb.bind fun _ => tracks_pure _
  intro ts h
  cases ts with
  | nil => exact tracks_simpleStatement he ht [] h
  | cons t ts =>
    simp only [statementOver]
    split
    · exact hb.map _ (t :: ts) h
    · exact hc (t :: ts) h
    · exact hwhile ts h.tail
    · exact tracks_forOver he ht hb ts h.tail
    · exact tracks_returnOver he t ts h.tail
    · exact tracks_simpleStatement he ht (t :: ts) h

theorem tracks_blockOver {statement : Parser τ (Stmt τ)} (hs : Tracks origin statement) :
    Tracks origin (blockOver statement) :=
  (tracks_expect _ (by trivial)).bind fun _ => (tracks_manyWhile hs).bind fun _ =>
    (tracks_expect _ (by trivial)).bind fun _ => tracks_pure _

end

theorem tracks_stmtLayer (n : Nat) : Tracks origin (stmtLayer n : StmtLayer τ).block ∧
    Tracks origin (stmtLayer n : StmtLayer τ).conditional := by
  induction n with
  | zero =>
    exact ⟨tracks_tooDeep, tracks_ifWith (tracks_expression 0) tracks_tooDeep tracks_tooDeep⟩
  | succ n ih =>
    have hblock := tracks_blockOver
      (tracks_statementOver (tracks_expression n) (tracks_typeExpr n false) ih.1 ih.2)
    exact ⟨hblock, tracks_ifWith (tracks_expression (n + 1)) hblock ih.2⟩

theorem tracks_field {type : Parser τ (TypeExpr τ)} (ht : Tracks origin type) {what : Expected}
    (hw : what.Worded) : Tracks origin (field type what) :=
  ht.bind fun _ => (tracks_expect _ hw).bind fun _ => tracks_pure _

theorem tracks_topDeclaration (n : Nat) :
    Tracks origin (topDeclaration n : Parser τ (Declaration τ)) := by
  have hmember : Tracks origin (member (typeExpr n false) : Parser τ (Field τ)) :=
    (tracks_field (tracks_typeExpr n false) (by trivial)).bind fun _ =>
      (tracks_expect _ (by trivial)).bind fun _ => tracks_pure _
  have hparameter : Tracks origin
      (field (typeExpr n false) .parameterName : Parser τ (Field τ)) :=
    tracks_field (tracks_typeExpr n false) trivial
  refine tracks_accept_of fun o => ?_
  cases o with
  | some _ =>
    simp only
    rw [structDeclaration_eq]
    exact (tracks_expect _ (by trivial)).bind fun _ => (tracks_expect _ (by trivial)).bind fun _ =>
      (tracks_manyWhile hmember).bind fun _ =>
        (tracks_expect _ (by trivial)).bind fun _ => tracks_pure _
  | none =>
    exact (tracks_typeExpr n true).bind fun _ => (tracks_expect _ (by trivial)).bind fun _ =>
      (tracks_expect _ (by trivial)).bind fun _ =>
        (tracks_separatedUntil _ hparameter).bind fun _ =>
          (tracks_expect _ (by trivial)).bind fun _ => (tracks_stmtLayer n).1.bind fun _ =>
            tracks_pure _

theorem tracks_program (n : Nat) : Tracks origin (program n : Parser τ (Program τ)) := by
  refine (tracks_manyWhile (tracks_topDeclaration n)).bind fun declarations ts h => ?_
  cases ts with
  | nil => exact h
  | cons t ts => exact .expected trivial h

theorem tracks_whole {p : Parser τ α} (hp : Tracks origin p) : Tracks origin (whole p) := by
  refine hp.bind fun a ts h => ?_
  cases ts with
  | nil => exact h
  | cons t ts => exact .expected trivial h

end

end Parser

end Seanet
