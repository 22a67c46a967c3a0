import Seanet.Proofs.Parser.Outcome
import Seanet.Parser.Program
import Seanet.Proofs.Tree.Words

set_option autoImplicit false

namespace Seanet

open TokenView (kind secondHalf unwrittenTrue unwrittenVoid)

/-- A replacement of tokens that keeps kinds, and that knows of the tokens that parsing makes where
it makes them. -/
structure TokenMap (τ σ : Type) [TokenView τ] [TokenView σ] where
  map : τ → σ
  kind_map : ∀ t, kind (map t) = kind t
  secondHalf_map : ∀ t, kind t = .greaterGreater → map (secondHalf t) = secondHalf (map t)
  unwrittenTrue_map : ∀ t, kind t = .semicolon → map (unwrittenTrue t) = unwrittenTrue (map t)
  unwrittenVoid_map : ∀ t, kind t = .funWord → map (unwrittenVoid t) = unwrittenVoid (map t)

instance {τ σ : Type} [TokenView τ] [TokenView σ] : CoeFun (TokenMap τ σ) fun _ => τ → σ :=
  ⟨TokenMap.map⟩

def TokenMap.refl (τ : Type) [TokenView τ] : TokenMap τ τ where
  map := id
  kind_map _ := rfl
  secondHalf_map _ _ := rfl
  unwrittenTrue_map _ _ := rfl
  unwrittenVoid_map _ _ := rfl

def SyntaxFault.map {τ σ : Type} (f : τ → σ) : SyntaxFault τ → SyntaxFault σ
  | expected what rest => expected what (rest.map f)
  | assignmentTarget operator rest => assignmentTarget (f operator) (rest.map f)
  | refFunction ref rest => refFunction (f ref) (rest.map f)

namespace Parser

variable {τ σ α β γ δ : Type}

def mapOutcome (f : τ → σ) (g : α → β) :
    Except (SyntaxFault τ) (α × List τ) → Except (SyntaxFault σ) (β × List σ)
  | .ok (a, rest) => .ok (g a, rest.map f)
  | .error fault => .error (fault.map f)

def TooDeep (outcome : Except (SyntaxFault τ) (α × List τ)) : Prop :=
  ∃ rest, outcome = .error (.expected .shallower rest)

variable [TokenView τ] [TokenView σ]

/-- Where `p` reads tokens, `q` reads their replacements and does the same. If `loose`, this need
not be so where `p` finds that the code nests too deeply. -/
def Follows (loose : Prop) (f : TokenMap τ σ) (g : α → β) (p : Parser τ α) (q : Parser σ β) :
    Prop :=
  ∀ ts, q (ts.map f) = mapOutcome f g (p ts) ∨ loose ∧ TooDeep (p ts)

section

variable {loose : Prop} {f : TokenMap τ σ}

theorem follows_pure {g : α → β} {a : α} {b : β} (h : g a = b) :
    Follows loose f g (pure a) (pure b) :=
  fun _ => .inl (h ▸ rfl)

theorem follows_fail {g : α → β} (what : Expected) :
    Follows loose f g (fail what) (fail what) := fun _ => .inl rfl

theorem Follows.of_ok {g : α → β} {p : Parser τ α} {q : Parser σ β} (hp : Follows loose f g p q)
    {ts rest : List τ} {a : α} (h : p ts = .ok (a, rest)) :
    q (ts.map f) = .ok (g a, rest.map f) := by
  obtain hq | ⟨-, rest', hd⟩ := hp ts
  · rw [hq, h]
    rfl
  · rw [h] at hd
    cases hd

theorem Follows.eq {g : α → β} {p : Parser τ α} {q : Parser σ β} (hp : Follows False f g p q)
    (ts : List τ) : q (ts.map f) = mapOutcome f g (p ts) :=
  (hp ts).resolve_right And.left

theorem Follows.bind_of {g : α → β} {h : γ → δ} {p : Parser τ α} {q : Parser σ β}
    {k : α → Parser τ γ} {k' : β → Parser σ δ} (hp : Follows loose f g p q)
    (hk : ∀ a ts rest, p ts = .ok (a, rest) → Follows loose f h (k a) (k' (g a))) :
    Follows loose f h (p >>= k) (q >>= k') := by
  intro ts
  rw [bind_apply, bind_apply]
  obtain hq | ⟨hl, hd⟩ := hp ts
  · rw [hq]
    cases hr : p ts with
    | error fault => exact .inl rfl
    | ok r => exact hk r.1 ts r.2 hr r.2
  · obtain ⟨rest, hd⟩ := hd
    exact .inr ⟨hl, rest, by rw [hd]⟩

theorem Follows.bind {g : α → β} {h : γ → δ} {p : Parser τ α} {q : Parser σ β}
    {k : α → Parser τ γ} {k' : β → Parser σ δ} (hp : Follows loose f g p q)
    (hk : ∀ a, Follows loose f h (k a) (k' (g a))) : Follows loose f h (p >>= k) (q >>= k') :=
  hp.bind_of fun a _ _ _ => hk a

theorem Follows.map {g : α → β} {h : γ → δ} {p : Parser τ α} {q : Parser σ β} {k : α → γ}
    {k' : β → δ} (hp : Follows loose f g p q) (hk : ∀ a, h (k a) = k' (g a)) :
    Follows loose f h (k <$> p) (k' <$> q) :=
  hp.bind fun a => follows_pure (hk a)

theorem follows_sees (p : Kind → Bool) : Follows loose f id (sees p) (sees p) := by
  intro ts
  cases ts with
  | nil => exact .inl rfl
  | cons t ts => exact .inl (by simp [sees, mapOutcome, f.kind_map])

theorem map_kind_map (ts : List τ) : (ts.map f).map kind = ts.map kind := by
  rw [List.map_map]
  exact List.map_congr_left fun t _ => f.kind_map t

theorem follows_seesAll (kinds : List Kind) :
    Follows loose f id (seesAll kinds) (seesAll kinds) := by
  intro ts
  left
  simp only [seesAll, map_kind_map, mapOutcome, id]

theorem Follows.ite {g : α → β} {c : Parser τ Bool} {c' : Parser σ Bool} {p p' : Parser τ α}
    {q q' : Parser σ β} (hc : Follows loose f id c c') (hp : Follows loose f g p q)
    (hp' : Follows loose f g p' q') :
    Follows loose f g (do if ← c then p else p') (do if ← c' then q else q') := by
  refine hc.bind fun b => ?_
  cases b with
  | true => exact hp
  | false => exact hp'

theorem follows_accept (p : Kind → Bool) :
    Follows loose f (Option.map f) (accept p) (accept p) := by
  intro ts
  left
  cases ts with
  | nil => rfl
  | cons t ts =>
    simp only [accept, List.map_cons, f.kind_map]
    cases p (kind t) <;> rfl

theorem follows_require (p : Kind → Bool) (what : Expected) :
    Follows loose f f (require p what) (require p what) := by
  intro ts
  left
  cases ts with
  | nil => rfl
  | cons t ts =>
    simp only [require, List.map_cons, f.kind_map]
    cases p (kind t) <;> rfl

theorem follows_expect (k : Kind) (what : Expected) :
    Follows loose f f (expect k what) (expect k what) := follows_require _ what

theorem follows_expectClosingAngle :
    Follows loose f id expectClosingAngle expectClosingAngle := by
  intro ts
  left
  cases ts with
  | nil => rfl
  | cons t ts =>
    simp only [expectClosingAngle, List.map_cons, f.kind_map]
    split
    · rfl
    · split
      · next ht => simp only [mapOutcome, List.map_cons, f.secondHalf_map t ht, id]
      · rfl

theorem weight_map (ts : List τ) : weight (ts.map f) = weight ts := by
  induction ts with
  | nil => rfl
  | cons t ts ih => simp only [List.map_cons, weight, tokenWeight, f.kind_map, ih]

theorem follows_iterate {g : α → β} {step : α → Parser τ (Option α)}
    {step' : β → Parser σ (Option β)}
    (hs : ∀ a, Follows loose f (Option.map g) (step a) (step' (g a))) (a : α) :
    Follows loose f g (iterate step a) (iterate step' (g a)) := by
  intro ts
  fun_induction iterate step a ts with
  | case1 a ts fault he =>
    have hstep := hs a ts
    rw [he] at hstep
    obtain hq | ⟨hl, rest, hd⟩ := hstep
    · exact .inl (by rw [iterate, hq]; rfl)
    · exact .inr ⟨hl, rest, by rw [Except.error.inj hd]⟩
  | case2 a ts rest he =>
    have hq := (hs a).of_ok he
    exact .inl (by rw [iterate, hq]; rfl)
  | case3 a ts b rest he hw ih =>
    have hq := (hs a).of_ok he
    have hloop : iterate step' (g a) (ts.map f) = iterate step' (g b) (rest.map f) :=
      iterate_of_some hq (by rwa [weight_map, weight_map])
    rw [hloop]
    exact ih
  | case4 a ts b rest he hw =>
    have hq := (hs a).of_ok he
    refine .inl ?_
    rw [iterate, hq]
    simp only [mapOutcome, Option.map_some, weight_map, if_neg hw]

theorem follows_manyWhile {g : α → β} {item : Parser τ α} {item' : Parser σ β}
    (more : Kind → Bool) (hi : Follows loose f g item item') :
    Follows loose f (List.map g) (manyWhile more item) (manyWhile more item') := by
  refine follows_iterate (g := List.map g) (fun items => (follows_sees more).ite ?_ ?_) []
  · exact hi.bind fun a => follows_pure (by simp)
  · exact follows_pure rfl

theorem follows_separated {g : α → β} {item : Parser τ α} {item' : Parser σ β}
    (hi : Follows loose f g item item') :
    Follows loose f (List.map g) (separated item) (separated item') := by
  refine hi.bind fun first => follows_iterate (g := List.map g) (fun items => ?_) [first]
  refine (follows_accept _).bind fun o => ?_
  cases o with
  | none => exact follows_pure rfl
  | some _ => exact hi.bind fun a => follows_pure (by simp)

theorem follows_separatedUntil {g : α → β} {item : Parser τ α} {item' : Parser σ β}
    (closing : Kind) (hi : Follows loose f g item item') :
    Follows loose f (List.map g) (separatedUntil closing item) (separatedUntil closing item') :=
  (follows_sees _).ite (follows_pure rfl) (follows_separated hi)

theorem follows_whole {g : α → β} {p : Parser τ α} {q : Parser σ β} (hp : Follows loose f g p q) :
    Follows loose f g (whole p) (whole q) := by
  refine hp.bind fun a ts => .inl ?_
  cases ts <;> rfl

theorem follows_arraySuffix : Follows loose f id arraySuffix arraySuffix := by
  refine follows_iterate (g := id) (fun n => (follows_seesAll _).ite ?_ (follows_pure rfl)) 0
  exact (follows_accept _).bind fun _ => (follows_accept _).bind fun _ => follows_pure rfl

omit [TokenView τ] [TokenView σ] in
theorem map_arrays (f : τ → σ) (element : TypeExpr τ) (n : Nat) (isRef : Bool) :
    (element.arrays n isRef).map f = (element.map f).arrays n isRef := by
  induction n generalizing isRef with
  | zero => rfl
  | succ n ih => simp only [TypeExpr.arrays, TypeExpr.map, ih]

theorem follows_functionTypeOver {entry : Parser τ (TypeExpr τ)} {entry' : Parser σ (TypeExpr σ)}
    (he : Follows loose f (TypeExpr.map f) entry entry') :
    Follows loose f (TypeExpr.map f) (functionTypeOver entry) (functionTypeOver entry') := by
  refine (follows_expect .funWord .funWord).bind_of fun keyword ts rest hk => ?_
  have hkind := (expect_ok hk).2
  refine (follows_accept _).bind fun o => ?_
  cases o with
  | none =>
    exact follows_pure (by simp [TypeExpr.map, TypeExpr.mapList, f.unwrittenVoid_map, hkind])
  | some _ =>
    refine he.bind fun first => ?_
    refine (follows_iterate (g := Prod.map (List.map (TypeExpr.map f)) (TypeExpr.map f))
      (fun entries => ?_) ([], first)).bind fun entries => ?_
    · refine (follows_accept _).bind fun o => ?_
      cases o with
      | none => exact follows_pure rfl
      | some _ => exact he.bind fun next => follows_pure (by simp)
    · refine follows_expectClosingAngle.bind fun _ => follows_pure ?_
      simp [TypeExpr.map, TypeExpr.mapList_eq]

theorem follows_typeOver {function : Parser τ (TypeExpr τ)} {function' : Parser σ (TypeExpr σ)}
    (hf : Follows loose f (TypeExpr.map f) function function') (allowVoid : Bool) :
    Follows loose f (TypeExpr.map f) (typeOver function allowVoid)
      (typeOver function' allowVoid) := by
  refine (follows_accept _).bind fun ref => (follows_sees _).ite ?_ ?_
  · cases ref with
    | some t => exact fun ts => .inl rfl
    | none =>
      refine hf.bind fun type => follows_arraySuffix.bind fun n => follows_pure ?_
      exact map_arrays f type n false
  · refine (follows_require _ _).bind fun name => follows_arraySuffix.bind fun n => ?_
    cases n with
    | zero => exact follows_pure (by simp [TypeExpr.map])
    | succ n => exact follows_pure (by simp [TypeExpr.map, map_arrays])

def Raises (loose : Prop) (n m : Nat) : Prop := n = m ∨ loose ∧ n ≤ m

theorem Raises.pred {n m : Nat} (h : Raises loose (n + 1) m) :
    ∃ k, m = k + 1 ∧ Raises loose n k := by
  obtain rfl | ⟨hl, hn⟩ := h
  · exact ⟨n, rfl, .inl rfl⟩
  · obtain ⟨k, rfl⟩ := Nat.exists_eq_add_of_le' (Nat.le_trans (Nat.le_add_left 1 n) hn)
    exact ⟨k, rfl, .inr ⟨hl, by omega⟩⟩

theorem follows_tooDeep {g : α → β} {m : Nat} (h : Raises loose 0 m) {q : Parser σ β}
    (hq : m = 0 → q = tooDeep) : Follows loose f g tooDeep q := by
  obtain rfl | ⟨hl, -⟩ := h
  · rw [hq rfl]
    exact follows_fail _
  · exact fun ts => .inr ⟨hl, ts, rfl⟩

theorem functionType_eq (n : Nat) : (functionType n : Parser τ (TypeExpr τ)) =
    functionTypeOver (match n with | 0 => tooDeep | k + 1 => typeExpr k true) := by
  cases n <;> rfl

theorem typeExpr_eq_over (n : Nat) (allowVoid : Bool) :
    (typeExpr n allowVoid : Parser τ (TypeExpr τ)) = typeOver (functionType n) allowVoid := by
  cases n <;> rfl

theorem follows_functionType {n m : Nat} (h : Raises loose n m) :
    Follows loose f (TypeExpr.map f) (functionType n) (functionType m) := by
  induction n generalizing m with
  | zero =>
    rw [functionType_eq, functionType_eq]
    refine follows_functionTypeOver (follows_tooDeep h ?_)
    rintro rfl
    rfl
  | succ n ih =>
    obtain ⟨m, rfl, h'⟩ := h.pred
    rw [functionType_eq, functionType_eq]
    simp only [typeExpr_eq_over]
    exact follows_functionTypeOver (follows_typeOver (ih h') true)

theorem follows_typeExpr {n m : Nat} (h : Raises loose n m) (allowVoid : Bool) :
    Follows loose f (TypeExpr.map f) (typeExpr n allowVoid) (typeExpr m allowVoid) := by
  rw [typeExpr_eq_over, typeExpr_eq_over]
  exact follows_typeOver (follows_functionType h) allowVoid

section

variable {expression operand : Parser τ (Expr τ)} {expression' operand' : Parser σ (Expr σ)}
  {function : Parser τ (TypeExpr τ)} {function' : Parser σ (TypeExpr σ)}

omit [TokenView τ] [TokenView σ] in
theorem map_node (f : τ → σ) (level : BinaryLevel) (operator : τ) (left right : Expr τ) :
    (level.node operator left right).map f =
      level.node (f operator) (left.map f) (right.map f) := by
  unfold BinaryLevel.node
  split <;> rfl

theorem follows_binaryOver (ho : Follows loose f (Expr.map f) operand operand')
    (levels : List BinaryLevel) :
    Follows loose f (Expr.map f) (binaryOver operand levels) (binaryOver operand' levels) := by
  induction levels with
  | nil => exact ho
  | cons level tighter ih =>
    refine ih.bind fun first => follows_iterate (g := Expr.map f) (fun left => ?_) first
    refine (follows_accept _).bind fun o => ?_
    cases o with
    | none => exact follows_pure rfl
    | some operator =>
      exact ih.bind fun right => follows_pure (congrArg some (map_node f level operator left right))

theorem follows_assignmentOver (ho : Follows loose f (Expr.map f) operand operand')
    (he : Follows loose f (Expr.map f) expression expression') :
    Follows loose f (Expr.map f) (assignmentOver operand expression)
      (assignmentOver operand' expression') := by
  refine (follows_binaryOver ho _).bind fun target => (follows_accept _).bind fun o => ?_
  cases o with
  | none => exact follows_pure rfl
  | some operator =>
    refine he.bind fun value => ?_
    cases target with
    | «variable» _ _ | property _ _ => exact follows_pure rfl
    | _ => exact fun ts => .inl rfl

theorem follows_argumentOver (he : Follows loose f (Expr.map f) expression expression') :
    Follows loose f (Expr.map f) (argumentOver expression) (argumentOver expression') := by
  refine (follows_accept _).bind fun o => ?_
  cases o with
  | none => exact he
  | some _ => exact (follows_expect _ _).bind fun name => follows_pure rfl

theorem follows_callOver (he : Follows loose f (Expr.map f) expression expression')
    (callee : Expr τ) : Follows loose f (Expr.map f) (callOver expression callee)
      (callOver expression' (callee.map f)) := by
  refine (follows_separatedUntil _ (follows_argumentOver he)).bind fun arguments =>
    (follows_expect _ _).bind fun paren => follows_pure ?_
  rw [Expr.map, Expr.mapList_eq]

theorem follows_bracketed (he : Follows loose f (Expr.map f) expression expression')
    (what : Expected) :
    Follows loose f (Expr.map f) (bracketed expression what) (bracketed expression' what) :=
  he.bind fun _ => (follows_expect _ _).bind fun _ => follows_pure rfl

theorem follows_newOver (he : Follows loose f (Expr.map f) expression expression')
    (hf : Follows loose f (TypeExpr.map f) function function') :
    Follows loose f (Expr.map f) (newOver expression function)
      (newOver expression' function') := by
  have hsize : Follows loose f (Expr.map f)
      (do let _ ← accept (· == .leftBracket); bracketed expression .closingSize)
      (do let _ ← accept (· == .leftBracket); bracketed expression' .closingSize) :=
    (follows_accept _).bind fun _ => follows_bracketed he _
  have harray : ∀ element : TypeExpr τ, Follows loose f (Expr.map f)
      (do
        let sizes ← manyWhile (· == .leftBracket) do
          let _ ← accept (· == .leftBracket)
          bracketed expression .closingSize
        return Expr.newArray (element.arrays sizes.length false) sizes)
      (do
        let sizes ← manyWhile (· == .leftBracket) do
          let _ ← accept (· == .leftBracket)
          bracketed expression' .closingSize
        return Expr.newArray ((element.map f).arrays sizes.length false) sizes) := by
    intro element
    refine (follows_manyWhile _ hsize).bind fun sizes => follows_pure ?_
    rw [Expr.map, Expr.mapList_eq, map_arrays, List.length_map]
  refine (follows_sees _).bind fun isFunction => ?_
  cases isFunction with
  | true => exact hf.bind fun element => (follows_sees _).ite (harray element) (follows_fail _)
  | false =>
    have hname : Follows loose f (TypeExpr.map f)
        ((fun name => TypeExpr.named name false) <$> require isTypeName .typeName)
        ((fun name => TypeExpr.named name false) <$> require isTypeName .typeName) :=
      (follows_require _ _).map fun _ => rfl
    exact hname.bind fun element => (follows_sees _).ite (harray element)
      ((follows_expect _ _).bind fun _ => (follows_expect _ _).bind fun _ => follows_pure rfl)

theorem follows_variableAfter (name : τ) :
    Follows loose f (Expr.map f) (variableAfter name) (variableAfter (f name)) := by
  refine (follows_accept _).bind fun o => ?_
  cases o with
  | none => exact follows_pure rfl
  | some operator =>
    refine follows_pure ?_
    rw [f.kind_map]
    split <;> rfl

theorem follows_primaryOver (he : Follows loose f (Expr.map f) expression expression')
    (hf : Follows loose f (TypeExpr.map f) function function') :
    Follows loose f (Expr.map f) (primaryOver expression function)
      (primaryOver expression' function') := by
  have hgroup : Follows loose f (Expr.map f)
      (do let e ← expression; let _ ← expect .rightParen .closingGroup; return Expr.grouped e)
      (do let e ← expression'; let _ ← expect .rightParen .closingGroup; return Expr.grouped e) :=
    he.bind fun e => (follows_expect _ _).bind fun _ => follows_pure rfl
  have hliteral : Follows loose f (Expr.map f) (Expr.functionType <$> function)
      (Expr.functionType <$> function') := hf.map fun _ => rfl
  intro ts
  cases ts with
  | nil => exact .inl rfl
  | cons t ts =>
    simp only [primaryOver, List.map_cons, f.kind_map]
    split
    · exact .inl rfl
    · split
      · exact hgroup ts
      · exact follows_variableAfter t ts
      · exact follows_newOver he hf ts
      · exact hliteral (t :: ts)
      · exact .inl rfl

theorem follows_postfixStep (he : Follows loose f (Expr.map f) expression expression')
    (e : Expr τ) : Follows loose f (Option.map (Expr.map f)) (postfixStep expression e)
      (postfixStep expression' (e.map f)) := by
  refine (follows_accept _).bind fun o => ?_
  cases o with
  | none => exact follows_pure rfl
  | some t =>
    simp only [Option.map_some, f.kind_map]
    split
    · exact (follows_callOver he e).map fun _ => rfl
    · exact (follows_expect _ _).bind fun name => follows_pure rfl
    · exact (follows_bracketed he _).bind fun position => follows_pure rfl

theorem follows_unaryOver (ho : Follows loose f (Expr.map f) operand operand')
    (he : Follows loose f (Expr.map f) expression expression')
    (hf : Follows loose f (TypeExpr.map f) function function') :
    Follows loose f (Expr.map f) (unaryOver operand expression function)
      (unaryOver operand' expression' function') := by
  refine (follows_accept _).bind fun o => ?_
  cases o with
  | none =>
    exact (follows_primaryOver he hf).bind fun e =>
      follows_iterate (g := Expr.map f) (follows_postfixStep he) e
  | some operator => exact ho.bind fun e => follows_pure rfl

end

theorem follows_layer {n m : Nat} (h : Raises loose n m) :
    Follows loose f (Expr.map f) (layer n).expression (layer m).expression ∧
      Follows loose f (Expr.map f) (layer n).unary (layer m).unary := by
  induction n generalizing m with
  | zero =>
    have hdeep : ∀ {q : Parser σ (Expr σ)}, (m = 0 → q = tooDeep) →
        Follows loose f (Expr.map f) tooDeep q := follows_tooDeep h
    cases m with
    | zero =>
      exact ⟨hdeep fun _ => rfl, follows_unaryOver (hdeep fun _ => rfl) (hdeep fun _ => rfl)
        (follows_functionType h)⟩
    | succ m =>
      exact ⟨hdeep nofun, follows_unaryOver (hdeep nofun) (hdeep nofun) (follows_functionType h)⟩
  | succ n ih =>
    obtain ⟨m, rfl, h'⟩ := h.pred
    have hexpression := follows_assignmentOver (ih h').2 (ih h').1
    exact ⟨hexpression, follows_unaryOver (ih h').2 hexpression (follows_functionType h)⟩

theorem follows_expression {n m : Nat} (h : Raises loose n m) :
    Follows loose f (Expr.map f) (expression n) (expression m) := (follows_layer h).1

section

variable {expression : Parser τ (Expr τ)} {expression' : Parser σ (Expr σ)}
  {type : Parser τ (TypeExpr τ)} {type' : Parser σ (TypeExpr σ)}
  {block : Parser τ (List (Stmt τ))} {block' : Parser σ (List (Stmt σ))}
  {conditional : Parser τ (Stmt τ)} {conditional' : Parser σ (Stmt σ)}

theorem follows_varDeclaration (he : Follows loose f (Expr.map f) expression expression')
    (keyword : τ) : Follows loose f (Stmt.map f) (varDeclaration expression keyword)
      (varDeclaration expression' (f keyword)) :=
  (follows_expect _ _).bind fun _ => (follows_expect _ _).bind fun _ => he.bind fun _ =>
    (follows_expect _ _).bind fun _ => follows_pure rfl

theorem follows_declaration (he : Follows loose f (Expr.map f) expression expression')
    (ht : Follows loose f (TypeExpr.map f) type type') :
    Follows loose f (Stmt.map f) (declaration expression type) (declaration expression' type') := by
  refine ht.bind fun _ => (follows_expect _ _).bind fun _ => (follows_accept _).bind fun o => ?_
  cases o with
  | none => exact (follows_expect _ _).bind fun _ => follows_pure rfl
  | some _ => exact he.bind fun _ => (follows_expect _ _).bind fun _ => follows_pure rfl

theorem follows_seesDeclaration : Follows loose f id seesDeclaration seesDeclaration := by
  intro ts
  left
  simp only [seesDeclaration, map_kind_map, mapOutcome, id]

theorem follows_simpleStatement (he : Follows loose f (Expr.map f) expression expression')
    (ht : Follows loose f (TypeExpr.map f) type type') :
    Follows loose f (Stmt.map f) (simpleStatement expression type)
      (simpleStatement expression' type') := by
  refine (follows_accept _).bind fun o => ?_
  cases o with
  | some keyword => exact follows_varDeclaration he keyword
  | none =>
    exact follows_seesDeclaration.ite (follows_declaration he ht)
      (he.bind fun _ => (follows_expect _ _).bind fun _ => follows_pure rfl)

theorem follows_condition (he : Follows loose f (Expr.map f) expression expression')
    (keyword : String) :
    Follows loose f (Expr.map f) (condition expression keyword) (condition expression' keyword) :=
  (follows_expect _ _).bind fun _ => he.bind fun _ => (follows_expect _ _).bind fun _ =>
    follows_pure rfl

theorem follows_ifWith (he : Follows loose f (Expr.map f) expression expression')
    (hb : Follows loose f (List.map (Stmt.map f)) block block')
    (hc : Follows loose f (Stmt.map f) conditional conditional') :
    Follows loose f (Stmt.map f) (ifWith expression block conditional)
      (ifWith expression' block' conditional') := by
  refine (follows_accept _).bind fun _ => (follows_condition he _).bind fun test =>
    hb.bind fun body => (follows_accept _).bind fun o => ?_
  cases o with
  | none => exact follows_pure (by simp [Stmt.map, Stmt.mapList_eq])
  | some _ =>
    refine (follows_sees _).ite ?_ ?_
    · exact hc.bind fun other => follows_pure (by simp [Stmt.map, Stmt.mapList_eq])
    · exact hb.bind fun other => follows_pure (by simp [Stmt.map, Stmt.mapList_eq])

theorem follows_whileOver (he : Follows loose f (Expr.map f) expression expression')
    (hb : Follows loose f (List.map (Stmt.map f)) block block') :
    Follows loose f (Stmt.map f) (whileOver expression block) (whileOver expression' block') :=
  (follows_condition he _).bind fun _ => hb.bind fun _ =>
    follows_pure (by simp [Stmt.map, Stmt.mapList_eq])

theorem forCondition_cons (expression : Parser τ (Expr τ)) (t : τ) (ts : List τ) :
    forCondition expression (t :: ts) =
      if kind t = .semicolon then .ok (.literal (unwrittenTrue t), t :: ts)
      else expression (t :: ts) := by
  refine (bind_apply _ _ _).trans ?_
  by_cases ht : kind t = .semicolon
  · simp only [if_pos ht]
    rfl
  · simp only [if_neg ht]

theorem follows_forCondition (he : Follows loose f (Expr.map f) expression expression') :
    Follows loose f (Expr.map f) (forCondition expression) (forCondition expression') := by
  intro ts
  cases ts with
  | nil => exact he []
  | cons t ts =>
    rw [List.map_cons, forCondition_cons, forCondition_cons, f.kind_map]
    split
    · next ht =>
      refine .inl ?_
      simp only [mapOutcome, Expr.map, List.map_cons, f.unwrittenTrue_map t ht]
    · exact he (t :: ts)

omit [TokenView τ] [TokenView σ] in
theorem map_forTree (f : τ → σ) (initializer : Option (Stmt τ)) (test : Expr τ)
    (increment : Option (Expr τ)) (body : List (Stmt τ)) :
    (forTree initializer test increment body).map f =
      forTree (initializer.map (Stmt.map f)) (test.map f) (increment.map (Expr.map f))
        (body.map (Stmt.map f)) := by
  cases initializer <;> cases increment <;> simp [forTree, Stmt.map, Stmt.mapList_eq]

theorem follows_forOver (he : Follows loose f (Expr.map f) expression expression')
    (ht : Follows loose f (TypeExpr.map f) type type')
    (hb : Follows loose f (List.map (Stmt.map f)) block block') :
    Follows loose f (Stmt.map f) (forOver expression type block)
      (forOver expression' type' block') := by
  have hend : ∀ (initializer : Option (Stmt τ)) (test : Expr τ) (increment : Option (Expr τ)),
      Follows loose f (Stmt.map f)
        (do
          let _ ← expect .rightParen .forClosing
          let body ← block
          return forTree initializer test increment body)
        (do
          let _ ← expect .rightParen .forClosing
          let body ← block'
          return forTree (initializer.map (Stmt.map f)) (test.map f)
            (increment.map (Expr.map f)) body) := by
    intro initializer test increment
    refine (follows_expect _ _).bind fun _ => hb.bind fun body => follows_pure ?_
    exact map_forTree f initializer test increment body
  have hrest : ∀ initializer : Option (Stmt τ), Follows loose f (Stmt.map f)
      (do
        let test ← forCondition expression
        let _ ← expect .semicolon .loopConditionEnd
        let increment ← do
          if ← sees (· == .rightParen) then pure none else some <$> expression
        let _ ← expect .rightParen .forClosing
        let body ← block
        return forTree initializer test increment body)
      (do
        let test ← forCondition expression'
        let _ ← expect .semicolon .loopConditionEnd
        let increment ← do
          if ← sees (· == .rightParen) then pure none else some <$> expression'
        let _ ← expect .rightParen .forClosing
        let body ← block'
        return forTree (initializer.map (Stmt.map f)) test increment body) := by
    intro initializer
    refine (follows_forCondition he).bind fun test => (follows_expect _ _).bind fun _ =>
      (follows_sees _).ite ?_ ?_
    · exact hend initializer test none
    · have hsome : Follows loose f (Option.map (Expr.map f)) (some <$> expression)
          (some <$> expression') := he.map fun _ => rfl
      exact hsome.bind fun increment => hend initializer test increment
  refine (follows_expect _ _).bind fun _ => (follows_accept _).bind fun o => ?_
  cases o with
  | some _ => exact hrest none
  | none =>
    have hsome : Follows loose f (Option.map (Stmt.map f))
        (some <$> simpleStatement expression type)
        (some <$> simpleStatement expression' type') :=
      (follows_simpleStatement he ht).map fun _ => rfl
    exact hsome.bind fun initializer => hrest initializer

theorem follows_returnOver (he : Follows loose f (Expr.map f) expression expression')
    (keyword : τ) : Follows loose f (Stmt.map f) (returnOver expression keyword)
      (returnOver expression' (f keyword)) := by
  refine (follows_accept _).bind fun o => ?_
  cases o with
  | some _ => exact follows_pure rfl
  | none => exact he.bind fun _ => (follows_expect _ _).bind fun _ => follows_pure rfl

theorem follows_statementOver (he : Follows loose f (Expr.map f) expression expression')
    (ht : Follows loose f (TypeExpr.map f) type type')
    (hb : Follows loose f (List.map (Stmt.map f)) block block')
    (hc : Follows loose f (Stmt.map f) conditional conditional') :
    Follows loose f (Stmt.map f) (statementOver expression type block conditional)
      (statementOver expression' type' block' conditional') := by
  have hblock : Follows loose f (Stmt.map f) (Stmt.block <$> block) (Stmt.block <$> block') :=
    hb.map fun _ => by simp [Stmt.map, Stmt.mapList_eq]
  intro ts
  cases ts with
  | nil => exact follows_simpleStatement he ht []
  | cons t ts =>
    simp only [statementOver, List.map_cons, f.kind_map]
    split
    · exact hblock (t :: ts)
    · exact hc (t :: ts)
    · exact follows_whileOver he hb ts
    · exact follows_forOver he ht hb ts
    · exact follows_returnOver he t ts
    · exact follows_simpleStatement he ht (t :: ts)

theorem follows_blockOver {statement : Parser τ (Stmt τ)} {statement' : Parser σ (Stmt σ)}
    (hs : Follows loose f (Stmt.map f) statement statement') :
    Follows loose f (List.map (Stmt.map f)) (blockOver statement) (blockOver statement') :=
  (follows_expect _ _).bind fun _ => (follows_manyWhile _ hs).bind fun _ =>
    (follows_expect _ _).bind fun _ => follows_pure rfl

end

theorem follows_stmtLayer {n m : Nat} (h : Raises loose n m) :
    Follows loose f (List.map (Stmt.map f)) (stmtLayer n).block (stmtLayer m).block ∧
      Follows loose f (Stmt.map f) (stmtLayer n).conditional (stmtLayer m).conditional := by
  induction n generalizing m with
  | zero =>
    have hdeep : ∀ {α β : Type} {g : α → β} {q : Parser σ β}, (m = 0 → q = tooDeep) →
        Follows loose f g tooDeep q := follows_tooDeep h
    cases m with
    | zero =>
      exact ⟨hdeep fun _ => rfl, follows_ifWith (follows_expression h) (hdeep fun _ => rfl)
        (hdeep fun _ => rfl)⟩
    | succ m =>
      exact ⟨hdeep nofun, follows_ifWith (follows_expression h) (hdeep nofun) (hdeep nofun)⟩
  | succ n ih =>
    obtain ⟨m, rfl, h'⟩ := h.pred
    have hblock := follows_blockOver (follows_statementOver (follows_expression h')
      (follows_typeExpr h' false) (ih h').1 (ih h').2)
    exact ⟨hblock, follows_ifWith (follows_expression h) hblock (ih h').2⟩

theorem follows_field {type : Parser τ (TypeExpr τ)} {type' : Parser σ (TypeExpr σ)}
    (ht : Follows loose f (TypeExpr.map f) type type') (what : Expected) :
    Follows loose f (Field.map f) (field type what) (field type' what) :=
  ht.bind fun _ => (follows_expect _ _).bind fun _ => follows_pure rfl

theorem follows_structDeclaration {type : Parser τ (TypeExpr τ)} {type' : Parser σ (TypeExpr σ)}
    (ht : Follows loose f (TypeExpr.map f) type type') :
    Follows loose f (Declaration.map f) (structDeclaration type) (structDeclaration type') := by
  have hmember : Follows loose f (Field.map f)
      (do let f ← field type .fieldName; let _ ← expect .semicolon .fieldEnd; return f)
      (do let f ← field type' .fieldName; let _ ← expect .semicolon .fieldEnd; return f) :=
    (follows_field ht _).bind fun _ => (follows_expect _ _).bind fun _ => follows_pure rfl
  exact (follows_expect _ _).bind fun _ => (follows_expect _ _).bind fun _ =>
    (follows_manyWhile _ hmember).bind fun _ => (follows_expect _ _).bind fun _ => follows_pure rfl

theorem follows_functionDeclaration {n m : Nat} (h : Raises loose n m) :
    Follows loose f (Declaration.map f) (functionDeclaration n) (functionDeclaration m) := by
  refine (follows_typeExpr h true).bind fun _ => (follows_expect _ _).bind fun _ =>
    (follows_expect _ _).bind fun _ =>
      (follows_separatedUntil _ (follows_field (follows_typeExpr h false) _)).bind fun _ =>
        (follows_expect _ _).bind fun _ => (follows_stmtLayer h).1.bind fun _ => follows_pure ?_
  simp [Declaration.map, Stmt.mapList_eq]

/-- Programs are parsed alike whatever the tokens are besides their kinds, and with a higher limit
alike unless the code nests too deeply. -/
theorem follows_program {n m : Nat} (h : Raises loose n m) :
    Follows loose f (Program.map f) (program n) (program m) := by
  have hdeclaration : Follows loose f (Declaration.map f) (topDeclaration n)
      (topDeclaration m) := by
    refine (follows_accept _).bind fun o => ?_
    cases o with
    | some _ => exact follows_structDeclaration (follows_typeExpr h false)
    | none => exact follows_functionDeclaration h
  refine (follows_manyWhile _ hdeclaration).bind fun declarations ts => .inl ?_
  cases ts <;> rfl

end

end Parser

end Seanet
