import Seanet.Proofs.Instances.Methods

set_option autoImplicit false

namespace Seanet

namespace Instances

open Machine

/-- The parsing functions. -/
inductive Routine where
  | expression | assignment | binary (level : Nat) | unary | suffixed
  | call (callee : Expr Token) | argument | primary | newObject
  | type (allowVoid : Bool) | functionType | namedType | typeName | arraySuffix
  | varDeclaration | declaration | expressionStatement | condition (keyword : String)
  | conditional | whileLoop | forLoop | returnStatement | statement | block | braced
  | structDeclaration | functionDeclaration | program

namespace Routine

abbrev Value : Routine → Type
  | expression | assignment | binary _ | unary | suffixed | call _ | argument | primary
  | newObject | condition _ => Expr Token
  | type _ | functionType | namedType => TypeExpr Token
  | typeName => Token
  | arraySuffix => Nat
  | varDeclaration | declaration | expressionStatement | conditional | whileLoop | forLoop
  | returnStatement | statement => Stmt Token
  | block | braced => List (Stmt Token)
  | structDeclaration | functionDeclaration => Declaration Token
  | program => Program Token

/-- There may be no brackets, and a program may be empty. All else reads something. -/
def Reads : Routine → Prop
  | arraySuffix | program => False
  | _ => True

end Routine

namespace Methods

def run (self : Methods) : (r : Routine) → Machine r.Value
  | .expression => self.expression
  | .assignment => self.assignment
  | .binary level => self.binary level
  | .unary => self.unary
  | .suffixed => self.suffixed
  | .call callee => self.call callee
  | .argument => self.argument
  | .primary => self.primary
  | .newObject => self.newObject
  | .type allowVoid => self.type allowVoid
  | .functionType => self.functionType
  | .namedType => self.namedType
  | .typeName => self.typeName
  | .arraySuffix => self.arraySuffix
  | .varDeclaration => self.varDeclaration
  | .declaration => self.declaration
  | .expressionStatement => self.expressionStatement
  | .condition keyword => self.condition keyword
  | .conditional => self.conditional
  | .whileLoop => self.whileLoop
  | .forLoop => self.forLoop
  | .returnStatement => self.returnStatement
  | .statement => self.statement
  | .block => self.block
  | .braced => self.braced
  | .structDeclaration => self.structDeclaration
  | .functionDeclaration => self.functionDeclaration
  | .program => self.program

/-- As `next`, but what runs one level deeper is first changed by `inside`. -/
def nextWith (inside : ∀ {α : Type}, Machine α → Machine α) (limit : Nat) (self : Methods) :
    Methods :=
  { self.next limit with
    expression := { self with assignment := inside self.assignment }.expressionBody limit
    unary := { self with unary := inside self.unary }.unaryBody limit
    functionType :=
      { self with type := fun allowVoid => inside (self.type allowVoid) }.functionTypeBody limit
    conditional := { self with conditional := inside self.conditional }.conditionalBody limit
    block := nested limit (inside self.braced) }

end Methods

namespace Machine

variable {α : Type}

def commaStep (item : Machine α) (items : List α) : Machine (Option (List α)) := do
  match ← take (· == .comma) with
  | none => return none
  | some _ =>
    let a ← item
    return some (items ++ [a])

def whileStep (more : Machine Bool) (item : Machine α) (items : List α) :
    Machine (Option (List α)) := do
  if ← more then
    let a ← item
    return some (items ++ [a])
  else return none

theorem commaLoop_eq (item : Machine α) :
    commaLoop item = (do let first ← item; loop (commaStep item) [first]) := rfl

theorem whileLoop_eq (more : Machine Bool) (item : Machine α) :
    whileLoop more item = loop (whileStep more item) [] := rfl

theorem bind_pure (method : Machine α) : method >>= pure = method := by
  funext m
  simp only [Bind.bind]
  rcases method m with ⟨_ | _ | _, m'⟩ <;> rfl

end Machine

namespace Methods

def bracketsStep (n : Nat) : Machine (Option Nat) := do
  if ← check (· == .leftBracket) then
    if ← checkAt 1 .rightBracket then
      let _ ← advance
      let _ ← advance
      return some (n + 1)
    else return none
  else return none

theorem arraySuffixBody_eq : arraySuffixBody = loop bracketsStep 0 := rfl

def operatorStep (self : Methods) (level : BinaryLevel) (i : Nat) (left : Expr Token) :
    Machine (Option (Expr Token)) := do
  match ← take level.operators.contains with
  | none => return none
  | some operator =>
    let right ← self.binary (i + 1)
    return some (level.node operator left right)

theorem binaryBody_eq (self : Methods) (i : Nat) : self.binaryBody i =
    (match BinaryLevel.all[i]? with
    | none => self.unary
    | some level => do
      let first ← self.binary (i + 1)
      loop (self.operatorStep level i) first) := rfl

def member (self : Methods) : Machine (Field Token) := do
  let type ← self.type false
  let name ← consume .identifier .fieldName
  let _ ← consume .semicolon .fieldEnd
  return ⟨type, name⟩

def parameter (self : Methods) : Machine (Field Token) := do
  let type ← self.type false
  let name ← consume .identifier .parameterName
  return ⟨type, name⟩

def topDeclaration (self : Methods) : Machine (Declaration Token) := do
  if ← check (· == .structWord) then self.structDeclaration else self.functionDeclaration

def beginsTopDeclaration : Machine Bool := check fun k => k == .structWord || Parser.beginsResult k

theorem structDeclarationBody_eq (self : Methods) : self.structDeclarationBody = (do
    let _ ← advance
    let name ← consume .identifier .structName
    let _ ← consume .leftBrace .structOpening
    let fields ← Machine.whileLoop (isBefore .rightBrace) self.member
    let _ ← consume .rightBrace .structClosing
    return .struct name fields) := rfl

theorem functionDeclarationBody_eq (self : Methods) : self.functionDeclarationBody = (do
    let result ← self.type true
    let name ← consume .identifier .functionName
    let _ ← consume .leftParen .parametersOpening
    let parameters ← commaLoopUntil .rightParen self.parameter
    let _ ← consume .rightParen .parametersClosing
    let body ← self.block
    return .function result name parameters body) := rfl

theorem programBody_eq (self : Methods) : self.programBody = (do
    let declarations ← Machine.whileLoop beginsTopDeclaration self.topDeclaration
    if ← isAtEnd then return ⟨declarations⟩ else errorAtCurrent .declarationOrEnd) := rfl

end Methods

abbrev MachineRelation : Type 1 := ∀ {α : Type}, (α → Prop) → Machine α → Machine α → Prop

namespace MachineRelation

abbrev always {α : Type} : α → Prop := fun _ => True

abbrev never {α : Type} : α → Prop := fun _ => False

abbrev onSome {α : Type} : Option α → Prop := fun o => o.isSome = true

/-- Machines that may go on from a token that has been looked at; it may be the next they read. -/
inductive Seen (R : MachineRelation) {α : Type} (P : α → Prop) (t : Token) :
    Machine α → Machine α → Prop where
  | stay {x y : Machine α} (h : R P x y) : Seen R P t x y
  | read {f g : Token → Machine α} (ht : t.kind ≠ .eof) (h : ∀ u, R never (f u) (g u)) :
      Seen R P t (advance >>= f) (advance >>= g)

theorem Seen.imp {R S : MachineRelation} (hs : ∀ {α : Type} {P : α → Prop} {x y : Machine α},
      R P x y → S P x y) {α : Type} {P : α → Prop} {t : Token} {x y : Machine α}
    (h : Seen R P t x y) : Seen S P t x y := by
  cases h with
  | stay h => exact .stay (hs h)
  | read ht h => exact .read ht fun u => hs (h u)

theorem Seen.stays_or_reads {R : MachineRelation} {α : Type} {P : α → Prop} {t : Token}
    {x y : Machine α} (h : Seen R P t x y) :
    R P x y ∨ t.kind ≠ .eof ∧ ∃ f g, x = advance >>= f ∧ y = advance >>= g ∧
      ∀ u, R never (f u) (g u) := by
  cases h with
  | stay h => exact .inl h
  | read ht h => exact .inr ⟨ht, _, _, rfl, rfl, h⟩

end MachineRelation

open MachineRelation

/-- The operations of the cursor are related to themselves, and sequences and loops keep the
relation. Messages about nesting come from nesting only. -/
structure Congruence (R : MachineRelation) : Prop where
  weaken {α : Type} {P Q : α → Prop} {x y : Machine α} (h : R P x y) (hq : ∀ a, Q a → P a) : R Q x y
  spent {α : Type} (P : α → Prop) : R P exhausted exhausted
  pure {α : Type} {P : α → Prop} {a : α} (h : ¬ P a) : R P (pure a) (pure a)
  bind {α β : Type} {P : α → Prop} {Q : β → Prop} {x y : Machine α} {f g : α → Machine β}
    (h : R P x y) (hread : ∀ a, P a → R never (f a) (g a)) (hf : ∀ a, ¬ P a → R Q (f a) (g a)) :
    R Q (x >>= f) (y >>= g)
  loop {α : Type} {step step' : α → Machine (Option α)}
    (h : ∀ a, R onSome (step a) (step' a)) (a : α) : R never (loop step a) (loop step' a)
  check (p : Kind → Bool) : R never (check p) (check p)
  isAtEnd : R never isAtEnd isAtEnd
  advance : R never advance advance
  ifNext {α : Type} {P : α → Prop} {p : Kind → Bool} (hp : p .eof = false)
    {f g : Token → Machine α} {x y : Machine α} (hf : ∀ t, R never (f t) (g t)) (h : R P x y) :
    R P (do if ← Machine.check p then Machine.advance >>= f else x)
      (do if ← Machine.check p then Machine.advance >>= g else y)
  look {α : Type} {P : α → Prop} {f g : Token → Machine α} (h : ∀ t, Seen R P t (f t) (g t)) :
    R P (peek >>= f) (peek >>= g)
  closingAngle (what : Expected) (hw : what ≠ .shallower) :
    R always (consumeClosingAngle what) (consumeClosingAngle what)
  error {α : Type} (P : α → Prop) {what : Expected} (hw : what ≠ .shallower) :
    R P (errorAtCurrent what) (errorAtCurrent what)
  fail {α : Type} (P : α → Prop) (t : Token) {message : Text} (code : Code)
    (hm : ¬ Expected.shallower.message <+: message) :
    R P (fail t message code) (fail t message code)
  brackets (n : Nat) : R onSome (Methods.bracketsStep n) (Methods.bracketsStep n)
  beginsDeclaration : R never Methods.beginsDeclaration Methods.beginsDeclaration

namespace Congruence

variable {R : MachineRelation} (c : Congruence R) {α β : Type} {P : α → Prop} {Q : β → Prop}

include c

theorem andThen {x y : Machine α} {f g : α → Machine β} (h : R always x y)
    (hf : ∀ a, R never (f a) (g a)) : R Q (x >>= f) (y >>= g) :=
  c.bind h (fun a _ => hf a) fun _ ha => absurd trivial ha

theorem before {x y : Machine α} {f g : α → Machine β} (h : R never x y)
    (hf : ∀ a, R Q (f a) (g a)) : R Q (x >>= f) (y >>= g) :=
  c.bind h (fun _ ha => ha.elim) fun a _ => hf a

theorem relax {x y : Machine α} (h : R always x y) : R P x y := c.weaken h fun _ _ => trivial

theorem forget {x y : Machine α} (h : R P x y) : R never x y := c.weaken h fun _ ha => ha.elim

theorem pure_never (a : α) : R never (Pure.pure a : Machine α) (Pure.pure a) := c.pure id

theorem map {x y : Machine α} (f : α → β) (h : R always x y) : R Q (f <$> x) (f <$> y) :=
  c.andThen h fun a => c.pure_never (f a)

theorem ite {b b' : Machine Bool} {x x' y y' : Machine α} (h : R never b b') (hx : R P x x')
    (hy : R P y y') : R P (do if ← b then x else y) (do if ← b' then x' else y') := by
  refine c.before h fun answer => ?_
  cases answer with
  | true => exact hx
  | false => exact hy

theorem require {p : Kind → Bool} (hp : p .eof = false) {x y : Machine Token}
    (h : R always x y) : R always (do if ← Machine.check p then Machine.advance else x)
      (do if ← Machine.check p then Machine.advance else y) := by
  have hnext := c.ifNext hp (f := Pure.pure) (g := Pure.pure) (fun t => c.pure_never t) h
  rwa [bind_pure] at hnext

theorem consume {k : Kind} (hk : k ≠ .eof) {what : Expected} (hw : what ≠ .shallower) :
    R always (consume k what) (consume k what) :=
  c.require (p := (· == k)) (beq_false_of_ne hk.symm) (c.error always hw)

theorem take {p : Kind → Bool} (hp : p .eof = false) {f g : Option Token → Machine β}
    (hs : ∀ t, R never (f (some t)) (g (some t))) (hn : R Q (f none) (g none)) :
    R Q (take p >>= f) (take p >>= g) := by
  have htake : R onSome (Machine.take p) (Machine.take p) :=
    c.ifNext hp (f := fun t => Pure.pure (some t)) (g := fun t => Pure.pure (some t))
      (fun t => c.pure_never (some t)) (c.pure (by simp))
  refine c.bind htake (fun o ho => ?_) fun o ho => ?_
  · obtain ⟨t, rfl⟩ := Option.isSome_iff_exists.1 ho
    exact hs t
  · obtain rfl : o = none := by simpa using ho
    exact hn

theorem isBefore {closing : Kind} : R never (isBefore closing) (isBefore closing) :=
  c.ite (c.check _) (c.pure_never false) (c.before c.isAtEnd fun _ => c.pure_never _)

theorem commaStep {item item' : Machine α} (h : R always item item') (items : List α) :
    R onSome (commaStep item items) (commaStep item' items) :=
  c.take rfl (fun _ => c.andThen h fun _ => c.pure_never _) (c.pure (by simp))

theorem commaLoop {item item' : Machine α} (h : R always item item') :
    R always (commaLoop item) (commaLoop item') := by
  rw [commaLoop_eq, commaLoop_eq]
  exact c.andThen h fun first => c.loop (c.commaStep h) [first]

theorem commaLoopUntil {closing : Kind} {item item' : Machine α} (h : R always item item') :
    R never (commaLoopUntil closing item) (commaLoopUntil closing item') :=
  c.ite (c.check _) (c.pure_never []) (c.relax (c.commaLoop h))

theorem whileStep {more more' : Machine Bool} {item item' : Machine α} (hm : R never more more')
    (h : R always item item') (items : List α) :
    R onSome (whileStep more item items) (whileStep more' item' items) :=
  c.ite hm (c.andThen h fun _ => c.pure_never _) (c.pure (by simp))

theorem whileLoop {more more' : Machine Bool} {item item' : Machine α} (hm : R never more more')
    (h : R always item item') : R never (whileLoop more item) (whileLoop more' item') := by
  rw [whileLoop_eq, whileLoop_eq]
  exact c.loop (c.whileStep hm h) []

variable {limit limit' : Nat} {self self' : Methods}

theorem typeName : R always Methods.typeNameBody Methods.typeNameBody :=
  c.require rfl (c.error always nofun)

theorem namedType (hn : R always self.typeName self'.typeName) :
    R always self.namedTypeBody self'.namedTypeBody :=
  c.andThen hn fun _ => c.pure_never _

theorem arraySuffix : R never Methods.arraySuffixBody Methods.arraySuffixBody := by
  rw [Methods.arraySuffixBody_eq]
  exact c.loop c.brackets 0

theorem functionType
    (he : R always (nested limit (self.type true)) (nested limit' (self'.type true))) :
    R always (self.functionTypeBody limit) (self'.functionTypeBody limit') := by
  refine c.andThen (c.consume (by decide) nofun) fun keyword =>
    c.take rfl (fun _ => ?_) (c.pure_never _)
  exact c.andThen (c.commaLoop he) fun entries =>
    c.andThen (c.closingAngle _ nofun) fun _ => c.pure_never _

theorem namedOrVoid (hn : R always self.typeName self'.typeName) (allowVoid : Bool) :
    R always (self.namedOrVoid allowVoid) (self'.namedOrVoid allowVoid) :=
  c.require (by cases allowVoid <;> rfl) hn

theorem namedArrays (hn : R always self.typeName self'.typeName)
    (ha : R never self.arraySuffix self'.arraySuffix) (allowVoid : Bool)
    {f : Token → Nat → Machine α} (hf : ∀ name n, R never (f name n) (f name n)) :
    R always (do let name ← self.namedOrVoid allowVoid; let n ← self.arraySuffix; f name n)
      (do let name ← self'.namedOrVoid allowVoid; let n ← self'.arraySuffix; f name n) :=
  c.andThen (c.namedOrVoid hn allowVoid) fun name => c.before ha fun n => hf name n

theorem type (hf : R always self.functionType self'.functionType)
    (ha : R never self.arraySuffix self'.arraySuffix)
    (hn : R always self.typeName self'.typeName) (allowVoid : Bool) :
    R always (self.typeBody allowVoid) (self'.typeBody allowVoid) := by
  refine c.take rfl (fun t => ?_) ?_
  · refine c.ite (c.check _) (c.fail never t _ (by decide))
      (c.forget (c.namedArrays hn ha allowVoid fun name n => ?_))
    cases n <;> exact c.pure_never _
  · refine c.ite (c.check _) (c.andThen hf fun _ => c.before ha fun _ => c.pure_never _)
      (c.namedArrays hn ha allowVoid fun name n => ?_)
    cases n <;> exact c.pure_never _

theorem assignment (hb : R always (self.binary 0) (self'.binary 0))
    (he : R always self.expression self'.expression) :
    R always self.assignmentBody self'.assignmentBody := by
  refine c.andThen hb fun target => c.take rfl (fun operator => ?_) (c.pure_never target)
  refine c.andThen he fun value => ?_
  cases target with
  | «variable» _ _ | property _ _ => exact c.pure_never _
  | _ => exact c.fail never operator _ (by decide)

theorem operatorStep {level : BinaryLevel} (hl : level.operators.contains .eof = false) {i : Nat}
    (hb : R always (self.binary (i + 1)) (self'.binary (i + 1))) (left : Expr Token) :
    R onSome (self.operatorStep level i left) (self'.operatorStep level i left) :=
  c.take hl (fun _ => c.andThen hb fun _ => c.pure_never _) (c.pure (by simp))

omit c in
theorem operators_ne_end {i : Nat} {level : BinaryLevel} (h : BinaryLevel.all[i]? = some level) :
    level.operators.contains .eof = false := by
  have hall : ∀ level ∈ BinaryLevel.all, level.operators.contains .eof = false := by decide
  exact hall level (List.mem_of_getElem? h)

theorem binary (hu : R always self.unary self'.unary)
    (hb : ∀ i, R always (self.binary i) (self'.binary i)) (i : Nat) :
    R always (self.binaryBody i) (self'.binaryBody i) := by
  rw [Methods.binaryBody_eq, Methods.binaryBody_eq]
  cases h : BinaryLevel.all[i]? with
  | none => exact hu
  | some level =>
    exact c.andThen (hb (i + 1)) fun first =>
      c.loop (c.operatorStep (operators_ne_end h) (hb (i + 1))) first

theorem unary (hn : R always (nested limit self.unary) (nested limit' self'.unary))
    (hs : R always self.suffixed self'.suffixed) :
    R always (self.unaryBody limit) (self'.unaryBody limit') :=
  c.take rfl (fun _ => c.andThen hn fun _ => c.pure_never _) hs

theorem suffixStep (hc : ∀ callee, R always (self.call callee) (self'.call callee))
    (he : R always self.expression self'.expression) (e : Expr Token) :
    R onSome (self.suffixStep e) (self'.suffixStep e) := by
  refine c.take rfl (fun _ => c.map some (hc e)) ?_
  refine c.take rfl (fun _ => c.andThen (c.consume (by decide) nofun) fun _ => c.pure_never _) ?_
  refine c.take rfl (fun _ => ?_) (c.pure (by simp))
  exact c.andThen he fun _ => c.andThen (c.consume (by decide) nofun) fun _ => c.pure_never _

theorem suffixed (hp : R always self.primary self'.primary)
    (hc : ∀ callee, R always (self.call callee) (self'.call callee))
    (he : R always self.expression self'.expression) :
    R always self.suffixedBody self'.suffixedBody :=
  c.andThen hp fun e => c.loop (c.suffixStep hc he) e

theorem call (ha : R always self.argument self'.argument) (callee : Expr Token) :
    R always (self.callBody callee) (self'.callBody callee) :=
  c.before (c.commaLoopUntil ha) fun _ =>
    c.andThen (c.consume (by decide) nofun) fun _ => c.pure_never _

theorem argument (he : R always self.expression self'.expression) :
    R always self.argumentBody self'.argumentBody :=
  c.take rfl (fun _ => c.andThen (c.consume (by decide) nofun) fun _ => c.pure_never _) he

theorem variableAfter (name : Token) :
    R never (Methods.variableAfter name) (Methods.variableAfter name) :=
  c.take rfl (fun _ => c.pure_never _) (c.pure_never _)

theorem primary (he : R always self.expression self'.expression)
    (hf : R always self.functionType self'.functionType)
    (hn : R always self.newObject self'.newObject) :
    R always self.primaryBody self'.primaryBody := by
  refine c.look fun t => ?_
  by_cases hl : t.kind.isLiteral = true
  · simp only [if_pos hl]
    exact .read (by rintro h; rw [h] at hl; cases hl) fun _ => c.pure_never _
  · simp only [if_neg hl]
    split
    · next hk =>
      refine .read (by simp [hk]) fun _ => c.andThen he fun _ => ?_
      exact c.andThen (c.consume (by decide) nofun) fun _ => c.pure_never _
    · next hk => exact .read (by simp [hk]) fun _ => c.variableAfter t
    · next hk => exact .read (by simp [hk]) fun _ => c.relax hn
    · exact .stay (c.map _ hf)
    · exact .stay (c.error always nofun)

theorem sizeStep (he : R always self.expression self'.expression) (sizes : List (Expr Token)) :
    R onSome (self.sizeStep sizes) (self'.sizeStep sizes) := by
  refine c.take rfl (fun _ => ?_) (c.pure (by simp))
  exact c.andThen he fun _ => c.andThen (c.consume (by decide) nofun) fun _ => c.pure_never _

theorem newObject (he : R always self.expression self'.expression)
    (hf : R always self.functionType self'.functionType)
    (hn : R always self.namedType self'.namedType) :
    R always self.newObjectBody self'.newObjectBody := by
  refine c.andThen (c.ite (c.check _) hf hn) fun element => c.ite (c.check _) ?_ ?_
  · exact c.before (c.loop (c.sizeStep he) []) fun _ => c.pure_never _
  · cases element with
    | named _ _ =>
      exact c.andThen (c.consume (by decide) nofun) fun _ =>
        c.andThen (c.consume (by decide) nofun) fun _ => c.pure_never _
    | _ => exact c.error never nofun

theorem varDeclaration (he : R always self.expression self'.expression) :
    R always self.varDeclarationBody self'.varDeclarationBody :=
  c.before c.advance fun _ => c.andThen (c.consume (by decide) nofun) fun _ =>
    c.andThen (c.consume (by decide) nofun) fun _ => c.andThen he fun _ =>
      c.andThen (c.consume (by decide) nofun) fun _ => c.pure_never _

theorem declaration (he : R always self.expression self'.expression)
    (ht : R always (self.type false) (self'.type false)) :
    R always self.declarationBody self'.declarationBody := by
  refine c.andThen ht fun type => c.andThen (c.consume (by decide) nofun) fun name =>
    c.take rfl (fun _ => ?_) ?_
  · exact c.andThen he fun _ => c.andThen (c.consume (by decide) nofun) fun _ => c.pure_never _
  · exact c.andThen (c.consume (by decide) nofun) fun _ => c.pure_never _

theorem expressionStatement (he : R always self.expression self'.expression) :
    R always self.expressionStatementBody self'.expressionStatementBody :=
  c.andThen he fun _ => c.andThen (c.consume (by decide) nofun) fun _ => c.pure_never _

theorem condition (he : R always self.expression self'.expression) (keyword : String) :
    R always (self.conditionBody keyword) (self'.conditionBody keyword) :=
  c.andThen (c.consume (by decide) nofun) fun _ => c.andThen he fun _ =>
    c.andThen (c.consume (by decide) nofun) fun _ => c.pure_never _

theorem conditional (hc : ∀ keyword, R always (self.condition keyword) (self'.condition keyword))
    (hb : R always self.block self'.block)
    (hn : R always (nested limit self.conditional) (nested limit' self'.conditional)) :
    R always (self.conditionalBody limit) (self'.conditionalBody limit') := by
  refine c.before c.advance fun _ => c.andThen (hc "if") fun test => c.andThen hb fun body =>
    c.take rfl (fun _ => c.ite (c.check _) ?_ ?_) (c.pure_never _)
  · exact c.andThen hn fun _ => c.pure_never _
  · exact c.andThen hb fun _ => c.pure_never _

theorem whileStatement (hc : ∀ keyword, R always (self.condition keyword) (self'.condition keyword))
    (hb : R always self.block self'.block) : R always self.whileLoopBody self'.whileLoopBody :=
  c.before c.advance fun _ => c.andThen (hc "while") fun _ =>
    c.andThen hb fun _ => c.pure_never _

theorem simpleStatement (hv : R always self.varDeclaration self'.varDeclaration)
    (hd : R always self.declaration self'.declaration)
    (he : R always self.expressionStatement self'.expressionStatement) :
    R always self.simpleStatement self'.simpleStatement :=
  c.ite (c.check _) hv (c.ite c.beginsDeclaration hd he)

theorem forStatement (he : R always self.expression self'.expression)
    (hs : R always self.simpleStatement self'.simpleStatement)
    (hb : R always self.block self'.block) : R always self.forLoopBody self'.forLoopBody := by
  have hinitializer : R never self.forInitializer self'.forInitializer :=
    c.take rfl (fun _ => c.pure_never _) (c.map some hs)
  have hcondition : R never self.forCondition self'.forCondition :=
    c.look fun t => .stay (c.ite (c.check _) (c.pure_never _) (c.relax he))
  have hincrement : R never self.forIncrement self'.forIncrement :=
    c.ite (c.check _) (c.pure_never _) (c.map some he)
  exact c.before c.advance fun _ => c.andThen (c.consume (by decide) nofun) fun _ =>
    c.before hinitializer fun _ => c.before hcondition fun _ =>
    c.andThen (c.consume (by decide) nofun) fun _ => c.before hincrement fun _ =>
    c.andThen (c.consume (by decide) nofun) fun _ => c.andThen hb fun _ => c.pure_never _

theorem returnStatement (he : R always self.expression self'.expression) :
    R always self.returnStatementBody self'.returnStatementBody := by
  refine c.before c.advance fun keyword => c.take rfl (fun _ => c.pure_never _) ?_
  exact c.andThen he fun _ => c.andThen (c.consume (by decide) nofun) fun _ => c.pure_never _

theorem statement (h : ∀ r, R (fun _ => r.Reads) (self.run r) (self'.run r)) :
    R always self.statementBody self'.statementBody := by
  have hdeclaration : R always self.declaration self'.declaration := h .declaration
  refine c.ite (c.check _) (h .varDeclaration) (c.ite c.beginsDeclaration hdeclaration ?_)
  refine c.look fun t => .stay ?_
  split
  · exact c.map Stmt.block (h .block)
  · exact h .conditional
  · exact h .whileLoop
  · exact h .forLoop
  · exact h .returnStatement
  · exact h .expressionStatement

theorem braced (hs : R always self.statement self'.statement) :
    R always self.bracedBody self'.bracedBody :=
  c.andThen (c.consume (by decide) nofun) fun _ => c.before (c.whileLoop c.isBefore hs) fun _ =>
    c.andThen (c.consume (by decide) nofun) fun _ => c.pure_never _

theorem member (ht : R always (self.type false) (self'.type false)) :
    R always self.member self'.member :=
  c.andThen ht fun _ => c.andThen (c.consume (by decide) nofun) fun _ =>
    c.andThen (c.consume (by decide) nofun) fun _ => c.pure_never _

theorem parameter (ht : R always (self.type false) (self'.type false)) :
    R always self.parameter self'.parameter :=
  c.andThen ht fun _ => c.andThen (c.consume (by decide) nofun) fun _ => c.pure_never _

theorem structDeclaration (ht : R always (self.type false) (self'.type false)) :
    R always self.structDeclarationBody self'.structDeclarationBody := by
  rw [Methods.structDeclarationBody_eq, Methods.structDeclarationBody_eq]
  exact c.before c.advance fun _ => c.andThen (c.consume (by decide) nofun) fun _ =>
    c.andThen (c.consume (by decide) nofun) fun _ =>
    c.before (c.whileLoop c.isBefore (c.member ht)) fun _ =>
    c.andThen (c.consume (by decide) nofun) fun _ => c.pure_never _

theorem functionDeclaration
    (ht : ∀ allowVoid, R always (self.type allowVoid) (self'.type allowVoid))
    (hb : R always self.block self'.block) :
    R always self.functionDeclarationBody self'.functionDeclarationBody := by
  rw [Methods.functionDeclarationBody_eq, Methods.functionDeclarationBody_eq]
  exact c.andThen (ht true) fun _ => c.andThen (c.consume (by decide) nofun) fun _ =>
    c.andThen (c.consume (by decide) nofun) fun _ =>
    c.before (c.commaLoopUntil (c.parameter (ht false))) fun _ =>
    c.andThen (c.consume (by decide) nofun) fun _ => c.andThen hb fun _ => c.pure_never _

theorem topDeclaration (hs : R always self.structDeclaration self'.structDeclaration)
    (hf : R always self.functionDeclaration self'.functionDeclaration) :
    R always self.topDeclaration self'.topDeclaration :=
  c.ite (c.check _) hs hf

theorem program (hs : R always self.structDeclaration self'.structDeclaration)
    (hf : R always self.functionDeclaration self'.functionDeclaration) :
    R never self.programBody self'.programBody := by
  rw [Methods.programBody_eq, Methods.programBody_eq]
  refine c.before (c.whileLoop (c.check _) (c.topDeclaration hs hf)) fun declarations => ?_
  exact c.ite c.isAtEnd (c.pure_never _) (c.error never nofun)

theorem next (inside : ∀ {α : Type}, Machine α → Machine α)
    (hn : ∀ {α : Type} {P : α → Prop} {x y : Machine α},
      R P x y → R P (nested limit x) (nested limit' (inside y)))
    (h : ∀ r, R (fun _ => r.Reads) (self.run r) (self'.run r)) :
    ∀ r, R (fun _ => r.Reads) ((self.next limit).run r)
      ((self'.nextWith inside limit').run r) := by
  have he : R always self.expression self'.expression := h .expression
  have hf : R always self.functionType self'.functionType := h .functionType
  have ht : ∀ allowVoid, R always (self.type allowVoid) (self'.type allowVoid) :=
    fun allowVoid => h (.type allowVoid)
  have hb : R always self.block self'.block := h .block
  have hc : ∀ keyword, R always (self.condition keyword) (self'.condition keyword) :=
    fun keyword => h (.condition keyword)
  have hname : R always self.typeName self'.typeName := h .typeName
  have hsimple : R always self.simpleStatement self'.simpleStatement :=
    c.simpleStatement (h .varDeclaration) (h .declaration) (h .expressionStatement)
  intro r
  cases r with
  | expression => exact hn (h .assignment)
  | assignment => exact c.assignment (h (.binary 0)) he
  | binary level => exact c.binary (h .unary) (fun i => h (.binary i)) level
  | unary => exact c.unary (hn (h .unary)) (h .suffixed)
  | suffixed => exact c.suffixed (h .primary) (fun callee => h (.call callee)) he
  | call callee => exact c.call (h .argument) callee
  | argument => exact c.argument he
  | primary => exact c.primary he hf (h .newObject)
  | newObject => exact c.newObject he hf (h .namedType)
  | type allowVoid => exact c.type hf (h .arraySuffix) hname allowVoid
  | functionType => exact c.functionType (hn (ht true))
  | namedType => exact c.namedType hname
  | typeName => exact c.typeName
  | arraySuffix => exact c.arraySuffix
  | varDeclaration => exact c.varDeclaration he
  | declaration => exact c.declaration he (ht false)
  | expressionStatement => exact c.expressionStatement he
  | condition keyword => exact c.condition he keyword
  | conditional => exact c.conditional hc hb (hn (h .conditional))
  | whileLoop => exact c.whileStatement hc hb
  | forLoop => exact c.forStatement he hsimple hb
  | returnStatement => exact c.returnStatement he
  | statement => exact c.statement h
  | block => exact hn (h .braced)
  | braced => exact c.braced (h .statement)
  | structDeclaration => exact c.structDeclaration (ht false)
  | functionDeclaration => exact c.functionDeclaration ht hb
  | program => exact c.program (h .structDeclaration) (h .functionDeclaration)

theorem spentMethods (r : Routine) :
    R (fun _ => r.Reads) (Methods.spent.run r) (Methods.spent.run r) := by
  cases r <;> exact c.spent _

theorem methods (hn : ∀ {α : Type} {P : α → Prop} {x y : Machine α},
      R P x y → R P (nested limit x) (nested limit y)) (fuel : Nat) (r : Routine) :
    R (fun _ => r.Reads) ((methods limit fuel).run r) ((methods limit fuel).run r) := by
  induction fuel generalizing r with
  | zero => exact c.spentMethods r
  | succ fuel ih => exact c.next id hn ih r

end Congruence

end Instances

end Seanet
