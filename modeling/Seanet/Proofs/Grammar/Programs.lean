import Seanet.Proofs.Grammar.Angles
import Seanet.Proofs.Grammar.StatementComplete
import Seanet.Proofs.Parser.Entry

set_option autoImplicit false

namespace Seanet

namespace Grammar

open TokenView (kind)
open Seanet.Parser

variable {τ : Type} [SplitView τ]

/-- A type and a name. -/
inductive FieldOver (T : TypeExpr τ → List τ → Prop) : Field τ → List τ → Prop where
  | mk {name : τ} {type : TypeExpr τ} {us : List τ} (h : T type us) (hn : kind name = .identifier) :
      FieldOver T ⟨type, name⟩ (us ++ [name])

/-- A field of a struct, with its `;`. -/
inductive MemberOver (T : TypeExpr τ → List τ → Prop) : Field τ → List τ → Prop where
  | mk {s : τ} {f : Field τ} {us : List τ} (h : FieldOver T f us) (hs : kind s = .semicolon) :
      MemberOver T f (us ++ [s])

/-- A struct with its fields, or a function with its parameters and its body. Only the result of a
function may be `void`. -/
inductive IsDeclaration (n : Nat) : Declaration τ → List τ → Prop where
  | struct {t name l r : τ} {fields : List (Field τ)} {us : List τ} (ht : kind t = .structWord)
      (hn : kind name = .identifier) (hl : kind l = .leftBrace)
      (h : Sequence (MemberOver (IsType n false)) fields us) (hr : kind r = .rightBrace) :
      IsDeclaration n (.struct name fields) (t :: name :: l :: us ++ [r])
  | function {name l r : τ} {result : TypeExpr τ} {parameters : List (Field τ)}
      {body : List (Stmt τ)} {us vs ws : List τ} (h : IsType n true result us)
      (hn : kind name = .identifier) (hl : kind l = .leftParen)
      (hp : Listed (FieldOver (IsType n false)) parameters vs) (hr : kind r = .rightParen)
      (hb : IsBlock n body ws) :
      IsDeclaration n (.function result name parameters body) (us ++ name :: l :: vs ++ r :: ws)

/-- The programs whose types, expressions and blocks nest at most so many levels deep. -/
inductive IsProgram (n : Nat) : Program τ → List τ → Prop where
  | mk {declarations : List (Declaration τ)} {us : List τ}
      (h : Sequence (IsDeclaration n) declarations us) : IsProgram n ⟨declarations⟩ us

variable {n : Nat}

theorem field_sound {T : TypeExpr τ → List τ → Prop} {type : Parser τ (TypeExpr τ)}
    (ht : Sound type fun t us _ => T t us) (what : Expected) :
    Sound (field type what) fun f us _ => FieldOver T f us := by
  intro ts rest f h
  simp only [field, bind_ok_iff, pure_ok_iff] at h
  obtain ⟨t, m₁, h₁, name, m₂, h₂, rfl, rfl⟩ := h
  obtain ⟨us, hu, hT⟩ := ht h₁
  obtain ⟨rfl, hn⟩ := expect_ok h₂
  exact ⟨us ++ [name], hu.append (.single name _), .mk hT hn⟩

def member (type : Parser τ (TypeExpr τ)) : Parser τ (Field τ) := do
  let f ← field type .fieldName
  let _ ← expect .semicolon .fieldEnd
  return f

theorem member_sound {T : TypeExpr τ → List τ → Prop} {type : Parser τ (TypeExpr τ)}
    (ht : Sound type fun t us _ => T t us) :
    Sound (member type) fun f us _ => MemberOver T f us ∧ us ≠ [] := by
  intro ts rest f h
  simp only [member, bind_ok_iff, pure_ok_iff] at h
  obtain ⟨f, m₁, h₁, s, m₂, h₂, rfl, rfl⟩ := h
  obtain ⟨us, hu, hf⟩ := field_sound ht _ h₁
  obtain ⟨rfl, hs⟩ := expect_ok h₂
  exact ⟨us ++ [s], hu.append (.single s _), .mk hf hs, by simp⟩

theorem structDeclaration_eq (type : Parser τ (TypeExpr τ)) : structDeclaration type = (do
    let name ← expect .identifier .structName
    let _ ← expect .leftBrace .structOpening
    let fields ← manyWhile (· != .rightBrace) (member type)
    let _ ← expect .rightBrace .structClosing
    return .struct name fields) := rfl

theorem structDeclaration_sound {t : τ} (ht : kind t = .structWord) :
    Sound (structDeclaration (typeExpr n false)) fun d us _ => IsDeclaration n d (t :: us) := by
  intro ts rest d h
  rw [structDeclaration_eq] at h
  simp only [bind_ok_iff, pure_ok_iff] at h
  obtain ⟨name, m₁, h₁, l, m₂, h₂, fields, m₃, h₃, r, m₄, h₄, rfl, rfl⟩ := h
  obtain ⟨rfl, hn⟩ := expect_ok h₁
  obtain ⟨rfl, hl⟩ := expect_ok h₂
  obtain ⟨us, hu, hf, -⟩ := manyWhile_sound ((member_sound (typeExpr_sound n false)).soundFrom _) h₃
  obtain ⟨rfl, hr⟩ := expect_ok h₄
  exact ⟨name :: l :: us ++ [r], .token name (.token l (hu.append (.single r _))),
    .struct ht hn hl hf hr⟩

theorem functionDeclaration_sound :
    Sound (functionDeclaration n : Parser τ (Declaration τ)) fun d us _ =>
      IsDeclaration n d us := by
  intro ts rest d h
  simp only [functionDeclaration, bind_ok_iff, pure_ok_iff] at h
  obtain ⟨result, m₁, h₁, name, m₂, h₂, l, m₃, h₃, parameters, m₄, h₄, r, m₅, h₅, body, m₆, h₆,
    rfl, rfl⟩ := h
  obtain ⟨us, hu, hT⟩ := typeExpr_sound n true h₁
  obtain ⟨rfl, hn⟩ := expect_ok h₂
  obtain ⟨rfl, hl⟩ := expect_ok h₃
  obtain ⟨vs, hv, hp⟩ := listed_sound (field_sound (typeExpr_sound n false) _) h₄
  obtain ⟨rfl, hr⟩ := expect_ok h₅
  obtain ⟨ws, hw, hb⟩ := block_sound n h₆
  refine ⟨us ++ name :: l :: vs ++ r :: ws, ?_, .function hT hn hl hp hr hb⟩
  exact (hu.append (.token name (.token l hv))).append (.token r hw)

theorem topDeclaration_sound :
    Sound (topDeclaration n : Parser τ (Declaration τ)) fun d us _ =>
      IsDeclaration n d us ∧ us ≠ [] := by
  intro ts rest d h
  rw [topDeclaration, bind_ok_iff] at h
  obtain ⟨o, m, ho, h⟩ := h
  obtain ⟨rfl, rfl, -⟩ | ⟨t, rfl, rfl, ht⟩ := accept_ok ho
  · obtain ⟨us, hu, hd⟩ := functionDeclaration_sound h
    refine ⟨us, hu, hd, ?_⟩
    cases hd <;> simp
  · obtain ⟨us, hu, hd⟩ := structDeclaration_sound (by simpa using ht) h
    exact ⟨t :: us, .token t hu, hd, by simp⟩

theorem program_ok_iff {ts rest : List τ} {p : Program τ} :
    program n ts = .ok (p, rest) ↔ rest = [] ∧
      manyWhile (fun k => k == .structWord || beginsResult k) (topDeclaration n) ts =
        .ok (p.declarations, []) := by
  refine bind_ok_iff.trans ?_
  constructor
  · rintro ⟨ds, mid, hds, h⟩
    cases mid with
    | nil =>
      simp only [Except.ok.injEq, Prod.mk.injEq] at h
      obtain ⟨rfl, rfl⟩ := h
      exact ⟨rfl, hds⟩
    | cons t mid => simp at h
  · rintro ⟨rfl, h⟩
    exact ⟨_, [], h, rfl⟩

theorem program_sound :
    Sound (program n : Parser τ (Program τ)) fun p us rest => IsProgram n p us ∧ rest = [] := by
  intro ts rest p h
  obtain ⟨rfl, hds⟩ := program_ok_iff.1 h
  obtain ⟨us, hu, hd, -⟩ := manyWhile_sound (topDeclaration_sound.soundFrom _) hds
  exact ⟨us, hu, .mk hd, rfl⟩

theorem field_complete (what : Expected) :
    Complete (field (typeExpr n false) what : Parser τ (Field τ)) fun f us _ =>
      FieldOver (IsType n false) f us := by
  intro ts us rest f hu h
  cases h with
  | mk h hn =>
    obtain ⟨mid, htype, hnil⟩ := typeExpr_before h hn hu
    obtain rfl := hnil.nil_inv
    rw [field, bind_of_ok htype, bind_of_ok (expect_cons _ hn)]
    rfl

theorem FieldOver.begins {f : Field τ} {us : List τ} (h : FieldOver (IsType n false) f us) :
    Begins startsType us := by
  cases h with
  | mk h _ => exact h.begins.append _

theorem member_complete :
    Complete (member (typeExpr n false) : Parser τ (Field τ)) fun f us _ =>
      MemberOver (IsType n false) f us := by
  intro ts us rest f hu h
  cases h with
  | mk h hs =>
    obtain ⟨mid, hus, hmid⟩ := hu.append_inv
    obtain rfl := hmid.single_inv hs (by decide)
    rw [member, bind_of_ok (field_complete _ hus h), bind_of_ok (expect_cons _ hs)]
    rfl

theorem structDeclaration_complete {name l r : τ} {fields : List (Field τ)} {ts us rest : List τ}
    (hn : kind name = .identifier) (hl : kind l = .leftBrace)
    (h : Sequence (MemberOver (IsType n false)) fields us) (hr : kind r = .rightBrace)
    (hu : Reads ts (name :: l :: us ++ [r]) rest) :
    structDeclaration (typeExpr n false) ts = .ok (.struct name fields, rest) := by
  obtain ⟨ts, rfl, hu₁⟩ := hu.cons_inv hn (by decide)
  obtain ⟨ts, rfl, hu₂⟩ := hu₁.cons_inv hl (by decide)
  obtain ⟨mid, hus, hu₃⟩ := hu₂.append_inv
  obtain rfl := hu₃.single_inv hr (by decide)
  have hfirst : ∀ k, startsType k = true → (k != .rightBrace) = true ∧ false = false := by
    intro k hk
    revert hk
    cases k <;> decide
  have hbegins : ∀ (f : Field τ) us, MemberOver (IsType n false) f us → Begins startsType us := by
    rintro f us ⟨h, -⟩
    exact h.begins.append _
  have hfields := manyWhile_complete startsType rfl hfirst member_complete.anywhere hbegins hus
    ⟨h, by simp [hr], fun _ _ => rfl⟩
  rw [structDeclaration_eq, bind_of_ok (expect_cons _ hn), bind_of_ok (expect_cons _ hl),
    bind_of_ok hfields, bind_of_ok (expect_cons _ hr)]
  rfl

theorem functionDeclaration_complete {name l r : τ} {result : TypeExpr τ}
    {parameters : List (Field τ)} {body : List (Stmt τ)} {ts us vs ws rest : List τ}
    (h : IsType n true result us) (hn : kind name = .identifier) (hl : kind l = .leftParen)
    (hp : Listed (FieldOver (IsType n false)) parameters vs) (hr : kind r = .rightParen)
    (hb : IsBlock n body ws) (hu : Reads ts (us ++ name :: l :: vs ++ r :: ws) rest) :
    functionDeclaration n ts = .ok (.function result name parameters body, rest) := by
  rw [List.append_assoc] at hu
  obtain ⟨m₁, hresult, hu₁⟩ := typeExpr_before h hn hu
  obtain ⟨m₁, rfl, hu₂⟩ := hu₁.cons_inv hl (by decide)
  obtain ⟨m₂, hvs, hu₃⟩ := hu₂.append_inv
  obtain ⟨m₂, rfl, hws⟩ := hu₃.cons_inv hr (by decide)
  have hparameters : separatedUntil .rightParen (field (typeExpr n false) .parameterName) m₁ =
      .ok (parameters, r :: m₂) :=
    listed_complete startsType rfl rfl rfl (field_complete _).anywhere (fun _ _ h => h.begins) hvs
      ⟨hp, ⟨r, m₂, rfl, by simp [hr]⟩, fun _ _ => rfl, by simp [hr]⟩
  rw [functionDeclaration, bind_of_ok hresult, bind_of_ok (expect_cons _ hn),
    bind_of_ok (expect_cons _ hl), bind_of_ok hparameters, bind_of_ok (expect_cons _ hr),
    bind_of_ok (block_complete n hws hb)]
  rfl

def startsDeclaration (k : Kind) : Bool := k == .structWord || beginsResult k

theorem startsDeclaration_of_startsType {k : Kind} (h : startsType k = true) :
    startsDeclaration k = true ∧ (k == .structWord) = false := by
  revert h
  cases k <;> decide

theorem IsDeclaration.begins {d : Declaration τ} {us : List τ} (h : IsDeclaration n d us) :
    Begins startsDeclaration us := by
  cases h with
  | struct ht _ _ _ _ => exact ⟨_, _, rfl, by simp [startsDeclaration, ht]⟩
  | function h _ _ _ _ _ =>
    rw [List.append_assoc]
    exact (h.begins.imp fun k hk => (startsDeclaration_of_startsType hk).1).append _

theorem topDeclaration_complete :
    Complete (topDeclaration n : Parser τ (Declaration τ)) fun d us _ => IsDeclaration n d us := by
  intro ts us rest d hu h
  cases h with
  | struct ht hn hl h hr =>
    obtain ⟨ts, rfl, hu'⟩ := hu.cons_inv ht (by decide)
    rw [topDeclaration, bind_of_ok (accept_cons (by simp [ht]))]
    exact structDeclaration_complete hn hl h hr hu'
  | function h hn hl hp hr hb =>
    have hstop : Stops (· == .structWord) ts := by
      rw [List.append_assoc] at hu
      exact (h.begins.append _).stops hu rfl fun k hk => (startsDeclaration_of_startsType hk).2
    rw [topDeclaration, bind_of_ok (accept_of_stops hstop)]
    exact functionDeclaration_complete h hn hl hp hr hb hu

theorem program_complete :
    Complete (program n : Parser τ (Program τ)) fun p us rest => IsProgram n p us ∧ rest = [] := by
  rintro ts us rest p hu ⟨⟨h⟩, rfl⟩
  refine program_ok_iff.2 ⟨rfl, ?_⟩
  exact manyWhile_complete startsDeclaration rfl (fun k hk => ⟨hk, rfl⟩)
    topDeclaration_complete.anywhere (fun _ _ h => h.begins) hu ⟨h, stops_nil _, stops_nil _⟩

section

variable {E : Expr τ → List τ → Prop} {T : TypeExpr τ → List τ → Prop}
  {B : List (Stmt τ) → List τ → Prop} {C : Stmt τ → List τ → Prop}

theorem ParenthesizedOver.anglesClose (he : ∀ e us, E e us → AnglesClose us) {e : Expr τ}
    {us : List τ} (h : ParenthesizedOver E e us) : AnglesClose us := by
  cases h with
  | mk hl h hr => exact ((he _ _ h).mark hl rfl).append (anglesClose_single hr rfl)

theorem SimpleOver.anglesClose (he : ∀ e us, E e us → AnglesClose us)
    (ht : ∀ t us, T t us → AnglesClose us) {s : Stmt τ} {us : List τ} (h : SimpleOver E T s us) :
    AnglesClose us := by
  cases h with
  | var hv hn hq h hs =>
    exact ((((he _ _ h).mark hq rfl).mark hn rfl).mark hv rfl).append (anglesClose_single hs rfl)
  | declare h hn hs => exact (ht _ _ h).append ((anglesClose_single hs rfl).mark hn rfl)
  | define h hn hq h' hs =>
    have hvalue := ((he _ _ h').mark hq rfl).mark hn rfl
    exact ((ht _ _ h).append hvalue).append (anglesClose_single hs rfl)
  | expr h _ hs => exact (he _ _ h).append (anglesClose_single hs rfl)

theorem ConditionalOver.anglesClose (he : ∀ e us, E e us → AnglesClose us)
    (hb : ∀ b us, B b us → AnglesClose us) (hc : ∀ s us, C s us → AnglesClose us) {s : Stmt τ}
    {us : List τ} (h : ConditionalOver E B C s us) : AnglesClose us := by
  cases h with
  | ifThen ht h hB => exact ((h.anglesClose he).mark ht rfl).append (hb _ _ hB)
  | ifElse ht h hB hw ho =>
    exact (((h.anglesClose he).mark ht rfl).append (hb _ _ hB)).append ((hb _ _ ho).mark hw rfl)
  | elseIf ht h hB hw ho =>
    exact (((h.anglesClose he).mark ht rfl).append (hb _ _ hB)).append ((hc _ _ ho).mark hw rfl)

theorem StatementOver.anglesClose (he : ∀ e us, E e us → AnglesClose us)
    (ht : ∀ t us, T t us → AnglesClose us) (hb : ∀ b us, B b us → AnglesClose us)
    (hc : ∀ s us, C s us → AnglesClose us) {s : Stmt τ} {us : List τ}
    (h : StatementOver E T B C s us) : AnglesClose us := by
  cases h with
  | simple h => exact h.anglesClose he ht
  | block h => exact hb _ _ h
  | conditional h => exact hc _ _ h
  | whileLoop hw h hB => exact ((h.anglesClose he).mark hw rfl).append (hb _ _ hB)
  | @forLoop t l r initializer test increment body us vs ws xs hf hl hi htest hn hr hB =>
    have hus : AnglesClose us := by
      cases hi with
      | none hs => exact anglesClose_single hs rfl
      | some h => exact h.anglesClose he ht
    have hvs : AnglesClose vs := by
      cases htest with
      | missing hs => exact anglesClose_single hs rfl
      | written h hs => exact (he _ _ h).append (anglesClose_single hs rfl)
    have hws : AnglesClose ws := by
      cases hn with
      | none => exact anglesClose_nil
      | some h => exact he _ _ h
    exact ((((hus.mark hl rfl).mark hf rfl).append hvs).append hws).append ((hb _ _ hB).mark hr rfl)
  | returnVoid hr hs => exact (anglesClose_single hs rfl).mark hr rfl
  | returnValue hr h hs => exact ((he _ _ h).mark hr rfl).append (anglesClose_single hs rfl)

theorem FieldOver.anglesClose (ht : ∀ t us, T t us → AnglesClose us) {f : Field τ} {us : List τ}
    (h : FieldOver T f us) : AnglesClose us := by
  cases h with
  | mk h hn => exact (ht _ _ h).append (anglesClose_single hn rfl)

theorem MemberOver.anglesClose (ht : ∀ t us, T t us → AnglesClose us) {f : Field τ} {us : List τ}
    (h : MemberOver T f us) : AnglesClose us := by
  cases h with
  | mk h hs => exact (h.anglesClose ht).append (anglesClose_single hs rfl)

end

theorem IsType.anglesClose {allowVoid : Bool} {type : TypeExpr τ} {us : List τ}
    (h : IsType n allowVoid type us) : AnglesClose us :=
  TypeOver.anglesClose (fun _ _ hf => hf.anglesClose) h

theorem stmtLayer_anglesClose (n : Nat) :
    (∀ (b : List (Stmt τ)) us, IsBlock n b us → AnglesClose us) ∧
      ∀ (s : Stmt τ) us, IsConditional n s us → AnglesClose us := by
  induction n with
  | zero => exact ⟨fun _ _ => False.elim, fun _ _ => False.elim⟩
  | succ n ih =>
    have hblock : ∀ (b : List (Stmt τ)) us, IsBlock (n + 1) b us → AnglesClose us := by
      rintro b us ⟨hl, h, hr⟩
      have hbody := h.anglesClose fun _ _ hs => StatementOver.anglesClose
        (fun _ _ he => he.anglesClose) (fun _ _ ht => ht.anglesClose) ih.1 ih.2 hs
      exact (hbody.mark hl rfl).append (anglesClose_single hr rfl)
    refine ⟨hblock, fun s us h => ?_⟩
    exact ConditionalOver.anglesClose (fun _ _ he => he.anglesClose) hblock ih.2 h

theorem IsDeclaration.anglesClose {d : Declaration τ} {us : List τ} (h : IsDeclaration n d us) :
    AnglesClose us := by
  cases h with
  | struct ht hn hl h hr =>
    have hfields := h.anglesClose fun _ _ hm => hm.anglesClose fun _ _ ht => ht.anglesClose
    exact (((hfields.mark hl rfl).mark hn rfl).mark ht rfl).append (anglesClose_single hr rfl)
  | function h hn hl hp hr hb =>
    have hparameters := hp.anglesClose fun _ _ hf => hf.anglesClose fun _ _ ht => ht.anglesClose
    have hbody := (stmtLayer_anglesClose n).1 _ _ hb
    exact (h.anglesClose.append ((hparameters.mark hl rfl).mark hn rfl)).append (hbody.mark hr rfl)

theorem IsProgram.anglesClose {p : Program τ} {us : List τ} (h : IsProgram n p us) :
    AnglesClose us := by
  cases h with
  | mk h => exact h.anglesClose fun _ _ hd => hd.anglesClose

/-- Parsing gives a tree exactly when the stream has a derivation with that tree, and there is at
most one. A `>>` of the stream stands for two `>` where the first of them closes a function type. -/
theorem parseProgram_exact (file : Text) (tokens : List Token) :
    (∀ p, parseProgram file tokens = .ok p ↔
      ∃ us, SplitsClosing [] (Stream.ofTokens tokens).tokens us ∧ IsProgram maxNesting p us) ∧
    ∀ p q us vs, SplitsClosing [] (Stream.ofTokens tokens).tokens us → IsProgram maxNesting p us →
      SplitsClosing [] (Stream.ofTokens tokens).tokens vs → IsProgram maxNesting q vs → p = q := by
  have hparse : ∀ p, parseProgram file tokens = .ok p ↔
      ∃ us, SplitsClosing [] (Stream.ofTokens tokens).tokens us ∧ IsProgram maxNesting p us := by
    intro p
    rw [parseProgram, run_ok_iff]
    constructor
    · rintro ⟨rest, h⟩
      obtain ⟨us, hu, hp, rfl⟩ := program_sound h
      exact ⟨us, Splits.closing hu hp.anglesClose, hp⟩
    · rintro ⟨us, hu, hp⟩
      exact ⟨[], program_complete hu.splits ⟨hp, rfl⟩⟩
  refine ⟨hparse, fun p q us vs hu hp hv hq => ?_⟩
  have hpq := (hparse p).2 ⟨us, hu, hp⟩
  rw [(hparse q).2 ⟨vs, hv, hq⟩] at hpq
  exact (Except.ok.inj hpq).symm

end Grammar

end Seanet
