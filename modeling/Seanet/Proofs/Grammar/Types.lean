import Seanet.Parser.TypeExpr
import Seanet.Proofs.Grammar.Lists

set_option autoImplicit false

namespace Seanet

namespace Grammar

open TokenView (kind unwrittenVoid)
open Seanet.Parser

variable {τ : Type} [SplitView τ]

/-- So many pairs `[]`. -/
inductive Brackets : Nat → List τ → Prop where
  | nil : Brackets 0 []
  | cons {n : Nat} {l r : τ} {us : List τ} (hl : kind l = .leftBracket)
      (hr : kind r = .rightBracket) (h : Brackets n us) : Brackets (n + 1) (l :: r :: us)

/-- A `ref`, or nothing. -/
inductive RefMark : Bool → List τ → Prop where
  | absent : RefMark false []
  | present {t : τ} (h : kind t = .refWord) : RefMark true [t]

def namesType (allowVoid : Bool) (k : Kind) : Bool := (allowVoid && k == .void) || isTypeName k

/-- `fun`, or `fun<...>` with entries between commas. A bare `fun` has no parameters, and its result
is a `void` that is not written. -/
inductive FunctionOver (entry : TypeExpr τ → List τ → Prop) : TypeExpr τ → List τ → Prop where
  | bare {t : τ} (ht : kind t = .funWord) :
      FunctionOver entry (.function [] (.named (unwrittenVoid t) false)) [t]
  | list {t l r : τ} {parameters : List (TypeExpr τ)} {result : TypeExpr τ} {us : List τ}
      (ht : kind t = .funWord) (hl : kind l = .less)
      (h : Separated entry (parameters ++ [result]) us) (hr : kind r = .greater) :
      FunctionOver entry (.function parameters result) (t :: l :: us ++ [r])

/-- A name inside so many array types. The `ref` belongs to the outermost of them, and to the name
when there is none. -/
def nameArrays (name : τ) (dimensions : Nat) (isRef : Bool) : TypeExpr τ :=
  match dimensions with
  | 0 => .named name isRef
  | n + 1 => (TypeExpr.named name false).arrays (n + 1) isRef

/-- `[ref] name []...`, or a function type and `[]...`, which never has a `ref`. -/
inductive TypeOver (function : TypeExpr τ → List τ → Prop) (allowVoid : Bool) :
    TypeExpr τ → List τ → Prop where
  | name {isRef : Bool} {rs bs : List τ} {t : τ} {n : Nat} (hr : RefMark isRef rs)
      (ht : namesType allowVoid (kind t) = true) (hb : Brackets n bs) :
      TypeOver function allowVoid (nameArrays t n isRef) (rs ++ t :: bs)
  | function {f : TypeExpr τ} {us bs : List τ} {n : Nat} (h : function f us) (hb : Brackets n bs) :
      TypeOver function allowVoid (f.arrays n false) (us ++ bs)

def IsFunctionType : Nat → TypeExpr τ → List τ → Prop
  | 0 => FunctionOver fun _ _ => False
  | n + 1 => FunctionOver (TypeOver (IsFunctionType n) true)

/-- The types whose function types nest at most so many levels deep. -/
def IsType (levels : Nat) (allowVoid : Bool) : TypeExpr τ → List τ → Prop :=
  TypeOver (IsFunctionType levels) allowVoid

/-- A `fun` at the end of `us`, which is then a bare one, has no `<` behind it. -/
def Guarded (us rest : List τ) : Prop :=
  ∀ t ∈ us.getLast?, kind t = .funWord → Stops (· == .less) rest

def BeginsFun (function : TypeExpr τ → List τ → Prop) : Prop :=
  ∀ f us, function f us → Begins (· == .funWord) us

theorem guarded_of_stops {us rest : List τ} (h : Stops (· == .less) rest) : Guarded us rest :=
  fun _ _ _ => h

theorem guarded_snoc {us rest : List τ} {t : τ} (ht : kind t ≠ .funWord) :
    Guarded (us ++ [t]) rest := by
  intro u hu hk
  rw [List.getLast?_concat, Option.mem_some_iff] at hu
  exact absurd (hu ▸ hk) ht

theorem guarded_append {us vs rest : List τ} (hv : vs ≠ []) :
    Guarded (us ++ vs) rest ↔ Guarded vs rest := by
  rw [Guarded, Guarded, List.getLast?_append, List.getLast?_eq_some_getLast hv, Option.some_or]

theorem isPrefixOf_brackets_iff {ts : List τ} :
    [Kind.leftBracket, .rightBracket].isPrefixOf (ts.map kind) = true ↔
      ∃ l r mid, ts = l :: r :: mid ∧ kind l = .leftBracket ∧ kind r = .rightBracket := by
  match ts with
  | [] => simp
  | [l] => simp
  | l :: r :: mid =>
    simp only [List.map_cons, List.isPrefixOf, Bool.and_eq_true, beq_iff_eq, and_true]
    constructor
    · rintro ⟨hl, hr⟩
      exact ⟨l, r, mid, rfl, hl.symm, hr.symm⟩
    · rintro ⟨_, _, _, ⟨⟩, hl, hr⟩
      exact ⟨hl.symm, hr.symm⟩

def suffixStep (n : Nat) : Parser τ (Option Nat) := do
  if ← seesAll [.leftBracket, .rightBracket] then
    let _ ← accept (· == .leftBracket)
    let _ ← accept (· == .rightBracket)
    return some (n + 1)
  else return none

theorem arraySuffix_eq : (arraySuffix : Parser τ Nat) = iterate suffixStep 0 := rfl

theorem suffixStep_pair {l r : τ} (hl : kind l = .leftBracket) (hr : kind r = .rightBracket)
    (n : Nat) (ts : List τ) : suffixStep n (l :: r :: ts) = .ok (some (n + 1), ts) := by
  have hp := isPrefixOf_brackets_iff.2 ⟨l, r, ts, rfl, hl, hr⟩
  have hs : seesAll [.leftBracket, .rightBracket] (l :: r :: ts) = .ok (true, l :: r :: ts) := by
    rw [seesAll, hp]
  rw [suffixStep, bind_of_ok hs, if_pos rfl, bind_of_ok (accept_cons (by simp [hl])),
    bind_of_ok (accept_cons (by simp [hr]))]
  rfl

theorem suffixStep_of_stops {ts : List τ} (h : Stops (· == .leftBracket) ts) (n : Nat) :
    suffixStep n ts = .ok (none, ts) := by
  have hp : [Kind.leftBracket, .rightBracket].isPrefixOf (ts.map kind) = false := by
    rw [Bool.eq_false_iff]
    intro hp
    obtain ⟨l, r, mid, rfl, hl, -⟩ := isPrefixOf_brackets_iff.1 hp
    simp [hl] at h
  have hs : seesAll [.leftBracket, .rightBracket] ts = .ok (false, ts) := by rw [seesAll, hp]
  rw [suffixStep, bind_of_ok hs]
  rfl

theorem suffixStep_ok {n : Nat} {o : Option Nat} {ts rest : List τ}
    (h : suffixStep n ts = .ok (o, rest)) : (o = none ∧ rest = ts) ∨
      ∃ l r, o = some (n + 1) ∧ ts = l :: r :: rest ∧ kind l = .leftBracket ∧
        kind r = .rightBracket := by
  by_cases hp : [Kind.leftBracket, .rightBracket].isPrefixOf (ts.map kind) = true
  · obtain ⟨l, r, mid, rfl, hl, hr⟩ := isPrefixOf_brackets_iff.1 hp
    rw [suffixStep_pair hl hr, Except.ok.injEq, Prod.mk.injEq] at h
    obtain ⟨rfl, rfl⟩ := h
    exact .inr ⟨l, r, rfl, rfl, hl, hr⟩
  · rw [suffixStep, bind_ok_iff] at h
    obtain ⟨b, mid, hb, h⟩ := h
    obtain ⟨rfl, rfl⟩ := seesAll_ok hb
    rw [if_neg hp] at h
    exact .inl (pure_ok_iff.1 h)

theorem Brackets.snoc {n : Nat} {us : List τ} {l r : τ} (h : Brackets n us)
    (hl : kind l = .leftBracket) (hr : kind r = .rightBracket) :
    Brackets (n + 1) (us ++ [l, r]) := by
  induction h with
  | nil => exact .cons hl hr .nil
  | cons hl' hr' _ ih => exact .cons hl' hr' ih

theorem arraySuffix_sound : Sound (arraySuffix : Parser τ Nat) fun n us _ => Brackets n us := by
  intro ts rest n h
  have keep : ∀ ⦃m n : Nat⦄ ⦃ts₁ ts₂ : List τ⦄, (∃ us, Reads ts us ts₁ ∧ Brackets m us) →
      suffixStep m ts₁ = .ok (some n, ts₂) →
      weight ts₂ < weight ts₁ ∧ ∃ us, Reads ts us ts₂ ∧ Brackets n us := by
    rintro m n ts₁ ts₂ ⟨us, hu, hb⟩ hstep
    obtain ⟨ho, -⟩ | ⟨l, r, ho, rfl, hl, hr⟩ := suffixStep_ok hstep
    · cases ho
    · obtain rfl := Option.some.inj ho
      have hp : Reads (l :: r :: ts₂) [l, r] ts₂ := .token l (.single r ts₂)
      exact ⟨hp.weight_lt (by simp), us ++ [l, r], hu.append hp, hb.snoc hl hr⟩
  rw [arraySuffix_eq] at h
  obtain ⟨mid, ⟨us, hu, hb⟩, hn⟩ := iterate_invariant keep ⟨[], .nil ts, .nil⟩ h
  obtain ⟨-, rfl⟩ | ⟨l, r, ho, -⟩ := suffixStep_ok hn
  · exact ⟨us, hu, hb⟩
  · cases ho

theorem iterate_suffixStep {n : Nat} {ts us rest : List τ} (hb : Brackets n us)
    (hu : Reads ts us rest) (hs : Stops (· == .leftBracket) rest) (m : Nat) :
    iterate suffixStep m ts = .ok (m + n, rest) := by
  induction hb generalizing ts m with
  | nil =>
    obtain rfl := hu.nil_inv
    exact iterate_of_none (suffixStep_of_stops hs m)
  | @cons n l r us hl hr _ ih =>
    obtain ⟨ts, rfl, hu₁⟩ := hu.cons_inv hl (by decide)
    obtain ⟨ts, rfl, hu₂⟩ := hu₁.cons_inv hr (by decide)
    have hp : Reads (l :: r :: ts) [l, r] ts := .token l (.single r ts)
    rw [iterate_of_some (suffixStep_pair hl hr m ts) (hp.weight_lt (by simp)), ih hu₂,
      Nat.add_assoc, Nat.add_comm 1]

theorem arraySuffix_complete : Complete (arraySuffix : Parser τ Nat) fun n us rest =>
    Brackets n us ∧ Stops (· == .leftBracket) rest := by
  rintro ts us rest n hu ⟨hb, hs⟩
  rw [arraySuffix_eq, iterate_suffixStep hb hu hs, Nat.zero_add]

def addEntry (entries : List (TypeExpr τ) × TypeExpr τ) (next : TypeExpr τ) :
    List (TypeExpr τ) × TypeExpr τ :=
  (entries.1 ++ [entries.2], next)

omit [SplitView τ] in
theorem foldl_addEntry (ts : List (TypeExpr τ)) (entries : List (TypeExpr τ) × TypeExpr τ) :
    (ts.foldl addEntry entries).1 ++ [(ts.foldl addEntry entries).2] =
      entries.1 ++ entries.2 :: ts := by
  induction ts generalizing entries with
  | nil => rfl
  | cons t ts ih =>
    rw [List.foldl_cons, ih]
    simp [addEntry]

theorem functionTypeOver_eq (entry : Parser τ (TypeExpr τ)) : functionTypeOver entry = (do
    let keyword ← expect .funWord .funWord
    match ← accept (· == .less) with
    | none => return .function [] (.named (unwrittenVoid keyword) false)
    | some _ =>
      let first ← entry
      let entries ← iterate (commaStep entry addEntry) ([], first)
      expectClosingAngle
      return .function entries.1 entries.2) := rfl

theorem functionTypeOver_sound {entry : Parser τ (TypeExpr τ)} {E : TypeExpr τ → List τ → Prop}
    (he : Sound entry fun t us _ => E t us) :
    Sound (functionTypeOver entry) fun f us rest => FunctionOver E f us ∧ Guarded us rest := by
  intro ts rest f h
  rw [functionTypeOver_eq, bind_ok_iff] at h
  obtain ⟨t, mid, ht, h⟩ := h
  obtain ⟨rfl, hk⟩ := expect_ok ht
  rw [bind_ok_iff] at h
  obtain ⟨o, mid', ho, h⟩ := h
  obtain ⟨rfl, rfl, hs⟩ | ⟨l, rfl, rfl, hl⟩ := accept_ok ho
  · obtain ⟨rfl, rfl⟩ := pure_ok_iff.1 h
    exact ⟨[t], .single t rest, .bare hk, guarded_of_stops hs⟩
  · simp only [bind_ok_iff, pure_ok_iff] at h
    obtain ⟨first, m₁, h₁, entries, m₂, h₂, ⟨⟩, m₃, h₃, rfl, rfl⟩ := h
    obtain ⟨us, hu, hfirst⟩ := he h₁
    obtain ⟨vs, hv, es, hes, rfl⟩ := commas_sound he _ h₂
    obtain ⟨r, hr, hrr⟩ := reads_of_expectClosingAngle h₃
    refine ⟨t :: l :: (us ++ vs) ++ [r], ((hu.append hv).append hrr).token l |>.token t, ?_, ?_⟩
    · refine .list hk (by simpa using hl) ?_ hr
      rw [foldl_addEntry]
      exact .mk hfirst hes
    · exact guarded_snoc (by simp [hr])

def lengthensType (k : Kind) : Bool := k == .leftBracket || k == .less

theorem Reads.stops_angle {p : Kind → Bool} {ts us rest : List τ} {t : τ}
    (h : Reads ts (t :: us) rest) (ht : kind t = .greater) (hg : p .greater = false)
    (hgg : p .greaterGreater = false) : Stops p ts := by
  cases h with
  | token _ _ => simp [ht, hg]
  | half hs _ => simp [hs, hgg]

theorem functionTypeOver_complete {entry : Parser τ (TypeExpr τ)} {E : TypeExpr τ → List τ → Prop}
    (he : Complete entry fun t us rest => E t us ∧ Stops lengthensType rest) :
    Complete (functionTypeOver entry) fun f us rest => FunctionOver E f us ∧ Guarded us rest := by
  rintro ts us rest f hu ⟨hf, hg⟩
  cases hf with
  | @bare t ht =>
    obtain rfl := hu.single_inv ht (by decide)
    have hs : Stops (· == .less) rest := hg t (by simp) ht
    rw [functionTypeOver_eq, bind_of_ok (expect_cons _ ht), bind_of_ok (accept_of_stops hs)]
    rfl
  | @list t l r ps result us ht hl h hr =>
    obtain ⟨ts, rfl, hu₁⟩ := hu.cons_inv ht (by decide)
    obtain ⟨ts, rfl, hu₂⟩ := hu₁.cons_inv hl (by decide)
    obtain ⟨m₁, hus, hclose⟩ := hu₂.append_inv
    -- The closing mark may be half of a `>>`. Either way it stops the entry in front of it.
    obtain ⟨m₂, hangle, hrest⟩ := expectClosingAngle_of_reads hclose hr
    obtain rfl := hrest.nil_inv
    generalize hes : ps ++ [result] = es at h
    cases h with
    | @mk first es vs ws hfirst hmore =>
      obtain ⟨m₂, hv, hw⟩ := hus.append_inv
      obtain ⟨hloop, hstop⟩ := commas_complete addEntry (by rfl) he hmore hw
        (hclose.stops_angle hr rfl rfl) (hclose.stops_angle hr rfl rfl) ([], first)
      have hfold := foldl_addEntry es ([], first)
      obtain ⟨hps, hres⟩ := List.append_inj' (hfold.trans hes.symm) rfl
      rw [functionTypeOver_eq, bind_of_ok (expect_cons _ ht),
        bind_of_ok (accept_cons (by simp [hl]))]
      simp only
      rw [bind_of_ok (he hv ⟨hfirst, hstop⟩), bind_of_ok hloop, bind_of_ok hangle, hps,
        List.singleton_inj.1 hres]
      rfl

theorem typeOver_sound {function : Parser τ (TypeExpr τ)} {F : TypeExpr τ → List τ → Prop}
    (hf : Sound function fun f us rest => F f us ∧ Guarded us rest) (allowVoid : Bool) :
    Sound (typeOver function allowVoid) fun t us _ => TypeOver F allowVoid t us := by
  intro ts rest t h
  rw [typeOver, bind_ok_iff] at h
  obtain ⟨ref, mid, href, h⟩ := h
  have hmark : ∃ rs, RefMark ref.isSome rs ∧ Reads ts rs mid := by
    obtain ⟨rfl, rfl, -⟩ | ⟨r, rfl, rfl, hr⟩ := accept_ok href
    · exact ⟨[], .absent, .nil mid⟩
    · exact ⟨[r], .present (by simpa using hr), .single r mid⟩
  obtain ⟨rs, hmark, hrs⟩ := hmark
  rw [bind_ok_iff] at h
  obtain ⟨b, mid', hb, h⟩ := h
  obtain ⟨rfl, ⟨rfl, -⟩ | ⟨rfl, -⟩⟩ := sees_ok hb
  · cases ref with
    | some r => simp at h
    | none =>
      simp only [if_true, bind_ok_iff, pure_ok_iff] at h
      obtain ⟨f, m₁, h₁, n, m₂, h₂, rfl, rfl⟩ := h
      obtain ⟨us, hu, hfu, -⟩ := hf h₁
      obtain ⟨bs, hbs, hn⟩ := arraySuffix_sound h₂
      cases hmark
      exact ⟨us ++ bs, hrs.append (hu.append hbs), .function hfu hn⟩
  · simp only [Bool.false_eq_true, if_false, bind_ok_iff] at h
    obtain ⟨name, m₁, h₁, n, m₂, h₂, h⟩ := h
    obtain ⟨rfl, hname⟩ := require_ok h₁
    obtain ⟨bs, hbs, hn⟩ := arraySuffix_sound h₂
    have hall : Reads ts (rs ++ name :: bs) m₂ := hrs.append (.token name hbs)
    have htree : t = nameArrays name n ref.isSome ∧ rest = m₂ := by
      cases n <;> exact pure_ok_iff.1 h
    obtain ⟨rfl, rfl⟩ := htree
    exact ⟨_, hall, .name hmark hname hn⟩

theorem RefMark.accept {isRef : Bool} {rs ts us rest : List τ} {t : τ} (hr : RefMark isRef rs)
    (hu : Reads ts (rs ++ t :: us) rest) (ht : kind t ≠ .refWord) (hg : kind t ≠ .greater) :
    ∃ ref mid, Parser.accept (· == .refWord) ts = .ok (ref, t :: mid) ∧ ref.isSome = isRef ∧
      Reads mid us rest := by
  cases hr with
  | absent =>
    obtain ⟨mid, rfl, hmid⟩ := Reads.cons_inv hu rfl hg
    exact ⟨none, mid, accept_of_stops (by simpa using ht), rfl, hmid⟩
  | @present r hr =>
    obtain ⟨mid, rfl, hmid⟩ := Reads.cons_inv hu hr (by decide)
    obtain ⟨mid, rfl, hmid'⟩ := Reads.cons_inv hmid rfl hg
    exact ⟨some r, mid, accept_cons (by simp [hr]), rfl, hmid'⟩

theorem namesType_ne {allowVoid : Bool} {k : Kind} (h : namesType allowVoid k = true) :
    k ≠ .refWord ∧ k ≠ .funWord ∧ k ≠ .greater := by
  refine ⟨?_, ?_, ?_⟩ <;>
  · rintro rfl
    cases allowVoid <;> simp [namesType, isTypeName, Kind.isBuiltinType, Kind.builtinTypes] at h

theorem typeOver_complete {function : Parser τ (TypeExpr τ)} {F : TypeExpr τ → List τ → Prop}
    (hf : Complete function fun f us rest => F f us ∧ Guarded us rest)
    (hb : BeginsFun F) (allowVoid : Bool) :
    Complete (typeOver function allowVoid) fun t us rest =>
      TypeOver F allowVoid t us ∧ Stops lengthensType rest := by
  rintro ts us rest t hu ⟨ht, hs⟩
  have hbracket : Stops (· == .leftBracket) rest := hs.imp fun k hk => by
    simp only [lengthensType, Bool.or_eq_false_iff] at hk
    exact hk.1
  have hless : Stops (· == .less) rest := hs.imp fun k hk => by
    simp only [lengthensType, Bool.or_eq_false_iff] at hk
    exact hk.2
  cases ht with
  | @name isRef rs bs t n hr hname hbs =>
    obtain ⟨href, hfun, hgreater⟩ := namesType_ne hname
    obtain ⟨ref, mid, haccept, rfl, hmid⟩ := hr.accept hu href hgreater
    rw [typeOver, bind_of_ok haccept, bind_of_ok (sees_of_stops (by simpa using hfun))]
    simp only [Bool.false_eq_true, if_false]
    refine (bind_of_ok (require_cons _ hname)).trans ?_
    rw [bind_of_ok (arraySuffix_complete hmid ⟨hbs, hbracket⟩)]
    cases n <;> rfl
  | @function f us bs n h hbs =>
    obtain ⟨mid, hus, hmid⟩ := hu.append_inv
    have hguard : Guarded us mid := by
      apply guarded_of_stops
      cases hbs with
      | nil => rwa [← hmid.nil_inv]
      | cons hl _ _ =>
        obtain ⟨mid, rfl, -⟩ := hmid.cons_inv hl (by decide)
        simp [hl]
    obtain ⟨k, ts, rfl, hk⟩ := (hb f us h).stream hus rfl
    have hk : kind k = .funWord := by simpa using hk
    rw [typeOver, bind_of_ok (accept_of_stops (by simp [hk])),
      bind_of_ok (sees_cons (by simp [hk]))]
    simp only [if_true]
    rw [bind_of_ok (hf hus ⟨h, hguard⟩), bind_of_ok (arraySuffix_complete hmid ⟨hbs, hbracket⟩)]
    rfl

theorem typeExpr_eq (levels : Nat) (allowVoid : Bool) :
    (typeExpr levels allowVoid : Parser τ (TypeExpr τ)) =
      typeOver (functionType levels) allowVoid := by
  cases levels <;> rfl

theorem tooDeep_sound {α : Type} (G : α → List τ → List τ → Prop) :
    Sound (tooDeep : Parser τ α) G := by
  intro ts rest a h
  cases h

theorem FunctionOver.begins {E : TypeExpr τ → List τ → Prop} {f : TypeExpr τ} {us : List τ}
    (h : FunctionOver E f us) : Begins (· == .funWord) us := by
  cases h with
  | bare ht => exact ⟨_, _, rfl, by simp [ht]⟩
  | list ht _ _ _ => exact ⟨_, _, rfl, by simp [ht]⟩

theorem IsFunctionType.begins {n : Nat} {f : TypeExpr τ} {us : List τ} (h : IsFunctionType n f us) :
    Begins (· == .funWord) us := by
  cases n <;> exact FunctionOver.begins h

theorem beginsFun (n : Nat) : BeginsFun (IsFunctionType n : TypeExpr τ → List τ → Prop) :=
  fun _ _ h => h.begins

theorem functionType_sound (levels : Nat) :
    Sound (functionType levels : Parser τ (TypeExpr τ)) fun f us rest =>
      IsFunctionType levels f us ∧ Guarded us rest := by
  induction levels with
  | zero => exact functionTypeOver_sound (tooDeep_sound _)
  | succ n ih =>
    have he := typeOver_sound ih true
    rw [← typeExpr_eq] at he
    exact functionTypeOver_sound he

theorem functionType_complete (levels : Nat) :
    Complete (functionType levels : Parser τ (TypeExpr τ)) fun f us rest =>
      IsFunctionType levels f us ∧ Guarded us rest := by
  induction levels with
  | zero => exact functionTypeOver_complete fun _ _ _ _ _ h => h.1.elim
  | succ n ih =>
    have he := typeOver_complete ih (beginsFun n) true
    rw [← typeExpr_eq] at he
    exact functionTypeOver_complete he

theorem typeExpr_sound (levels : Nat) (allowVoid : Bool) :
    Sound (typeExpr levels allowVoid : Parser τ (TypeExpr τ)) fun t us _ =>
      IsType levels allowVoid t us := by
  rw [typeExpr_eq]
  exact typeOver_sound (functionType_sound levels) allowVoid

theorem typeExpr_complete (levels : Nat) (allowVoid : Bool) :
    Complete (typeExpr levels allowVoid : Parser τ (TypeExpr τ)) fun t us rest =>
      IsType levels allowVoid t us ∧ Stops lengthensType rest := by
  rw [typeExpr_eq]
  exact typeOver_complete (functionType_complete levels) (beginsFun levels) allowVoid

end Grammar

end Seanet
