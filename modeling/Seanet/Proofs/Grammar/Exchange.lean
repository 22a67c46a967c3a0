import Seanet.Proofs.Grammar.Levels
import Seanet.Proofs.Tree.Words

set_option autoImplicit false

namespace Seanet

namespace Grammar

open TokenView (kind)
open Seanet.Parser

variable {τ ω α β : Type} [SplitView τ]

/-- At every `for` in `us` a loop begins. With a statement in place of the loop that is the same
under `g`, the tokens have the property `Q`, where the first argument is how many levels of nesting
the statement has. -/
def Exchanges (g : τ → ω) (Q : Nat → List τ → Prop) (us : List τ) : Prop :=
  ∀ xs f ys, us = xs ++ f :: ys → kind f = .forWord →
    ∃ k s fs zs, ys = fs ++ zs ∧ IsStatement k s (f :: fs) ∧
      ∀ m s' ws, IsStatement m s' ws → s'.map g = s.map g → Q m (xs ++ ws ++ zs)

def Stays (G : Nat → α → List τ → Prop) (h : α → β) (n : Nat) (a : α) (m : Nat)
    (us : List τ) : Prop := ∃ a', G (n + m) a' us ∧ h a' = h a

section

variable {g : τ → ω} {Q Q' : Nat → List τ → Prop} {us vs : List τ}

theorem Exchanges.imp (h : Exchanges g Q us) (hq : ∀ m ws, Q m ws → Q' m ws) :
    Exchanges g Q' us := by
  intro xs f ys hu hf
  obtain ⟨k, s, fs, zs, hy, hs, hx⟩ := h xs f ys hu hf
  exact ⟨k, s, fs, zs, hy, hs, fun m s' ws hm he => hq m _ (hx m s' ws hm he)⟩

theorem Bodiless.exchanges (h : Bodiless us) : Exchanges g Q us := by
  rintro xs f ys rfl hf
  have hb := h f (by simp)
  rw [hf] at hb
  cases hb

theorem Exchanges.append (hu : Exchanges g (fun m ws => Q m (ws ++ vs)) us)
    (hv : Exchanges g (fun m ws => Q m (us ++ ws)) vs) : Exchanges g Q (us ++ vs) := by
  have hright : ∀ ts {f ys}, vs = ts ++ f :: ys → kind f = .forWord →
      ∃ k s fs zs, ys = fs ++ zs ∧ IsStatement k s (f :: fs) ∧
        ∀ m s' ws, IsStatement m s' ws → s'.map g = s.map g → Q m (us ++ ts ++ ws ++ zs) := by
    intro ts f ys hts hf
    obtain ⟨k, s, fs, zs, hy, hs, hx⟩ := hv ts f ys hts hf
    refine ⟨k, s, fs, zs, hy, hs, fun m s' ws hm he => ?_⟩
    simpa using hx m s' ws hm he
  intro xs f ys h hf
  rcases List.append_eq_append_iff.1 h with ⟨ts, rfl, hts⟩ | ⟨ts, hus, hts⟩
  · exact hright ts hts hf
  · cases ts with
    | nil =>
      rw [List.append_nil] at hus
      have hhead := hright [] hts.symm hf
      rwa [List.append_nil, hus] at hhead
    | cons b ts =>
      obtain ⟨rfl, rfl⟩ := List.cons.inj hts
      obtain ⟨k, s, fs, zs, rfl, hs, hx⟩ := hu xs f ts hus hf
      refine ⟨k, s, fs, zs ++ vs, by simp, hs, fun m s' ws hm he => ?_⟩
      simpa using hx m s' ws hm he

theorem Exchanges.after (hu : Bodiless us) (hv : Exchanges g (fun m ws => Q m (us ++ ws)) vs) :
    Exchanges g Q (us ++ vs) :=
  hu.exchanges.append hv

theorem Exchanges.before (hu : Exchanges g (fun m ws => Q m (ws ++ vs)) us) (hv : Bodiless vs) :
    Exchanges g Q (us ++ vs) :=
  hu.append hv.exchanges

theorem exchanges_single {t : τ} (ht : kind t ≠ .forWord) : Exchanges g Q [t] := by
  intro xs f ys h hf
  rcases xs with _ | ⟨x, xs⟩
  · obtain ⟨rfl, -⟩ := List.cons.inj h
    exact absurd hf ht
  · simp at h

theorem Exchanges.mark {t : τ} {k : Kind} (ht : kind t = k) (hk : k ≠ .forWord)
    (hu : Exchanges g (fun m ws => Q m (t :: ws)) us) : Exchanges g Q (t :: us) := by
  have ht' : Exchanges g (fun m ws => Q m (ws ++ us)) [t] := exchanges_single (ht ▸ hk)
  exact ht'.append hu

theorem Exchanges.loop {t : τ} {k : Nat} {s : Stmt τ} (hs : IsStatement k s (t :: us))
    (hq : ∀ m s' ws, IsStatement m s' ws → s'.map g = s.map g → Q m ws)
    (hu : Exchanges g (fun m ws => Q m (t :: ws)) us) : Exchanges g Q (t :: us) := by
  intro xs f ys h hf
  rcases xs with _ | ⟨x, xs⟩
  · obtain ⟨rfl, rfl⟩ := List.cons.inj h
    refine ⟨k, s, us, [], by simp, hs, fun m s' ws hm he => ?_⟩
    simpa using hq m s' ws hm he
  · obtain ⟨rfl, rfl⟩ := List.cons.inj h
    exact hu xs f ys rfl hf

theorem Sequence.exchanges {G : Nat → α → List τ → Prop} {h : α → β} {n : Nat}
    (hg : ∀ a us, G n a us → Exchanges g (Stays G h n a) us)
    (hm : ∀ m, Subgrammar (G n) (G (n + m))) {as : List α} (hs : Sequence (G n) as us) :
    Exchanges g (Stays (fun n => Sequence (G n)) (List.map h) n as) us := by
  induction hs with
  | nil => exact bodiless_nil.exchanges
  | cons ha hs ih =>
    refine Exchanges.append ((hg _ _ ha).imp ?_) (ih.imp ?_)
    · rintro m ws ⟨a', ha', he⟩
      exact ⟨_, .cons ha' (hs.imp (hm m)), by simp [he]⟩
    · rintro m ws ⟨as', has', he⟩
      exact ⟨_, .cons (hm m ha) has', by simp [he]⟩

end

section

variable (g : τ → ω) {n : Nat}
  (hb : ∀ b us, IsBlock n b us → Exchanges g (Stays IsBlock (List.map (Stmt.map g)) n b) us)
  (hc : ∀ s us, IsConditional n s us → Exchanges g (Stays IsConditional (Stmt.map g) n s) us)

include hb hc

theorem IsStatement.exchanges {s : Stmt τ} {us : List τ} (h : IsStatement n s us) :
    Exchanges g (Stays IsStatement (Stmt.map g) n s) us := by
  have hspells := fun m => Spells.mono (τ := τ) (Nat.le_add_right n m)
  have htype := fun m => IsType.mono (τ := τ) (Nat.le_add_right n m) false
  cases h with
  | simple h => exact h.bodiless.exchanges
  | block h =>
    refine (hb _ _ h).imp ?_
    rintro m ws ⟨b', hb', he⟩
    exact ⟨.block b', .block hb', by simp [Stmt.map, Stmt.mapList_eq, he]⟩
  | conditional h =>
    refine (hc _ _ h).imp ?_
    rintro m ws ⟨s', hs', he⟩
    exact ⟨s', .conditional hs', he⟩
  | @whileLoop t e body us vs ht h hB =>
    refine .mark ht (by decide) (.after h.bodiless ((hb _ _ hB).imp ?_))
    rintro m ws ⟨b', hb', he⟩
    exact ⟨_, .whileLoop ht (ParenthesizedOver.imp (hspells m) h) hb',
      by simp [Stmt.map, Stmt.mapList_eq, he]⟩
  | @forLoop t l r initializer test increment body us vs ws xs ht hl hi htest hn hr hB =>
    refine .loop (k := n) (.forLoop ht hl hi htest hn hr hB) ?_ ?_
    · intro m s' ws hs he
      exact ⟨s', IsStatement.mono (Nat.le_add_left m n) hs, he⟩
    · have hclauses := ((hi.bodiless.mark hl rfl).append htest.bodiless).append hn.bodiless
      refine .after hclauses (.mark hr (by decide) ((hb _ _ hB).imp ?_))
      rintro m zs ⟨b', hb', he⟩
      exact ⟨_, .forLoop ht hl (InitializerOver.imp (hspells m) (htype m) hi)
        (LoopConditionOver.imp (hspells m) htest) (IncrementOver.imp (hspells m) hn) hr hb',
        by simp [Stmt.map, Stmt.mapList_eq, he]⟩
  | returnVoid ht hs => exact ((bodiless_single hs rfl).mark ht rfl).exchanges
  | returnValue ht h hs =>
    exact ((h.bodiless.mark ht rfl).append (bodiless_single hs rfl)).exchanges

theorem IsBlock.exchanges_succ {b : List (Stmt τ)} {us : List τ} (h : IsBlock (n + 1) b us) :
    Exchanges g (Stays IsBlock (List.map (Stmt.map g)) (n + 1) b) us := by
  cases h with
  | mk hl h hr =>
    refine .mark hl (by decide) (.append (Exchanges.imp (Sequence.exchanges (G := IsStatement)
      (fun _ _ hs => IsStatement.exchanges g hb hc hs)
      (fun m => IsStatement.mono (Nat.le_add_right n m)) h) ?_) (exchanges_single (by simp [hr])))
    rintro m ws ⟨b', hb', he⟩
    refine ⟨b', ?_, he⟩
    rw [Nat.add_right_comm]
    exact .mk hl hb' hr

theorem IsConditional.exchanges_succ {s : Stmt τ} {us : List τ} (h : IsConditional (n + 1) s us) :
    Exchanges g (Stays IsConditional (Stmt.map g) (n + 1) s) us := by
  have hblock : ∀ b us, IsBlock (n + 1) b us →
      Exchanges g (Stays IsBlock (List.map (Stmt.map g)) (n + 1) b) us :=
    fun _ _ hB => IsBlock.exchanges_succ g hb hc hB
  -- A conditional of level `n + 1 + m` has blocks of that level, and is followed by conditionals
  -- of the level below it.
  have hmake : ∀ m (s : Stmt τ) ws, ConditionalOver (Spells (n + 1 + m)) (IsBlock (n + 1 + m))
      (IsConditional (n + m)) s ws → IsConditional (n + 1 + m) s ws := by
    intro m s ws hs
    rw [Nat.add_right_comm] at hs ⊢
    exact hs
  have htest := fun m => ParenthesizedOver.imp (Spells.mono (τ := τ) (Nat.le_add_right (n + 1) m))
  have hraise := fun m => IsBlock.mono (τ := τ) (Nat.le_add_right (n + 1) m)
  cases h with
  | ifThen ht h hB =>
    refine .mark ht (by decide) (.after h.bodiless ((hblock _ _ hB).imp ?_))
    rintro m ws ⟨b', hb', he⟩
    exact ⟨_, hmake m _ _ (.ifThen ht (htest m h) hb'), by simp [Stmt.map, Stmt.mapList_eq, he]⟩
  | ifElse ht h hB hw ho =>
    refine .append (.mark ht (by decide) (.after h.bodiless ((hblock _ _ hB).imp ?_)))
      (.mark hw (by decide) ((hblock _ _ ho).imp ?_))
    · rintro m ws ⟨b', hb', he⟩
      exact ⟨_, hmake m _ _ (.ifElse ht (htest m h) hb' hw (hraise m ho)),
        by simp [Stmt.map, Stmt.mapList_eq, he]⟩
    · rintro m ws ⟨b', hb', he⟩
      exact ⟨_, hmake m _ _ (.ifElse ht (htest m h) (hraise m hB) hw hb'),
        by simp [Stmt.map, Stmt.mapList_eq, he]⟩
  | elseIf ht h hB hw ho =>
    refine .append (.mark ht (by decide) (.after h.bodiless ((hblock _ _ hB).imp ?_)))
      (.mark hw (by decide) ((hc _ _ ho).imp ?_))
    · rintro m ws ⟨b', hb', he⟩
      have ho' := (stmtLayer_mono (Nat.le_add_right n m)).2 ho
      exact ⟨_, hmake m _ _ (.elseIf ht (htest m h) hb' hw ho'),
        by simp [Stmt.map, Stmt.mapList_eq, he]⟩
    · rintro m ws ⟨s', hs', he⟩
      exact ⟨_, hmake m _ _ (.elseIf ht (htest m h) (hraise m hB) hw hs'),
        by simp [Stmt.map, Stmt.mapList_eq, he]⟩

end

theorem stmtLayer_exchanges (g : τ → ω) (n : Nat) :
    (∀ b us, IsBlock n b us → Exchanges g (Stays IsBlock (List.map (Stmt.map g)) n b) us) ∧
      ∀ s us, IsConditional n s us → Exchanges g (Stays IsConditional (Stmt.map g) n s) us := by
  induction n with
  | zero => exact ⟨fun _ _ h => h.elim, fun _ _ h => h.elim⟩
  | succ n ih =>
    exact ⟨fun _ _ h => IsBlock.exchanges_succ g ih.1 ih.2 h,
      fun _ _ h => IsConditional.exchanges_succ g ih.1 ih.2 h⟩

theorem IsDeclaration.exchanges (g : τ → ω) {n : Nat} {d : Declaration τ} {us : List τ}
    (h : IsDeclaration n d us) : Exchanges g (Stays IsDeclaration (Declaration.map g) n d) us := by
  cases h with
  | struct ht hn hl h hr =>
    have hfields := h.bodiless fun _ _ hm => hm.bodiless
    refine .mark ht (by decide) (.mark hn (by decide) (.mark hl (by decide)
      (.after hfields (exchanges_single (by simp [hr])))))
  | function h hn hl hp hr hb =>
    have hparameters := hp.bodiless fun _ _ hf => hf.bodiless
    have hhead := h.bodiless.append ((hparameters.mark hl rfl).mark hn rfl)
    refine .after hhead (.mark hr (by decide) (((stmtLayer_exchanges g n).1 _ _ hb).imp ?_))
    rintro m ws ⟨b', hb', he⟩
    have htype := fun allowVoid => IsType.mono (τ := τ) (Nat.le_add_right n m) allowVoid
    exact ⟨_, .function (htype true h) hn hl (hp.imp (FieldOver.imp (htype false))) hr hb',
      by simp [Declaration.map, Stmt.mapList_eq, he]⟩

/-- A loop anywhere in a program may be exchanged for a statement with the same words. -/
theorem IsProgram.exchanges (g : τ → ω) {n : Nat} {p : Program τ} {us : List τ}
    (h : IsProgram n p us) : Exchanges g (Stays IsProgram (Program.map g) n p) us := by
  cases h with
  | mk h =>
    refine (Sequence.exchanges (G := IsDeclaration) (fun _ _ hd => IsDeclaration.exchanges g hd)
      (fun m => IsDeclaration.mono (Nat.le_add_right n m)) h).imp ?_
    rintro m ws ⟨ds, hds, he⟩
    exact ⟨⟨ds⟩, .mk hds, by simp [Program.map, he]⟩

end Grammar

end Seanet
