import Seanet.Proofs.Grammar.Concatenation
import Seanet.Proofs.Grammar.Exchange
import Seanet.Proofs.Parser.Layout

/-!
# Loops with `for` as loops with `while`

A `for` loop means its initializer and a `while`, in a block, with the increment at the end of the
body. Here it is shown that it may as well be written like that: wherever the loop stands, the
program with the block in its place has the same tree, unless it nests too deeply.
-/

set_option autoImplicit false

namespace Seanet

open Grammar Seanet.Parser

namespace Grammar

variable {τ : Type} [SplitView τ]

theorem Splits.append {ts ts' us us' : List τ} (h : Splits ts us) (h' : Splits ts' us') :
    Splits (ts ++ ts') (us ++ us') :=
  (h.append_right ts').append h'

theorem Splits.cons {ts us : List τ} (t : τ) (h : Splits ts us) : Splits (t :: ts) (t :: us) :=
  .token t h

theorem Splits.append_inv {ts ts' us : List τ} (h : Splits (ts ++ ts') us) :
    ∃ xs ys, us = xs ++ ys ∧ Splits ts xs ∧ Splits ts' ys := by
  unfold Splits at h
  generalize hz : ts ++ ts' = zs at h
  generalize hr : ([] : List τ) = rest at h
  induction h generalizing ts with
  | nil zs =>
    subst hr
    obtain ⟨rfl, rfl⟩ := List.append_eq_nil_iff.1 hz
    exact ⟨[], [], rfl, .nil [], .nil []⟩
  | @token t zs us rest h ih =>
    rcases ts with _ | ⟨t', ts⟩
    · obtain rfl : ts' = t :: zs := hz
      exact ⟨[], t :: us, rfl, .nil [], .token t (hr ▸ h)⟩
    · obtain ⟨rfl, rfl⟩ := List.cons.inj hz
      obtain ⟨xs, ys, rfl, hx, hy⟩ := ih rfl hr
      exact ⟨t' :: xs, ys, rfl, hx.cons t', hy⟩
  | @half t zs us rest ht h ih =>
    rcases ts with _ | ⟨t', ts⟩
    · obtain rfl : ts' = t :: zs := hz
      exact ⟨[], _, rfl, .nil [], .half ht (hr ▸ h)⟩
    · obtain ⟨rfl, rfl⟩ := List.cons.inj hz
      obtain ⟨xs, ys, rfl, hx, hy⟩ := @ih (TokenView.secondHalf t' :: ts) rfl hr
      exact ⟨SplitView.firstHalf t' :: xs, ys, rfl, .half ht hx, hy⟩

theorem loop_complete {n : Nat} {s : Stmt τ} {f : τ} {ts fs rest : List τ}
    (h : IsStatement n s (f :: fs)) (hf : TokenView.kind f = .forWord)
    (hread : Reads ts (f :: fs) rest) :
    statementOver (expression n) (typeExpr n false) (stmtLayer n).block (stmtLayer n).conditional ts
      = .ok (s, rest) := by
  obtain ⟨mid, rfl, hmid⟩ := hread.cons_inv hf (by decide)
  have hstart : ∀ {p : Kind → Bool}, Begins p (f :: fs) → p .forWord = true := by
    rintro p ⟨_, _, ⟨⟩, hp⟩
    exact hf ▸ hp
  generalize hu : f :: fs = us at h hstart
  cases h with
  | simple h => exact absurd (hstart h.begins) (by decide)
  | block h => exact absurd (hstart h.begins) (by decide)
  | conditional h => exact absurd (hstart h.begins) (by decide)
  | forLoop _ hl hi htest hn hr hB =>
    obtain ⟨rfl, rfl⟩ := List.cons.inj hu
    simp only [statementOver, hf]
    exact forOver_complete (stmtLayer_complete n).1 hl hi htest hn hr hB hmid
  | whileLoop ht _ _ | returnVoid ht _ | returnValue ht _ _ =>
    obtain ⟨rfl, -⟩ := List.cons.inj hu
    rw [hf] at ht
    cases ht

theorem loop_unique {n m : Nat} {s s' : Stmt τ} {f f' : τ} {ts fs fs' rest rest' : List τ}
    (h : IsStatement n s (f :: fs)) (h' : IsStatement m s' (f' :: fs'))
    (hf : TokenView.kind f = .forWord) (hf' : TokenView.kind f' = .forWord)
    (hr : Reads ts (f :: fs) rest) (hr' : Reads ts (f' :: fs') rest') : s = s' ∧ rest = rest' := by
  have hp := loop_complete (IsStatement.mono (Nat.le_add_right n m) h) hf hr
  rw [loop_complete (IsStatement.mono (Nat.le_add_left m n) h') hf' hr'] at hp
  cases hp
  exact ⟨rfl, rfl⟩

/-- A program that is read with more levels is read with fewer, or nests too deeply. -/
theorem program_lower {n m : Nat} (hm : n ≤ m) {p : Program τ} {ts : List τ}
    (h : program m ts = .ok (p, [])) : program n ts = .ok (p, []) ∨ TooDeep (program n ts) := by
  cases hn : program n ts with
  | error fault =>
    have hraise : Follows True (TokenMap.refl τ) (Program.map id) (program n) (program m) :=
      follows_program (.inr ⟨trivial, hm⟩)
    have hfollows := hraise ts
    rw [show ts.map (TokenMap.refl τ) = ts from List.map_id ts, h, hn] at hfollows
    obtain hq | ⟨-, hd⟩ := hfollows
    · cases hq
    · exact .inr hd
  | ok r =>
    obtain ⟨q, rest⟩ := r
    obtain ⟨us, hu, hq, rfl⟩ := program_sound hn
    rw [program_complete hu ⟨IsProgram.mono hm hq, rfl⟩] at h
    exact .inl h

end Grammar

/-- The tokens of the parts of a loop: an initializer with its `;`, a condition, an increment that
does not begin with `fun`, and statements. All but the statements may be left out. -/
structure LoopParts (n : Nat) (initializer condition increment body : List Token) : Prop where
  initializer : initializer = [] ∨
    ∃ s us, Splits initializer us ∧ SimpleOver (Spells n) (IsType n false) s us
  condition : condition = [] ∨ ∃ e us, Splits condition us ∧ Spells n e us
  increment : increment = [] ∨
    ∃ e us, Splits increment us ∧ Spells n e us ∧ ¬ Begins (· == .funWord) us
  body : ∃ b us, Splits body us ∧ Sequence (IsStatement n) b us

/-- The tokens of a part, or a mark where there are none. -/
inductive PartOr (mark : Token → Prop) (part : List Token) : List Token → Prop where
  | part (h : part ≠ []) : PartOr mark part part
  | mark {t : Token} (h : part = []) (ht : mark t) : PartOr mark part [t]

/-- `for (initializer-or-; condition; increment) { body }`. -/
inductive ForForm (initializer condition increment body : List Token) : List Token → Prop where
  | mk {f l s r o c : Token} {first : List Token} (hf : f.kind = .forWord)
      (hl : l.kind = .leftParen) (hi : PartOr (·.kind = .semicolon) initializer first)
      (hs : s.kind = .semicolon) (hr : r.kind = .rightParen) (ho : o.kind = .leftBrace)
      (hc : c.kind = .rightBrace) :
      ForForm initializer condition increment body
        (f :: l :: first ++ (condition ++ [s]) ++ increment ++ r :: (o :: body ++ [c]))

/-- The increment as a statement of its own. -/
inductive IncrementStatement (increment : List Token) : List Token → Prop where
  | none (h : increment = []) : IncrementStatement increment []
  | some {s : Token} (h : increment ≠ []) (hs : s.kind = .semicolon) :
      IncrementStatement increment (increment ++ [s])

/-- `{ initializer while (condition-or-true) { body increment; } }`. -/
inductive WhileForm (initializer condition increment body : List Token) : List Token → Prop where
  | mk {o w l r o' c' c : Token} {test last : List Token} (ho : o.kind = .leftBrace)
      (hw : w.kind = .whileWord) (hl : l.kind = .leftParen)
      (ht : PartOr (fun t => t.kind = .trueWord ∧ t.spelling = "true") condition test)
      (hr : r.kind = .rightParen) (ho' : o'.kind = .leftBrace)
      (hi : IncrementStatement increment last) (hc' : c'.kind = .rightBrace)
      (hc : c.kind = .rightBrace) :
      WhileForm initializer condition increment body
        (o :: (initializer ++ (w :: (l :: test ++ [r]) ++ (o' :: (body ++ last) ++ [c']))) ++ [c])

section

variable {n : Nat} {initializer condition increment body : List Token}

theorem LoopParts.initializer_forms (h : LoopParts n initializer condition increment body)
    {first : List Token} (hi : PartOr (·.kind = .semicolon) initializer first) :
    ∃ o us vs, Splits first us ∧ InitializerOver (Spells n) (IsType n false) o us ∧
      Splits initializer vs ∧ Sequence (SimpleOver (Spells n) (IsType n false)) o.toList vs := by
  cases hi with
  | part hne =>
    obtain hnil | ⟨s, us, hu, hs⟩ := h.initializer
    · exact absurd hnil hne
    · refine ⟨some s, us, us, hu, .some hs, hu, ?_⟩
      simpa using Sequence.cons hs .nil
  | @mark t hnil ht =>
    subst hnil
    exact ⟨none, [t], [], Splits.refl [t], .none ht, .nil [], .nil⟩

theorem LoopParts.condition_forms (h : LoopParts n initializer condition increment body)
    {s : Token} {test : List Token} (hs : s.kind = .semicolon)
    (ht : PartOr (fun t => t.kind = .trueWord ∧ t.spelling = "true") condition test) :
    ∃ e e' us vs, Splits (condition ++ [s]) us ∧ LoopConditionOver (Spells (n + 1)) e us ∧
      Splits test vs ∧ Spells (n + 1) e' vs ∧ e'.map Token.word = e.map Token.word := by
  have hmore := Spells.mono (τ := Token) (Nat.le_add_right n 1)
  cases ht with
  | part hne =>
    obtain hnil | ⟨e, us, hu, he⟩ := h.condition
    · exact absurd hnil hne
    · exact ⟨e, e, us ++ [s], us, hu.append (Splits.refl [s]), .written (hmore he) hs, hu, hmore he,
        rfl⟩
  | @mark t hnil ht =>
    subst hnil
    have hspells : Spells (n + 1) (.literal t) [t] :=
      ⟨.literal (by rw [show TokenView.kind t = .trueWord from ht.1]; rfl), YieldsOver.literal t⟩
    have hword : t.word = s.unwrittenTrue.word := by
      have htext := t.word_text.trans ht.2
      have hkind := t.word_kind.trans ht.1
      cases hw : t.word with
      | mk kind text =>
        rw [hw] at htext hkind
        rw [show kind = .trueWord from hkind, show text = "true" from htext]
        rfl
    exact ⟨_, _, [s], [t], Splits.refl [s], .missing hs, Splits.refl [t], hspells,
      congrArg Expr.literal hword⟩

theorem LoopParts.increment_forms (h : LoopParts n initializer condition increment body)
    {last : List Token} (hi : IncrementStatement increment last) :
    ∃ o us vs, Splits increment us ∧ IncrementOver (Spells n) o us ∧ Splits last vs ∧
      Sequence (IsStatement n) (o.toList.map .expr) vs := by
  cases hi with
  | none hnil =>
    subst hnil
    exact ⟨none, [], [], .nil [], .none, .nil [], .nil⟩
  | @some s hne hs =>
    obtain hnil | ⟨e, us, hu, he, hf⟩ := h.increment
    · exact absurd hnil hne
    · have hstatement : IsStatement n (.expr e) (us ++ [s]) := .simple (.expr he hf hs)
      refine ⟨some e, us, us ++ [s], hu, .some he, hu.append (Splits.refl [s]), ?_⟩
      simpa using Sequence.cons hstatement .nil

theorem LoopParts.forms (h : LoopParts n initializer condition increment body)
    {loop block : List Token} (hf : ForForm initializer condition increment body loop)
    (hw : WhileForm initializer condition increment body block) :
    ∃ f tail fs s s' ws, loop = f :: tail ∧ f.kind = .forWord ∧ Splits loop (f :: fs) ∧
      IsStatement (n + 1) s (f :: fs) ∧ Splits block ws ∧ IsStatement (n + 2) s' ws ∧
      s'.map Token.word = s.map Token.word := by
  have hspells := Spells.mono (τ := Token) (Nat.le_add_right n 1)
  have htype := IsType.mono (τ := Token) (Nat.le_add_right n 1) false
  obtain ⟨b, us₄, hu₄, hbody⟩ := h.body
  cases hf with
  | @mk f l s r o c first hf hl hi hs hr ho hc =>
  cases hw with
  | @mk o₁ w l' r' o₂ c₂ c₁ test last ho₁ hw hl' ht hr' ho₂ hlast hc₂ hc₁ =>
  obtain ⟨before, us₁, vs₁, hu₁, hfirst, hv₁, hbefore⟩ := h.initializer_forms hi
  obtain ⟨e, e', us₂, vs₂, hu₂, htest, hv₂, htest', hword⟩ := h.condition_forms hs ht
  obtain ⟨after, us₃, vs₃, hu₃, hincrement, hv₃, hafter⟩ := h.increment_forms hlast
  have hblock : IsBlock (n + 1) b (o :: us₄ ++ [c]) := .mk ho hbody hc
  have hfor : IsStatement (n + 1)
      (.block (before.toList ++ [.whileLoop e (b ++ after.toList.map .expr)]))
      (f :: (l :: us₁ ++ us₂ ++ us₃ ++ r :: (o :: us₄ ++ [c]))) :=
    .forLoop hf hl (InitializerOver.imp hspells htype hfirst) htest
      (IncrementOver.imp hspells hincrement) hr hblock
  have hinner : IsBlock (n + 1) (b ++ after.toList.map .expr) (o₂ :: (us₄ ++ vs₃) ++ [c₂]) :=
    .mk ho₂ (hbody.append hafter) hc₂
  have hwhile : IsStatement (n + 1) (.whileLoop e' (b ++ after.toList.map .expr))
      (w :: (l' :: vs₂ ++ [r']) ++ (o₂ :: (us₄ ++ vs₃) ++ [c₂])) :=
    .whileLoop hw (.mk hl' htest' hr') hinner
  have hstatements : Sequence (IsStatement (n + 1))
      (before.toList ++ [.whileLoop e' (b ++ after.toList.map .expr)])
      (vs₁ ++ (w :: (l' :: vs₂ ++ [r']) ++ (o₂ :: (us₄ ++ vs₃) ++ [c₂]))) :=
    (hbefore.imp fun _ _ hs => .simple (SimpleOver.imp hspells htype hs)).snoc hwhile
  have houter : IsBlock (n + 2) _ _ := .mk ho₁ hstatements hc₁
  refine ⟨f, _, _, _, _, _, rfl, hf, ?_, hfor, ?_, .block houter, ?_⟩
  · exact (((hu₁.cons l).append hu₂).append hu₃ |>.append
      (((hu₄.cons o).append (Splits.refl [c])).cons r)).cons f
  · have htail := (((hv₂.cons l').append (Splits.refl [r'])).cons w).append
      (((hu₄.append hv₃).cons o₂).append (Splits.refl [c₂]))
    exact ((hv₁.append htail).cons o₁).append (Splits.refl [c₁])
  · simp [Stmt.map, Stmt.mapList_eq, hword]

end

def NestsTooDeeply (tokens : List Token) : Prop :=
  TooDeep (program maxNesting (Stream.ofTokens tokens).tokens)

/-- In a stream, a loop may be exchanged for a block with the same words. -/
theorem program_exchange {n m k : Nat} {p : Program Token} {s s' : Stmt Token} {f : Token}
    {before tail fs block ws after : List Token}
    (hp : program n (before ++ f :: tail ++ after) = .ok (p, [])) (hf : f.kind = .forWord)
    (hloop : Splits (f :: tail) (f :: fs)) (hs : IsStatement k s (f :: fs))
    (hblock : Splits block ws) (hs' : IsStatement m s' ws)
    (hwords : s'.map Token.word = s.map Token.word) :
    ∃ p', program (n + m) (before ++ block ++ after) = .ok (p', []) ∧
      p'.map Token.word = p.map Token.word := by
  obtain ⟨us, hu, hprogram, -⟩ := program_sound hp
  rw [List.append_assoc] at hu
  obtain ⟨xs, ys, rfl, hxs, hys⟩ := Splits.append_inv hu
  obtain ⟨gs, rfl⟩ : ∃ gs, ys = f :: gs := by
    cases hys with
    | token _ _ => exact ⟨_, rfl⟩
    | half hg _ => exact absurd (hf.symm.trans hg) (by decide)
  obtain ⟨k', s₀, fs', zs, rfl, hs₀, hexchange⟩ := hprogram.exchanges Token.word xs f gs rfl hf
  rw [← List.cons_append] at hys
  obtain ⟨mid, hread, hzs⟩ := Reads.append_inv hys
  -- The loop of the derivation is the given one, so the block has its words.
  have hread' : Reads (f :: tail ++ after) (f :: fs) after := by
    simpa using hloop.append_right after
  obtain ⟨rfl, rfl⟩ := loop_unique hs hs₀ hf hf hread' hread
  obtain ⟨p', hp', he⟩ := hexchange m s' ws hs' hwords
  refine ⟨p', program_complete ?_ ⟨hp', rfl⟩, he⟩
  exact (Splits.append hxs hblock).append hzs

/-- A `for` loop may be written as a block with a `while`, wherever it stands: the program is parsed
again and prints the same, unless it then nests too deeply. -/
theorem for_as_while (file : Text) (before after loop block : List Token)
    (initializer condition increment body : List Token) (n : Nat) (p : Program Token)
    (hparts : LoopParts n initializer condition increment body)
    (hloop : ForForm initializer condition increment body (Stream.visible loop))
    (hblock : WhileForm initializer condition increment body (Stream.visible block))
    (hend : ∀ t ∈ before ++ loop ++ block, t.kind ≠ .eof)
    (hp : parseProgram file (before ++ loop ++ after) = .ok p)
    (hdeep : ¬ NestsTooDeeply (before ++ block ++ after)) :
    ∃ p', parseProgram file (before ++ block ++ after) = .ok p' ∧ p'.print = p.print := by
  have hstream : ∀ {middle : List Token}, (∀ t ∈ before ++ middle, t.kind ≠ .eof) →
      (Stream.ofTokens (before ++ middle ++ after)).tokens =
        Stream.visible before ++ Stream.visible middle ++ (Stream.ofTokens after).tokens := by
    intro middle hm
    rw [Stream.ofTokens_append_tokens hm, Stream.ofTokens_of_ne_eof hm, List.filter_append]
    rfl
  simp only [List.forall_mem_append] at hend
  obtain ⟨⟨hbefore, hl⟩, hb⟩ := hend
  have hl := hstream (List.forall_mem_append.2 ⟨hbefore, hl⟩)
  have hb := hstream (List.forall_mem_append.2 ⟨hbefore, hb⟩)
  obtain ⟨f, tail, fs, s, s', ws, hvisible, hf, hfs, hs, hws, hs', hwords⟩ :=
    hparts.forms hloop hblock
  obtain ⟨rest, hrun⟩ := run_ok_iff.1 hp
  obtain rfl := (program_ok_iff.1 hrun).1
  rw [hl, hvisible] at hrun
  rw [hvisible] at hfs
  obtain ⟨p', hp', he⟩ := program_exchange hrun hf hfs hs hws hs' hwords
  rw [NestsTooDeeply, hb] at hdeep
  have hparse := (program_lower (Nat.le_add_right _ _) hp').resolve_right hdeep
  refine ⟨p', run_ok_iff.2 ⟨[], hb ▸ hparse⟩, ?_⟩
  rw [Program.print_eq, Program.print_eq, he]

theorem parseProgram_statement {k : Nat} (hk : k < maxNesting) {s : Stmt Token} {ts us : List Token}
    (hs : IsStatement k s us) (hts : Splits ts us)
    (hvisible : ∀ t ∈ ts, t.kind ≠ .comment ∧ t.kind ≠ .eof) (file : Text) {v f l r o c : Token}
    (hv : v.kind = .void) (hf : f.kind = .identifier) (hl : l.kind = .leftParen)
    (hr : r.kind = .rightParen) (ho : o.kind = .leftBrace) (hc : c.kind = .rightBrace) :
    ∃ p, parseProgram file ([v, f, l, r, o] ++ ts ++ [c]) = .ok p := by
  have htype : IsType maxNesting true (.named v false) [v] :=
    TypeOver.name .absent (by rw [show TokenView.kind v = .void from hv]; rfl) .nil
  have hbody : Sequence (IsStatement k) [s] us := by simpa using Sequence.cons hs .nil
  have hblock : IsBlock (k + 1) [s] (o :: us ++ [c]) := .mk ho hbody hc
  have hfunction : IsDeclaration maxNesting (.function (.named v false) f [] [s])
      ([v] ++ f :: l :: [] ++ r :: (o :: us ++ [c])) :=
    .function htype hf hl .none hr (IsBlock.mono hk hblock)
  have hsplits : Splits ([v, f, l, r, o] ++ ts ++ [c])
      ([v] ++ f :: l :: [] ++ r :: (o :: us ++ [c]) ++ []) := by
    simpa using (((((hts.append (Splits.refl [c])).cons o).cons r).cons l).cons f).cons v
  have hself : (Stream.ofTokens ([v, f, l, r, o] ++ ts ++ [c])).tokens =
      [v, f, l, r, o] ++ ts ++ [c] := by
    apply Stream.ofTokens_eq_self
    simpa [hv, hf, hl, hr, ho, hc, or_imp, forall_and] using hvisible
  exact ⟨_, run_ok_iff.2 ⟨[], hself ▸ program_complete hsplits ⟨.mk (.cons hfunction .nil), rfl⟩⟩⟩

/-- `for (x; ; y) { }` in a function. -/
theorem for_as_while_empty :
    let token (k : Kind) : Token := ⟨k, 0, 4, 1, 1, ⟨[], "true"⟩, none⟩
    let before := [.void, .identifier, .leftParen, .rightParen, .leftBrace].map token
    let loop := [.forWord, .leftParen, .identifier, .semicolon, .semicolon, .identifier,
      .rightParen, .leftBrace, .rightBrace].map token
    let block := [.leftBrace, .identifier, .semicolon, .whileWord, .leftParen, .trueWord,
      .rightParen, .leftBrace, .identifier, .semicolon, .rightBrace, .rightBrace].map token
    let after := [token .rightBrace]
    ∃ p p', parseProgram "a.sn" (before ++ loop ++ after) = .ok p ∧
      parseProgram "a.sn" (before ++ block ++ after) = .ok p' ∧ p'.print = p.print := by
  intro token before loop block after
  have hname : Spells 1 (.variable (token .identifier) false) [token .identifier] :=
    ⟨.variable rfl, YieldsOver.variable _⟩
  have hfun : ¬ Begins (· == .funWord) [token .identifier] := by
    rintro ⟨_, _, ⟨⟩, hk⟩
    cases hk
  have hparts : LoopParts 1 [token .identifier, token .semicolon] [] [token .identifier] [] :=
    ⟨.inr ⟨_, _, Splits.refl _, .expr hname hfun rfl⟩, .inl rfl,
      .inr ⟨_, _, Splits.refl _, hname, hfun⟩, [], [], .nil [], .nil⟩
  have hloop : ForForm [token .identifier, token .semicolon] [] [token .identifier] []
      (Stream.visible loop) :=
    .mk rfl rfl (.part (by simp)) rfl rfl rfl rfl
  have hblock : WhileForm [token .identifier, token .semicolon] [] [token .identifier] []
      (Stream.visible block) :=
    .mk rfl rfl rfl (.mark rfl ⟨rfl, by decide⟩) rfl rfl (.some (by simp) rfl) rfl rfl
  obtain ⟨f, tail, fs, s, s', ws, -, -, hfs, hs, hws, hs', -⟩ := hparts.forms hloop hblock
  obtain ⟨p, hp⟩ : ∃ p, parseProgram "a.sn" (before ++ loop ++ after) = .ok p :=
    parseProgram_statement (by decide) hs hfs (by decide) "a.sn" rfl rfl rfl rfl rfl rfl
  obtain ⟨q, hq⟩ : ∃ q, parseProgram "a.sn" (before ++ block ++ after) = .ok q :=
    parseProgram_statement (by decide) hs' hws (by decide) "a.sn" rfl rfl rfl rfl rfl rfl
  have hdeep : ¬ NestsTooDeeply (before ++ block ++ after) := by
    rintro ⟨rest, hrest⟩
    obtain ⟨_, hrun⟩ := run_ok_iff.1 hq
    rw [hrest] at hrun
    cases hrun
  obtain ⟨p', hp', hprint⟩ := for_as_while "a.sn" before after loop block _ _ _ _ 1 p hparts hloop
    hblock (by decide) hp hdeep
  exact ⟨p, p', hp, hp', hprint⟩

end Seanet
