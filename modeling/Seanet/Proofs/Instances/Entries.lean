import Seanet.Proofs.Instances.Fuel
import Seanet.Proofs.Parser.FirstFault

set_option autoImplicit false

namespace Seanet

namespace Instances

open Machine Memory Seanet.Parser

variable {α β : Type} {m m' : Memory} {file : Text} {address : Nat}

/-- The first end mark ends the stream. Where there is none, one is added. -/
theorem exists_end (file : Text) (tokens : List Token) :
    ∃ e back, tokens.filter (·.kind ≠ .comment) ++
        endMark file (tokens.filter (·.kind ≠ .comment)) =
          (Stream.ofTokens tokens).tokens ++ e :: back ∧
      e.kind = .eof ∧ (⟨e.line, e.column⟩ : Location) = (Stream.ofTokens tokens).ending := by
  simp only [Stream.ofTokens]
  generalize tokens.filter (·.kind ≠ .comment) = kept
  cases hdrop : kept.dropWhile (·.kind ≠ .eof) with
  | cons mark back =>
    obtain ⟨hkept, hmark⟩ := Stream.split_of_dropWhile hdrop
    refine ⟨mark, back ++ endMark file kept, ?_, hmark, rfl⟩
    rw [← List.cons_append, ← List.append_assoc, ← hkept]
  | nil =>
    have hkept := List.takeWhile_append_dropWhile (p := fun t : Token => decide (t.kind ≠ .eof))
      (l := kept)
    rw [hdrop, List.append_nil] at hkept
    simp only [hkept]
    cases hlast : kept.getLast? with
    | none =>
      refine ⟨⟨.eof, 0, 0, 1, 1, ⟨file, []⟩, none⟩, [], ?_, rfl, rfl⟩
      rw [endMark, hlast]
    | some t =>
      have ht : t.kind ≠ .eof := by
        have hmem := List.mem_of_getLast? hlast
        rw [← hkept] at hmem
        exact Stream.ne_eof_of_mem hmem
      refine ⟨⟨.eof, t.source.text.length, 0, t.line, t.column + t.length, t.source, none⟩, [], ?_,
        rfl, ?_⟩
      · simp only [endMark, hlast, if_neg ht]
      · simp [Stream.behind]

theorem reset_faces (file : Text) (address : Nat) (m : Memory) :
    ∃ e : Token,
      (reset file address m).Faces (Stream.ofTokens (m.array address)).tokens e ∧
      (⟨e.line, e.column⟩ : Location) = (Stream.ofTokens (m.array address)).ending := by
  obtain ⟨e, back, hsplit, he, hend⟩ := exists_end file (m.array address)
  refine ⟨e, ⟨by simp [reset, allocate], ⟨[], back, ?_, rfl⟩,
    fun t ht => (Stream.kind_ne ht).2, he⟩, hend⟩
  rw [List.nil_append, ← hsplit]
  simp [Memory.tokens, Memory.array, reset, allocate]

theorem adds_of_movesTo (h : (reset file address m).MovesTo m') : m.Adds m' [] := by
  obtain ⟨ts, c, rfl⟩ := h
  refine ⟨?_, rfl⟩
  simp [moved, reset, allocate]

theorem Memory.Adds.report (h : m.Adds m' []) (r : Report) : m.Adds (m'.report r) [r] := by
  refine ⟨h.arrays, ?_⟩
  change m'.diagnostics.report r = _
  rw [h.diagnostics]
  rfl

theorem Implements.whole {limit n : Nat} {method : Machine α} {p : Parser Token α}
    (h : Implements limit n method p) : Implements limit n method.whole (Parser.whole p) := by
  refine h.bind fun a ts => implementsAt_isAtEnd (fun hts => ?_) fun hts => ?_
  · subst hts
    exact (implements_pure a []).congr rfl
  · obtain ⟨t, ts, rfl⟩ := List.exists_cons_of_ne_nil hts
    exact (implements_errorAtCurrent _ (t :: ts)).congr rfl

theorem enter_eq {method : Machine α} {p : Parser Token α}
    (h : Implements maxNesting maxNesting method p) (f : α → β) (fallback : β) (file : Text)
    (address : Nat) (m : Memory) :
    ∃ m', enter method f fallback file address m =
        ((Parsed.settle fallback ((p.run file (m.array address)).map f)).1, m') ∧
      m.Adds m' (Parsed.settle fallback ((p.run file (m.array address)).map f)).2 := by
  obtain ⟨e, hfaces, hend⟩ := reset_faces file address m
  have hdoes := h _ (reset file address m) e hfaces (Nat.zero_add _)
  unfold Parser.run
  simp only
  cases hr : p (Stream.ofTokens (m.array address)).tokens with
  | ok r =>
    rw [hr] at hdoes
    obtain ⟨m', hv, hm, -⟩ := hdoes
    exact ⟨m', by rw [enter, hv]; rfl, adds_of_movesTo hm⟩
  | error fault =>
    rw [hr] at hdoes
    obtain ⟨m', hv, hm, -⟩ := hdoes
    rw [hend] at hv
    exact ⟨_, by rw [enter, hv]; rfl, (adds_of_movesTo hm).report _⟩

theorem parse_eq (file : Text) (address : Nat) (m : Memory) :
    ∃ m', parse file address m =
        ((Parsed.settle .empty (parseProgram file (m.array address))).1, m') ∧
      m.Adds m' (Parsed.settle .empty (parseProgram file (m.array address))).2 := by
  have h := enter_eq (eventually_program maxNesting maxNesting fuel (Nat.le_refl _)) id .empty file
    address m
  rwa [Except.map_id] at h

theorem parseExpression_eq (file : Text) (address : Nat) (m : Memory) :
    ∃ m', parseExpression file address m =
        ((Parsed.settle none ((parseExpr file (m.array address)).map some)).1, m') ∧
      m.Adds m' (Parsed.settle none ((parseExpr file (m.array address)).map some)).2 :=
  enter_eq (exprMethods maxNesting maxNesting fuel (by decide)).expression.whole some none file
    address m

theorem parseType_eq (file : Text) (address : Nat) (m : Memory) :
    ∃ m', Instances.parseType file address m =
        ((Parsed.settle none ((Seanet.parseType file (m.array address)).map some)).1, m') ∧
      m.Adds m' (Parsed.settle none ((Seanet.parseType file (m.array address)).map some)).2 :=
  enter_eq ((typeMethods maxNesting maxNesting fuel (by decide)).type true).whole some none file
    address m

end Instances

end Seanet
