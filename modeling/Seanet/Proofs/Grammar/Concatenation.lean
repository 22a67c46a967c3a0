import Seanet.Compilation
import Seanet.Proofs.Grammar.Programs

/-!
# Programs one after the other

A declaration ends with a brace, and nothing behind the brace has a part in how it is read. So where
the first tokens of a list are a program, parsing the list comes to the same as parsing what is
behind them: either its declarations follow those of the first program, or its fault is the fault of
the whole.
-/

set_option autoImplicit false

namespace Seanet

namespace Grammar

open Seanet.Parser

variable {τ α : Type} [SplitView τ]

theorem Reads.append_right {ts us rest : List τ} (h : Reads ts us rest) (more : List τ) :
    Reads (ts ++ more) us (rest ++ more) := by
  induction h with
  | nil ts => exact .nil _
  | token t _ ih => exact .token t ih
  | half ht _ ih => exact .half ht ih

/-- A loop over items that need nothing of what follows them goes on behind the items as if it
began there. -/
theorem manyWhile_resume {item : Parser τ α} {G : α → List τ → Prop} {first more : Kind → Bool}
    (hg : first .greater = false) (hf : ∀ k, first k = true → more k = true)
    (hi : Complete item fun a us _ => G a us) (hb : ∀ a us, G a us → Begins first us)
    {as : List α} {ts us rest : List τ} (hs : Sequence G as us) (hr : Reads ts us rest)
    (items : List α) :
    iterate (manyStep more item) items ts = iterate (manyStep more item) (items ++ as) rest := by
  induction hs generalizing ts items with
  | nil => rw [hr.nil_inv, List.append_nil]
  | @cons a as us vs h hs ih =>
    obtain ⟨mid, hu, hv⟩ := hr.append_inv
    have hbegin := hb a us h
    obtain ⟨t, ts, rfl, ht⟩ := hbegin.stream hu hg
    have hstep : manyStep more item items (t :: ts) = .ok (some (items ++ [a]), mid) := by
      rw [manyStep, bind_of_ok (sees_cons (hf _ ht))]
      exact bind_of_ok (hi hu h)
    rw [iterate_of_some hstep (hu.weight_lt hbegin.ne_nil), ih hv]
    simp

theorem manyStep_append (more : Kind → Bool) (item : Parser τ α) (before items : List α) :
    manyStep more item (before ++ items) =
      (Option.map (before ++ ·)) <$> manyStep more item items := by
  funext ts
  rw [map_apply]
  simp only [manyStep, bind_apply]
  by_cases hm : Stops more ts
  · rw [sees_of_stops hm]
    rfl
  · obtain ⟨t, ts, rfl, ht⟩ := not_stops_iff.1 hm
    rw [sees_cons ht]
    simp only [if_true, bind_apply]
    cases item (t :: ts) with
    | error fault => rfl
    | ok r => simp [pure]

theorem iterate_manyStep_append (more : Kind → Bool) (item : Parser τ α) (before items : List α) :
    iterate (manyStep more item) (before ++ items) =
      (before ++ ·) <$> iterate (manyStep more item) items :=
  iterate_map (g := (before ++ ·)) (manyStep_append more item before) items

def programEnd (declarations : List (Declaration τ)) : Parser τ (Program τ) := fun ts =>
  match ts with
  | [] => .ok (⟨declarations⟩, [])
  | _ :: _ => .error (.expected .declarationOrEnd ts)

theorem program_eq (n : Nat) : (program n : Parser τ (Program τ)) =
    iterate (manyStep startsDeclaration (topDeclaration n)) [] >>= programEnd := rfl

omit [SplitView τ] in
theorem programEnd_append (before declarations : List (Declaration τ)) (ts : List τ) :
    programEnd (before ++ declarations) ts =
      ((fun q => ⟨before ++ q.declarations⟩) <$> programEnd declarations) ts := by
  cases ts <;> rfl

/-- Where the front of a stream is a program, its declarations stand before those of the rest. -/
theorem program_append {n : Nat} {p : Program τ} {xs : List τ} (h : program n xs = .ok (p, []))
    (ys : List τ) :
    program n (xs ++ ys) =
      ((fun q => ⟨p.declarations ++ q.declarations⟩) <$> program n : Parser τ (Program τ)) ys := by
  obtain ⟨us, hu, @⟨before, _, hd⟩, -⟩ := program_sound h
  have hloop : iterate (manyStep startsDeclaration (topDeclaration n)) [] (xs ++ ys) =
      iterate (manyStep startsDeclaration (topDeclaration n)) (before ++ []) ys := by
    rw [List.append_nil]
    exact manyWhile_resume rfl (fun _ hk => hk) topDeclaration_complete
      (fun _ _ hd => hd.begins) hd (hu.append_right ys) []
  rw [map_apply, program_eq, bind_apply, bind_apply, hloop, iterate_manyStep_append, map_apply]
  cases iterate (manyStep startsDeclaration (topDeclaration n)) [] ys with
  | error fault => rfl
  | ok r => exact programEnd_append before r.1 r.2

end Grammar

namespace Stream

theorem filter_kind_ne_eof {xs : List Token} (hx : ∀ t ∈ xs, t.kind ≠ .eof) :
    ∀ t ∈ xs.filter (·.kind ≠ .comment), decide (t.kind ≠ .eof) = true := by
  intro t ht
  exact decide_eq_true (hx t (List.mem_filter.1 ht).1)

theorem ofTokens_of_ne_eof {xs : List Token} (hx : ∀ t ∈ xs, t.kind ≠ .eof) :
    (ofTokens xs).tokens = xs.filter (·.kind ≠ .comment) := by
  rw [ofTokens_tokens, ← List.append_nil (xs.filter _),
    List.takeWhile_append_of_pos (filter_kind_ne_eof hx)]
  rfl

theorem ofTokens_append_tokens {xs : List Token} (hx : ∀ t ∈ xs, t.kind ≠ .eof)
    (ys : List Token) :
    (ofTokens (xs ++ ys)).tokens = (ofTokens xs).tokens ++ (ofTokens ys).tokens := by
  rw [ofTokens_of_ne_eof hx, ofTokens_tokens, ofTokens_tokens, List.filter_append,
    List.takeWhile_append_of_pos (filter_kind_ne_eof hx)]

/-- Where a list ends is told by its last tokens. -/
theorem ofTokens_append_ending {xs ys : List Token} (hx : ∀ t ∈ xs, t.kind ≠ .eof)
    (hy : (ofTokens ys).tokens ≠ []) : (ofTokens (xs ++ ys)).ending = (ofTokens ys).ending := by
  have hf := filter_kind_ne_eof hx
  rw [ofTokens_tokens] at hy
  simp only [ofTokens, List.filter_append]
  rw [List.dropWhile_append_of_pos hf, List.takeWhile_append_of_pos hf]
  cases (ys.filter (·.kind ≠ .comment)).dropWhile (·.kind ≠ .eof) with
  | nil =>
    simp only [List.getLast?_append]
    rw [List.getLast?_eq_some_getLast hy]
    rfl
  | cons mark _ => rfl

end Stream

open Grammar Seanet.Parser

/-- Parsing goes through a list piece by piece. Where its first part is a program, the declarations
of the whole are those of the first part and then those of the second, and where the second part has
a fault, so has the whole: the same one, at the same place. -/
theorem parseProgram_append (file : Text) (xs ys : List Token) (p : Program Token)
    (hx : ∀ t ∈ xs, t.kind ≠ .eof) (hp : parseProgram file xs = .ok p) :
    parseProgram file (xs ++ ys) =
        (parseProgram file ys).map (fun q => ⟨p.declarations ++ q.declarations⟩) ∧
      ∀ r, parseProgram file ys = .error r →
        (parseProgram file ys).settle .empty = (.empty, [r]) ∧
        (parseProgram file (xs ++ ys)).settle .empty = (.empty, [r]) := by
  have happend : parseProgram file (xs ++ ys) =
      (parseProgram file ys).map (fun q => ⟨p.declarations ++ q.declarations⟩) := by
    obtain ⟨rest, h⟩ := run_ok_iff.1 hp
    obtain rfl := (program_ok_iff.1 h).1
    have hall := program_append h (Stream.ofTokens ys).tokens
    rw [map_apply] at hall
    simp only [parseProgram, run, Stream.ofTokens_append_tokens hx, hall]
    by_cases hy : (Stream.ofTokens ys).tokens = []
    · -- Nothing is left for a fault, and the end of the list may have moved.
      rw [hy, program_complete (.nil []) ⟨.mk .nil, rfl⟩]
      rfl
    · rw [Stream.ofTokens_append_ending hx hy]
      cases program maxNesting (Stream.ofTokens ys).tokens <;> rfl
  refine ⟨happend, fun r hr => ?_⟩
  rw [happend, hr]
  exact ⟨rfl, rfl⟩

/-- A struct, a comment, and a `;` that is no declaration. -/
theorem parseProgram_append_semicolon :
    let token (k : Kind) (column : Nat) : Token := ⟨k, 0, 1, 1, column, ⟨[], []⟩, none⟩
    let xs := [token .structWord 1, token .identifier 8, token .leftBrace 10,
      token .rightBrace 11, token .comment 12]
    let p : Program Token := ⟨[.struct (token .identifier 8) []]⟩
    let ys := [token .semicolon 20, token .eof 21]
    let r := (SyntaxFault.expected .declarationOrEnd (ys.take 1)).report "a.sn" ⟨1, 21⟩
    (∀ t ∈ xs, t.kind ≠ .eof) ∧ parseProgram "a.sn" xs = .ok p ∧
      parseProgram "a.sn" (xs ++ ys) =
        (parseProgram "a.sn" ys).map (fun q => ⟨p.declarations ++ q.declarations⟩) ∧
      parseProgram "a.sn" ys = .error r ∧
      (parseProgram "a.sn" (xs ++ ys)).settle .empty = (.empty, [r]) := by
  intro token xs p ys r
  have hx : ∀ t ∈ xs, t.kind ≠ .eof := by decide
  have hd : IsDeclaration maxNesting (.struct (token .identifier 8) []) (xs.take 4) :=
    .struct rfl rfl rfl .nil rfl
  have hread : Reads (xs.take 4) (xs.take 4 ++ []) [] :=
    .token _ (.token _ (.token _ (.token _ (.nil []))))
  have hp : parseProgram "a.sn" xs = .ok p :=
    run_ok_iff.2 ⟨[], program_complete hread ⟨.mk (.cons hd .nil), rfl⟩⟩
  have hfault : program maxNesting (ys.take 1) =
      .error (.expected .declarationOrEnd (ys.take 1)) := by
    rw [program_eq, bind_apply, iterate_of_none rfl]
    rfl
  have hy : parseProgram "a.sn" ys = .error r := by
    rw [parseProgram, run, show (Stream.ofTokens ys).tokens = ys.take 1 from rfl, hfault]
    rfl
  obtain ⟨happend, herror⟩ := parseProgram_append "a.sn" xs ys p hx hp
  exact ⟨hx, hp, happend, hy, (herror r hy).2⟩

end Seanet
