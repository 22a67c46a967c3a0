import Seanet.Parser.Program
import Seanet.Proofs.Parser.Outcome

set_option autoImplicit false

namespace Seanet

def Stream.visible (tokens : List Token) : List Token := tokens.filter (·.kind ≠ .comment)

theorem Stream.ofTokens_tokens (tokens : List Token) : (Stream.ofTokens tokens).tokens =
    (tokens.filter (·.kind ≠ .comment)).takeWhile (·.kind ≠ .eof) := by
  simp only [Stream.ofTokens]
  split <;> rfl

theorem Stream.ne_eof_of_mem {ts : List Token} {t : Token} (h : t ∈ ts.takeWhile (·.kind ≠ .eof)) :
    t.kind ≠ .eof :=
  of_decide_eq_true (List.all_eq_true.1 List.all_takeWhile t h)

theorem Stream.kind_ne {tokens : List Token} {t : Token} (h : t ∈ (Stream.ofTokens tokens).tokens) :
    t.kind ≠ .comment ∧ t.kind ≠ .eof := by
  rw [Stream.ofTokens_tokens] at h
  have hc := (List.mem_filter.1 ((List.takeWhile_sublist _).mem h)).2
  exact ⟨of_decide_eq_true hc, Stream.ne_eof_of_mem h⟩

theorem Stream.ofTokens_eq_self {ts : List Token}
    (h : ∀ t ∈ ts, t.kind ≠ .comment ∧ t.kind ≠ .eof) : (Stream.ofTokens ts).tokens = ts := by
  have hc : ts.filter (fun t => decide (t.kind ≠ .comment)) = ts :=
    List.filter_eq_self.2 fun t ht => by simpa using (h t ht).1
  have he : ∀ t ∈ ts, decide (t.kind ≠ .eof) = true := fun t ht => by simpa using (h t ht).2
  rw [Stream.ofTokens_tokens, hc, ← List.append_nil ts, List.takeWhile_append_of_pos he,
    List.takeWhile_nil]

theorem Stream.split_of_dropWhile {ts back : List Token} {mark : Token}
    (h : ts.dropWhile (·.kind ≠ .eof) = mark :: back) :
    ts = ts.takeWhile (·.kind ≠ .eof) ++ mark :: back ∧ mark.kind = .eof := by
  constructor
  · rw [← h, List.takeWhile_append_dropWhile]
  · have hhead := List.head?_dropWhile_not (fun t : Token => decide (t.kind ≠ .eof)) ts
    rw [h] at hhead
    simpa using hhead

theorem Stream.exists_split {ts : List Token} (h : ∃ t ∈ ts, t.kind = .eof) :
    ∃ e back, ts = ts.takeWhile (·.kind ≠ .eof) ++ e :: back ∧ e.kind = .eof := by
  obtain ⟨t, ht, he⟩ := h
  cases hdrop : ts.dropWhile (·.kind ≠ .eof) with
  | nil =>
    have htake := List.takeWhile_append_dropWhile (p := fun t : Token => decide (t.kind ≠ .eof))
      (l := ts)
    rw [hdrop, List.append_nil] at htake
    exact absurd he (Stream.ne_eof_of_mem (htake.symm ▸ ht))
  | cons e back => exact ⟨e, back, Stream.split_of_dropWhile hdrop⟩

/-- What stands before the first end mark is the stream, and the end mark is where it ends. -/
theorem Stream.ofTokens_of_split {tokens read back : List Token} {e : Token}
    (h : tokens.filter (·.kind ≠ .comment) = read ++ e :: back) (hr : ∀ t ∈ read, t.kind ≠ .eof)
    (he : e.kind = .eof) : Stream.ofTokens tokens = ⟨read, ⟨e.line, e.column⟩⟩ := by
  have hread : ∀ t ∈ read, decide (t.kind ≠ .eof) = true := by simpa using hr
  have htake : (read ++ e :: back).takeWhile (fun t => decide (t.kind ≠ .eof)) = read := by
    rw [List.takeWhile_append_of_pos hread, List.takeWhile_cons_of_neg (by simp [he]),
      List.append_nil]
  have hdrop : (read ++ e :: back).dropWhile (fun t => decide (t.kind ≠ .eof)) = e :: back := by
    rw [List.dropWhile_append_of_pos hread, List.dropWhile_cons_of_neg (by simp [he])]
  simp only [Stream.ofTokens, h, htake, hdrop]

theorem Stream.ofTokens_of_open {tokens read : List Token}
    (h : tokens.filter (·.kind ≠ .comment) = read) (hr : ∀ t ∈ read, t.kind ≠ .eof) :
    Stream.ofTokens tokens = ⟨read, Stream.behind read.getLast?⟩ := by
  have hread : ∀ t ∈ read, decide (t.kind ≠ .eof) = true := by simpa using hr
  have htake : (read ++ []).takeWhile (fun t : Token => decide (t.kind ≠ Kind.eof)) = read := by
    rw [List.takeWhile_append_of_pos hread, List.takeWhile_nil, List.append_nil]
  have hdrop : (read ++ []).dropWhile (fun t : Token => decide (t.kind ≠ Kind.eof)) = [] := by
    rw [List.dropWhile_append_of_pos hread, List.dropWhile_nil]
  rw [List.append_nil] at htake hdrop
  simp only [Stream.ofTokens, h, htake, hdrop]

theorem Parser.run_ok_iff {α : Type} {p : Parser Token α} {file : Text} {tokens : List Token}
    {a : α} : p.run file tokens = .ok a ↔
      ∃ rest, p (Stream.ofTokens tokens).tokens = .ok (a, rest) := by
  unfold Parser.run
  simp only
  split
  · next b rest h =>
    constructor
    · intro he
      exact ⟨rest, by rw [h, Except.ok.inj he]⟩
    · rintro ⟨rest', h'⟩
      rw [h, Except.ok.injEq, Prod.mk.injEq] at h'
      rw [h'.1]
  · next fault h => simp [h]

theorem Parser.run_whole_ok_iff {α : Type} {p : Parser Token α} {file : Text} {tokens : List Token}
    {a : α} : (Parser.whole p).run file tokens = .ok a ↔
      p (Stream.ofTokens tokens).tokens = .ok (a, []) := by
  rw [Parser.run_ok_iff]
  constructor
  · rintro ⟨rest, h⟩
    exact (Parser.whole_ok_iff.1 h).1
  · intro h
    exact ⟨[], Parser.whole_ok_iff.2 ⟨h, rfl⟩⟩

end Seanet
