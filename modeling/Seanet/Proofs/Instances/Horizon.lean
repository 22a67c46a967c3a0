import Seanet.Proofs.Instances.Simulation

/-!
# How far a parser looks

From its cursor a parser sees three tokens, and it looks behind a token only if that is no end mark.
So two runs on arrays with the same first tokens are the same as long as the cursor stays so far
from where they differ. An error is decided by the tokens up to the second one behind the cursor,
and it is reported where the cursor stands, but for two kinds of errors that name a token before.
-/

set_option autoImplicit false

namespace Seanet

namespace Instances

open Machine MachineRelation Memory

namespace Memory

/-- The same, for a parser that does not look behind the first `n` tokens. -/
structure Alike (n : Nat) (m m' : Memory) : Prop where
  current : m'.parser.current = m.parser.current
  depth : m'.parser.depth = m.parser.depth
  file : m'.parser.file = m.parser.file
  diagnostics : m'.diagnostics = m.diagnostics
  tokens : m'.tokens.take n = m.tokens.take n
  length : n ≤ m.tokens.length
  length' : n ≤ m'.tokens.length

def Covered (n : Nat) (m : Memory) : Prop := m.parser.current + 3 ≤ n ∨ m.ending < n

variable {n d : Nat} {m m' m₁ : Memory}

theorem Covered.of_onward (h : m₁.Covered n) (ho : m.Onward m₁) : m.Covered n := by
  have hcurrent := ho.current
  have hending := ho.ending
  unfold Covered at h ⊢
  omega

theorem Covered.current_lt (h : m.Covered n) : m.parser.current < n := by
  have hending := m.current_le_ending
  unfold Covered at h
  omega

theorem Covered.second_lt (h : m.Covered n) (hm : m.peek.kind ≠ .eof) :
    m.parser.current + 1 < n := by
  have hending : m.ending = m.parser.current + m.ahead.length := rfl
  rw [ahead_eq_cons hm, List.length_cons] at hending
  unfold Covered at h
  omega

theorem Covered.third_lt (h : m.Covered n) (hm : m.peek.kind ≠ .eof)
    (hn : m.advanced.peek.kind ≠ .eof) : m.parser.current + 2 < n := by
  have hending : m.ending = m.parser.current + m.ahead.length := rfl
  rw [ahead_eq_cons hm, ahead_eq_cons hn, List.length_cons, List.length_cons] at hending
  unfold Covered at h
  omega

theorem peekAt_eq (hd : m.parser.current + d < m.tokens.length) :
    m.peekAt d = m.tokens.getD (m.parser.current + d) nothing := by
  rw [Memory.peekAt, Nat.min_eq_left (by omega)]

namespace Alike

theorem getElem? (h : m.Alike n m') {i : Nat} (hi : i < n) : m'.tokens[i]? = m.tokens[i]? := by
  rw [← List.getElem?_take_of_lt hi, h.tokens, List.getElem?_take_of_lt hi]

theorem peek (h : m.Alike n m') (hn : m.parser.current < n) : m'.peek = m.peek := by
  rw [Memory.peek, Memory.peek, List.getD_eq_getElem?_getD, List.getD_eq_getElem?_getD, h.current,
    h.getElem? hn]

theorem peekAt (h : m.Alike n m') (hn : m.parser.current + d < n) : m'.peekAt d = m.peekAt d := by
  have hlength := h.length
  have hlength' := h.length'
  have hcurrent := h.current
  rw [peekAt_eq (by omega), peekAt_eq (by omega), List.getD_eq_getElem?_getD,
    List.getD_eq_getElem?_getD, h.current, h.getElem? hn]

theorem report (h : m.Alike n m') (r : Report) : (m.report r).Alike n (m'.report r) :=
  { h with diagnostics := congrArg (fun c : Collected => c.report r) h.diagnostics }

theorem advanced (h : m.Alike n m') : m.advanced.Alike n m'.advanced :=
  { h with current := congrArg (· + 1) h.current }

theorem deeper (h : m.Alike n m') : m.deeper.Alike n m'.deeper :=
  { h with depth := congrArg (· + 1) h.depth }

theorem shallower (h : m.Alike n m') : m.shallower.Alike n m'.shallower :=
  { h with depth := congrArg (· - 1) h.depth }

theorem replaced (h : m.Alike n m') (hm : m.peek.kind ≠ .eof) (hm' : m'.peek.kind ≠ .eof)
    (t : Token) : (m.replaced t).Alike n (m'.replaced t) where
  current := h.current
  depth := h.depth
  file := h.file
  diagnostics := h.diagnostics
  tokens := by
    rw [replaced_tokens hm, replaced_tokens hm', List.take_set, List.take_set, h.tokens, h.current]
  length := by
    rw [replaced_tokens hm, List.length_set]
    exact h.length
  length' := by
    rw [replaced_tokens hm', List.length_set]
    exact h.length'

end Alike

theorem peekAt_one (h : m.parser.current + 1 < m.tokens.length) : m.peekAt 1 = m.advanced.peek :=
  peekAt_eq h

end Memory

/-- Two runs on arrays with the same first `n` tokens. `left` and `left'` are what the two had to
read when they began; they read the same of it. -/
def alongside (n left left' : Nat) : Simulation where
  before m m' := m.Alike n m' ∧ m.remaining + left' = m'.remaining + left
  after m m' := m.Alike n m'
  followed := Covered n
  followed_of_onward ho h := h.of_onward ho
  file h := h.1.file
  first h hf := h.1.peek hf.current_lt
  second h hf hm := h.1.peekAt (hf.second_lt hm)
  third {m m'} h hf hm hn := by
    have hlt := hf.second_lt hm
    rw [peekAt_one (Nat.lt_of_lt_of_le hlt h.1.length)] at hn
    exact h.1.peekAt (hf.third_lt hm hn)
  advanced {m m'} h hf hm := by
    have hpeek := h.1.peek hf.current_lt
    have hread := remaining_eq hm
    have hread' := remaining_eq (m := m') (by rwa [hpeek])
    have hleft := h.2
    rw [hpeek] at hread'
    exact ⟨h.1.advanced, by omega⟩
  halved {m m'} h hf hm := by
    have hpeek := h.1.peek hf.current_lt
    have hread := remaining_halved hm
    have hread' := remaining_halved (m := m') (by rwa [hpeek])
    have hleft := h.2
    rw [hpeek] at hread'
    exact ⟨h.1.replaced (by simp [hm]) (by simp [hpeek, hm]) _, by omega⟩
  report h r _ := h.1.report r
  remaining h h₁ hless := by
    have hleft := h.2
    have hleft₁ := h₁.2
    omega

variable {limit fuel n left left' : Nat}

theorem alongside_nested {α : Type} {P : α → Prop} {x y : Machine α}
    (h : (alongside n left left').Simulates P x y) :
    (alongside n left left').Simulates P (nested limit x) (nested limit y) :=
  Simulation.simulates_nested (fun hb => ⟨hb.1.depth, hb.1.deeper, hb.2⟩)
    (fun hb => ⟨hb.1.shallower, hb.2⟩) (fun ha => ha.shallower) (fun hb r => hb.1.report r) id h

theorem entry_alongside (entry : Entry) :
    (alongside n left left').Simulates never (entry.method (methods limit fuel))
      (entry.method (methods limit fuel)) := by
  have c := Simulation.simulates_congruence (alongside n left left')
  exact c.entry (c.methods alongside_nested fuel) entry

theorem Entry.run_alike {entry : Entry} {file : Text} {ts us : List Token}
    (hs : (start file ts).Alike n (start file us))
    (hc : (entry.run limit fuel file ts).2.Covered n) :
    (entry.run limit fuel file us).1 = (entry.run limit fuel file ts).1 ∧
      (entry.run limit fuel file ts).2.Alike n (entry.run limit fuel file us).2 := by
  have hruns := (entry_alongside entry).run ⟨hs, Nat.add_comm _ _⟩ hc
  change Simulation.Outcome _ (entry.run limit fuel file ts) (entry.run limit fuel file us) at hruns
  generalize entry.run limit fuel file ts = outcome at hruns ⊢
  generalize entry.run limit fuel file us = outcome' at hruns ⊢
  cases hruns with
  | value a h => exact ⟨rfl, h.1⟩
  | abort h => exact ⟨rfl, h⟩
  | exhausted h => exact ⟨rfl, h.1⟩

/-- Tokens without comments, with an end mark. -/
structure IsStream (ts : List Token) : Prop where
  uncommented : ∀ t ∈ ts, t.kind ≠ .comment
  ended : ∃ t ∈ ts, t.kind = .eof

/-- Both have the same tokens up to the index `last`, or up to the first end mark, if that comes
before. -/
def AgreeUpTo (last : Nat) (ts us : List Token) : Prop :=
  ∀ i ≤ last, (∀ j < i, ∀ t ∈ ts[j]?, t.kind ≠ .eof) → us[i]? = ts[i]?

variable {file : Text} {ts us : List Token}

theorem IsStream.split (h : IsStream ts) : ∃ read e back, ts = read ++ e :: back ∧
    ts.filter (·.kind ≠ .comment) = read ++ e :: back ∧ (∀ t ∈ read, t.kind ≠ .eof) ∧
    e.kind = .eof := by
  have hkept : ts.filter (fun t => decide (t.kind ≠ .comment)) = ts :=
    List.filter_eq_self.2 fun t ht => by simpa using h.uncommented t ht
  obtain ⟨e, back, hsplit, he⟩ := Stream.exists_split h.ended
  exact ⟨_, e, back, hsplit, hkept.trans hsplit, fun t => Stream.ne_eof_of_mem, he⟩

/-- Parsing fails with the error `r` while the cursor stands at `k`. -/
def Entry.FailsAt (limit : Nat) (entry : Entry) (file : Text) (tokens : List Token) (r : Report)
    (k : Nat) : Prop :=
  entry.parse limit file tokens = .error r ∧
    (entry.run limit (enough limit) file tokens).2.parser.current = k

theorem Memory.Faces.start_ending {read : List Token} {e : Token}
    (hf : (start file ts).Faces read e) : (start file ts).ending = read.length := by
  rw [Memory.ending, hf.ahead]
  exact Nat.zero_add _

theorem Entry.run_onward (limit fuel : Nat) (entry : Entry) (file : Text) (tokens : List Token) :
    (start file tokens).Onward (entry.run limit fuel file tokens).2 :=
  (entry_goes limit fuel entry).onward _

theorem start_alike (htake : (start file us).tokens.take n = (start file ts).tokens.take n)
    (hn : n ≤ (start file ts).tokens.length) (hn' : n ≤ (start file us).tokens.length) :
    (start file ts).Alike n (start file us) :=
  ⟨rfl, rfl, rfl, rfl, htake, hn, hn'⟩

/-- A run has seen the tokens up to the second one behind its cursor, or to the first end mark. -/
theorem AgreeUpTo.start_alike {read back : List Token} {e : Token} {k : Nat}
    (hts : ts = read ++ e :: back) (hr : ∀ t ∈ read, t.kind ≠ .eof)
    (ha : AgreeUpTo (k + 2) ts us) (hkept : ts.filter (·.kind ≠ .comment) = ts)
    (hkept' : us.filter (·.kind ≠ .comment) = us) :
    (start file ts).Alike (min (k + 3) (read.length + 1)) (start file us) := by
  generalize hn : min (k + 3) (read.length + 1) = n
  have hagree : ∀ i < n, us[i]? = ts[i]? := by
    intro i hi
    refine ha i (by omega) fun j hj t ht => ?_
    rw [hts, List.getElem?_append_left (by omega)] at ht
    exact hr t (List.mem_of_getElem? ht)
  have hlength : n ≤ ts.length := by
    rw [hts, List.length_append, List.length_cons]
    omega
  have hlength' : n ≤ us.length := by
    refine Nat.le_of_not_lt fun hlt => ?_
    have hlast := hagree (n - 1) (by omega)
    rw [List.getElem?_eq_none (show us.length ≤ n - 1 by omega)] at hlast
    have hle := List.getElem?_eq_none_iff.1 hlast.symm
    omega
  refine Instances.start_alike ?_ ?_ ?_
  · rw [start_tokens, start_tokens, hkept, hkept', List.take_append_of_le_length hlength,
      List.take_append_of_le_length hlength']
    refine List.ext_getElem? fun i => ?_
    by_cases hi : i < n
    · rw [List.getElem?_take_of_lt hi, List.getElem?_take_of_lt hi, hagree i hi]
    · rw [List.getElem?_take_eq_none (by omega), List.getElem?_take_eq_none (by omega)]
  · rw [start_tokens, hkept, List.length_append]
    omega
  · rw [start_tokens, hkept', List.length_append]
    omega

namespace Entry

theorem tracks (limit : Nat) (origin : List Token) (entry : Entry) :
    Parser.Tracks origin (entry.parser limit) := by
  cases entry with
  | program => exact Parser.tracks_program limit
  | expression => exact Parser.tracks_whole (Parser.tracks_expression limit)
  | type => exact Parser.tracks_whole (Parser.tracks_typeExpr limit true)

variable {entry : Entry} {r : Report} {k : Nat}

theorem run_current_le {read : List Token} {e : Token} (hf : (start file ts).Faces read e) :
    (entry.run limit fuel file ts).2.parser.current ≤ read.length := by
  have hending := (entry.run_onward limit fuel file ts).ending
  rw [hf.start_ending] at hending
  rw [← hending]
  exact current_le_ending _

theorem FailsAt.located (hts : IsStream ts) (h : entry.FailsAt limit file ts r k) :
    r.LocatedAt ts k := by
  obtain ⟨read, e, back, rfl, hkept, hr, he⟩ := hts.split
  have hfaces : (start file (read ++ e :: back)).Faces read e := start_faces_of_split hkept hr he
  obtain ⟨herror, hcurrent⟩ := h
  obtain ⟨fault, hp, rfl⟩ := parse_error_iff.1 herror
  have hfault := tracks limit read entry read (.refl read)
  have hdoes := run_does (Nat.le_refl (enough limit)) entry hfaces
  rw [Stream.ofTokens_of_split hkept hr he] at hp ⊢
  rw [hp] at hdoes hfault
  obtain ⟨m', hrun, -, hrest⟩ := hdoes
  have hending := (entry.run_onward limit (enough limit) file (read ++ e :: back)).ending
  refine SyntaxFault.locatedAt hfault ?_
  rw [hfaces.start_ending, run, hrun] at hending
  rw [run, hrun] at hcurrent
  rw [← hcurrent, ← hending]
  change m'.parser.current + _ = m'.parser.current + m'.ahead.length
  rw [hrest.ahead]

end Entry

/-- An error does not depend on later code. Where parsing a stream fails while the cursor stands at
`k`, it fails with the same error and at the same index for each stream that has the same tokens up
to the second one behind `k`, or up to the first end mark. The error is located at `k`, but for the
two kinds that name an operator or a `ref` that has been read. -/
theorem failsAt_of_agree {entry : Entry} {r : Report} {k : Nat} (hts : IsStream ts)
    (hus : IsStream us) (h : entry.FailsAt limit file ts r k) (ha : AgreeUpTo (k + 2) ts us) :
    entry.FailsAt limit file us r k ∧ r.LocatedAt ts k := by
  refine ⟨?_, h.located hts⟩
  obtain ⟨read, e, back, hsplit, hkept, hr, he⟩ := hts.split
  obtain ⟨read', e', back', hsplit', hkept', -, -⟩ := hus.split
  have hfaces : (start file ts).Faces read e := start_faces_of_split hkept hr he
  obtain ⟨herror, hcurrent⟩ := h
  have hle : k ≤ read.length := hcurrent ▸ Entry.run_current_le hfaces
  have hending := (entry.run_onward limit (enough limit) file ts).ending
  rw [hfaces.start_ending] at hending
  have hcovered : (entry.run limit (enough limit) file ts).2.Covered
      (min (k + 3) (read.length + 1)) := by
    rw [Covered, hcurrent, hending]
    omega
  obtain ⟨hanswer, halike⟩ := Entry.run_alike
    (ha.start_alike hsplit hr (hkept.trans hsplit.symm) (hkept'.trans hsplit'.symm)) hcovered
  obtain ⟨m', hrun, hdiagnostics⟩ := Entry.run_of_error (Nat.le_refl (enough limit)) herror
  rw [hrun] at hanswer
  refine ⟨Entry.parse_of_run (Nat.le_refl _) hanswer ?_, halike.current.trans hcurrent⟩
  rw [halike.diagnostics, hrun, hdiagnostics]

/-- A `ref` before a function type, and other code behind the second token after it. -/
theorem failsAt_of_agree_ref :
    let token (k : Kind) (column : Nat) : Token := ⟨k, 0, 1, 1, column, ⟨[], []⟩, none⟩
    let seen := [token .refWord 1, token .funWord 5, token .less 8, token .identifier 9]
    let ts := seen ++ [token .greater 10, token .eof 11]
    let us := seen ++ [token .comma 10, token .semicolon 11, token .eof 12]
    let r : Report := ⟨"a.sn", ⟨1, 1⟩, refFunctionMessage, .invalidType⟩
    IsStream ts ∧ IsStream us ∧ Entry.type.FailsAt maxNesting "a.sn" ts r 1 ∧
      AgreeUpTo 3 ts us ∧ Entry.type.FailsAt maxNesting "a.sn" us r 1 ∧ r.LocatedAt ts 1 := by
  intro token seen ts us r
  have hts : IsStream ts := ⟨by decide, _, List.mem_append_right _ (.tail _ (.head _)), rfl⟩
  have hus : IsStream us :=
    ⟨by decide, _, List.mem_append_right _ (.tail _ (.tail _ (.head _))), rfl⟩
  have hfails : Entry.type.FailsAt maxNesting "a.sn" ts r 1 := ⟨rfl, rfl⟩
  have hagree : AgreeUpTo 3 ts us := fun i hi _ =>
    match i, hi with
    | 0, _ | 1, _ | 2, _ | 3, _ => rfl
  exact ⟨hts, hus, hfails, hagree, failsAt_of_agree hts hus hfails hagree⟩

end Instances

end Seanet
