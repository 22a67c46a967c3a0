import Seanet.Proofs.Instances.Methods
import Seanet.Proofs.Parser.Tracking

set_option autoImplicit false

namespace Seanet

@[simp] theorem Token.kind_view (t : Token) : TokenView.kind t = t.kind := rfl

namespace Instances

namespace Memory

/-- The parser stands before `ts`, behind which `e` ends the stream. -/
structure Faces (m : Memory) (ts : List Token) (e : Token) : Prop where
  owned : m.parser.tokens < m.arrays.length
  split : ∃ front back, m.tokens = front ++ (ts ++ e :: back) ∧ front.length = m.parser.current
  inside : ∀ t ∈ ts, t.kind ≠ .eof
  ending : e.kind = .eof

def moved (m : Memory) (tokens : List Token) (current : Nat) : Memory :=
  { m with
    arrays := m.arrays.set m.parser.tokens tokens
    parser := { m.parser with current } }

def MovesTo (m m' : Memory) : Prop := ∃ tokens current, m' = m.moved tokens current

variable {m : Memory} {ts : List Token} {t e : Token}

theorem moved_tokens (h : m.parser.tokens < m.arrays.length) (tokens : List Token)
    (current : Nat) : (m.moved tokens current).tokens = tokens := by
  simp [Memory.tokens, Memory.array, moved, h]

theorem moved_self (m : Memory) (current : Nat) :
    m.moved m.tokens current = { m with parser := { m.parser with current } } := by
  have harrays : m.arrays.set m.parser.tokens m.tokens = m.arrays := m.set_array_self _
  simp only [moved, harrays]

theorem MovesTo.refl (m : Memory) : m.MovesTo m := ⟨m.tokens, m.parser.current, by rw [moved_self]⟩

theorem MovesTo.trans {m₁ m₂ m₃ : Memory} (h : m₁.MovesTo m₂) (h' : m₂.MovesTo m₃) :
    m₁.MovesTo m₃ := by
  obtain ⟨ts, c, rfl⟩ := h
  obtain ⟨us, d, rfl⟩ := h'
  exact ⟨us, d, by simp [moved]⟩

theorem MovesTo.depth {m' : Memory} (h : m.MovesTo m') : m'.parser.depth = m.parser.depth := by
  obtain ⟨ts, c, rfl⟩ := h
  rfl

theorem MovesTo.file {m' : Memory} (h : m.MovesTo m') : m'.parser.file = m.parser.file := by
  obtain ⟨ts, c, rfl⟩ := h
  rfl

theorem MovesTo.diagnostics {m' : Memory} (h : m.MovesTo m') : m'.diagnostics = m.diagnostics := by
  obtain ⟨ts, c, rfl⟩ := h
  rfl

theorem Faces.getElem? (h : m.Faces ts e) {d : Nat} (hd : d ≤ ts.length) :
    m.tokens[m.parser.current + d]? = (ts ++ [e])[d]? := by
  obtain ⟨front, back, htokens, hfront⟩ := h.split
  have happend : ts ++ e :: back = ts ++ [e] ++ back := by simp
  rw [htokens, ← hfront, List.getElem?_append_right (by omega), Nat.add_sub_cancel_left, happend]
  exact List.getElem?_append_left (by simp; omega)

theorem Faces.peekAt (h : m.Faces ts e) {d : Nat} (hd : d ≤ ts.length) :
    some (m.peekAt d) = (ts ++ [e])[d]? := by
  have hlast : m.parser.current + d ≤ m.tokens.length - 1 := by
    obtain ⟨front, back, htokens, hfront⟩ := h.split
    simp only [htokens, List.length_append, List.length_cons]
    omega
  obtain ⟨t, ht⟩ : ∃ t, (ts ++ [e])[d]? = some t :=
    Option.isSome_iff_exists.1 (by simp; omega)
  rw [Memory.peekAt, Nat.min_eq_left hlast, List.getD_eq_getElem?_getD, h.getElem? hd, ht,
    Option.getD_some]

theorem Faces.peek (h : m.Faces ts e) : m.peek = (ts ++ [e]).head (by simp) := by
  have hzero := h.getElem? (Nat.zero_le _)
  rw [Nat.add_zero, ← List.head?_eq_getElem?, List.head?_eq_some_head (by simp)] at hzero
  rw [Memory.peek, List.getD_eq_getElem?_getD, hzero, Option.getD_some]

theorem Faces.isAtEnd (h : m.Faces ts e) : m.isAtEnd = ts.isEmpty := by
  rw [Memory.isAtEnd, h.peek]
  cases ts with
  | nil => simp [h.ending]
  | cons t ts => simpa using h.inside t (by simp)

theorem Faces.remaining (h : m.Faces ts e) : m.remaining = Parser.weight ts := by
  obtain ⟨front, back, htokens, hfront⟩ := h.split
  have hinside : ∀ t ∈ ts, decide (t.kind ≠ .eof) = true := by simpa using h.inside
  rw [Memory.remaining, htokens, ← hfront, List.drop_left,
    List.takeWhile_append_of_pos hinside, List.takeWhile_cons_of_neg (by simp [h.ending]),
    List.append_nil]

theorem Faces.tail (h : m.Faces (t :: ts) e) :
    (m.moved m.tokens (m.parser.current + 1)).Faces ts e := by
  obtain ⟨front, back, htokens, hfront⟩ := h.split
  refine ⟨?_, ⟨front ++ [t], back, ?_, ?_⟩, fun u hu => h.inside u (by simp [hu]), h.ending⟩
  · simpa [moved] using h.owned
  · rw [moved_tokens h.owned, htokens]
    simp
  · simp [moved, hfront]

theorem Faces.replace (h : m.Faces (t :: ts) e) {u : Token} (hu : u.kind ≠ .eof) :
    (m.moved (m.tokens.set m.parser.current u) m.parser.current).Faces (u :: ts) e := by
  obtain ⟨front, back, htokens, hfront⟩ := h.split
  refine ⟨?_, ⟨front, back, ?_, hfront⟩, ?_, h.ending⟩
  · simpa [moved] using h.owned
  · rw [moved_tokens h.owned, htokens, ← hfront, List.set_append_right _ _ (Nat.le_refl _)]
    simp
  · intro v hv
    obtain rfl | hv := List.mem_cons.1 hv
    · exact hu
    · exact h.inside v (by simp [hv])

end Memory

open Memory Machine Seanet.Parser

variable {α β : Type} {limit n : Nat} {ts : List Token}

/-- At `m`, whose stream ends at `e`, a method comes to the given outcome of a parser. -/
def Does (method : Machine α) (m : Memory) (e : Token) :
    Except (SyntaxFault Token) (α × List Token) → Prop
  | .ok (a, rest) => ∃ m', method m = (.value a, m') ∧ m.MovesTo m' ∧ m'.Faces rest e
  | .error fault => ∃ m',
      method m = (.abort, m'.report (fault.report m.parser.file ⟨e.line, e.column⟩)) ∧
        m.MovesTo m' ∧ m'.Faces fault.rest e

/-- Before the stream `ts`, with `n` levels left below the limit, a method does what a parser
does. -/
def ImplementsAt (limit n : Nat) (method : Machine α) (p : Parser Token α) (ts : List Token) :
    Prop :=
  ∀ (m : Memory) (e : Token), m.Faces ts e → m.parser.depth + n = limit → Does method m e (p ts)

def Implements (limit n : Nat) (method : Machine α) (p : Parser Token α) : Prop :=
  ∀ ts, ImplementsAt limit n method p ts

/-- Where a token is next, a method reads it and then does what a parser does. -/
def ImplementsAfter (limit n : Nat) (method : Machine α) (p : Token → Parser Token α) : Prop :=
  ∀ t ts, ImplementsAt limit n method (fun _ => p t ts) (t :: ts)

theorem bind_of_value {method : Machine α} {f : α → Machine β} {m m' : Memory} {a : α}
    (h : method m = (.value a, m')) : (method >>= f) m = f a m' := by
  simp only [Bind.bind, h]

theorem bind_of_abort {method : Machine α} {f : α → Machine β} {m m' : Memory}
    (h : method m = (.abort, m')) : (method >>= f) m = (.abort, m') := by
  simp only [Bind.bind, h]

theorem Does.of_later {method later : Machine α} {m m' : Memory} {e : Token}
    {outcome : Except (SyntaxFault Token) (α × List Token)} (h : method m = later m')
    (hm : m.MovesTo m') (hl : Does later m' e outcome) : Does method m e outcome := by
  cases outcome with
  | ok r =>
    obtain ⟨m'', hv, hm', hfaces⟩ := hl
    exact ⟨m'', h.trans hv, hm.trans hm', hfaces⟩
  | error fault =>
    obtain ⟨m'', hv, hm', hfaces⟩ := hl
    rw [hm.file] at hv
    exact ⟨m'', h.trans hv, hm.trans hm', hfaces⟩

theorem ImplementsAt.bind {method : Machine α} {p : Parser Token α} {f : α → Machine β}
    {g : α → Parser Token β} (hp : ImplementsAt limit n method p ts)
    (hf : ∀ a rest, p ts = .ok (a, rest) → ImplementsAt limit n (f a) (g a) rest) :
    ImplementsAt limit n (method >>= f) (p >>= g) ts := by
  intro m e hfaces hd
  have hdoes := hp m e hfaces hd
  rw [bind_apply]
  cases hr : p ts with
  | error fault =>
    rw [hr] at hdoes
    obtain ⟨m', hv, hm, hfaces'⟩ := hdoes
    exact ⟨m', bind_of_abort hv, hm, hfaces'⟩
  | ok r =>
    rw [hr] at hdoes
    obtain ⟨m', hv, hm, hfaces'⟩ := hdoes
    exact .of_later (bind_of_value hv) hm (hf r.1 r.2 hr m' e hfaces' (hm.depth ▸ hd))

theorem Implements.bind {method : Machine α} {p : Parser Token α} {f : α → Machine β}
    {g : α → Parser Token β} (hp : Implements limit n method p)
    (hf : ∀ a, Implements limit n (f a) (g a)) :
    Implements limit n (method >>= f) (p >>= g) :=
  fun ts => (hp ts).bind fun a rest _ => hf a rest

theorem implements_pure (a : α) : Implements limit n (pure a) (pure a) :=
  fun _ m _ hfaces _ => ⟨m, rfl, .refl m, hfaces⟩

theorem Implements.map {method : Machine α} {p : Parser Token α} (f : α → β)
    (hp : Implements limit n method p) : Implements limit n (f <$> method) (f <$> p) :=
  hp.bind fun a => implements_pure (f a)

theorem implements_errorAtCurrent (what : Expected) :
    Implements limit n (errorAtCurrent what : Machine α) (Parser.fail what) := by
  intro ts m e hfaces _
  refine ⟨m, ?_, .refl m, hfaces⟩
  cases ts with
  | nil => simp [errorAtCurrent, Machine.fail, hfaces.peek, describeFound, hfaces.ending,
      SyntaxFault.report, SyntaxFault.place, SyntaxFault.message, SyntaxFault.code]
  | cons t ts =>
    have ht := hfaces.inside t (by simp)
    simp [errorAtCurrent, Machine.fail, hfaces.peek, describeFound, ht, SyntaxFault.report,
      SyntaxFault.place, SyntaxFault.message, SyntaxFault.code, SyntaxFault.found]

theorem implements_fail {t : Token} {message : Text} {code : Code}
    (fault : List Token → SyntaxFault Token) (hrest : ∀ ts, (fault ts).rest = ts)
    (hreport : ∀ file ending ts, (fault ts).report file ending =
      ⟨file, ⟨t.line, t.column⟩, message, code⟩) :
    Implements limit n (Machine.fail t message code : Machine α) fun ts => .error (fault ts) := by
  intro ts m e hfaces _
  refine ⟨m, ?_, .refl m, ?_⟩
  · rw [hreport]
    rfl
  · rw [hrest]
    exact hfaces

theorem implementsAt_check {p : Kind → Bool} (hp : p .eof = false) {f g : Machine α}
    {q : Parser Token α} (hf : ¬ Stops p ts → ImplementsAt limit n f q ts)
    (hg : Stops p ts → ImplementsAt limit n g q ts) :
    ImplementsAt limit n (do if ← check p then f else g) q ts := by
  intro m e hfaces hd
  have hpeek : p m.peek.kind = true ↔ ¬ Stops p ts := by
    rw [hfaces.peek]
    cases ts with
    | nil => simp [hfaces.ending, hp]
    | cons t ts => simp
  have hcheck : check p m = (.value (p m.peek.kind), m) := rfl
  refine .of_later (bind_of_value hcheck) (.refl m) ?_
  by_cases hs : Stops p ts
  · rw [if_neg (by simpa [hpeek] using hs)]
    exact hg hs m e hfaces hd
  · rw [if_pos (hpeek.2 hs)]
    exact hf hs m e hfaces hd

theorem ImplementsAt.congr {method : Machine α} {p q : Parser Token α}
    (h : ImplementsAt limit n method p ts) (hq : q ts = p ts) :
    ImplementsAt limit n method q ts := by
  intro m e hfaces hd
  rw [hq]
  exact h m e hfaces hd

theorem implements_check {p : Kind → Bool} (hp : p .eof = false) :
    Implements limit n (check p) (sees p) := by
  intro ts m e hfaces _
  cases ts with
  | nil => exact ⟨m, by simp [check, hfaces.peek, hfaces.ending, hp], .refl m, hfaces⟩
  | cons t ts => exact ⟨m, by simp [check, hfaces.peek], .refl m, hfaces⟩

theorem Implements.ite {c : Machine Bool} {p : Parser Token Bool} {f g : Machine α}
    {q r : Parser Token α} (hc : Implements limit n c p) (hf : Implements limit n f q)
    (hg : Implements limit n g r) :
    Implements limit n (do if ← c then f else g) (do if ← p then q else r) := by
  refine hc.bind fun b => ?_
  cases b with
  | true => exact hf
  | false => exact hg

theorem implementsAt_isAtEnd {f g : Machine α} {q : Parser Token α}
    (hf : ts = [] → ImplementsAt limit n f q ts) (hg : ts ≠ [] → ImplementsAt limit n g q ts) :
    ImplementsAt limit n (do if ← Machine.isAtEnd then f else g) q ts := by
  intro m e hfaces hd
  have hended : Machine.isAtEnd m = (.value ts.isEmpty, m) := by
    rw [← hfaces.isAtEnd]
    rfl
  refine .of_later (bind_of_value hended) (.refl m) ?_
  cases ts with
  | nil => exact hf rfl m e hfaces hd
  | cons t ts => exact hg (by simp) m e hfaces hd

theorem implementsAt_checkAt {d : Nat} {k : Kind} (hd : d ≤ ts.length) (hk : k ≠ .eof)
    {f g : Machine α} {q : Parser Token α}
    (hf : ts[d]?.map Token.kind = some k → ImplementsAt limit n f q ts)
    (hg : ts[d]?.map Token.kind ≠ some k → ImplementsAt limit n g q ts) :
    ImplementsAt limit n (do if ← checkAt d k then f else g) q ts := by
  intro m e hfaces hdepth
  have hpeek : (m.peekAt d).kind = k ↔ ts[d]?.map Token.kind = some k := by
    have hsome := hfaces.peekAt hd
    by_cases hlt : d < ts.length
    · rw [List.getElem?_append_left hlt] at hsome
      rw [← hsome, Option.map_some, Option.some.injEq]
    · obtain rfl : d = ts.length := by omega
      obtain rfl : e = m.peekAt ts.length := by simpa using hsome.symm
      simp [hfaces.ending, hk.symm]
  have hcheck : checkAt d k m = (.value ((m.peekAt d).kind == k), m) := rfl
  refine .of_later (bind_of_value hcheck) (.refl m) ?_
  by_cases hs : ts[d]?.map Token.kind = some k
  · rw [if_pos (by simpa using hpeek.2 hs)]
    exact hf hs m e hfaces hdepth
  · rw [if_neg (by simpa [hpeek] using hs)]
    exact hg hs m e hfaces hdepth

theorem implementsAfter_advance : ImplementsAfter limit n advance pure := by
  intro t ts m e hfaces _
  refine ⟨_, ?_, ⟨m.tokens, m.parser.current + 1, rfl⟩, hfaces.tail⟩
  rw [moved_self]
  simp [advance, hfaces.isAtEnd, hfaces.peek]

theorem ImplementsAt.of_advance {f : Token → Machine α} {p : Parser Token α} {t : Token}
    (hf : ImplementsAt limit n (f t) p ts) :
    ImplementsAt limit n (advance >>= f) (fun _ => p ts) (t :: ts) := by
  intro m e hfaces hd
  obtain ⟨m', hv, hm, hfaces'⟩ := implementsAfter_advance t ts m e hfaces hd
  exact .of_later (bind_of_value hv) hm (hf m' e hfaces' (hm.depth ▸ hd))

theorem ImplementsAfter.of_advance {f : Token → Machine α} {p : Token → Parser Token α}
    (hf : ∀ t, Implements limit n (f t) (p t)) : ImplementsAfter limit n (advance >>= f) p :=
  fun t ts => .of_advance (hf t ts)

theorem implements_take {p : Kind → Bool} (hp : p .eof = false) :
    Implements limit n (take p) (accept p) := by
  intro ts
  refine implementsAt_check hp (fun hs => ?_) fun hs => ?_
  · obtain ⟨t, ts, rfl, ht⟩ := not_stops_iff.1 hs
    have h : ImplementsAt limit n (some <$> advance) (fun _ => .ok (some t, ts)) (t :: ts) :=
      ImplementsAfter.of_advance (fun t => implements_pure (some t)) t ts
    exact h.congr (accept_cons ht)
  · exact (implements_pure none ts).congr (accept_of_stops hs)

theorem implementsAt_take {p : Kind → Bool} (hp : p .eof = false) {f : Option Token → Machine α}
    {q : Parser Token α}
    (hs : ∀ t rest, ts = t :: rest → p t.kind = true →
      ImplementsAt limit n (f (some t)) (fun _ => q ts) rest)
    (hn : Stops p ts → ImplementsAt limit n (f none) q ts) :
    ImplementsAt limit n (take p >>= f) q ts := by
  intro m e hfaces hd
  have hdoes := implements_take hp ts m e hfaces hd
  by_cases hstop : Stops p ts
  · rw [accept_of_stops hstop] at hdoes
    obtain ⟨m', hv, hm, hfaces'⟩ := hdoes
    exact .of_later (bind_of_value hv) hm (hn hstop m' e hfaces' (hm.depth ▸ hd))
  · obtain ⟨t, rest, rfl, ht⟩ := not_stops_iff.1 hstop
    rw [accept_cons ht] at hdoes
    obtain ⟨m', hv, hm, hfaces'⟩ := hdoes
    exact .of_later (bind_of_value hv) hm (hs t rest rfl ht m' e hfaces' (hm.depth ▸ hd))

theorem implementsAt_peek {f : Token → Machine α} {q : Parser Token α}
    (hs : ∀ t rest, ts = t :: rest → ImplementsAt limit n (f t) q ts)
    (hn : ∀ e : Token, ts = [] → e.kind = .eof → ImplementsAt limit n (f e) q ts) :
    ImplementsAt limit n (Machine.peek >>= f) q ts := by
  intro m e hfaces hd
  have hpeek : Machine.peek m = (.value m.peek, m) := rfl
  refine .of_later (bind_of_value hpeek) (.refl m) ?_
  rw [hfaces.peek]
  cases ts with
  | nil => exact hn e rfl hfaces.ending m e hfaces hd
  | cons t ts => exact hs t ts rfl m e hfaces hd

theorem implements_require {p : Kind → Bool} (hp : p .eof = false) (what : Expected) :
    Implements limit n (do if ← check p then advance else errorAtCurrent what)
      (require p what) := by
  intro ts
  refine implementsAt_check hp (fun hs => ?_) fun hs => ?_
  · obtain ⟨t, ts, rfl, ht⟩ := not_stops_iff.1 hs
    exact (implementsAfter_advance t ts).congr (require_cons what ht)
  · refine (implements_errorAtCurrent what ts).congr ?_
    cases ts with
    | nil => rfl
    | cons t ts =>
      have ht : p t.kind = false := stops_cons.1 hs
      simp [require, ht, Parser.fail]

theorem implements_consume {k : Kind} (hk : k ≠ .eof) (what : Expected) :
    Implements limit n (consume k what) (expect k what) :=
  implements_require (p := (· == k)) (beq_false_of_ne hk.symm) what

theorem consumeClosingAngle_of_stops {m : Memory} {e : Token} (hfaces : m.Faces ts e)
    (hs : Stops (fun k => k == .greater || k == .greaterGreater) ts) :
    consumeClosingAngle .typeListEnd m = errorAtCurrent .typeListEnd m ∧
      expectClosingAngle ts = Parser.fail .typeListEnd ts := by
  have hpeek := hfaces.peek
  cases ts with
  | nil => exact ⟨by simp [consumeClosingAngle, hpeek, hfaces.ending], rfl⟩
  | cons t ts =>
    obtain ⟨hg, hgg⟩ : t.kind ≠ .greater ∧ t.kind ≠ .greaterGreater := by simpa using hs
    exact ⟨by simp [consumeClosingAngle, hpeek, hg, hgg],
      by simp [expectClosingAngle, hg, hgg, Parser.fail]⟩

theorem Implements.closingAngle {f : Machine α} {q : Parser Token α}
    (hf : Implements limit n f q) :
    Implements limit n (do let _ ← consumeClosingAngle .typeListEnd; f)
      (do expectClosingAngle; q) := by
  intro ts m e hfaces hd
  by_cases hs : Stops (fun k => k == .greater || k == .greaterGreater) ts
  · obtain ⟨hangle, hparse⟩ := consumeClosingAngle_of_stops hfaces hs
    obtain ⟨m', hv, hm, hfaces'⟩ :=
      implements_errorAtCurrent (α := Token) .typeListEnd ts m e hfaces hd
    rw [bind_apply, hparse]
    exact ⟨m', bind_of_abort (hangle.trans hv), hm, hfaces'⟩
  · obtain ⟨t, ts, rfl, ht⟩ := not_stops_iff.1 hs
    have hpeek := hfaces.peek
    by_cases hg : t.kind = .greater
    · have hangle : consumeClosingAngle .typeListEnd m = advance m := by
        simp [consumeClosingAngle, hpeek, hg]
      have hparse : expectClosingAngle (t :: ts) = .ok ((), ts) := by simp [expectClosingAngle, hg]
      obtain ⟨m', hv, hm, hfaces'⟩ := implementsAfter_advance t ts m e hfaces hd
      rw [bind_of_ok hparse]
      exact .of_later (bind_of_value (hangle.trans hv)) hm (hf ts m' e hfaces' (hm.depth ▸ hd))
    · -- The second half takes the place of the `>>`, and the cursor stays.
      have hgg : t.kind = .greaterGreater := by simpa [hg] using ht
      have hangle : consumeClosingAngle .typeListEnd m = (.value t.firstHalf,
          m.moved (m.tokens.set m.parser.current t.secondHalf) m.parser.current) := by
        simp [consumeClosingAngle, hpeek, hgg, Memory.write, moved]
      have hparse : expectClosingAngle (t :: ts) = .ok ((), t.secondHalf :: ts) := by
        simp [expectClosingAngle, hgg, TokenView.secondHalf]
      have hhalf : t.secondHalf.kind ≠ .eof := by simp [Token.secondHalf]
      rw [bind_of_ok hparse]
      exact .of_later (bind_of_value hangle) ⟨_, _, rfl⟩ (hf _ _ e (hfaces.replace hhalf) hd)

theorem nested_apply {method : Machine α} {m : Memory} (h : m.parser.depth < limit) :
    nested limit method m = ((method m.deeper).1, (method m.deeper).2.shallower) := by
  rw [nested, if_neg (by omega)]

theorem ImplementsAt.nested {method : Machine α} {p : Parser Token α}
    (h : ImplementsAt limit n method p ts) :
    ImplementsAt limit (n + 1) (nested limit method) p ts := by
  intro m e hfaces hd
  have hdeeper : m.deeper.Faces ts e := ⟨hfaces.owned, hfaces.split, hfaces.inside, hfaces.ending⟩
  have hdoes := h m.deeper e hdeeper (by simp only [Memory.deeper]; omega)
  have hnested : Machine.nested limit method m = _ := nested_apply (by omega)
  cases hr : p ts with
  | ok r =>
    rw [hr] at hdoes
    obtain ⟨_, hv, ⟨us, c, rfl⟩, hfaces'⟩ := hdoes
    rw [hv] at hnested
    exact ⟨(m.deeper.moved us c).shallower, hnested, ⟨us, c, rfl⟩, hfaces'.owned, hfaces'.split,
      hfaces'.inside, hfaces'.ending⟩
  | error fault =>
    rw [hr] at hdoes
    obtain ⟨_, hv, ⟨us, c, rfl⟩, hfaces'⟩ := hdoes
    rw [hv] at hnested
    exact ⟨(m.deeper.moved us c).shallower, hnested, ⟨us, c, rfl⟩, hfaces'.owned, hfaces'.split,
      hfaces'.inside, hfaces'.ending⟩

theorem Implements.nested {method : Machine α} {p : Parser Token α}
    (h : Implements limit n method p) : Implements limit (n + 1) (nested limit method) p :=
  fun ts => (h ts).nested

theorem implements_nested_zero (method : Machine α) :
    Implements limit 0 (nested limit method) tooDeep := by
  intro ts m e hfaces hd
  have hnested : nested limit method m = errorAtCurrent .shallower m := by
    rw [Machine.nested, if_pos (by omega)]
  exact .of_later hnested (.refl m) (implements_errorAtCurrent .shallower ts m e hfaces hd)

/-- Each step that goes on uses up some of the stream. -/
def Progresses (step : α → Parser Token (Option α)) : Prop :=
  ∀ ⦃a b : α⦄ ⦃ts rest : List Token⦄, step a ts = .ok (some b, rest) → weight rest < weight ts

theorem implements_loop {step : α → Machine (Option α)} {step' : α → Parser Token (Option α)}
    (hs : ∀ a, Implements limit n (step a) (step' a)) (hp : Progresses step') (a : α) :
    Implements limit n (loop step a) (iterate step' a) := by
  intro ts m e hfaces hd
  fun_induction iterate step' a ts generalizing m with
  | case1 a ts fault hr =>
    have hdoes := hs a ts m e hfaces hd
    rw [hr] at hdoes
    obtain ⟨m', hv, hm, hfaces'⟩ := hdoes
    exact ⟨m', by rw [loop, hv], hm, hfaces'⟩
  | case2 a ts rest hr =>
    have hdoes := hs a ts m e hfaces hd
    rw [hr] at hdoes
    obtain ⟨m', hv, hm, hfaces'⟩ := hdoes
    exact ⟨m', by rw [loop, hv], hm, hfaces'⟩
  | case3 a ts b rest hr hw ih =>
    have hdoes := hs a ts m e hfaces hd
    rw [hr] at hdoes
    obtain ⟨m', hv, hm, hfaces'⟩ := hdoes
    have hloop : loop step a m = loop step b m' := by
      rw [loop, hv]
      exact if_pos (by rw [hfaces'.remaining, hfaces.remaining]; exact hw)
    exact .of_later hloop hm (ih m' hfaces' (hm.depth ▸ hd))
  | case4 a ts b rest hr hw => exact absurd (hp hr) hw

theorem implements_isBefore {closing : Kind} (hc : closing ≠ .eof) :
    Implements limit n (isBefore closing) (sees (· != closing)) := by
  intro ts
  refine implementsAt_check (p := (· == closing)) (beq_false_of_ne hc.symm) (fun hs => ?_)
    fun hs => ?_
  · obtain ⟨t, ts, rfl, ht⟩ := not_stops_iff.1 hs
    refine (implements_pure false (t :: ts)).congr (sees_of_stops ?_)
    simpa using ht
  · intro m e hfaces _
    have hended : (do let ended ← isAtEnd; return !ended : Machine Bool) m =
        (.value !ts.isEmpty, m) := by rw [← hfaces.isAtEnd]; rfl
    cases ts with
    | nil => exact ⟨m, hended, .refl m, hfaces⟩
    | cons t ts =>
      have ht : (TokenView.kind t != closing) = true := by simpa using hs
      rw [sees_cons ht]
      exact ⟨m, hended, .refl m, hfaces⟩

theorem weight_le_of_tracks {p : Parser Token α} (hp : ∀ origin, Tracks origin p)
    {ts rest : List Token} {a : α} (h : p ts = .ok (a, rest)) : weight rest ≤ weight ts := by
  have hstop := hp ts ts (.refl ts)
  rw [h] at hstop
  obtain ⟨us, hu⟩ := hstop
  have := hu.weight_le
  omega

theorem progresses_of_accept {p : Kind → Bool} {f : α → Option Token → Parser Token (Option α)}
    (hn : ∀ a, f a none = pure none) (hs : ∀ a t origin, Tracks origin (f a (some t))) :
    Progresses fun a => accept p >>= f a := by
  intro a b ts rest h
  obtain ⟨o, mid, ho, hf⟩ := bind_ok_iff.1 h
  obtain ⟨rfl, rfl, -⟩ | ⟨t, rfl, rfl, -⟩ := accept_ok ho
  · rw [hn] at hf
    cases (pure_ok_iff.1 hf).1
  · have hle := weight_le_of_tracks (hs a t) hf
    have hlt := (Grammar.Reads.single t mid).weight_lt (by simp)
    omega

theorem progresses_commaStep {σ : Type} {item : Parser Token α} (hi : ∀ origin, Tracks origin item)
    (add : σ → α → σ) : Progresses (Grammar.commaStep item add) :=
  progresses_of_accept (fun _ => rfl) fun s _ _ => (hi _).bind fun a => tracks_pure (some (add s a))

theorem progresses_manyStep {more : Kind → Bool} {item : Parser Token α}
    {G : α → List Token → Prop}
    (hi : Grammar.SoundFrom more item fun a us _ => G a us ∧ us ≠ []) :
    Progresses (Grammar.manyStep more item) := by
  intro as bs ts rest h
  obtain ⟨b, mid, hb, h⟩ := bind_ok_iff.1 h
  obtain ⟨rfl, ⟨rfl, hmore⟩ | ⟨rfl, -⟩⟩ := sees_ok hb
  · obtain ⟨a, mid', ha, h⟩ := bind_ok_iff.1 h
    obtain ⟨-, rfl⟩ := pure_ok_iff.1 h
    obtain ⟨us, hu, -, hne⟩ := hi hmore ha
    exact hu.weight_lt hne
  · cases (pure_ok_iff.1 h).1

theorem implements_whileLoop {more : Machine Bool} {p : Kind → Bool} {item : Machine α}
    {item' : Parser Token α} {G : α → List Token → Prop} (hm : Implements limit n more (sees p))
    (hi : Implements limit n item item')
    (hp : Grammar.SoundFrom p item' fun a us _ => G a us ∧ us ≠ []) :
    Implements limit n (whileLoop more item) (manyWhile p item') :=
  implements_loop (fun _ => hm.ite (hi.bind fun _ => implements_pure _) (implements_pure none))
    (progresses_manyStep hp) []

theorem implements_commaLoop {item : Machine α} {item' : Parser Token α}
    (hi : Implements limit n item item') (hp : ∀ origin, Tracks origin item') :
    Implements limit n (commaLoop item) (separated item') := by
  refine hi.bind fun first => implements_loop (fun items => ?_) (progresses_commaStep hp _) [first]
  refine (implements_take rfl).bind fun o => ?_
  cases o with
  | none => exact implements_pure none
  | some _ => exact hi.bind fun a => implements_pure _

theorem implements_commaLoopUntil {closing : Kind} (hc : closing ≠ .eof) {item : Machine α}
    {item' : Parser Token α} (hi : Implements limit n item item')
    (hp : ∀ origin, Tracks origin item') :
    Implements limit n (commaLoopUntil closing item) (separatedUntil closing item') :=
  (implements_check (p := (· == closing)) (beq_false_of_ne hc.symm)).ite (implements_pure [])
    (implements_commaLoop hi hp)

end Instances

end Seanet
