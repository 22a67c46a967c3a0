import Seanet.Proofs.Lexical.Extent
import Seanet.Proofs.Lexical.Lexemes

set_option autoImplicit false

namespace Seanet

namespace Lexical

/-- Reading `size t` units of `t`, with the outcome `value t`, is greedy for the phrases of `G`.
Where a phrase is not all that is read, the next unit is one of `more`. -/
structure Greedy {β : Type} (G : β → Text → Prop) (more : UInt16 → Bool) (value : Text → β)
    (size : Text → Nat) : Prop where
  spells : ∀ t, G (value t) (t.take (size t))
  le : ∀ t, size t ≤ t.length
  next : ∀ {b : β} {l : Text} (rest : Text), G b l →
    (value (l ++ rest) = b ∧ size (l ++ rest) = l.length) ∨
      l.length < size (l ++ rest) ∧ ∃ u r, rest = u :: r ∧ more u = true

theorem Greedy.exact {β : Type} {G : β → Text → Prop} {more : UInt16 → Bool} {value : Text → β}
    {size : Text → Nat} (h : Greedy G more value size) {b : β} {l : Text} (hl : G b l) :
    value l = b ∧ size l = l.length := by
  obtain hread | ⟨-, v, s, hv, -⟩ := h.next [] hl
  · rwa [List.append_nil] at hread
  · cases hv

theorem Greedy.seq {β : Type} {G : Text → Prop} {G' : β → Text → Prop} {more more' : UInt16 → Bool}
    {size size' : Text → Nat} {value' : Text → β}
    (h : Greedy (fun _ : Unit => G) more (fun _ => ()) size) (h' : Greedy G' more' value' size')
    (hd : ∀ {b u l}, G' b (u :: l) → more u = false) :
    Greedy (fun b l => ∃ l₁ l₂, l = l₁ ++ l₂ ∧ G l₁ ∧ G' b l₂) (fun u => more u || more' u)
      (fun t => value' (t.drop (size t))) (fun t => size t + size' (t.drop (size t))) where
  spells t := ⟨_, _, List.take_add, h.spells t, h'.spells _⟩
  le t := by
    have hle := h.le t
    have hle' := h'.le (t.drop (size t))
    rw [List.length_drop] at hle'
    omega
  next := by
    rintro b _ rest ⟨l₁, l₂, rfl, hl₁, hl₂⟩
    rw [List.append_assoc]
    obtain ⟨-, hs⟩ | ⟨hlt, u, r, hu, hm⟩ := h.next (b := ()) (l₂ ++ rest) hl₁
    · rw [hs, List.drop_left]
      obtain ⟨hv, hs'⟩ | ⟨hlt, u, r, rfl, hm⟩ := h'.next rest hl₂
      · exact .inl ⟨hv, by simp [hs']⟩
      · exact .inr ⟨by simp only [List.length_append]; omega, u, r, rfl, by simp [hm]⟩
    · -- The first part could have gone on, so nothing of the second has been read.
      cases l₂ with
      | nil =>
        refine .inr ⟨?_, u, r, hu, by simp [hm]⟩
        simp only [List.append_nil]
        omega
      | cons v l₂ =>
        obtain ⟨rfl, -⟩ := List.cons.inj hu
        rw [hd hl₂] at hm
        cases hm

theorem isEither_iff {a b : Char} {u : UInt16} :
    isEither a b u = true ↔ u = Text.unit a ∨ u = Text.unit b := by
  simp [isEither]

theorem run_append {p : UInt16 → Bool} {l : Text} (h : ∀ u ∈ l, p u = true) (rest : Text) :
    run p (l ++ rest) = l.length + run p rest := by
  simp only [run]
  rw [List.takeWhile_append_of_pos h, List.length_append]

theorem run_cons_of_not {p : UInt16 → Bool} {u : UInt16} (hu : p u = false) (r : Text) :
    run p (u :: r) = 0 := by
  simp [run, hu]

theorem take_run (p : UInt16 → Bool) (t : Text) : t.take (run p t) = t.takeWhile p := by
  calc
    t.take (run p t) = (t.takeWhile p ++ t.dropWhile p).take (run p t) := by
      rw [List.takeWhile_append_dropWhile]
    _ = t.takeWhile p := List.take_left

theorem run_greedy (p : UInt16 → Bool) :
    Greedy (fun (_ : Unit) l => ∀ u ∈ l, p u = true) p (fun _ => ()) (run p) where
  spells t := by
    rw [take_run]
    exact List.all_eq_true.1 List.all_takeWhile
  le := run_le p
  next := by
    intro _ l rest hl
    rw [run_append hl]
    cases rest with
    | nil => exact .inl ⟨rfl, rfl⟩
    | cons u r =>
      cases hu : p u with
      | false => exact .inl ⟨rfl, by rw [run_cons_of_not hu]; omega⟩
      | true =>
        have hpos := run_pos hu r
        exact .inr ⟨by omega, u, r, rfl, hu⟩

theorem digits_take {t : Text} (h : run isDigit t ≠ 0) : Digits (t.take (run isDigit t)) := by
  refine ⟨fun hn => ?_, (run_greedy isDigit).spells t⟩
  have hlen := congrArg List.length hn
  rw [List.length_take, List.length_nil] at hlen
  have hle := run_le isDigit t
  omega

theorem Digits.length_pos {t : Text} (h : Digits t) : 0 < t.length := List.length_pos_iff.2 h.1

def inFraction (u : UInt16) : Bool := u == Text.unit '.' || isDigit u

theorem fraction_cons {r : Text} (h : run isDigit r ≠ 0) :
    fraction (Text.unit '.' :: r) = 1 + run isDigit r := by
  simp [fraction, h]

theorem fraction_pos {t : Text} (h : fraction t ≠ 0) : ∃ r, t = Text.unit '.' :: r ∧
    run isDigit r ≠ 0 := by
  cases t with
  | nil => exact absurd rfl h
  | cons u r =>
    simp only [fraction] at h
    split at h
    · next hc =>
      simp only [Bool.and_eq_true, beq_iff_eq, decide_eq_true_eq] at hc
      exact ⟨r, by rw [hc.1], hc.2⟩
    · exact absurd rfl h

theorem fraction_greedy :
    Greedy (fun (_ : Unit) l => ∃ ds, Fraction ds l) inFraction (fun _ => ()) fraction where
  spells t := by
    by_cases h : fraction t = 0
    · rw [h]
      exact ⟨[], .none⟩
    · obtain ⟨r, rfl, hr⟩ := fraction_pos h
      rw [fraction_cons hr, Nat.add_comm, List.take_succ_cons]
      exact ⟨_, .some (digits_take hr)⟩
  le := fraction_le
  next := by
    rintro _ l rest ⟨ds, hl⟩
    cases hl with
    | none =>
      by_cases h : fraction rest = 0
      · exact .inl ⟨rfl, h⟩
      · obtain ⟨r, rfl, -⟩ := fraction_pos h
        exact .inr ⟨Nat.pos_of_ne_zero h, _, r, rfl, rfl⟩
    | some hd =>
      have hpos := hd.length_pos
      have hrun := run_append hd.2 rest
      rw [List.cons_append, fraction_cons (by omega), List.length_cons]
      obtain ⟨-, hs⟩ | ⟨hlt, u, r, rfl, hu⟩ := (run_greedy isDigit).next (b := ()) rest hd.2
      · exact .inl ⟨rfl, by omega⟩
      · exact .inr ⟨by omega, u, r, rfl, by simp [inFraction, hu]⟩

def inExponent (u : UInt16) : Bool := isEither 'e' 'E' u || isDigit u

theorem sign_append {negative : Bool} {s : Text} (hs : Sign negative s) {ds : Text} (hd : Digits ds)
    (rest : Text) : sign (s ++ (ds ++ rest)) = s.length := by
  cases hs with
  | none =>
    obtain ⟨d, ds, rfl⟩ := List.exists_cons_of_ne_nil hd.1
    have hdigit := hd.2 d (by simp)
    simp only [List.nil_append, List.cons_append, sign]
    split
    · next h =>
      simp only [Bool.or_eq_true, beq_iff_eq] at h
      obtain rfl | rfl := h <;> exact absurd hdigit (by decide)
    · rfl
  | plus => rfl
  | minus => rfl

theorem exponent_some {mark : UInt16} (hm : isEither 'e' 'E' mark = true) {r : Text}
    (h : run isDigit (r.drop (sign r)) ≠ 0) :
    exponent (mark :: r) = 1 + sign r + run isDigit (r.drop (sign r)) := by
  simp [exponent, hm, h]

theorem exponent_pos {t : Text} (h : exponent t ≠ 0) : ∃ mark r, t = mark :: r ∧
    isEither 'e' 'E' mark = true ∧ run isDigit (r.drop (sign r)) ≠ 0 := by
  cases t with
  | nil => exact absurd rfl h
  | cons u r =>
    simp only [exponent] at h
    split at h
    · next hc =>
      simp only [Bool.and_eq_true, decide_eq_true_eq] at hc
      exact ⟨u, r, rfl, hc.1, hc.2⟩
    · exact absurd rfl h

theorem sign_take (t : Text) : ∃ negative, Sign negative (t.take (sign t)) := by
  cases t with
  | nil => exact ⟨false, .none⟩
  | cons u r =>
    simp only [sign]
    split
    · next h =>
      simp only [Bool.or_eq_true, beq_iff_eq] at h
      obtain rfl | rfl := h
      · exact ⟨false, .plus⟩
      · exact ⟨true, .minus⟩
    · exact ⟨false, .none⟩

theorem exponent_greedy :
    Greedy (fun (_ : Unit) l => ∃ e, Exponent e l) inExponent (fun _ => ()) exponent where
  spells t := by
    by_cases h : exponent t = 0
    · rw [h]
      exact ⟨0, .none⟩
    · obtain ⟨mark, r, rfl, hm, hr⟩ := exponent_pos h
      obtain ⟨negative, hs⟩ := sign_take r
      rw [exponent_some hm hr, Nat.add_assoc, Nat.add_comm, List.take_succ_cons, List.take_add]
      exact ⟨_, .some hm hs (digits_take hr)⟩
  le := exponent_le
  next := by
    rintro _ l rest ⟨e, hl⟩
    cases hl with
    | none =>
      by_cases h : exponent rest = 0
      · exact .inl ⟨rfl, h⟩
      · obtain ⟨mark, r, rfl, hm, -⟩ := exponent_pos h
        exact .inr ⟨Nat.pos_of_ne_zero h, mark, r, rfl, by simp [inExponent, hm]⟩
    | @some mark negative s ds hm hs hd =>
      have hpos := hd.length_pos
      have hrun := run_append hd.2 rest
      have hsign := sign_append hs hd rest
      have hsize : exponent (mark :: (s ++ (ds ++ rest))) =
          1 + s.length + run isDigit (ds ++ rest) := by
        rw [exponent_some hm, hsign, List.drop_left]
        rw [hsign, List.drop_left]
        omega
      rw [List.cons_append, List.cons_append, List.append_assoc, hsize, List.length_cons,
        List.length_append]
      obtain ⟨-, hs⟩ | ⟨hlt, u, r, rfl, hu⟩ := (run_greedy isDigit).next (b := ()) rest hd.2
      · exact .inl ⟨rfl, by omega⟩
      · exact .inr ⟨by omega, u, r, rfl, by simp [inExponent, hu]⟩

def inIntegerSuffix (u : UInt16) : Bool := isEither 'u' 'U' u || isEither 'l' 'L' u

theorem integerSuffix_greedy : Greedy IntegerSuffix inIntegerSuffix (fun t => (integerSuffix t).1)
    (fun t => (integerSuffix t).2) where
  spells t := by
    match t with
    | [] => exact .int
    | [u] =>
      simp only [integerSuffix]
      split
      · next hu => exact .uint hu
      · split
        · next hl => exact .long hl
        · exact .int
    | u :: v :: r =>
      simp only [integerSuffix]
      split
      · next hu =>
        split
        · next hv => exact .ulong hu hv
        · exact .uint hu
      · split
        · next hl => exact .long hl
        · exact .int
  le := integerSuffix_le
  next := by
    intro b l rest hl
    have hnot : ∀ {v : UInt16}, isEither 'l' 'L' v = true → isEither 'u' 'U' v = false := by
      intro v hv
      obtain rfl | rfl := isEither_iff.1 hv <;> decide
    cases hl with
    | int =>
      match rest with
      | [] => exact .inl ⟨rfl, rfl⟩
      | [u] =>
        cases hu : isEither 'u' 'U' u <;> cases hl : isEither 'l' 'L' u <;>
          simp [integerSuffix, inIntegerSuffix, hu, hl]
      | u :: v :: r =>
        cases hu : isEither 'u' 'U' u <;> cases hl : isEither 'l' 'L' u <;>
          cases hv : isEither 'l' 'L' v <;> simp [integerSuffix, inIntegerSuffix, hu, hl, hv]
    | uint hu =>
      cases rest with
      | nil => exact .inl (by simp [integerSuffix, hu])
      | cons v r =>
        cases hv : isEither 'l' 'L' v <;> simp [integerSuffix, inIntegerSuffix, hu, hv]
    | long hl => exact .inl (by simp [integerSuffix, hl, hnot hl])
    | ulong hu hl => exact .inl (by simp [integerSuffix, hu, hl])

theorem realSuffix_greedy : Greedy RealSuffix (isEither 'f' 'F') (fun t => (realSuffix t).1)
    (fun t => (realSuffix t).2) where
  spells t := by
    cases t with
    | nil => exact .double
    | cons u r =>
      simp only [realSuffix]
      split
      · next hu => exact .float hu
      · exact .double
  le := realSuffix_le
  next := by
    intro b l rest hl
    cases hl with
    | double =>
      cases rest with
      | nil => exact .inl ⟨rfl, rfl⟩
      | cons u r => cases hu : isEither 'f' 'F' u <;> simp [realSuffix, hu]
    | float hf => exact .inl (by simp [realSuffix, hf])

theorem IntegerSuffix.head {type : IntegerType} {u : UInt16} {l : Text}
    (h : IntegerSuffix type (u :: l)) : inIntegerSuffix u = true := by
  cases h with
  | uint hu => simp [inIntegerSuffix, hu]
  | long hl => simp [inIntegerSuffix, hl]
  | ulong hu _ => simp [inIntegerSuffix, hu]

theorem inIntegerSuffix_iff {u : UInt16} : inIntegerSuffix u = true ↔
    u = Text.unit 'u' ∨ u = Text.unit 'U' ∨ u = Text.unit 'l' ∨ u = Text.unit 'L' := by
  simp [inIntegerSuffix, isEither_iff, or_assoc]

theorem hexTail_greedy : Greedy
    (fun type l => ∃ l₁ l₂, l = l₁ ++ l₂ ∧ (∀ u ∈ l₁, isHexDigit u = true) ∧ IntegerSuffix type l₂)
    (fun u => isHexDigit u || inIntegerSuffix u)
    (fun t => (integerSuffix (t.drop (run isHexDigit t))).1)
    (fun t => run isHexDigit t + (integerSuffix (t.drop (run isHexDigit t))).2) := by
  refine (run_greedy isHexDigit).seq integerSuffix_greedy fun h => ?_
  obtain rfl | rfl | rfl | rfl := inIntegerSuffix_iff.1 h.head <;> decide

theorem Exponent.head {e : Int} {u : UInt16} {l : Text} (h : Exponent e (u :: l)) :
    isEither 'e' 'E' u = true := by
  cases h with
  | some hm _ _ => exact hm

theorem RealSuffix.head {type : RealType} {u : UInt16} {l : Text} (h : RealSuffix type (u :: l)) :
    isEither 'f' 'F' u = true := by
  cases h with
  | float hf => exact hf

theorem realPart_greedy : Greedy
    (fun (_ : Unit) l => ∃ l₁ l₂, l = l₁ ++ l₂ ∧ (∃ ds, Fraction ds l₁) ∧ ∃ e, Exponent e l₂)
    (fun u => inFraction u || inExponent u) (fun _ => ())
    (fun t => fraction t + exponent (t.drop (fraction t))) := by
  refine fraction_greedy.seq exponent_greedy ?_
  rintro _ u l ⟨e, h⟩
  obtain rfl | rfl := isEither_iff.1 h.head <;> decide

theorem realTail_greedy : Greedy
    (fun type l => ∃ l₁ l₂, l = l₁ ++ l₂ ∧
      (∃ f e, l₁ = f ++ e ∧ (∃ ds, Fraction ds f) ∧ ∃ n, Exponent n e) ∧ RealSuffix type l₂)
    (fun u => (inFraction u || inExponent u) || isEither 'f' 'F' u)
    (fun t => (realSuffix (t.drop (fraction t + exponent (t.drop (fraction t))))).1)
    (fun t => fraction t + exponent (t.drop (fraction t)) +
      (realSuffix (t.drop (fraction t + exponent (t.drop (fraction t))))).2) := by
  refine realPart_greedy.seq realSuffix_greedy fun h => ?_
  obtain rfl | rfl := isEither_iff.1 h.head <;> decide

/-- What follows the first digits of a number. -/
inductive TailSpells : Shape → Text → Prop where
  | decimal {type : IntegerType} {suffix : Text} (hs : IntegerSuffix type suffix) :
      TailSpells (.integer .decimal type) suffix
  | hexadecimal {mark : UInt16} {type : IntegerType} {digits suffix : Text}
      (hm : isEither 'x' 'X' mark = true) (h : ∀ u ∈ digits, isHexDigit u = true)
      (hs : IntegerSuffix type suffix) :
      TailSpells (.integer .hexadecimal type) (mark :: (digits ++ suffix))
  | real {type : RealType} {digits point power suffix : Text} {e : Int}
      (hf : Fraction digits point) (he : Exponent e power) (hn : point ≠ [] ∨ power ≠ [])
      (hs : RealSuffix type suffix) : TailSpells (.real type) (point ++ power ++ suffix)

def numberTail (q : Text) : Extent :=
  match q with
  | [] => ⟨.integer .decimal .int, 0⟩
  | u :: r =>
    if isEither 'x' 'X' u then
      let digits := run isHexDigit r
      let (type, suffix) := integerSuffix (r.drop digits)
      ⟨.integer .hexadecimal type, 1 + digits + suffix⟩
    else
      let size := fraction q + exponent (q.drop (fraction q))
      if size = 0 then ⟨.integer .decimal (integerSuffix q).1, (integerSuffix q).2⟩
      else ⟨.real (realSuffix (q.drop size)).1, size + (realSuffix (q.drop size)).2⟩

theorem number_eq (t : Text) : number t =
    ⟨(numberTail (t.drop (run isDigit t))).shape,
      run isDigit t + (numberTail (t.drop (run isDigit t))).size⟩ := by
  generalize hw : run isDigit t = whole
  simp only [number, hw, integerOf, ← List.drop_drop, Nat.add_assoc whole]
  cases hq : t.drop whole with
  | nil => simp [numberTail, fraction, exponent, integerSuffix]
  | cons u r =>
    simp only [numberTail, List.drop_succ_cons, List.drop_zero]
    split
    · simp [Nat.add_assoc, Nat.add_comm 1]
    · simp only [Nat.add_assoc, Nat.add_eq_left]
      split
      · rfl
      · simp only [List.drop_drop]

def inNumber (u : UInt16) : Bool := isWordUnit u || u == Text.unit '.'

theorem inNumber_of_hex {u : UInt16} (h : isHexDigit u = true) : inNumber u = true := by
  grind [inNumber, isWordUnit, isAlpha, isHexDigit]

theorem inNumber_of_digit {u : UInt16} (h : isDigit u = true) : inNumber u = true := by
  simp [inNumber, isWordUnit, h]

theorem numberTail_hex {mark : UInt16} (hm : isEither 'x' 'X' mark = true) (r : Text) :
    numberTail (mark :: r) =
      ⟨.integer .hexadecimal (integerSuffix (r.drop (run isHexDigit r))).1,
        1 + (run isHexDigit r + (integerSuffix (r.drop (run isHexDigit r))).2)⟩ := by
  simp [numberTail, hm, Nat.add_assoc]

theorem numberTail_decimal {q : Text} (hx : ∀ u ∈ q.head?, isEither 'x' 'X' u = false)
    (h : fraction q + exponent (q.drop (fraction q)) = 0) :
    numberTail q = ⟨.integer .decimal (integerSuffix q).1, (integerSuffix q).2⟩ := by
  cases q with
  | nil => rfl
  | cons u r =>
    have hu : isEither 'x' 'X' u = false := hx u rfl
    simp [numberTail, hu, h]

theorem numberTail_real {q : Text} (hx : ∀ u ∈ q.head?, isEither 'x' 'X' u = false)
    (h : fraction q + exponent (q.drop (fraction q)) ≠ 0) :
    numberTail q = ⟨.real (realSuffix (q.drop (fraction q + exponent (q.drop (fraction q))))).1,
      fraction q + exponent (q.drop (fraction q)) +
        (realSuffix (q.drop (fraction q + exponent (q.drop (fraction q))))).2⟩ := by
  cases q with
  | nil => exact absurd rfl h
  | cons u r =>
    have hu : isEither 'x' 'X' u = false := hx u rfl
    simp only [numberTail, hu]
    exact if_neg h

theorem numberTail_cases (q : Text) :
    (∃ mark r, q = mark :: r ∧ isEither 'x' 'X' mark = true) ∨
      (∀ u ∈ q.head?, isEither 'x' 'X' u = false) := by
  cases q with
  | nil => exact .inr (by simp)
  | cons u r =>
    cases hu : isEither 'x' 'X' u with
    | true => exact .inl ⟨u, r, rfl, hu⟩
    | false => exact .inr (by simpa using hu)

theorem numberTail_spells (q : Text) :
    TailSpells (numberTail q).shape (q.take (numberTail q).size) := by
  obtain ⟨mark, r, rfl, hm⟩ | hx := numberTail_cases q
  · obtain ⟨digits, suffix, ht, hd, hs⟩ := hexTail_greedy.spells r
    rw [numberTail_hex hm, Nat.add_comm 1, List.take_succ_cons, ht]
    exact .hexadecimal hm hd hs
  · by_cases h : fraction q + exponent (q.drop (fraction q)) = 0
    · rw [numberTail_decimal hx h]
      exact .decimal (integerSuffix_greedy.spells q)
    · obtain ⟨digits, hf⟩ := fraction_greedy.spells q
      obtain ⟨e, he⟩ := exponent_greedy.spells (q.drop (fraction q))
      rw [numberTail_real hx h, List.take_add, List.take_add]
      refine .real hf he ?_ (realSuffix_greedy.spells _)
      by_cases hp : fraction q = 0
      · refine .inr (List.ne_nil_of_length_pos ?_)
        rw [List.length_take, Nat.min_eq_left (exponent_greedy.le _)]
        omega
      · refine .inl (List.ne_nil_of_length_pos ?_)
        rw [List.length_take, Nat.min_eq_left (fraction_greedy.le _)]
        omega

theorem numberTail_le (q : Text) : (numberTail q).size ≤ q.length := by
  obtain ⟨mark, r, rfl, hm⟩ | hx := numberTail_cases q
  · have hle := hexTail_greedy.le r
    rw [numberTail_hex hm, List.length_cons]
    simp only
    omega
  · by_cases h : fraction q + exponent (q.drop (fraction q)) = 0
    · rw [numberTail_decimal hx h]
      exact integerSuffix_greedy.le q
    · rw [numberTail_real hx h]
      exact realTail_greedy.le q

theorem inNumber_of_suffix {u : UInt16} (h : inIntegerSuffix u = true) :
    inNumber u = true ∧ isEither 'x' 'X' u = false ∧ isDigit u = false ∧
      ∀ r, fraction (u :: r) + exponent ((u :: r).drop (fraction (u :: r))) = 0 := by
  obtain rfl | rfl | rfl | rfl := inIntegerSuffix_iff.1 h <;>
    exact ⟨by decide, by decide, by decide, fun r => rfl⟩

theorem inNumber_of_size {u : UInt16} {r : Text} (h : (numberTail (u :: r)).size ≠ 0) :
    inNumber u = true := by
  obtain ⟨mark, r', hq, hm⟩ | hx := numberTail_cases (u :: r)
  · obtain ⟨rfl, rfl⟩ := List.cons.inj hq
    obtain rfl | rfl := isEither_iff.1 hm <;> decide
  · by_cases hz : fraction (u :: r) + exponent ((u :: r).drop (fraction (u :: r))) = 0
    · rw [numberTail_decimal hx hz] at h
      obtain ⟨-, hs⟩ | ⟨-, v, r', hv, hu⟩ := integerSuffix_greedy.next (u :: r) .int
      · exact absurd hs h
      · obtain ⟨rfl, -⟩ := List.cons.inj hv
        exact (inNumber_of_suffix hu).1
    · by_cases hf : fraction (u :: r) = 0
      · rw [hf, Nat.zero_add] at hz
        obtain ⟨mark, r', hq, hm, -⟩ := exponent_pos hz
        obtain ⟨rfl, -⟩ := List.cons.inj hq
        obtain rfl | rfl := isEither_iff.1 hm <;> decide
      · obtain ⟨r', hq, -⟩ := fraction_pos hf
        obtain ⟨rfl, -⟩ := List.cons.inj hq
        decide

theorem numberTail_zero {q : Text} (h : (numberTail q).size = 0) :
    (numberTail q).shape = .integer .decimal .int := by
  obtain ⟨mark, r, rfl, hm⟩ | hx := numberTail_cases q
  · rw [numberTail_hex hm] at h
    simp only at h
    omega
  · by_cases hz : fraction q + exponent (q.drop (fraction q)) = 0
    · rw [numberTail_decimal hx hz] at h ⊢
      obtain ⟨ht, -⟩ | ⟨hlt, -⟩ := integerSuffix_greedy.next q .int
      · exact congrArg (Shape.integer .decimal) ht
      · rw [List.nil_append, List.length_nil] at hlt
        simp only at h
        omega
    · rw [numberTail_real hx hz] at h
      simp only at h
      omega

theorem TailSpells.real_head {digits point power : Text} {e : Int} (hf : Fraction digits point)
    (he : Exponent e power) (hn : point ≠ [] ∨ power ≠ []) : ∃ u l, point ++ power = u :: l ∧
      (u = Text.unit '.' ∨ u = Text.unit 'e' ∨ u = Text.unit 'E') := by
  cases hf with
  | some hd => exact ⟨_, _, rfl, .inl rfl⟩
  | none =>
    cases he with
    | none => simp at hn
    | some hm hs hd => exact ⟨_, _, rfl, .inr (isEither_iff.1 hm)⟩

theorem numberTail_next {shape : Shape} {l : Text} (rest : Text) (h : TailSpells shape l) :
    ((numberTail (l ++ rest)).shape = shape ∧ (numberTail (l ++ rest)).size = l.length) ∨
      l.length < (numberTail (l ++ rest)).size ∧ ∃ u r, rest = u :: r ∧ inNumber u = true := by
  cases h with
  | decimal hs =>
    cases l with
    | nil =>
      cases hs
      by_cases hz : (numberTail rest).size = 0
      · exact .inl ⟨numberTail_zero hz, hz⟩
      · cases rest with
        | nil => exact absurd rfl hz
        | cons u r => exact .inr ⟨Nat.pos_of_ne_zero hz, u, r, rfl, inNumber_of_size hz⟩
    | cons u l =>
      obtain ⟨-, hx, -, hzero⟩ := inNumber_of_suffix hs.head
      have hnext := integerSuffix_greedy.next rest hs
      rw [List.cons_append] at hnext ⊢
      rw [numberTail_decimal (by simpa using hx) (hzero (l ++ rest))]
      obtain ⟨hv, hsize⟩ | ⟨hlt, v, r, rfl, hv⟩ := hnext
      · exact .inl ⟨congrArg (Shape.integer .decimal) hv, hsize⟩
      · exact .inr ⟨hlt, v, r, rfl, (inNumber_of_suffix hv).1⟩
  | @hexadecimal mark type digits suffix hm hd hs =>
    rw [List.cons_append, numberTail_hex hm, List.length_cons]
    obtain ⟨hv, hsize⟩ | ⟨hlt, v, r, rfl, hv⟩ := hexTail_greedy.next rest ⟨_, _, rfl, hd, hs⟩
    · exact .inl ⟨congrArg (Shape.integer .hexadecimal) hv, by simp only at hsize ⊢; omega⟩
    · refine .inr ⟨by simp only at hlt ⊢; omega, v, r, rfl, ?_⟩
      simp only [Bool.or_eq_true] at hv
      obtain hv | hv := hv
      · exact inNumber_of_hex hv
      · exact (inNumber_of_suffix hv).1
  | @real type digits point power suffix e hf he hn hs =>
    obtain ⟨u, l, hl, hu⟩ := TailSpells.real_head hf he hn
    have hx : ∀ v ∈ (point ++ power ++ suffix ++ rest).head?, isEither 'x' 'X' v = false := by
      rw [hl]
      intro v hv
      obtain rfl : u = v := by simpa using hv
      obtain rfl | rfl | rfl := hu <;> decide
    have hsize : fraction (point ++ power ++ suffix ++ rest) +
        exponent ((point ++ power ++ suffix ++ rest).drop
          (fraction (point ++ power ++ suffix ++ rest))) ≠ 0 := by
      have hpos := congrArg List.length hl
      rw [List.length_cons] at hpos
      rw [List.append_assoc]
      obtain ⟨-, hs⟩ | ⟨hlt, -⟩ :=
        realPart_greedy.next (b := ()) (suffix ++ rest) ⟨point, power, rfl, ⟨_, hf⟩, _, he⟩
      · omega
      · omega
    rw [numberTail_real hx hsize]
    obtain ⟨hv, hs⟩ | ⟨hlt, v, r, rfl, hv⟩ := realTail_greedy.next rest
      ⟨point ++ power, suffix, rfl, ⟨point, power, rfl, ⟨_, hf⟩, _, he⟩, hs⟩
    · exact .inl ⟨congrArg Shape.real hv, hs⟩
    · refine .inr ⟨hlt, v, r, rfl, ?_⟩
      simp only [inFraction, inExponent, Bool.or_eq_true, beq_iff_eq] at hv
      obtain ((rfl | hv) | hv | hv) | hv := hv
      · decide
      · exact inNumber_of_digit hv
      · obtain rfl | rfl := isEither_iff.1 hv <;> decide
      · exact inNumber_of_digit hv
      · obtain rfl | rfl := isEither_iff.1 hv <;> decide

theorem numberTail_greedy : Greedy TailSpells inNumber (fun q => (numberTail q).shape)
    (fun q => (numberTail q).size) :=
  ⟨numberTail_spells, numberTail_le, numberTail_next⟩

theorem TailSpells.head {shape : Shape} {u : UInt16} {l : Text} (h : TailSpells shape (u :: l)) :
    isDigit u = false := by
  generalize ht : u :: l = t at h
  cases h with
  | decimal hs =>
    subst ht
    exact (inNumber_of_suffix hs.head).2.2.1
  | hexadecimal hm _ _ =>
    obtain ⟨rfl, -⟩ := List.cons.inj ht
    obtain rfl | rfl := isEither_iff.1 hm <;> decide
  | real hf he hn _ =>
    obtain ⟨v, l', hl, hv⟩ := TailSpells.real_head hf he hn
    rw [hl] at ht
    obtain ⟨rfl, -⟩ := List.cons.inj ht
    obtain rfl | rfl | rfl := hv <;> decide

theorem number_greedy : Greedy
    (fun shape l => ∃ l₁ l₂, l = l₁ ++ l₂ ∧ (∀ u ∈ l₁, isDigit u = true) ∧ TailSpells shape l₂)
    (fun u => isDigit u || inNumber u) (fun t => (number t).shape) (fun t => (number t).size) := by
  have h := (run_greedy isDigit).seq numberTail_greedy TailSpells.head
  simp only [number_eq]
  exact h

end Lexical

end Seanet
