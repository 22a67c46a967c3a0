import Seanet.Lexical.Reading
import Seanet.Proofs.Report.Printable
import Seanet.Proofs.Text.Utf8

set_option autoImplicit false

namespace Seanet

namespace Json

def skip (t : Text) : Text := t.dropWhile Lexical.isBlank

def after? (mark : Char) (t : Text) : Option Text :=
  match skip t with
  | [] => none
  | u :: r => if u = Text.unit mark then some r else none

def escaped? (u : UInt16) : Option UInt16 :=
  [(Text.unit '"', Text.unit '"'), (Text.unit '\\', Text.unit '\\'), (Text.unit '/', Text.unit '/'),
    (Text.unit 'b', 0x08), (Text.unit 'f', 0x0C), (Text.unit 'n', 0x0A), (Text.unit 'r', 0x0D),
    (Text.unit 't', 0x09)].lookup u

def numbered? (digits : Text) : Option UInt16 :=
  if digits.all Lexical.isHexDigit then some (Lexical.numeral 16 digits).toUInt16 else none

def readString : Text → Option (Text × Text)
  | [] => none
  | u :: r =>
    if u = Text.unit '"' then some ([], r)
    else if u = Text.unit '\\' then
      match r with
      | [] => none
      | e :: r =>
        if e = Text.unit 'u' then
          match r with
          | a :: b :: c :: d :: r =>
            (numbered? [a, b, c, d]).bind fun v => (readString r).map fun p => (v :: p.1, p.2)
          | _ => none
        else (escaped? e).bind fun v => (readString r).map fun p => (v :: p.1, p.2)
    else if u < 0x20 then none
    else (readString r).map fun p => (u :: p.1, p.2)

def readNat (t : Text) : Option (Nat × Text) :=
  let digits := t.takeWhile Lexical.isDigit
  if digits.isEmpty then none else some (Lexical.numeral 10 digits, t.dropWhile Lexical.isDigit)

def readInt (t : Text) : Option (Int × Text) :=
  match after? '-' t with
  | some r => (readNat r).map fun p => (-p.1, p.2)
  | none => (readNat (skip t)).map fun p => (p.1, p.2)

mutual

/-- Reads a value; the number is that of the steps that may be taken. -/
def readValue : Nat → Text → Option (Json × Text)
  | 0, _ => none
  | n + 1, t =>
    match after? '"' t, after? '[' t, after? '\x7b' t with
    | some r, _, _ => (readString r).map fun p => (.string p.1, p.2)
    | _, some r, _ =>
      match after? ']' r with
      | some r => some (.list [], r)
      | none => (readItems n r).map fun p => (.list p.1, p.2)
    | _, _, some r =>
      match after? '\x7d' r with
      | some r => some (.object [], r)
      | none => (readMembers n r).map fun p => (.object p.1, p.2)
    | _, _, _ => (readInt t).map fun p => (.number p.1, p.2)

def readItems : Nat → Text → Option (List Json × Text)
  | 0, _ => none
  | n + 1, t => do
    let (v, r) ← readValue n t
    match after? ']' r with
    | some r => return ([v], r)
    | none =>
      let (rest, r) ← readItems n (← after? ',' r)
      return (v :: rest, r)

def readMembers : Nat → Text → Option (List (String × Json) × Text)
  | 0, _ => none
  | n + 1, t => do
    let (key, r) ← readString (← after? '"' t)
    let (v, r) ← readValue n (← after? ':' r)
    match after? '\x7d' r with
    | some r => return ([(key.toString, v)], r)
    | none =>
      let (rest, r) ← readMembers n (← after? ',' r)
      return ((key.toString, v) :: rest, r)

end

/-- The value whose notation a text is, whatever blanks stand between. Numbers are whole numbers, and
what is read takes at least one unit for each step. -/
def read? (t : Text) : Option Json :=
  match readValue (t.length + 1) t with
  | some (v, r) => if skip r = [] then some v else none
  | none => none

theorem skip_cons_of_blank {u : UInt16} (h : Lexical.isBlank u = true) (t : Text) :
    skip (u :: t) = skip t := by
  rw [skip, List.dropWhile_cons_of_pos h, skip]

theorem skip_cons {u : UInt16} (h : Lexical.isBlank u = false) (t : Text) :
    skip (u :: t) = u :: t := by
  rw [skip, List.dropWhile_cons_of_neg (by simp [h])]

theorem skip_newLine (depth : Nat) (t : Text) : skip (newLine depth ++ t) = skip t := by
  have hblank : ∀ u ∈ newLine depth, Lexical.isBlank u = true := by
    rw [newLine, List.forall_mem_cons]
    refine ⟨rfl, fun u hu => ?_⟩
    rw [List.eq_of_mem_replicate hu]
    rfl
  rw [skip, List.dropWhile_append_of_pos hblank, skip]

theorem after?_congr {s t : Text} (h : skip s = skip t) (mark : Char) :
    after? mark s = after? mark t := by
  rw [after?, after?, h]

theorem after?_cons {mark : Char} (h : Lexical.isBlank (Text.unit mark) = false) (t : Text) :
    after? mark (Text.unit mark :: t) = some t := by
  simp [after?, skip_cons h]

theorem after?_eq_none {mark : Char} {u : UInt16} (hb : Lexical.isBlank u = false)
    (hu : u ≠ Text.unit mark) (t : Text) : after? mark (u :: t) = none := by
  simp [after?, skip_cons hb, hu]

theorem readValue_congr {s t : Text} (h : skip s = skip t) (n : Nat) :
    readValue n s = readValue n t := by
  cases n with
  | zero => rfl
  | succ n => simp only [readValue, readInt, after?_congr h, h]

theorem readItems_congr {s t : Text} (h : skip s = skip t) (n : Nat) :
    readItems n s = readItems n t := by
  cases n with
  | zero => rfl
  | succ n => simp only [readItems, readValue_congr h]

theorem readMembers_congr {s t : Text} (h : skip s = skip t) (n : Nat) :
    readMembers n s = readMembers n t := by
  cases n with
  | zero => rfl
  | succ n => simp only [readMembers, after?_congr h]

theorem hexDigit_spec (n : Nat) :
    Lexical.isHexDigit (hexDigit n) = true ∧ Lexical.digitValue (hexDigit n) = n % 16 := by
  have htable : ∀ k < 16, Lexical.isHexDigit (Text.unit (Nat.digitChar k)) = true ∧
      Lexical.digitValue (Text.unit (Nat.digitChar k)) = k := by
    decide
  exact htable _ (Nat.mod_lt _ (by decide))

theorem numbered?_hexDigits (u : UInt16) :
    numbered? [hexDigit (u.toNat / 4096), hexDigit (u.toNat / 256), hexDigit (u.toNat / 16),
      hexDigit u.toNat] = some u := by
  have hlt : u.toNat < 65536 := u.toNat_lt
  have hvalue : Lexical.numeral 16 [hexDigit (u.toNat / 4096), hexDigit (u.toNat / 256),
      hexDigit (u.toNat / 16), hexDigit u.toNat] = u.toNat := by
    simp only [Lexical.numeral, List.foldl_cons, List.foldl_nil, hexDigit_spec]
    omega
  rw [numbered?, if_pos (by simp [hexDigit_spec]), hvalue]
  exact congrArg some UInt16.ofNat_toNat

theorem readString_numbered (u : UInt16) (t : Text) :
    readString (numbered u ++ t) = (readString t).map fun p => (u :: p.1, p.2) := by
  have hunits : numbered u ++ t = Text.unit '\\' :: Text.unit 'u' :: hexDigit (u.toNat / 4096) ::
      hexDigit (u.toNat / 256) :: hexDigit (u.toNat / 16) :: hexDigit u.toNat :: t := rfl
  rw [hunits, readString.eq_def]
  simp only [if_neg (show Text.unit '\\' ≠ Text.unit '"' by decide), if_true,
    numbered?_hexDigits, Option.bind_some]

theorem readString_letter {e v : UInt16} (he : e ≠ Text.unit 'u') (h : escaped? e = some v)
    (t : Text) :
    readString (Text.unit '\\' :: e :: t) = (readString t).map fun p => (v :: p.1, p.2) := by
  rw [readString.eq_def]
  simp only [if_neg (show Text.unit '\\' ≠ Text.unit '"' by decide), if_true, if_neg he, h,
    Option.bind_some]

theorem readString_cons {u : UInt16} (hq : u ≠ Text.unit '"') (hb : u ≠ Text.unit '\\')
    (hc : ¬u < 0x20) (t : Text) :
    readString (u :: t) = (readString t).map fun p => (u :: p.1, p.2) := by
  rw [readString.eq_def]
  simp only [if_neg hq, if_neg hb, if_neg hc]

theorem readString_escapeUnit (u : UInt16) (t : Text) :
    readString (escapeUnit u ++ t) = (readString t).map fun p => (u :: p.1, p.2) := by
  by_cases hu : u ∈ [Text.unit '"', Text.unit '\\', 0x08, 0x0C, 0x0A, 0x0D, 0x09]
  · simp only [List.mem_cons, List.not_mem_nil, or_false] at hu
    obtain rfl | rfl | rfl | rfl | rfl | rfl | rfl := hu
    all_goals exact readString_letter (by decide) rfl t
  · simp only [List.mem_cons, List.not_mem_nil, or_false, not_or] at hu
    obtain ⟨hq, hb, h08, h0C, h0A, h0D, h09⟩ := hu
    simp only [escapeUnit, beq_iff_eq, hq, hb, h08, h0C, h0A, h0D, h09, if_false]
    split
    · exact readString_numbered u t
    · next hc =>
      simp only [Bool.or_eq_true, decide_eq_true_eq, not_or] at hc
      exact readString_cons hq hb hc.1.1 t

theorem readString_quote (t : Text) : readString (Text.unit '"' :: t) = some ([], t) := by
  rw [readString.eq_def]
  rfl

theorem surrogate_spec {u : UInt16} (h : Text.isHigh u = true ∨ Text.isLow u = true) :
    u ≠ Text.unit '"' ∧ u ≠ Text.unit '\\' ∧ ¬u < 0x20 := by
  have hle : 0xD800 ≤ u.toNat := by
    obtain h | h := h
    · exact (Text.isHigh_iff.1 h).1
    · exact Nat.le_trans (by decide) (Text.isLow_iff.1 h).1
  refine ⟨?_, ?_, ?_⟩
  · rintro rfl
    exact absurd hle (by decide)
  · rintro rfl
    exact absurd hle (by decide)
  · rw [UInt16.lt_iff_toNat_lt]
    exact Nat.not_lt.2 (Nat.le_trans (by decide) hle)

theorem readString_escape (t rest : Text) :
    readString (escape t ++ Text.unit '"' :: rest) = some (t, rest) := by
  fun_induction escape t with
  | case1 => exact readString_quote rest
  | case2 u => rw [readString_escapeUnit, readString_quote, Option.map_some]
  | case3 u v r h ih =>
    rw [Bool.and_eq_true] at h
    obtain ⟨hq, hb, hc⟩ := surrogate_spec (.inl h.1)
    obtain ⟨hq', hb', hc'⟩ := surrogate_spec (.inr h.2)
    rw [List.cons_append, List.cons_append, readString_cons hq hb hc, readString_cons hq' hb' hc',
      ih, Option.map_some, Option.map_some]
  | case4 u v r h ih => rw [List.append_assoc, readString_escapeUnit, ih, Option.map_some]

def NoDigit (rest : Text) : Prop := ∀ u ∈ rest.head?, Lexical.isDigit u = false

theorem noDigit_cons {u : UInt16} (h : Lexical.isDigit u = false) (t : Text) : NoDigit (u :: t) :=
  fun _ hu => Option.mem_some.1 hu ▸ h

theorem foldl_digits {cs : List Char} (h : ∀ c ∈ cs, c.isDigit = true) (n : Nat) :
    (cs.map Text.unit).foldl (fun n u => n * 10 + Lexical.digitValue u) n =
      Nat.ofDigitChars 10 cs n := by
  induction cs generalizing n with
  | nil => rfl
  | cons c cs ih =>
    rw [List.forall_mem_cons] at h
    obtain ⟨hsize, hdigit⟩ := Text.toNat_unit_of_isDigit h.1
    have hvalue : Lexical.digitValue (Text.unit c) = c.toNat - '0'.toNat := by
      have hunit : Lexical.isDigit (Text.unit c) = true := by
        simpa [Lexical.isDigit, UInt16.le_iff_toNat_le, hsize] using hdigit
      rw [Lexical.digitValue, if_pos hunit, hsize]
      rfl
    rw [List.map_cons, List.foldl_cons, ih h.2, Nat.ofDigitChars_cons, hvalue, Nat.mul_comm]

theorem numeral_ofNat (n : Nat) : Lexical.numeral 10 (Text.ofNat n) = n := by
  have hdigit : ∀ c ∈ Nat.toDigits 10 n, c.isDigit = true := fun c hc =>
    Nat.isDigit_of_mem_toDigits (by decide) (by decide) hc
  rw [Lexical.numeral, Text.ofNat, foldl_digits hdigit, Nat.ofDigitChars_ten_toDigits]

theorem isDigit_of_mem_ofNat {n : Nat} {u : UInt16} (h : u ∈ Text.ofNat n) :
    Lexical.isDigit u = true := by
  simpa [Lexical.isDigit] using Text.digit_of_mem_ofNat h

theorem readNat_ofNat (n : Nat) {rest : Text} (h : NoDigit rest) :
    readNat (Text.ofNat n ++ rest) = some (n, rest) := by
  have htake : (Text.ofNat n ++ rest).takeWhile Lexical.isDigit = Text.ofNat n := by
    rw [List.takeWhile_append_of_pos fun u hu => isDigit_of_mem_ofNat hu]
    cases rest with
    | nil => rw [List.takeWhile_nil, List.append_nil]
    | cons u rest =>
      rw [List.takeWhile_cons_of_neg (by simp [h u rfl]), List.append_nil]
  have hdrop : (Text.ofNat n ++ rest).dropWhile Lexical.isDigit = rest := by
    rw [List.dropWhile_append_of_pos fun u hu => isDigit_of_mem_ofNat hu]
    cases rest with
    | nil => rfl
    | cons u rest => rw [List.dropWhile_cons_of_neg (by simp [h u rfl])]
  have hne : (Text.ofNat n).isEmpty = false := by
    simp [Text.ofNat, Nat.toDigits_ne_nil]
  simp only [readNat, htake, hdrop, hne, numeral_ofNat]
  rfl

theorem isBlank_of_isDigit {u : UInt16} (h : Lexical.isDigit u = true) :
    Lexical.isBlank u = false := by
  rw [Bool.eq_false_iff]
  intro hb
  simp only [Lexical.isBlank, Bool.or_eq_true, beq_iff_eq] at hb
  obtain ((rfl | rfl) | rfl) | rfl := hb
  all_goals exact absurd h (by decide)

theorem exists_digit (n : Nat) :
    ∃ u r, Text.ofNat n = u :: r ∧ Lexical.isDigit u = true := by
  cases hn : Text.ofNat n with
  | nil => simp [Text.ofNat, Nat.toDigits_ne_nil] at hn
  | cons u r => exact ⟨u, r, rfl, isDigit_of_mem_ofNat (hn ▸ List.mem_cons_self)⟩

theorem skip_ofNat (n : Nat) (rest : Text) : skip (Text.ofNat n ++ rest) = Text.ofNat n ++ rest := by
  obtain ⟨u, r, hn, hu⟩ := exists_digit n
  rw [hn, List.cons_append, skip_cons (isBlank_of_isDigit hu)]

theorem after?_ofNat (n : Nat) (rest : Text) {mark : Char}
    (h : Lexical.isDigit (Text.unit mark) = false) : after? mark (Text.ofNat n ++ rest) = none := by
  obtain ⟨u, r, hn, hu⟩ := exists_digit n
  rw [hn, List.cons_append]
  refine after?_eq_none (isBlank_of_isDigit hu) ?_ _
  rintro rfl
  rw [h] at hu
  cases hu

theorem after?_ofInt (n : Int) (rest : Text) {mark : Char}
    (h : Lexical.isDigit (Text.unit mark) = false) (hminus : Text.unit '-' ≠ Text.unit mark) :
    after? mark (Text.ofInt n ++ rest) = none := by
  cases n with
  | ofNat n => exact after?_ofNat n rest h
  | negSucc n => exact after?_eq_none rfl hminus _

theorem readInt_ofInt (n : Int) {rest : Text} (h : NoDigit rest) :
    readInt (Text.ofInt n ++ rest) = some (n, rest) := by
  cases n with
  | ofNat n =>
    have hminus : after? '-' (Text.ofNat n ++ rest) = none := after?_ofNat n rest rfl
    simp only [Text.ofInt, readInt, hminus, skip_ofNat, readNat_ofNat n h]
    rfl
  | negSucc n =>
    simp only [Text.ofInt, readInt, List.cons_append]
    rw [after?_cons rfl]
    simp only [readNat_ofNat (n + 1) h]
    rfl

mutual

/-- A bound on the steps that reading a value takes. -/
def steps : Json → Nat
  | .string _ | .number _ => 0
  | .list items => itemSteps items + 1
  | .object members => memberSteps members + 1

def itemSteps : List Json → Nat
  | [] => 0
  | v :: rest => max (steps v) (itemSteps rest) + 1

def memberSteps : List (String × Json) → Nat
  | [] => 0
  | (_, v) :: rest => max (steps v) (memberSteps rest) + 1

end

theorem join_cons_cons (s x y : Text) (r : List Text) :
    Text.join s (x :: y :: r) = x ++ (s ++ Text.join s (y :: r)) := by
  rw [Text.join, List.intercalate_cons_cons, List.append_assoc, Text.join]

theorem join_singleton (s x : Text) : Text.join s [x] = x := List.intercalate_singleton

theorem framed_cons (left right x : Text) (depth : Nat) (r : List Text) :
    framed left right depth (x :: r) = left ++ newLine (depth + 1) ++
      Text.join (separator (depth + 1)) (x :: r) ++ newLine depth ++ right := rfl

theorem after?_newLine (mark : Char) (depth : Nat) (t : Text) :
    after? mark (newLine depth ++ t) = after? mark t :=
  after?_congr (skip_newLine depth t) mark

theorem newLine_length (depth : Nat) : (newLine depth).length = 2 * depth + 1 := by
  rw [newLine, List.length_cons, List.length_replicate]

theorem separator_length (depth : Nat) : (separator depth).length = 2 * depth + 2 := by
  rw [separator, List.length_append, newLine_length, Nat.add_comm]
  rfl

theorem after?_separator (depth : Nat) (t : Text) :
    after? ',' (separator depth ++ t) = some (newLine depth ++ t) :=
  after?_cons rfl _

theorem after?_bracket_separator (depth : Nat) (t : Text) :
    after? ']' (separator depth ++ t) = none :=
  after?_eq_none rfl (by decide) _

theorem after?_brace_separator (depth : Nat) (t : Text) :
    after? '\x7d' (separator depth ++ t) = none :=
  after?_eq_none rfl (by decide) _

theorem noDigit_separator (depth : Nat) (t : Text) : NoDigit (separator depth ++ t) :=
  noDigit_cons rfl _

theorem noDigit_newLine (depth : Nat) (t : Text) : NoDigit (newLine depth ++ t) :=
  noDigit_cons rfl _

theorem after?_bracket_indented (v : Json) (depth : Nat) (t : Text) :
    after? ']' (v.indented depth ++ t) = none := by
  cases v with
  | string x => exact after?_eq_none rfl (by decide) _
  | number n => exact after?_ofInt n t rfl (by decide)
  | list items =>
    simp only [indented, framed]
    split <;> exact after?_eq_none rfl (by decide) _
  | object members =>
    simp only [indented, framed]
    split <;> exact after?_eq_none rfl (by decide) _

theorem exists_join (s x : Text) (r : List Text) (rest : Text) :
    ∃ t, Text.join s (x :: r) ++ rest = x ++ t := by
  cases r with
  | nil => exact ⟨rest, by rw [join_singleton]⟩
  | cons y r =>
    rw [join_cons_cons, List.append_assoc]
    exact ⟨_, rfl⟩

theorem quote_append (t rest : Text) :
    quote t ++ rest = Text.unit '"' :: (escape t ++ Text.unit '"' :: rest) := by
  simp only [quote, List.append_assoc]
  rfl

theorem after?_bracket_items (v : Json) (vs : List Json) (depth : Nat) (rest : Text) :
    after? ']' (Text.join (separator depth) (indentedItems depth (v :: vs)) ++ rest) = none := by
  obtain ⟨t, ht⟩ := exists_join (separator depth) (v.indented depth) (indentedItems depth vs) rest
  rw [indentedItems, ht, after?_bracket_indented]

theorem after?_brace_members (m : String × Json) (ms : List (String × Json)) (depth : Nat)
    (rest : Text) :
    after? '\x7d' (Text.join (separator depth) (indentedMembers depth (m :: ms)) ++ rest) =
      none := by
  obtain ⟨t, ht⟩ := exists_join (separator depth) (quote m.1 ++ ": " ++ m.2.indented depth)
    (indentedMembers depth ms) rest
  rw [indentedMembers, ht, List.append_assoc, List.append_assoc, quote_append]
  exact after?_eq_none rfl (by decide) _

theorem readMembers_member {k : String} {v : Json} {n depth : Nat} {rest : Text}
    (h : readValue n (v.indented depth ++ rest) = some (v, rest)) :
    readMembers (n + 1) (quote k ++ ": " ++ v.indented depth ++ rest) =
      match after? '\x7d' rest with
      | some r => some ([(k, v)], r)
      | none => (after? ',' rest).bind fun r =>
        (readMembers n r).map fun p => ((k, v) :: p.1, p.2) := by
  have hblank : skip (Text.unit ' ' :: (v.indented depth ++ rest)) =
      skip (v.indented depth ++ rest) := skip_cons_of_blank rfl _
  have htext : quote k ++ ": " ++ v.indented depth ++ rest = Text.unit '"' :: (escape k ++
      Text.unit '"' :: Text.unit ':' :: Text.unit ' ' :: (v.indented depth ++ rest)) := by
    rw [List.append_assoc, List.append_assoc, quote_append]
    rfl
  rw [htext, readMembers, after?_cons rfl]
  simp only [Option.bind_eq_bind, Option.bind_some, readString_escape,
    after?_cons (show Lexical.isBlank (Text.unit ':') = false by rfl), readValue_congr hblank, h,
    Text.toString_ofString]
  cases after? '\x7d' rest with
  | some r => rfl
  | none =>
    cases after? ',' rest with
    | none => rfl
    | some r => cases hr : readMembers n r <;> simp [hr]

-- By recursion on the steps: items and members are read with one step less than what holds them, and
-- the rest of a list with one step less than the whole of it.
mutual

theorem readValue_indented : ∀ (v : Json) (n depth : Nat) (rest : Text), v.steps < n →
    NoDigit rest → readValue n (v.indented depth ++ rest) = some (v, rest)
  | _, 0, _, _, h, _ => absurd h (Nat.not_lt_zero _)
  | .string t, n + 1, depth, rest, _, _ => by
    rw [indented, quote_append, readValue, after?_cons rfl]
    simp only [readString_escape, Option.map_some]
  -- a number has no mark at its end: it ends where no digit follows
  | .number m, n + 1, depth, rest, _, h => by
    simp only [indented, readValue]
    rw [after?_ofInt m rest rfl (by decide), after?_ofInt m rest rfl (by decide),
      after?_ofInt m rest rfl (by decide), readInt_ofInt m h, Option.map_some]
  | .list [], n + 1, depth, rest, _, _ => rfl
  | .list (v :: vs), n + 1, depth, rest, h, _ => by
    have htext : (Json.list (v :: vs)).indented depth ++ rest =
        Text.unit '[' :: (newLine (depth + 1) ++ (Text.join (separator (depth + 1))
          (indentedItems (depth + 1) (v :: vs)) ++ (newLine depth ++ Text.unit ']' :: rest))) := by
      simp only [indented, indentedItems, framed_cons, List.append_assoc]
      rfl
    have hitems := readItems_indented v vs n (depth + 1) depth rest (Nat.lt_of_succ_lt_succ h)
    rw [htext, readValue, after?_eq_none rfl (by decide), after?_cons rfl]
    simp only [after?_newLine, after?_bracket_items, readItems_congr (skip_newLine _ _), hitems,
      Option.map_some]
  | .object [], n + 1, depth, rest, _, _ => rfl
  | .object (m :: ms), n + 1, depth, rest, h, _ => by
    have htext : (Json.object (m :: ms)).indented depth ++ rest =
        Text.unit '\x7b' :: (newLine (depth + 1) ++ (Text.join (separator (depth + 1))
          (indentedMembers (depth + 1) (m :: ms)) ++
            (newLine depth ++ Text.unit '\x7d' :: rest))) := by
      simp only [indented, indentedMembers, framed_cons, List.append_assoc]
      rfl
    have hmembers := readMembers_indented m.1 m.2 ms n (depth + 1) depth rest
      (Nat.lt_of_succ_lt_succ h)
    rw [htext, readValue, after?_eq_none rfl (by decide), after?_eq_none rfl (by decide),
      after?_cons rfl]
    simp only [after?_newLine, after?_brace_members, readMembers_congr (skip_newLine _ _),
      hmembers, Option.map_some]
termination_by structural _ n => n

theorem readItems_indented : ∀ (v : Json) (vs : List Json) (n depth outer : Nat) (rest : Text),
    itemSteps (v :: vs) < n →
    readItems n (Text.join (separator depth) (indentedItems depth (v :: vs)) ++
      (newLine outer ++ Text.unit ']' :: rest)) = some (v :: vs, rest)
  | _, _, 0, _, _, _, h => absurd h (Nat.not_lt_zero _)
  | v, [], n + 1, depth, outer, rest, h => by
    have hsteps : v.steps < n := by
      simp only [itemSteps] at h
      omega
    have hvalue := readValue_indented v n depth (newLine outer ++ Text.unit ']' :: rest) hsteps
      (noDigit_newLine _ _)
    have hclose : after? ']' (newLine outer ++ Text.unit ']' :: rest) = some rest := by
      rw [after?_newLine, after?_cons rfl]
    rw [indentedItems, indentedItems, join_singleton, readItems, hvalue]
    simp only [Option.bind_eq_bind, Option.bind_some, hclose]
    rfl
  | v, w :: vs, n + 1, depth, outer, rest, h => by
    have hsteps : v.steps < n ∧ itemSteps (w :: vs) < n := by
      simp only [itemSteps] at h ⊢
      omega
    have hitems := readItems_indented w vs n depth outer rest hsteps.2
    rw [indentedItems, indentedItems, join_cons_cons, List.append_assoc, List.append_assoc,
      ← indentedItems, readItems, readValue_indented v n depth _ hsteps.1 (noDigit_separator _ _)]
    simp only [Option.bind_eq_bind, Option.bind_some, after?_bracket_separator, after?_separator,
      readItems_congr (skip_newLine _ _), hitems]
    rfl
termination_by structural _ _ n => n

theorem readMembers_indented : ∀ (k : String) (v : Json) (ms : List (String × Json))
    (n depth outer : Nat) (rest : Text), memberSteps ((k, v) :: ms) < n →
    readMembers n (Text.join (separator depth) (indentedMembers depth ((k, v) :: ms)) ++
      (newLine outer ++ Text.unit '\x7d' :: rest)) = some ((k, v) :: ms, rest)
  | _, _, _, 0, _, _, _, h => absurd h (Nat.not_lt_zero _)
  | k, v, [], n + 1, depth, outer, rest, h => by
    have hsteps : v.steps < n := by
      simp only [memberSteps] at h
      omega
    have hclose : after? '\x7d' (newLine outer ++ Text.unit '\x7d' :: rest) = some rest := by
      rw [after?_newLine, after?_cons rfl]
    rw [indentedMembers, indentedMembers, join_singleton,
      readMembers_member (readValue_indented v n depth _ hsteps (noDigit_newLine _ _)), hclose]
  | k, v, (l, w) :: ms, n + 1, depth, outer, rest, h => by
    have hsteps : v.steps < n ∧ memberSteps ((l, w) :: ms) < n := by
      simp only [memberSteps] at h ⊢
      omega
    have hmembers := readMembers_indented l w ms n depth outer rest hsteps.2
    rw [indentedMembers, indentedMembers, join_cons_cons, ← indentedMembers,
      List.append_assoc _ _ (newLine outer ++ _), List.append_assoc (separator depth),
      readMembers_member (readValue_indented v n depth _ hsteps.1 (noDigit_separator _ _))]
    simp only [after?_brace_separator, after?_separator, readMembers_congr (skip_newLine _ _),
      hmembers, Option.bind_some, Option.map_some]
termination_by structural _ _ _ n => n

end

mutual

theorem steps_le : ∀ (v : Json) (depth : Nat), v.steps ≤ (v.indented depth).length
  | .string _, _ | .number _, _ => Nat.zero_le _
  | .list [], _ | .object [], _ => Nat.le_succ 1
  | .list (v :: vs), depth => by
    have hitems := itemSteps_le (v :: vs) (depth + 1)
    rw [indentedItems] at hitems
    rw [steps, indented, indentedItems, framed_cons]
    simp only [List.length_append, newLine_length]
    omega
  | .object ((k, v) :: ms), depth => by
    have hmembers := memberSteps_le ((k, v) :: ms) (depth + 1)
    rw [indentedMembers] at hmembers
    rw [steps, indented, indentedMembers, framed_cons]
    simp only [List.length_append, newLine_length]
    omega

theorem itemSteps_le : ∀ (vs : List Json) (depth : Nat),
    itemSteps vs ≤ (Text.join (separator depth) (indentedItems depth vs)).length + 1
  | [], _ => Nat.zero_le _
  | [v], depth => by
    have hvalue := steps_le v depth
    rw [indentedItems, indentedItems, join_singleton, itemSteps, itemSteps]
    omega
  | v :: w :: vs, depth => by
    have hvalue := steps_le v depth
    have hitems := itemSteps_le (w :: vs) depth
    rw [indentedItems, indentedItems, join_cons_cons, ← indentedItems, itemSteps]
    simp only [List.length_append, separator_length]
    omega

theorem memberSteps_le : ∀ (ms : List (String × Json)) (depth : Nat),
    memberSteps ms ≤ (Text.join (separator depth) (indentedMembers depth ms)).length + 1
  | [], _ => Nat.zero_le _
  | [(k, v)], depth => by
    have hvalue := steps_le v depth
    rw [indentedMembers, indentedMembers, join_singleton, memberSteps, memberSteps]
    simp only [List.length_append]
    omega
  | (k, v) :: (l, w) :: ms, depth => by
    have hvalue := steps_le v depth
    have hmembers := memberSteps_le ((l, w) :: ms) depth
    rw [indentedMembers, indentedMembers, join_cons_cons, ← indentedMembers, memberSteps]
    simp only [List.length_append, separator_length]
    omega

end

/-- A value is read back from its notation with one item to a line. -/
theorem read?_pretty (v : Json) : read? v.pretty = some v := by
  have hread := readValue_indented v (v.pretty.length + 1) 0 []
    (Nat.lt_succ_of_le (steps_le v 0)) (by simp [NoDigit])
  rw [List.append_nil] at hread
  rw [read?, pretty] at *
  rw [hread]
  rfl

theorem wellFormed_escapeUnit (u : UInt16) : (escapeUnit u).WellFormed = true := by
  unfold escapeUnit
  repeat' split
  all_goals try decide
  · exact (ascii_numbered u).wellFormed
  · next h =>
    simp only [Bool.or_eq_true, not_or, Bool.not_eq_true] at h
    rw [Text.wellFormed_cons h.1.2 h.2]
    rfl

theorem wellFormed_quote (t : Text) : (quote t).WellFormed = true := by
  have hescape : (escape t).WellFormed = true := by
    fun_induction escape t with
    | case1 => rfl
    | case2 u => exact wellFormed_escapeUnit u
    | case3 u v r h ih =>
      rw [Bool.and_eq_true] at h
      simp [Text.WellFormed, h, ih]
    | case4 u v r h ih => exact Text.append_wellFormed (wellFormed_escapeUnit u) ih
  exact Text.append_wellFormed (Text.append_wellFormed (by decide) hescape) (by decide)

theorem composes_wellFormed : Composes fun t => t.WellFormed = true where
  append _ _ := Text.append_wellFormed
  ascii _ ht := ht.wellFormed
  newLine depth := by
    have hblanks : Text.Ascii (List.replicate (2 * depth) 0x20) := fun u hu => by
      rw [List.eq_of_mem_replicate hu]
      rfl
    rw [newLine, Text.wellFormed_cons (by decide) (by decide), hblanks.wellFormed]
  quote := wellFormed_quote

/-- The notation has no half of a surrogate pair, whatever the strings of the value have. -/
theorem wellFormed_pretty (v : Json) : v.pretty.WellFormed = true :=
  composes_wellFormed.indented 0 v

end Json

end Seanet
