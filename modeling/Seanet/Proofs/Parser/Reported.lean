import Seanet.Proofs.Parser.Tracking

set_option autoImplicit false

namespace Seanet

theorem Report.diagnostic_inj {r r' : Report} (h : r.diagnostic = r'.diagnostic) : r = r' := by
  simp only [diagnostic, Diagnostic.errorAt, Diagnostic.mk.injEq, Option.some.injEq,
    Span.mk.injEq] at h
  obtain ⟨hcode, hmessage, -, hfile, hplace, -⟩ := h
  cases r
  cases r'
  simp_all

def Report.TooDeep (r : Report) : Prop := Expected.shallower.message <+: r.message

theorem Text.head_ofString {c : Char} (hc : c.toNat < 0x10000) (cs : List Char) :
    (Text.ofString (String.ofList (c :: cs))).head? = some (Text.unit c) := by
  simp [ofString, unitsOf, unit, hc]

theorem Text.head_append {s : Text} {u : UInt16} (h : s.head? = some u) (t : Text) :
    (s ++ t).head? = some u := by
  rw [List.head?_append, h, Option.some_or]

theorem Expected.message_head (what : Expected) :
    what = .shallower ∧ what.message.head? = some (Text.unit 'C') ∨
      what.message.head? = some (Text.unit 'E') ∨ what.message.head? = some (Text.unit 'U') := by
  cases what with
  | shallower => exact .inl ⟨rfl, Text.head_ofString (by decide) _⟩
  | endOfInput => exact .inr (.inr (Text.head_ofString (by decide) _))
  | conditionOpening _ | conditionClosing _ =>
    exact .inr (.inl (Text.head_append (Text.head_append (Text.head_ofString (by decide) _) _) _))
  | _ => exact .inr (.inl (Text.head_ofString (by decide) _))

theorem Text.head_eq {s t a b : Text} {u v : UInt16} (h : s ++ a = t ++ b) (hs : s.head? = some u)
    (ht : t.head? = some v) : u = v := by
  obtain ⟨us, rfl⟩ := List.head?_eq_some_iff.1 hs
  obtain ⟨vs, rfl⟩ := List.head?_eq_some_iff.1 ht
  exact (List.cons.inj h).1

theorem Expected.not_tooDeep {what : Expected} (hw : what ≠ .shallower) (rest : Text) :
    ¬ Expected.shallower.message <+: what.message ++ rest := by
  rintro ⟨suffix, hs⟩
  have hhead : Expected.shallower.message.head? = some (Text.unit 'C') :=
    Text.head_ofString (by decide) _
  obtain ⟨h, -⟩ | h | h := what.message_head
  · exact hw h
  · exact absurd (Text.head_eq hs hhead h) (by decide)
  · exact absurd (Text.head_eq hs hhead h) (by decide)

theorem SyntaxFault.tooDeep_iff {fault : SyntaxFault Token} {file : Text} {ending : Location} :
    (fault.report file ending).TooDeep ↔ ∃ rest, fault = .expected .shallower rest := by
  constructor
  · intro h
    cases fault with
    | expected what rest =>
      by_cases hw : what = .shallower
      · exact ⟨rest, by rw [hw]⟩
      · refine absurd h ?_
        rw [Report.TooDeep, report, message, List.append_assoc]
        exact Expected.not_tooDeep hw _
    | assignmentTarget _ _ =>
      have hne : ¬ Expected.shallower.message <+: "Invalid assignment target." := by decide
      exact absurd h hne
    | refFunction _ _ =>
      have hne : ¬ Expected.shallower.message <+:
        "ref cannot apply to a function-pointer type." := by decide
      exact absurd h hne
  · rintro ⟨rest, rfl⟩
    rw [Report.TooDeep, report, message, List.append_assoc]
    exact List.prefix_append _ _

def refFunctionMessage : Text := "ref cannot apply to a function-pointer type."

theorem Expected.message_ne (what : Expected) (rest : Text) :
    what.message ++ rest ≠ refFunctionMessage := by
  intro h
  have hhead : refFunctionMessage.head? = some (Text.unit 'r') := Text.head_ofString (by decide) _
  rw [← List.append_nil refFunctionMessage] at h
  obtain ⟨-, hw⟩ | hw | hw := what.message_head
  all_goals exact absurd (Text.head_eq h hw hhead) (by decide)

theorem Expected.code_ne (what : Expected) : what.code ≠ .invalidAssignmentTarget := by
  cases what <;> nofun

/-- The errors that name a token before the cursor are those of an assignment operator and of a
`ref` before a function type. -/
inductive Report.LocatedAt (ts : List Token) (k : Nat) (r : Report) : Prop where
  | next {t : Token} (h : Parser.StandsAt ts k t) (hp : r.place = ⟨t.line, t.column⟩)
      (hc : r.code ≠ .invalidAssignmentTarget)
      (hm : r.message ≠ refFunctionMessage)
  | operator {j : Nat} {t : Token} (hj : j < k) (h : ts[j]? = some t)
      (ht : t.kind.isAssignment = true) (hp : r.place = ⟨t.line, t.column⟩)
      (hc : r.code = .invalidAssignmentTarget)
  | ref {j : Nat} {t : Token} (hj : j + 1 = k) (h : ts[j]? = some t) (ht : t.kind = .refWord)
      (hp : r.place = ⟨t.line, t.column⟩)
      (hm : r.message = refFunctionMessage)

theorem SyntaxFault.locatedAt {file : Text} {read back : List Token} {e : Token}
    {fault : SyntaxFault Token} {k : Nat} (hf : Parser.FaultIn read fault)
    (hk : k + fault.rest.length = read.length) :
    (fault.report file ⟨e.line, e.column⟩).LocatedAt (read ++ e :: back) k := by
  have hleft {i : Nat} {t : Token} (h : read[i]? = some t) : (read ++ e :: back)[i]? = some t := by
    rwa [List.getElem?_append_left (List.getElem?_eq_some_iff.1 h).1]
  cases hf with
  | @expected what rest hw h =>
    have hmessage : what.message ++ " " ++ found rest ≠ refFunctionMessage := by
      rw [List.append_assoc]
      exact what.message_ne _
    cases rest with
    | nil =>
      obtain rfl : k = read.length := hk
      exact .next (.whole (by simp)) rfl what.code_ne hmessage
    | cons t rest =>
      obtain ⟨i, hi, hstands⟩ := h.index
      obtain rfl : i = k := by
        change k + (t :: rest).length = read.length at hk
        omega
      exact .next (hstands t rfl).append rfl what.code_ne hmessage
  | @assignmentTarget t value rest h ht hrest =>
    obtain ⟨j, hj, hstands⟩ := h.index
    obtain ⟨i, hi, -⟩ := hrest.index
    change k + rest.length = read.length at hk
    rw [List.length_cons] at hj
    have hoperator : read[j]? = some t := (hstands t rfl).getElem? fun hg => by
      rw [hg] at ht
      cases ht
    exact .operator (j := j) (by omega) (hleft hoperator) ht rfl rfl
  | @refFunction t rest h ht =>
    obtain ⟨j, hj, hstands⟩ := h.index
    change k + rest.length = read.length at hk
    rw [List.length_cons] at hj
    have href : read[j]? = some t := (hstands t rfl).getElem? (by rw [ht]; nofun)
    exact .ref (j := j) (by omega) (hleft href) ht rfl rfl

end Seanet
