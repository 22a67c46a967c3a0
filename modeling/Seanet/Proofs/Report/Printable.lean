import Seanet.Proofs.Text.Ascii
import Seanet.Report.Reporter

set_option autoImplicit false

namespace Seanet

open Text (Printable printable_append)

namespace Clock

theorem printable_twoDigits (n : Nat) : (twoDigits n).Printable := by
  unfold twoDigits
  split
  · exact printable_append.2 ⟨by decide, by simp⟩
  · simp

theorem printable_seconds (milliseconds : Int) : (seconds milliseconds).Printable := by
  have hmagnitude (n : Nat) : Printable (Text.ofNat (n / 100) ++ "." ++ twoDigits (n % 100)) := by
    simp only [printable_append]
    exact ⟨⟨by simp, by decide⟩, printable_twoDigits _⟩
  unfold seconds
  simp only
  split
  · exact printable_append.2 ⟨by decide, hmagnitude _⟩
  · exact hmagnitude _

theorem printable_stamp (milliseconds : Int) : (stamp milliseconds).Printable := by
  unfold stamp
  simp only [printable_append]
  refine ⟨⟨⟨⟨⟨⟨⟨⟨⟨?_, by decide⟩, ?_⟩, by decide⟩, ?_⟩, by decide⟩, ?_⟩, by decide⟩, ?_⟩, ?_⟩
  · exact printable_twoDigits _
  · exact printable_twoDigits _
  · exact Text.printable_ofInt _
  · exact printable_twoDigits _
  · exact printable_twoDigits _
  · split <;> decide

end Clock

namespace Json

theorem ascii_numbered (u : UInt16) : (numbered u).Ascii := by
  have hdigit : ∀ n, Text.isAscii (hexDigit n) = true := by
    intro n
    have htable : ∀ k < 16, Text.isAscii (Text.unit (Nat.digitChar k)) = true := by decide
    exact htable _ (Nat.mod_lt _ (by decide))
  simp only [numbered, Text.ascii_append, Text.ascii_cons, hdigit]
  decide

theorem printable_escapeUnit (u : UInt16) : (escapeUnit u).Printable := by
  unfold escapeUnit
  repeat' split
  all_goals try decide
  · exact (ascii_numbered u).printable
  · next h =>
    simp only [Bool.or_eq_true, decide_eq_true_eq, not_or] at h
    simpa [Text.isPrintable] using h.1.1

theorem printable_surrogate {u : UInt16} (h : Text.isHigh u = true ∨ Text.isLow u = true) :
    Text.isPrintable u = true := by
  simp only [Text.isHigh, Text.isLow, Text.isPrintable, Bool.and_eq_true, decide_eq_true_eq,
    UInt16.le_iff_toNat_le] at h ⊢
  simp at h ⊢
  omega

theorem printable_escape (t : Text) : (escape t).Printable := by
  fun_induction escape t with
  | case1 => simp
  | case2 u => exact printable_escapeUnit u
  | case3 u v r h ih =>
    rw [Bool.and_eq_true] at h
    simp [printable_surrogate (.inl h.1), printable_surrogate (.inr h.2), ih]
  | case4 u v r h ih => exact printable_append.2 ⟨printable_escapeUnit u, ih⟩

@[simp] theorem printable_quote (t : Text) : (quote t).Printable := by
  simp only [quote, printable_append]
  exact ⟨⟨by decide, printable_escape t⟩, by decide⟩

theorem printable_bracketed {left right : Text} {items : List Text} (hl : left.Printable)
    (hr : right.Printable) (h : ∀ t ∈ items, t.Printable) :
    (left ++ Text.join "," items ++ right).Printable :=
  printable_append.2 ⟨printable_append.2 ⟨hl, Printable.join (by decide) h⟩, hr⟩

mutual

theorem printable_compact : ∀ v : Json, v.compact.Printable
  | .string t => printable_quote t
  | .number n => Text.printable_ofInt n
  | .list items => printable_bracketed (by decide) (by decide) (printable_compactItems items)
  | .object members =>
    printable_bracketed (by decide) (by decide) (printable_compactMembers members)

theorem printable_compactItems : ∀ (items : List Json), ∀ t ∈ compactItems items, t.Printable
  | [] => by simp [compactItems]
  | v :: rest => by
    rw [compactItems, List.forall_mem_cons]
    exact ⟨printable_compact v, printable_compactItems rest⟩

theorem printable_compactMembers :
    ∀ (members : List (String × Json)), ∀ t ∈ compactMembers members, t.Printable
  | [] => by simp [compactMembers]
  | (key, v) :: rest => by
    rw [compactMembers, List.forall_mem_cons]
    refine ⟨?_, printable_compactMembers rest⟩
    simp only [printable_append]
    exact ⟨⟨printable_quote _, by decide⟩, printable_compact v⟩

end

def Lined (t : Text) : Prop := ∀ u ∈ t, Text.isPrintable u = true ∨ u = Text.lineFeed

theorem lined_append {s t : Text} : Lined (s ++ t) ↔ Lined s ∧ Lined t := List.forall_mem_append

theorem lined_of_printable {t : Text} (h : t.Printable) : Lined t := fun u hu => .inl (h u hu)

theorem lined_newLine (depth : Nat) : Lined (newLine depth) := by
  refine List.forall_mem_cons.2 ⟨.inr rfl, fun u hu => ?_⟩
  obtain rfl := List.eq_of_mem_replicate hu
  exact .inl (by decide)

/-- What holds of every piece of the notation with one item to a line, and is kept when texts are
put together. -/
structure Composes (P : Text → Prop) : Prop where
  append : ∀ s t, P s → P t → P (s ++ t)
  ascii : ∀ t : Text, t.Ascii → P t
  newLine : ∀ depth, P (newLine depth)
  quote : ∀ t, P (quote t)

theorem Composes.framed {P : Text → Prop} (hp : Composes P) {left right : Text} (hl : left.Ascii)
    (hr : right.Ascii) (depth : Nat) {items : List Text} (h : ∀ t ∈ items, P t) :
    P (framed left right depth items) := by
  have hseparator : P (separator (depth + 1)) :=
    hp.append _ _ (hp.ascii _ (by decide)) (hp.newLine _)
  have hitems : P (Text.join (separator (depth + 1)) items) :=
    Text.join_induction (hp.ascii [] Text.ascii_nil) hp.append hseparator h
  have hopen := hp.append _ _ (hp.ascii left hl) (hp.newLine (depth + 1))
  have hclose := hp.append _ _ (hp.newLine depth) (hp.ascii right hr)
  unfold Json.framed
  split
  · exact hp.append _ _ (hp.ascii left hl) (hp.ascii right hr)
  · rw [List.append_assoc]
    exact hp.append _ _ (hp.append _ _ hopen hitems) hclose

mutual

theorem Composes.indented {P : Text → Prop} (hp : Composes P) (depth : Nat) :
    ∀ v : Json, P (v.indented depth)
  | .string t => hp.quote t
  | .number n => hp.ascii _ (Text.ascii_ofInt n)
  | .list items => hp.framed (by decide) (by decide) depth (hp.indentedItems _ items)
  | .object members => hp.framed (by decide) (by decide) depth (hp.indentedMembers _ members)

theorem Composes.indentedItems {P : Text → Prop} (hp : Composes P) (depth : Nat) :
    ∀ (items : List Json), ∀ t ∈ indentedItems depth items, P t
  | [] => by simp [Json.indentedItems]
  | v :: rest => by
    rw [Json.indentedItems, List.forall_mem_cons]
    exact ⟨hp.indented depth v, hp.indentedItems depth rest⟩

theorem Composes.indentedMembers {P : Text → Prop} (hp : Composes P) (depth : Nat) :
    ∀ (members : List (String × Json)), ∀ t ∈ indentedMembers depth members, P t
  | [] => by simp [Json.indentedMembers]
  | (key, v) :: rest => by
    rw [Json.indentedMembers, List.forall_mem_cons]
    refine ⟨?_, hp.indentedMembers depth rest⟩
    exact hp.append _ _ (hp.append _ _ (hp.quote _) (hp.ascii _ (by decide))) (hp.indented depth v)

end

theorem composes_lined : Composes Lined where
  append _ _ hs ht := lined_append.2 ⟨hs, ht⟩
  ascii _ ht := lined_of_printable ht.printable
  newLine := lined_newLine
  quote _ := lined_of_printable (printable_quote _)

theorem lined_pretty (v : Json) : Lined v.pretty := composes_lined.indented 0 v

end Json

end Seanet
