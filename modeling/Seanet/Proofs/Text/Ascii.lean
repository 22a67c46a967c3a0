import Seanet.Text.Basic

set_option autoImplicit false

namespace Seanet

namespace Text

def isPrintable (u : UInt16) : Bool := 0x20 ≤ u

def Printable (t : Text) : Prop := ∀ u ∈ t, isPrintable u = true

instance (t : Text) : Decidable t.Printable :=
  decidable_of_iff (t.all isPrintable = true) List.all_eq_true

@[simp] theorem printable_nil : Printable [] := by simp [Printable]

@[simp] theorem printable_cons {u : UInt16} {t : Text} :
    Printable (u :: t) ↔ isPrintable u = true ∧ Printable t :=
  List.forall_mem_cons

@[simp] theorem printable_append {s t : Text} : Printable (s ++ t) ↔ Printable s ∧ Printable t :=
  List.forall_mem_append

theorem Printable.notMem {t : Text} (h : t.Printable) {u : UInt16} (hu : isPrintable u = false) :
    u ∉ t := by
  intro hm
  rw [h u hm] at hu
  cases hu

theorem Printable.join {separator : Text} (hs : separator.Printable) {parts : List Text}
    (h : ∀ p ∈ parts, p.Printable) : (Text.join separator parts).Printable :=
  join_induction printable_nil (fun _ _ hs ht => printable_append.2 ⟨hs, ht⟩) hs h

def isAscii (u : UInt16) : Bool := 0x20 ≤ u && u ≤ 0x7E

def Ascii (t : Text) : Prop := ∀ u ∈ t, isAscii u = true

instance (t : Text) : Decidable t.Ascii :=
  decidable_of_iff (t.all isAscii = true) List.all_eq_true

@[simp] theorem ascii_nil : Ascii [] := by simp [Ascii]

@[simp] theorem ascii_cons {u : UInt16} {t : Text} :
    Ascii (u :: t) ↔ isAscii u = true ∧ Ascii t :=
  List.forall_mem_cons

@[simp] theorem ascii_append {s t : Text} : Ascii (s ++ t) ↔ Ascii s ∧ Ascii t :=
  List.forall_mem_append

theorem Ascii.printable {t : Text} (h : t.Ascii) : t.Printable := fun u hu =>
  (Bool.and_eq_true _ _ ▸ h u hu).1

/-- A text is ASCII if its characters are; this asks for no units. -/
theorem ascii_ofList {cs : List Char}
    (h : cs.all (fun c => 0x20 ≤ c.toNat && c.toNat ≤ 0x7E) = true) :
    (ofString (String.ofList cs)).Ascii := by
  intro u hu
  rw [ofString, String.toList_ofList] at hu
  obtain ⟨c, hc, hu⟩ := List.mem_flatMap.1 hu
  have hascii := List.all_eq_true.1 h c hc
  rw [Bool.and_eq_true, decide_eq_true_eq, decide_eq_true_eq] at hascii
  have hsmall : c.toNat < 0x10000 := by omega
  rw [unitsOf, if_pos hsmall, List.mem_singleton] at hu
  have hsize : u.toNat = c.toNat := by rw [hu]; exact Nat.mod_eq_of_lt hsmall
  simp [isAscii, UInt16.le_iff_toNat_le, hsize, hascii]

theorem toNat_unit_of_isDigit {c : Char} (h : c.isDigit = true) :
    (unit c).toNat = c.toNat ∧ 0x30 ≤ c.toNat ∧ c.toNat ≤ 0x39 := by
  simp only [Char.isDigit, Bool.and_eq_true, decide_eq_true_eq, UInt32.le_iff_toNat_le] at h
  exact ⟨Nat.mod_eq_of_lt (Nat.lt_of_le_of_lt h.2 (by decide)), h⟩

theorem digit_of_mem_ofNat {n : Nat} {u : UInt16} (h : u ∈ ofNat n) : 0x30 ≤ u ∧ u ≤ 0x39 := by
  obtain ⟨c, hc, rfl⟩ := List.mem_map.1 h
  obtain ⟨hsize, hdigit⟩ :=
    toNat_unit_of_isDigit (Nat.isDigit_of_mem_toDigits (by decide) (by decide) hc)
  simp only [UInt16.le_iff_toNat_le, hsize]
  exact hdigit

theorem ascii_ofNat (n : Nat) : (ofNat n).Ascii := by
  intro u hu
  have hdigit := digit_of_mem_ofNat hu
  rw [isAscii, Bool.and_eq_true, decide_eq_true_eq, decide_eq_true_eq]
  exact ⟨UInt16.le_trans (by decide) hdigit.1, UInt16.le_trans hdigit.2 (by decide)⟩

theorem ascii_ofInt (n : Int) : (ofInt n).Ascii := by
  cases n with
  | ofNat n => exact ascii_ofNat n
  | negSucc n => exact ascii_cons.2 ⟨by decide, ascii_ofNat _⟩

@[simp] theorem printable_ofNat (n : Nat) : (ofNat n).Printable := (ascii_ofNat n).printable

@[simp] theorem printable_ofInt (n : Int) : (ofInt n).Printable := (ascii_ofInt n).printable

end Text

end Seanet
