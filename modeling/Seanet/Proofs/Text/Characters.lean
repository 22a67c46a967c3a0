import Seanet.Proofs.Text.Ascii

set_option autoImplicit false

namespace Seanet

namespace Text

theorem isHigh_iff {u : UInt16} : isHigh u = true ↔ 0xD800 ≤ u.toNat ∧ u.toNat ≤ 0xDBFF := by
  simp [isHigh, UInt16.le_iff_toNat_le]

theorem isLow_iff {u : UInt16} : isLow u = true ↔ 0xDC00 ≤ u.toNat ∧ u.toNat ≤ 0xDFFF := by
  simp [isLow, UInt16.le_iff_toNat_le]

theorem isLow_of_isHigh {u : UInt16} (h : isHigh u = true) : isLow u = false := by
  rw [isHigh_iff] at h
  rw [Bool.eq_false_iff, ne_eq, isLow_iff]
  omega

def IsAstral (c : Char) : Prop := 0x10000 ≤ c.toNat

theorem unitsOf_basic {c : Char} (h : ¬ IsAstral c) :
    ∃ u : UInt16, unitsOf c = [u] ∧ u.toNat = c.toNat ∧ isHigh u = false ∧ isLow u = false := by
  have hsize : c.toNat < 0x10000 := Nat.lt_of_not_le h
  have hu : c.toNat.toUInt16.toNat = c.toNat := UInt16.toNat_ofNat_of_lt' hsize
  have hvalid : c.toNat < 0xD800 ∨ 0xDFFF < c.toNat ∧ c.toNat < 0x110000 := c.valid
  refine ⟨_, if_pos hsize, hu, ?_, ?_⟩
  · rw [Bool.eq_false_iff, ne_eq, isHigh_iff, hu]
    omega
  · rw [Bool.eq_false_iff, ne_eq, isLow_iff, hu]
    omega

theorem unitsOf_astral {c : Char} (h : IsAstral c) :
    ∃ u v : UInt16, unitsOf c = [u, v] ∧ isHigh u = true ∧ isLow v = true ∧
      c.toNat = 0x10000 + (u.toNat - 0xD800) * 0x400 + (v.toNat - 0xDC00) := by
  have hsize : 0x10000 ≤ c.toNat := h
  have hvalid : c.toNat < 0xD800 ∨ 0xDFFF < c.toNat ∧ c.toNat < 0x110000 := c.valid
  have hu : (0xD800 + (c.toNat - 0x10000) / 0x400).toUInt16.toNat =
      0xD800 + (c.toNat - 0x10000) / 0x400 := UInt16.toNat_ofNat_of_lt' (by rw [UInt16.size]; omega)
  have hv : (0xDC00 + (c.toNat - 0x10000) % 0x400).toUInt16.toNat =
      0xDC00 + (c.toNat - 0x10000) % 0x400 := UInt16.toNat_ofNat_of_lt' (by rw [UInt16.size]; omega)
  refine ⟨_, _, if_neg (Nat.not_lt.2 h), ?_, ?_, ?_⟩
  · rw [isHigh_iff, hu]
    omega
  · rw [isLow_iff, hv]
    omega
  · rw [hu, hv]
    omega

theorem exists_char {n : Nat} (h : n.isValidChar) : ∃ c : Char, c.toNat = n :=
  ⟨Char.ofNatAux n h, rfl⟩

theorem exists_unitsOf_single {u : UInt16} (hu : isHigh u = false) (hl : isLow u = false) :
    ∃ c, unitsOf c = [u] := by
  rw [Bool.eq_false_iff, ne_eq] at hu hl
  rw [isHigh_iff] at hu
  rw [isLow_iff] at hl
  have hlt : u.toNat < 0x10000 := u.toNat_lt
  have hvalid : u.toNat.isValidChar := by
    unfold Nat.isValidChar
    omega
  obtain ⟨c, hc⟩ := exists_char hvalid
  refine ⟨c, ?_⟩
  rw [unitsOf, hc, if_pos hlt, List.singleton_inj]
  exact UInt16.ofNat_toNat

theorem exists_unitsOf_pair {u v : UInt16} (hu : isHigh u = true) (hv : isLow v = true) :
    ∃ c, unitsOf c = [u, v] := by
  rw [isHigh_iff] at hu
  rw [isLow_iff] at hv
  have hvalid : (0x10000 + (u.toNat - 0xD800) * 0x400 + (v.toNat - 0xDC00)).isValidChar := by
    unfold Nat.isValidChar
    omega
  obtain ⟨c, hc⟩ := exists_char hvalid
  obtain ⟨u', v', he, hu', hv', hc'⟩ := unitsOf_astral (c := c) (by unfold IsAstral; omega)
  rw [isHigh_iff] at hu'
  rw [isLow_iff] at hv'
  have hfirst : u' = u := UInt16.toNat_inj.1 (by omega)
  have hsecond : v' = v := UInt16.toNat_inj.1 (by omega)
  exact ⟨c, by rw [he, hfirst, hsecond]⟩

theorem wellFormed_cons {u : UInt16} (hu : isHigh u = false) (hl : isLow u = false) (t : Text) :
    WellFormed (u :: t) = WellFormed t := by
  cases t <;> simp [WellFormed, hu, hl]

theorem wellFormed_unitsOf_append (c : Char) (t : Text) :
    WellFormed (unitsOf c ++ t) = WellFormed t := by
  by_cases h : IsAstral c
  · obtain ⟨u, v, he, hu, hv, -⟩ := unitsOf_astral h
    rw [he]
    simp [WellFormed, hu, hv]
  · obtain ⟨u, he, -, hu, hl⟩ := unitsOf_basic h
    rw [he]
    exact wellFormed_cons hu hl t

theorem wellFormed_unitsOf (c : Char) : WellFormed (unitsOf c) = true := by
  rw [← List.append_nil (unitsOf c), wellFormed_unitsOf_append]
  rfl

theorem exists_chars {t : Text} (h : t.WellFormed = true) :
    ∃ cs : List Char, t = cs.flatMap unitsOf := by
  fun_induction WellFormed t with
  | case1 => exact ⟨[], rfl⟩
  | case2 u =>
    rw [Bool.and_eq_true, Bool.not_eq_true', Bool.not_eq_true'] at h
    obtain ⟨c, hc⟩ := exists_unitsOf_single h.1 h.2
    exact ⟨[c], by simp [hc]⟩
  | case3 u v r hu ih =>
    rw [Bool.and_eq_true] at h
    obtain ⟨c, hc⟩ := exists_unitsOf_pair hu h.1
    obtain ⟨cs, rfl⟩ := ih h.2
    exact ⟨c :: cs, by simp [hc]⟩
  | case4 u v r hu ih =>
    rw [Bool.and_eq_true, Bool.not_eq_true'] at h
    obtain ⟨c, hc⟩ := exists_unitsOf_single (Bool.eq_false_iff.2 hu) h.1
    obtain ⟨cs, hcs⟩ := ih h.2
    exact ⟨c :: cs, by simp [hc, hcs]⟩

theorem wellFormed_chars_append (cs : List Char) (t : Text) :
    WellFormed (cs.flatMap unitsOf ++ t) = WellFormed t := by
  induction cs with
  | nil => rfl
  | cons c cs ih => rw [List.flatMap_cons, List.append_assoc, wellFormed_unitsOf_append, ih]

theorem wellFormed_iff {t : Text} : t.WellFormed = true ↔ ∃ s : String, t = ofString s := by
  constructor
  · intro h
    obtain ⟨cs, rfl⟩ := exists_chars h
    exact ⟨String.ofList cs, by rw [ofString, String.toList_ofList]⟩
  · rintro ⟨s, rfl⟩
    have hs := wellFormed_chars_append s.toList []
    rwa [List.append_nil] at hs

@[simp] theorem wellFormed_ofString (s : String) : (ofString s).WellFormed = true :=
  wellFormed_iff.2 ⟨s, rfl⟩

theorem wellFormed_append {s : Text} (h : s.WellFormed = true) (t : Text) :
    WellFormed (s ++ t) = WellFormed t := by
  obtain ⟨cs, rfl⟩ := exists_chars h
  exact wellFormed_chars_append cs t

theorem append_wellFormed {s t : Text} (hs : s.WellFormed = true) (ht : t.WellFormed = true) :
    WellFormed (s ++ t) = true := by
  rw [wellFormed_append hs, ht]

/-- A well-formed text can be cut in front of a unit that is no low surrogate. -/
theorem wellFormed_left {s t : Text} (h : WellFormed (s ++ t) = true)
    (ht : ∀ u ∈ t.head?, isLow u = false) : WellFormed s = true := by
  fun_induction WellFormed s with
  | case1 => rfl
  | case2 u =>
    cases t with
    | nil => exact h
    | cons v t =>
      have hv : isLow v = false := ht v rfl
      rw [List.singleton_append, WellFormed, hv, Bool.false_and] at h
      split at h
      · cases h
      · next hu =>
        rw [Bool.and_eq_true] at h
        rw [h.1, Bool.and_true, Bool.not_eq_true']
        exact Bool.eq_false_iff.2 hu
  | case3 u v r hu ih =>
    rw [List.cons_append, List.cons_append, WellFormed, if_pos hu, Bool.and_eq_true] at h
    rw [h.1, ih h.2, Bool.and_true]
  | case4 u v r hu ih =>
    rw [List.cons_append, List.cons_append, WellFormed, if_neg hu, Bool.and_eq_true] at h
    rw [h.1, ih h.2, Bool.and_true]

theorem exists_unitsOf_append {u : UInt16} {t : Text} (h : WellFormed (u :: t) = true) :
    ∃ c r, u :: t = unitsOf c ++ r ∧ (IsAstral c ↔ isHigh u = true) := by
  obtain ⟨cs, hcs⟩ := exists_chars h
  cases cs with
  | nil => cases hcs
  | cons c cs =>
    refine ⟨c, cs.flatMap unitsOf, hcs, ?_⟩
    rw [List.flatMap_cons] at hcs
    by_cases hc : IsAstral c
    · obtain ⟨u', v', he, hu, -⟩ := unitsOf_astral hc
      rw [he] at hcs
      obtain ⟨rfl, -⟩ := List.cons.inj hcs
      exact iff_of_true hc hu
    · obtain ⟨u', he, -, hu, -⟩ := unitsOf_basic hc
      rw [he] at hcs
      obtain ⟨rfl, -⟩ := List.cons.inj hcs
      exact iff_of_false hc (by simp [hu])

/-- A pair of surrogates that begins within the units of a character is that character. -/
theorem unitsOf_eq_of_append {c d : Char} (hc : IsAstral c) {s x y : Text}
    (he : unitsOf d ++ s = x ++ unitsOf c ++ y) (hx : x.length < (unitsOf d).length) :
    x = [] ∧ unitsOf d = unitsOf c := by
  obtain ⟨u, v, hunits, hu, -⟩ := unitsOf_astral hc
  by_cases hd : IsAstral d
  · obtain ⟨u', v', hunits', -, hv', -⟩ := unitsOf_astral hd
    rw [hunits, hunits'] at he
    rw [hunits'] at hx
    cases x with
    | nil =>
      obtain ⟨hpair, -⟩ := List.append_inj he rfl
      exact ⟨rfl, by rw [hunits, hunits', hpair, List.nil_append]⟩
    | cons a x =>
      -- The second half would be a first half.
      obtain rfl : x = [] :=
        List.eq_nil_of_length_eq_zero (Nat.lt_one_iff.1 (Nat.lt_of_succ_lt_succ hx))
      obtain ⟨-, htail⟩ := List.cons.inj he
      obtain ⟨rfl, -⟩ := List.cons.inj htail
      rw [isLow_of_isHigh hu] at hv'
      cases hv'
  · obtain ⟨u', hunits', -, hu', -⟩ := unitsOf_basic hd
    rw [hunits, hunits'] at he
    rw [hunits'] at hx
    obtain rfl : x = [] := List.eq_nil_of_length_eq_zero (Nat.lt_one_iff.1 hx)
    obtain ⟨rfl, -⟩ := List.cons.inj he
    rw [hu] at hu'
    cases hu'

theorem not_surrogate_of_ascii {u : UInt16} (h : isAscii u = true) :
    isHigh u = false ∧ isLow u = false := by
  have hle : u.toNat ≤ 0x7E := by
    rw [isAscii, Bool.and_eq_true, decide_eq_true_eq, decide_eq_true_eq] at h
    exact UInt16.le_iff_toNat_le.1 h.2
  constructor
  · rw [Bool.eq_false_iff, ne_eq, isHigh_iff]
    omega
  · rw [Bool.eq_false_iff, ne_eq, isLow_iff]
    omega

theorem Ascii.wellFormed {t : Text} (h : t.Ascii) : t.WellFormed = true := by
  induction t with
  | nil => rfl
  | cons u t ih =>
    rw [ascii_cons] at h
    obtain ⟨hu, hl⟩ := not_surrogate_of_ascii h.1
    rw [wellFormed_cons hu hl, ih h.2]

def Boundary (t : Text) (o : Nat) : Prop :=
  ∃ s s' : String, t = ofString s ++ ofString s' ∧ (ofString s).length = o

theorem boundary_length {s t : Text} (h : WellFormed (s ++ t) = true) (hs : s.WellFormed = true) :
    Boundary (s ++ t) s.length := by
  rw [wellFormed_append hs] at h
  obtain ⟨x, rfl⟩ := wellFormed_iff.1 hs
  obtain ⟨y, rfl⟩ := wellFormed_iff.1 h
  exact ⟨x, y, rfl, rfl⟩

end Text

end Seanet
