import Seanet.Proofs.Text.Characters
import Seanet.Text.Utf8

set_option autoImplicit false

namespace Seanet

theorem Text.codePoints_unitsOf_append (c : Char) (t : Text) :
    codePoints (unitsOf c ++ t) = c.toNat :: codePoints t := by
  by_cases h : IsAstral c
  · obtain ⟨u, v, he, hu, hv, hc⟩ := unitsOf_astral h
    rw [he, hc]
    simp [codePoints, hu, hv]
  · obtain ⟨u, he, hc, hu, -⟩ := unitsOf_basic h
    rw [he, ← hc]
    cases t <;> simp [codePoints, hu]

theorem Text.toString_ofString (s : String) : (Text.ofString s).toString = s := by
  have hcodes : ∀ cs : List Char, codePoints (cs.flatMap unitsOf) = cs.map Char.toNat := by
    intro cs
    induction cs with
    | nil => rfl
    | cons c cs ih => rw [List.flatMap_cons, codePoints_unitsOf_append, ih, List.map_cons]
  have hchar : ∀ c : Char, charOf c.toNat = c := by
    intro c
    have hvalid : c.toNat < 0xD800 ∨ 0xDFFF < c.toNat ∧ c.toNat < 0x110000 := c.valid
    have hcode : ¬(0xD800 ≤ c.toNat ∧ c.toNat ≤ 0xDFFF) := by omega
    simp [charOf, hcode]
  have hchars : s.toList.map (charOf ∘ Char.toNat) = s.toList :=
    (List.map_congr_left fun c _ => hchar c).trans (List.map_id _)
  rw [ofString, Text.toString, hcodes, List.map_map, hchars, String.ofList_toList]

namespace Utf8

theorem encode_unitsOf_append (c : Char) (t : Text) :
    encode (Text.unitsOf c ++ t) = bytesOf c.toNat ++ encode t := by
  have hvalid : c.toNat < 0xD800 ∨ 0xDFFF < c.toNat ∧ c.toNat < 0x110000 := c.valid
  have hcode : ¬(0xD800 ≤ c.toNat ∧ c.toNat ≤ 0xDFFF) := by omega
  simp [encode, Text.codePoints_unitsOf_append, hcode]

theorem toNat_byte {n : Nat} (h : n < 256) : n.toUInt8.toNat = n := UInt8.toNat_ofNat_of_lt' h

theorem trail_cons {n bits : Nat} {low high b : UInt8} (hl : low ≤ b) (hh : b ≤ high)
    (rest : List UInt8) : trail (n + 1) low high bits (b :: rest) =
      ((trail n 0x80 0xBF (bits * 64 + (b.toNat - 0x80)) rest).1,
        (trail n 0x80 0xBF (bits * 64 + (b.toNat - 0x80)) rest).2 + 1) := by
  rw [trail, if_pos (by simp [hl, hh])]

theorem decode_lead {b : UInt8} {l : Lead} {rest : List UInt8} {code used : Nat}
    (hb : 0x80 ≤ b.toNat) (hl : lead? b = some l)
    (ht : trail l.more l.low l.high l.bits rest = (some code, used)) :
    decode (b :: rest) = unitsOf code ++ decode (rest.drop used) := by
  have hb : ¬b < 0x80 := by
    rw [UInt8.lt_iff_toNat_lt]
    exact Nat.not_lt.2 hb
  rw [decode, if_neg hb, hl]
  simp only [ht]
  rfl

theorem lead_two {b : UInt8} (h : 0xC2 ≤ b.toNat ∧ b.toNat ≤ 0xDF) :
    lead? b = some ⟨1, 0x80, 0xBF, b.toNat - 0xC0⟩ := by
  rw [lead?, if_pos (by simpa [UInt8.le_iff_toNat_le] using h)]

/-- What follows the first of three bytes must not make a code point that needs fewer bytes, or a
surrogate. -/
theorem lead_three {b c : UInt8} (h : 0xE0 ≤ b.toNat ∧ b.toNat ≤ 0xEF)
    (hb : 0x80 ≤ c.toNat ∧ c.toNat ≤ 0xBF) (hlow : b.toNat = 0xE0 → 0xA0 ≤ c.toNat)
    (hhigh : b.toNat = 0xED → c.toNat ≤ 0x9F) :
    ∃ l, lead? b = some l ∧ l.more = 2 ∧ l.bits = b.toNat - 0xE0 ∧ l.low ≤ c ∧ c ≤ l.high := by
  simp only [UInt8.le_iff_toNat_le]
  by_cases hE0 : b = 0xE0
  · subst hE0
    exact ⟨⟨2, 0xA0, 0xBF, 0⟩, rfl, rfl, rfl, hlow rfl, hb.2⟩
  by_cases hED : b = 0xED
  · subst hED
    exact ⟨⟨2, 0x80, 0x9F, 0xD⟩, rfl, rfl, rfl, hb.1, hhigh rfl⟩
  refine ⟨⟨2, 0x80, 0xBF, b.toNat - 0xE0⟩, ?_, rfl, rfl, hb⟩
  have htwo : ¬b.toNat ≤ 0xDF := by omega
  have hthree : 0xE1 ≤ b.toNat := by
    have hne : b.toNat ≠ 0xE0 := fun he => hE0 (UInt8.toNat_inj.1 he)
    omega
  simp [lead?, UInt8.le_iff_toNat_le, htwo, hE0, hED, hthree, h.2]

theorem lead_four {b c : UInt8} (h : 0xF0 ≤ b.toNat ∧ b.toNat ≤ 0xF4)
    (hb : 0x80 ≤ c.toNat ∧ c.toNat ≤ 0xBF) (hlow : b.toNat = 0xF0 → 0x90 ≤ c.toNat)
    (hhigh : b.toNat = 0xF4 → c.toNat ≤ 0x8F) :
    ∃ l, lead? b = some l ∧ l.more = 3 ∧ l.bits = b.toNat - 0xF0 ∧ l.low ≤ c ∧ c ≤ l.high := by
  simp only [UInt8.le_iff_toNat_le]
  by_cases hF0 : b = 0xF0
  · subst hF0
    exact ⟨⟨3, 0x90, 0xBF, 0⟩, rfl, rfl, rfl, hlow rfl, hb.2⟩
  by_cases hF4 : b = 0xF4
  · subst hF4
    exact ⟨⟨3, 0x80, 0x8F, 4⟩, rfl, rfl, rfl, hb.1, hhigh rfl⟩
  refine ⟨⟨3, 0x80, 0xBF, b.toNat - 0xF0⟩, ?_, rfl, rfl, hb⟩
  have hF1 : b.toNat ≠ 0xF0 := fun he => hF0 (UInt8.toNat_inj.1 he)
  have hF3 : b.toNat ≠ 0xF4 := fun he => hF4 (UInt8.toNat_inj.1 he)
  have htwo : ¬b.toNat ≤ 0xDF := by omega
  have hthree : ¬b.toNat ≤ 0xEF := by omega
  have hfour : 0xF1 ≤ b.toNat ∧ b.toNat ≤ 0xF3 := by omega
  have hE0 : b ≠ 0xE0 := by
    rintro rfl
    exact hthree (by decide)
  have hED : b ≠ 0xED := by
    rintro rfl
    exact hthree (by decide)
  simp [lead?, UInt8.le_iff_toNat_le, htwo, hE0, hED, hthree, hF0, hfour]

theorem continuing {n : Nat} : 0x80 ≤ (0x80 + n % 64).toUInt8 ∧ (0x80 + n % 64).toUInt8 ≤ 0xBF ∧
    (0x80 + n % 64).toUInt8.toNat = 0x80 + n % 64 := by
  have hn : (0x80 + n % 64).toUInt8.toNat = 0x80 + n % 64 := toNat_byte (by omega)
  refine ⟨?_, ?_, hn⟩
  · rw [UInt8.le_iff_toNat_le, hn]
    exact Nat.le_add_right _ _
  · rw [UInt8.le_iff_toNat_le, hn]
    have hlt := Nat.mod_lt n (show 64 > 0 by decide)
    change _ ≤ 191
    omega

theorem decode_two {n : Nat} (h : 0x80 ≤ n ∧ n < 0x800) (rest : List UInt8) :
    decode ((0xC0 + n / 64).toUInt8 :: (0x80 + n % 64).toUInt8 :: rest) =
      unitsOf n ++ decode rest := by
  have hb : (0xC0 + n / 64).toUInt8.toNat = 0xC0 + n / 64 := toNat_byte (by omega)
  obtain ⟨hl, hh, hc⟩ := continuing (n := n)
  have hcode : (0xC0 + n / 64 - 0xC0) * 64 + (0x80 + n % 64 - 0x80) = n := by omega
  have htrail : trail 1 0x80 0xBF ((0xC0 + n / 64).toUInt8.toNat - 0xC0)
      ((0x80 + n % 64).toUInt8 :: rest) = (some n, 1) := by
    rw [trail_cons hl hh, hb, hc, hcode]
    rfl
  exact decode_lead (by omega) (lead_two (by omega)) htrail

theorem decode_three {n : Nat} (h : 0x800 ≤ n ∧ n < 0x10000) (hs : n < 0xD800 ∨ 0xDFFF < n)
    (rest : List UInt8) :
    decode ((0xE0 + n / 4096).toUInt8 :: (0x80 + n / 64 % 64).toUInt8 ::
      (0x80 + n % 64).toUInt8 :: rest) = unitsOf n ++ decode rest := by
  have hb : (0xE0 + n / 4096).toUInt8.toNat = 0xE0 + n / 4096 := toNat_byte (by omega)
  obtain ⟨hl₁, hh₁, hc₁⟩ := continuing (n := n / 64)
  obtain ⟨hl₂, hh₂, hc₂⟩ := continuing (n := n)
  obtain ⟨l, hlead, hmore, hbits, hl, hh⟩ := lead_three (b := (0xE0 + n / 4096).toUInt8)
    (c := (0x80 + n / 64 % 64).toUInt8) (by omega) (by omega) (by omega) (by omega)
  have hcode : ((0xE0 + n / 4096 - 0xE0) * 64 + (0x80 + n / 64 % 64 - 0x80)) * 64 +
      (0x80 + n % 64 - 0x80) = n := by omega
  have htrail : trail l.more l.low l.high l.bits
      ((0x80 + n / 64 % 64).toUInt8 :: (0x80 + n % 64).toUInt8 :: rest) = (some n, 2) := by
    rw [hmore, hbits, trail_cons hl hh, trail_cons hl₂ hh₂, hb, hc₁, hc₂, hcode]
    rfl
  exact decode_lead (by omega) hlead htrail

theorem decode_four {n : Nat} (h : 0x10000 ≤ n ∧ n < 0x110000) (rest : List UInt8) :
    decode ((0xF0 + n / 262144).toUInt8 :: (0x80 + n / 4096 % 64).toUInt8 ::
      (0x80 + n / 64 % 64).toUInt8 :: (0x80 + n % 64).toUInt8 :: rest) =
        unitsOf n ++ decode rest := by
  have hb : (0xF0 + n / 262144).toUInt8.toNat = 0xF0 + n / 262144 := toNat_byte (by omega)
  obtain ⟨hl₁, hh₁, hc₁⟩ := continuing (n := n / 4096)
  obtain ⟨hl₂, hh₂, hc₂⟩ := continuing (n := n / 64)
  obtain ⟨hl₃, hh₃, hc₃⟩ := continuing (n := n)
  obtain ⟨l, hlead, hmore, hbits, hl, hh⟩ := lead_four (b := (0xF0 + n / 262144).toUInt8)
    (c := (0x80 + n / 4096 % 64).toUInt8) (by omega) (by omega) (by omega) (by omega)
  have hcode : (((0xF0 + n / 262144 - 0xF0) * 64 + (0x80 + n / 4096 % 64 - 0x80)) * 64 +
      (0x80 + n / 64 % 64 - 0x80)) * 64 + (0x80 + n % 64 - 0x80) = n := by omega
  have htrail : trail l.more l.low l.high l.bits ((0x80 + n / 4096 % 64).toUInt8 ::
      (0x80 + n / 64 % 64).toUInt8 :: (0x80 + n % 64).toUInt8 :: rest) = (some n, 3) := by
    rw [hmore, hbits, trail_cons hl hh, trail_cons hl₂ hh₂, trail_cons hl₃ hh₃, hb, hc₁, hc₂, hc₃,
      hcode]
    rfl
  exact decode_lead (by omega) hlead htrail

theorem decode_bytesOf_append {n : Nat} (h : n < 0xD800 ∨ 0xDFFF < n ∧ n < 0x110000)
    (rest : List UInt8) : decode (bytesOf n ++ rest) = unitsOf n ++ decode rest := by
  unfold bytesOf
  split
  · next hn =>
    have hb : n.toUInt8.toNat = n := toNat_byte (by omega)
    have hlt : n.toUInt8 < 0x80 := by rwa [UInt8.lt_iff_toNat_lt, hb]
    have hunit : n.toUInt8.toUInt16 = n.toUInt16 := by
      rw [← UInt16.toNat_inj, UInt8.toNat_toUInt16, hb,
        UInt16.toNat_ofNat_of_lt' (Nat.lt_trans hn (by decide))]
    rw [List.singleton_append, decode, if_pos hlt, hunit, unitsOf, if_pos (by omega),
      List.singleton_append]
  split
  · exact decode_two (by omega) rest
  split
  · exact decode_three (by omega) (by omega) rest
  · exact decode_four (by omega) rest

theorem decode_encode {t : Text} (h : t.WellFormed = true) : decode (encode t) = t := by
  obtain ⟨cs, rfl⟩ := Text.exists_chars h
  induction cs with
  | nil => exact decode.eq_1
  | cons c cs ih =>
    have hcs : Text.WellFormed (cs.flatMap Text.unitsOf) = true := by
      rwa [List.flatMap_cons, Text.wellFormed_unitsOf_append] at h
    have hvalid : c.toNat < 0xD800 ∨ 0xDFFF < c.toNat ∧ c.toNat < 0x110000 := c.valid
    rw [List.flatMap_cons, encode_unitsOf_append, decode_bytesOf_append hvalid, ih hcs]
    rfl

end Utf8

end Seanet
