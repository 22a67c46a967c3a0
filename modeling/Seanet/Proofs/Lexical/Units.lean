import Seanet.Proofs.Lexical.Fronts
import Seanet.Proofs.Text.Ascii

set_option autoImplicit false

namespace Seanet

namespace Lexical

def isNumberUnit (u : UInt16) : Bool :=
  isWordUnit u || u == Text.unit '.' || u == Text.unit '+' || u == Text.unit '-'

theorem numberUnit_of_digit {u : UInt16} (h : isDigit u = true) : isNumberUnit u = true := by
  simp [isNumberUnit, isWordUnit, h]

theorem numberUnit_of_hexDigit {u : UInt16} (h : isHexDigit u = true) : isNumberUnit u = true := by
  grind [isHexDigit, isDigit, isNumberUnit, isWordUnit, isAlpha]

theorem ascii_of_wordUnit {u : UInt16} (h : isWordUnit u = true) : Text.isAscii u = true := by
  grind [isWordUnit, isAlpha, isDigit, Text.isAscii]

theorem ascii_of_numberUnit {u : UInt16} (h : isNumberUnit u = true) : Text.isAscii u = true := by
  simp only [isNumberUnit, Bool.or_eq_true, beq_iff_eq] at h
  obtain ((h | rfl) | rfl) | rfl := h
  · exact ascii_of_wordUnit h
  all_goals decide

theorem IntegerSuffix.units {type : IntegerType} {l : Text} (h : IntegerSuffix type l) :
    ∀ u ∈ l, isNumberUnit u = true := by
  have heither : ∀ {u : UInt16}, isEither 'u' 'U' u = true ∨ isEither 'l' 'L' u = true →
      isNumberUnit u = true := by
    rintro u (hu | hu) <;> obtain rfl | rfl := isEither_iff.1 hu <;> decide
  cases h with
  | int => simp
  | uint hu => simpa using heither (.inl hu)
  | long hl => simpa using heither (.inr hl)
  | ulong hu hl => simpa using ⟨heither (.inl hu), heither (.inr hl)⟩

theorem RealSuffix.units {type : RealType} {l : Text} (h : RealSuffix type l) :
    ∀ u ∈ l, isNumberUnit u = true := by
  cases h with
  | double => simp
  | float hf =>
    rw [List.forall_mem_singleton]
    obtain rfl | rfl := isEither_iff.1 hf <;> decide

theorem Fraction.units {digits l : Text} (h : Fraction digits l) :
    ∀ u ∈ l, isNumberUnit u = true := by
  cases h with
  | none => simp
  | some hd =>
    rw [List.forall_mem_cons]
    exact ⟨by decide, fun u hu => numberUnit_of_digit (hd.2 u hu)⟩

theorem Exponent.units {e : Int} {l : Text} (h : Exponent e l) :
    ∀ u ∈ l, isNumberUnit u = true := by
  cases h with
  | none => simp
  | @some mark negative sign digits hm hs hd =>
    rw [List.cons_append, List.forall_mem_cons, List.forall_mem_append]
    refine ⟨?_, ?_, fun u hu => numberUnit_of_digit (hd.2 u hu)⟩
    · obtain rfl | rfl := isEither_iff.1 hm <;> decide
    · cases hs with
      | none => simp
      | plus => exact List.forall_mem_singleton.2 rfl
      | minus => exact List.forall_mem_singleton.2 rfl

theorem TailSpells.units {shape : Shape} {l : Text} (h : TailSpells shape l) :
    ∀ u ∈ l, isNumberUnit u = true := by
  cases h with
  | decimal hs => exact hs.units
  | hexadecimal hm hh hs =>
    rw [List.forall_mem_cons, List.forall_mem_append]
    refine ⟨?_, fun u hu => numberUnit_of_hexDigit (hh u hu), hs.units⟩
    obtain rfl | rfl := isEither_iff.1 hm <;> decide
  | real hf he hn hs =>
    rw [List.forall_mem_append, List.forall_mem_append]
    exact ⟨⟨hf.units, he.units⟩, hs.units⟩

theorem TailSpells.units_behind {shape : Shape} {digits tail : Text} (hd : Digits digits)
    (h : TailSpells shape tail) : ∀ u ∈ digits ++ tail, isNumberUnit u = true :=
  List.forall_mem_append.2 ⟨fun u hu => numberUnit_of_digit (hd.2 u hu), h.units⟩

theorem IntegerBody.units {radix : Radix} {type : IntegerType} {n : Option Nat}
    {body suffix : Text} (h : IntegerBody radix n body) (hs : IntegerSuffix type suffix) :
    ∀ u ∈ body ++ suffix, isNumberUnit u = true := by
  obtain ⟨digits, tail, ht, hd, htail⟩ := h.tail hs
  rw [ht]
  exact htail.units_behind hd

theorem RealBody.units {type : RealType} {d : Decimal} {body suffix : Text} (h : RealBody d body)
    (hs : RealSuffix type suffix) : ∀ u ∈ body ++ suffix, isNumberUnit u = true := by
  obtain ⟨digits, tail, ht, hd, htail⟩ := h.tail hs
  rw [ht]
  exact htail.units_behind hd

theorem markTexts_ascii : ∀ x ∈ Kind.markTexts, x.1.Ascii := by
  have htable : ∀ x ∈ Kind.markTexts, x.1.all Text.isAscii = true := by decide
  exact fun x hx => List.all_eq_true.1 (htable x hx)

theorem Spells.ascii {shape : Shape} {l : Text} (h : Spells shape l) (hc : shape ≠ .comment)
    (hs : shape ≠ .string) : l.Ascii := by
  cases h with
  | mark hm => exact markTexts_ascii _ hm
  | lineComment _ | blockComment _ => exact absurd rfl hc
  | string _ => exact absurd rfl hs
  | word hu hw =>
    rw [Text.ascii_cons]
    refine ⟨ascii_of_wordUnit ?_, fun v hv => ascii_of_wordUnit (hw v hv)⟩
    rw [isWordUnit, hu, Bool.true_or]
  | integer hb hsuffix => exact fun u hu => ascii_of_numberUnit (hb.units hsuffix u hu)
  | real hb hsuffix => exact fun u hu => ascii_of_numberUnit (hb.units hsuffix u hu)

theorem Refuses.ascii {shape : Shape} {l : Text} {cause : LexicalFault}
    (h : Refuses shape l cause) : l.Ascii := by
  cases h with
  | malformed hb hs | integerRange hb hs _ | realRange hb hs _ =>
    exact fun u hu => ascii_of_numberUnit (hb.units hs u hu)

end Lexical

end Seanet
