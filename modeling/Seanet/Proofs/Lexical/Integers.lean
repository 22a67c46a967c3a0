import Seanet.Proofs.Lexical.Numerals
import Seanet.Proofs.Lexical.Rescanning

set_option autoImplicit false

namespace Seanet

open Lexical

namespace IntegerType

/-- The value of a literal that writes the number `n`. -/
inductive Denotes (type : IntegerType) : Radix → Nat → Int → Prop where
  | signed {n : Nat} (hs : type.signed = true) (hn : n ≤ 2 ^ (type.bits - 1) - 1) :
      Denotes type .decimal n n
  | unsigned {n : Nat} (hs : type.signed = false) (hn : n ≤ 2 ^ type.bits - 1) :
      Denotes type .decimal n n
  | bits {n : Nat} (hn : n ≤ 2 ^ type.bits - 1)
      (hs : type.signed = true → n < 2 ^ (type.bits - 1)) : Denotes type .hexadecimal n n
  | negative {n : Nat} (hs : type.signed = true) (hn : n ≤ 2 ^ type.bits - 1)
      (h : 2 ^ (type.bits - 1) ≤ n) : Denotes type .hexadecimal n (n - 2 ^ type.bits)

def Holds (type : IntegerType) (v : Int) : Prop :=
  if type.signed then -2 ^ (type.bits - 1) ≤ v ∧ v ≤ 2 ^ (type.bits - 1) - 1
  else 0 ≤ v ∧ v ≤ 2 ^ type.bits - 1

def suffix : IntegerType → Text
  | int => []
  | uint => [Text.unit 'u']
  | long => [Text.unit 'l']
  | ulong => [Text.unit 'u', Text.unit 'l']

theorem suffix_spells (type : IntegerType) : IntegerSuffix type type.suffix := by
  cases type with
  | int => exact .int
  | uint => exact .uint (by decide)
  | long => exact .long (by decide)
  | ulong => exact .ulong (by decide) (by decide)

theorem limit_hexadecimal (type : IntegerType) : type.limit .hexadecimal = 2 ^ type.bits - 1 := by
  cases type <;> rfl

theorem limit_decimal (type : IntegerType) : type.limit .decimal =
    if type.signed then 2 ^ (type.bits - 1) - 1 else 2 ^ type.bits - 1 := by
  cases type <;> rfl

theorem interpret_of_lt {type : IntegerType} {n : Nat}
    (h : type.signed = true → n < 2 ^ (type.bits - 1)) : type.interpret n = n := by
  refine if_neg fun hc => ?_
  have hlt := h hc.1
  have hle : 2 ^ (type.bits - 1) ≤ n := hc.2
  omega

theorem interpret_of_le {type : IntegerType} {n : Nat} (hs : type.signed = true)
    (h : 2 ^ (type.bits - 1) ≤ n) : type.interpret n = n - 2 ^ type.bits := by
  have hc : type.signed = true ∧ Nat.pow 2 (type.bits - 1) ≤ n := ⟨hs, h⟩
  rw [interpret, if_pos hc]
  cases type <;> rfl

theorem denotes_interpret {type : IntegerType} {radix : Radix} {n : Nat}
    (h : n ≤ type.limit radix) : type.Denotes radix n (type.interpret n) := by
  have hpos : 0 < 2 ^ (type.bits - 1) := Nat.two_pow_pos _
  cases radix with
  | decimal =>
    rw [limit_decimal] at h
    cases hs : type.signed with
    | true =>
      rw [hs, if_pos rfl] at h
      rw [interpret_of_lt fun _ => by omega]
      exact .signed hs h
    | false =>
      rw [hs, if_neg (by decide)] at h
      rw [interpret_of_lt fun ht => by rw [hs] at ht; cases ht]
      exact .unsigned hs h
  | hexadecimal =>
    rw [limit_hexadecimal] at h
    by_cases hw : type.signed = true ∧ 2 ^ (type.bits - 1) ≤ n
    · rw [interpret_of_le hw.1 hw.2]
      exact .negative hw.1 h hw.2
    · have hlt : type.signed = true → n < 2 ^ (type.bits - 1) := fun hs =>
        Nat.lt_of_not_le fun hle => hw ⟨hs, hle⟩
      rw [interpret_of_lt hlt]
      exact .bits h hlt

theorem Denotes.le_limit {type : IntegerType} {radix : Radix} {n : Nat} {v : Int}
    (h : type.Denotes radix n v) : n ≤ type.limit radix := by
  cases h with
  | signed hs hn =>
    rw [limit_decimal, hs]
    exact hn
  | unsigned hs hn =>
    rw [limit_decimal, hs]
    exact hn
  | bits hn _ | negative _ hn _ =>
    rw [limit_hexadecimal]
    exact hn

theorem Denotes.interpret {type : IntegerType} {radix : Radix} {n : Nat} {v : Int}
    (h : type.Denotes radix n v) : type.interpret n = v := by
  have hpos : 0 < 2 ^ (type.bits - 1) := Nat.two_pow_pos _
  cases h with
  | signed hs hn => exact interpret_of_lt fun _ => by omega
  | unsigned hs hn => exact interpret_of_lt fun ht => by rw [hs] at ht; cases ht
  | bits _ hs => exact interpret_of_lt hs
  | negative hs _ hle => exact interpret_of_le hs hle

theorem Holds.denotes {type : IntegerType} {v : Int} (h : type.Holds v) :
    type.Denotes .hexadecimal (v % 2 ^ type.bits).toNat v := by
  have hbits : (2 : Int) ^ type.bits = 2 * 2 ^ (type.bits - 1) := by cases type <;> rfl
  have hpos : (0 : Int) < 2 ^ (type.bits - 1) := by cases type <;> decide
  have hcast : ((2 ^ type.bits : Nat) : Int) = 2 ^ type.bits := by cases type <;> rfl
  have hcast' : ((2 ^ (type.bits - 1) : Nat) : Int) = 2 ^ (type.bits - 1) := by cases type <;> rfl
  unfold Holds at h
  by_cases hv : 0 ≤ v
  · have hlt : v < 2 ^ type.bits := by
      split at h <;> omega
    rw [Int.emod_eq_of_lt hv hlt]
    have hn : ((v.toNat : Nat) : Int) = v := Int.toNat_of_nonneg hv
    have hb : type.Denotes .hexadecimal v.toNat v.toNat := by
      refine .bits (by omega) fun hs => ?_
      rw [if_pos hs] at h
      omega
    rwa [hn] at hb
  · -- A negative value has the bits of the number that is larger by a power of two.
    have hs : type.signed = true := by
      by_contra hn
      rw [if_neg hn] at h
      omega
    rw [if_pos hs] at h
    have hmod : v % 2 ^ type.bits = v + 2 ^ type.bits := by
      rw [← Int.add_emod_right, Int.emod_eq_of_lt (by omega) (by omega)]
    rw [hmod]
    have hn : (((v + 2 ^ type.bits).toNat : Nat) : Int) = v + 2 ^ type.bits :=
      Int.toNat_of_nonneg (by omega)
    have hb : type.Denotes .hexadecimal (v + 2 ^ type.bits).toNat
        ((v + 2 ^ type.bits).toNat - 2 ^ type.bits) := .negative hs (by omega) (by omega)
    rwa [hn, Int.add_sub_cancel] at hb

end IntegerType

/-- An integer without its suffix: its digits, or what stands in front of a radix mark, the mark,
and the digits behind it. -/
inductive IntegerForm where
  | decimal (digits : Text)
  | marked (lead : Text) (mark : UInt16) (digits : Text)

namespace IntegerForm

def text : IntegerForm → Text
  | decimal digits => digits
  | marked lead mark digits => lead ++ mark :: digits

def radix : IntegerForm → Radix
  | decimal _ => .decimal
  | marked _ _ _ => .hexadecimal

def number : IntegerForm → Nat
  | decimal digits => denoted 10 digits
  | marked _ _ digits => denoted 16 digits

def IsWritten : IntegerForm → Prop
  | decimal digits => Digits digits
  | marked lead mark digits =>
    Digits lead ∧ isEither 'x' 'X' mark = true ∧ ∀ u ∈ digits, isHexDigit u = true

/-- A mark has a single zero in front of it, and a digit behind it. -/
def WellMarked : IntegerForm → Prop
  | decimal _ => True
  | marked lead _ digits => lead = [Text.unit '0'] ∧ digits ≠ []

theorem IsWritten.body {form : IntegerForm} (h : form.IsWritten) (hm : form.WellMarked) :
    IntegerBody form.radix (some form.number) form.text := by
  cases form with
  | decimal digits =>
    rw [number, ← numeral_eq_denoted]
    exact .decimal h
  | marked lead mark digits =>
    obtain ⟨rfl, hn⟩ := hm
    rw [number, ← numeral_eq_denoted]
    exact .hexadecimal h.2.1 hn h.2.2

theorem IsWritten.malformed {form : IntegerForm} (h : form.IsWritten) (hm : ¬ form.WellMarked) :
    IntegerBody form.radix none form.text := by
  cases form with
  | decimal digits => exact absurd trivial hm
  | marked lead mark digits =>
    refine .malformed h.1 h.2.1 h.2.2 ?_
    by_cases hl : lead = [Text.unit '0']
    · exact .inr (by_contra fun hd => hm ⟨hl, hd⟩)
    · exact .inl hl

end IntegerForm

def Lexical.hexUnit (d : Nat) : UInt16 := (if d < 10 then 0x30 + d else 0x57 + d).toUInt16

theorem Lexical.hexUnit_spec :
    ∀ d < 16, isHexDigit (hexUnit d) = true ∧ digitValue (hexUnit d) = d := by
  decide

def Lexical.hexDigits (n : Nat) : Text := Text.unit '0' :: ((Nat.digits 16 n).reverse.map hexUnit)

theorem Lexical.hexDigits_isHexDigit (n : Nat) : ∀ u ∈ hexDigits n, isHexDigit u = true := by
  rw [hexDigits, List.forall_mem_cons]
  refine ⟨by decide, fun u hu => ?_⟩
  obtain ⟨d, hd, rfl⟩ := List.mem_map.1 hu
  exact (hexUnit_spec d (Nat.digits_lt_base (by decide) (List.mem_reverse.1 hd))).1

theorem Lexical.denoted_hexDigits (n : Nat) : denoted 16 (hexDigits n) = n := by
  have hdigits : ((Nat.digits 16 n).map hexUnit).map digitValue = Nat.digits 16 n := by
    rw [List.map_map]
    refine (List.map_congr_left fun d hd => ?_).trans (List.map_id _)
    exact (hexUnit_spec d (Nat.digits_lt_base (by decide) hd)).2
  rw [denoted, hexDigits, List.reverse_cons, List.map_append, ← List.map_reverse,
    List.reverse_reverse, hdigits]
  exact (Nat.ofDigits_append_zero _).trans (Nat.ofDigits_digits 16 n)

theorem Lexical.IntegerBody.read {radix : Radix} {type : IntegerType} {n : Nat}
    {body suffix : Text} (h : IntegerBody radix (some n) body) (hs : IntegerSuffix type suffix)
    (hn : n ≤ type.limit radix) : (Shape.integer radix type).read (body ++ suffix) =
      .token type.literal (some (type.value (type.interpret n))) := by
  simp only [Shape.read, readInteger, integerDigits?_lexeme h hs]
  exact if_neg (Nat.not_lt.2 hn)

namespace IntegerType

def literalText (type : IntegerType) (n : Nat) : Text :=
  Text.unit '0' :: Text.unit 'x' :: hexDigits n ++ type.suffix

theorem Holds.scan {type : IntegerType} {v : Int} (h : type.Holds v) (name : Text) :
    let source : Source := ⟨name, type.literalText (v % 2 ^ type.bits).toNat⟩
    source.scan = ⟨[⟨type.literal, 0, source.text.length, 1, 1, source, some (type.value v)⟩,
      source.endToken], []⟩ := by
  have hdenotes := h.denotes
  simp only
  generalize (v % 2 ^ type.bits).toNat = n at hdenotes
  have hbody : IntegerBody .hexadecimal (some n)
      (Text.unit '0' :: Text.unit 'x' :: hexDigits n) := by
    have hb : IntegerBody .hexadecimal (some (numeral 16 (hexDigits n)))
        (Text.unit '0' :: Text.unit 'x' :: hexDigits n) :=
      .hexadecimal (by decide) (by simp [hexDigits]) (hexDigits_isHexDigit n)
    rwa [numeral_eq_denoted, denoted_hexDigits] at hb
  have hread := hbody.read type.suffix_spells hdenotes.le_limit
  rw [hdenotes.interpret] at hread
  exact Source.scan_lexeme (.integer hbody type.suffix_spells) hread name

end IntegerType

section

variable {source : Source} {front back : List Piece} {p : Piece} {form : IntegerForm}
  {type : IntegerType} {suffix : Text}

theorem integer_token (h : source.pieces = front ++ p :: back) (hw : form.IsWritten)
    (hs : IntegerSuffix type suffix) (hl : p.lexeme = form.text ++ suffix)
    (hm : form.WellMarked) (hn : form.number ≤ type.limit form.radix) :
    ∃ t, p = .token t ∧ t.kind = type.literal ∧
      t.value = some (type.value (type.interpret form.number)) := by
  have hspells : Spells (.integer form.radix type) p.lexeme := hl ▸ .integer (hw.body hm) hs
  refine Source.token_of_read h hspells ?_
  rw [hl]
  exact (hw.body hm).read hs hn

theorem integer_malformed (h : source.pieces = front ++ p :: back) (hw : form.IsWritten)
    (hs : IntegerSuffix type suffix) (hl : p.lexeme = form.text ++ suffix)
    (hm : ¬ form.WellMarked) :
    p.RefusedAs type.name source.text (front.flatMap Piece.lexeme).length := by
  have hbody := hw.malformed hm
  have hspells : Spells (.integer form.radix type) p.lexeme := hl ▸ .integer hbody hs
  refine Source.refused_of_malformed h hspells ?_
  rw [hl]
  exact (Refuses.malformed hbody hs).read

theorem integer_outOfRange (h : source.pieces = front ++ p :: back) (hw : form.IsWritten)
    (hs : IntegerSuffix type suffix) (hl : p.lexeme = form.text ++ suffix)
    (hm : form.WellMarked) (hn : type.limit form.radix < form.number) :
    p.RefusedAs type.name source.text (front.flatMap Piece.lexeme).length := by
  have hbody := hw.body hm
  have hspells : Spells (.integer form.radix type) p.lexeme := hl ▸ .integer hbody hs
  refine Source.refused_of_outOfRange h hspells ?_
  rw [hl]
  exact (Refuses.integerRange hbody hs hn).read

end

/-- The integers of a text, wherever they stand in it. One that is well marked and writes a number
that denotes a value of its type is a token with this value; any other is no token and is reported
once, where it begins. Every value of a type is the value of a literal. -/
theorem scan_integers_exact (source : Source) : (∃ pieces : List Piece,
    Cut source [] source.text pieces ∧
    source.scan.tokens = pieces.filterMap Piece.token? ++ [source.endToken] ∧
    source.scan.reports = pieces.filterMap Piece.report? ∧
    ∀ front p back (form : IntegerForm) type suffix, pieces = front ++ p :: back → form.IsWritten →
      IntegerSuffix type suffix → p.lexeme = form.text ++ suffix →
      (∃ v t, (form.WellMarked ∧ type.Denotes form.radix form.number v) ∧ p = .token t ∧
        t.kind = type.literal ∧ t.value = some (type.value v)) ∨
      (¬ (form.WellMarked ∧ ∃ v, type.Denotes form.radix form.number v) ∧
        p.RefusedAs type.name source.text (front.flatMap Piece.lexeme).length)) ∧
    ∀ type v, IntegerType.Holds type v → ∃ text, ∀ name,
      Source.scan ⟨name, text⟩ =
        ⟨[⟨type.literal, 0, text.length, 1, 1, ⟨name, text⟩, some (type.value v)⟩,
          Source.endToken ⟨name, text⟩], []⟩ := by
  refine ⟨⟨source.pieces, source.cut_pieces, source.tokens_eq, source.reports_eq, ?_⟩,
    fun type v hv => ⟨_, hv.scan⟩⟩
  intro front p back form type suffix h hw hs hl
  by_cases hm : form.WellMarked
  · by_cases hn : form.number ≤ type.limit form.radix
    · obtain ⟨t, hp, hkind, hvalue⟩ := integer_token h hw hs hl hm hn
      exact .inl ⟨_, t, ⟨hm, IntegerType.denotes_interpret hn⟩, hp, hkind, hvalue⟩
    · refine .inr ⟨fun ⟨_, v, hv⟩ => hn hv.le_limit, ?_⟩
      exact integer_outOfRange h hw hs hl hm (Nat.not_le.1 hn)
  · exact .inr ⟨fun hc => hm hc.1, integer_malformed h hw hs hl hm⟩

end Seanet
