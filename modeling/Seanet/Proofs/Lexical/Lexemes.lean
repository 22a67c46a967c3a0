import Seanet.Lexical.Reading

set_option autoImplicit false

namespace Seanet

namespace Lexical

def Digits (t : Text) : Prop := t ≠ [] ∧ ∀ u ∈ t, isDigit u = true

/-- The suffix of an integer of this type. -/
inductive IntegerSuffix : IntegerType → Text → Prop where
  | int : IntegerSuffix .int []
  | uint {u : UInt16} (hu : isEither 'u' 'U' u = true) : IntegerSuffix .uint [u]
  | long {l : UInt16} (hl : isEither 'l' 'L' l = true) : IntegerSuffix .long [l]
  | ulong {u l : UInt16} (hu : isEither 'u' 'U' u = true) (hl : isEither 'l' 'L' l = true) :
      IntegerSuffix .ulong [u, l]

/-- The suffix of a real of this type. -/
inductive RealSuffix : RealType → Text → Prop where
  | double : RealSuffix .double []
  | float {f : UInt16} (hf : isEither 'f' 'F' f = true) : RealSuffix .float [f]

/-- The digits of a fraction, and the fraction; perhaps there is none. -/
inductive Fraction : Text → Text → Prop where
  | none : Fraction [] []
  | some {digits : Text} (h : Digits digits) : Fraction digits (Text.unit '.' :: digits)

/-- A sign, and whether it is a minus. -/
inductive Sign : Bool → Text → Prop where
  | none : Sign false []
  | plus : Sign false [Text.unit '+']
  | minus : Sign true [Text.unit '-']

/-- The number that an exponent writes, and the exponent; perhaps there is none. -/
inductive Exponent : Int → Text → Prop where
  | none : Exponent 0 []
  | some {mark : UInt16} {negative : Bool} {sign digits : Text} (hm : isEither 'e' 'E' mark = true)
      (hs : Sign negative sign) (h : Digits digits) :
      Exponent (if negative then -(numeral 10 digits : Int) else numeral 10 digits)
        (mark :: sign ++ digits)

/-- An integer without its suffix, and the number it denotes. A radix mark must come right behind a
single zero, and digits must follow it; else the integer denotes nothing. -/
inductive IntegerBody : Radix → Option Nat → Text → Prop where
  | decimal {digits : Text} (h : Digits digits) :
      IntegerBody .decimal (some (numeral 10 digits)) digits
  | hexadecimal {mark : UInt16} {digits : Text} (hm : isEither 'x' 'X' mark = true)
      (hn : digits ≠ []) (h : ∀ u ∈ digits, isHexDigit u = true) :
      IntegerBody .hexadecimal (some (numeral 16 digits)) (Text.unit '0' :: mark :: digits)
  | malformed {mark : UInt16} {whole digits : Text} (hw : Digits whole)
      (hm : isEither 'x' 'X' mark = true) (h : ∀ u ∈ digits, isHexDigit u = true)
      (hn : whole ≠ [Text.unit '0'] ∨ digits = []) :
      IntegerBody .hexadecimal none (whole ++ mark :: digits)

/-- A real without its suffix, and the decimal it denotes. It has a fraction or an exponent. -/
inductive RealBody : Decimal → Text → Prop where
  | mk {whole digits point power : Text} {e : Int} (hw : Digits whole) (hf : Fraction digits point)
      (he : Exponent e power) (hn : point ≠ [] ∨ power ≠ []) :
      RealBody ⟨numeral 10 (whole ++ digits), (whole ++ digits).length, e - digits.length⟩
        (whole ++ point ++ power)

def blockMark : Text := [Text.unit '*', Text.unit '/']

/-- The lexemes of a shape. -/
inductive Spells : Shape → Text → Prop where
  | mark {m : Text} {k : Kind} (h : (m, k) ∈ Kind.markTexts) : Spells (.mark k) m
  | lineComment {t : Text} (h : Text.lineFeed ∉ t) :
      Spells .comment (Text.unit '/' :: Text.unit '/' :: t)
  /-- No end of a comment begins before the last two units. -/
  | blockComment {t : Text} (h : ¬ blockMark <:+: t ++ [Text.unit '*']) :
      Spells .comment (Text.unit '/' :: Text.unit '*' :: t ++ blockMark)
  | string {t : Text} (h : Text.unit '"' ∉ t) :
      Spells .string (Text.unit '"' :: t ++ [Text.unit '"'])
  | word {u : UInt16} {t : Text} (hu : isAlpha u = true) (h : ∀ v ∈ t, isWordUnit v = true) :
      Spells .word (u :: t)
  | integer {radix : Radix} {type : IntegerType} {n : Option Nat} {body suffix : Text}
      (h : IntegerBody radix n body) (hs : IntegerSuffix type suffix) :
      Spells (.integer radix type) (body ++ suffix)
  | real {type : RealType} {d : Decimal} {body suffix : Text} (h : RealBody d body)
      (hs : RealSuffix type suffix) : Spells (.real type) (body ++ suffix)

/-- The kind of the token that a lexeme of a shape is. -/
inductive Emits : Shape → Text → Kind → Prop where
  | mark (k : Kind) (l : Text) : Emits (.mark k) l k
  | comment (l : Text) : Emits .comment l .comment
  | string (l : Text) : Emits .string l .stringLiteral
  | keyword {l : Text} {k : Kind} (h : (l, k) ∈ Kind.keywordTexts) : Emits .word l k
  | identifier {l : Text} (h : ∀ k, (l, k) ∉ Kind.keywordTexts) : Emits .word l .identifier
  | integer (radix : Radix) (type : IntegerType) (l : Text) :
      Emits (.integer radix type) l type.literal
  | real (type : RealType) (l : Text) : Emits (.real type) l type.literal

/-- The numbers that are no tokens, and why. -/
inductive Refuses : Shape → Text → LexicalFault → Prop where
  | malformed {radix : Radix} {type : IntegerType} {body suffix : Text}
      (h : IntegerBody radix none body) (hs : IntegerSuffix type suffix) :
      Refuses (.integer radix type) (body ++ suffix) (.malformed type.name (body ++ suffix))
  | integerRange {radix : Radix} {type : IntegerType} {n : Nat} {body suffix : Text}
      (h : IntegerBody radix (some n) body) (hs : IntegerSuffix type suffix)
      (hn : type.limit radix < n) :
      Refuses (.integer radix type) (body ++ suffix) (.outOfRange type.name (body ++ suffix))
  | realRange {type : RealType} {d : Decimal} {body suffix : Text} (h : RealBody d body)
      (hs : RealSuffix type suffix) (hd : type.value? d = none) :
      Refuses (.real type) (body ++ suffix) (.outOfRange type.name (body ++ suffix))

def OpensComment (t : Text) : Prop :=
  ∃ r, t = Text.unit '/' :: Text.unit '*' :: r ∧ ¬ blockMark <:+: r

def OpensString (t : Text) : Prop := ∃ r, t = Text.unit '"' :: r ∧ Text.unit '"' ∉ r

/-- No lexeme that `t` begins with is longer than `l`. -/
structure Longest (t : Text) (shape : Shape) (l : Text) : Prop where
  spells : Spells shape l
  front : l <+: t
  longest : ∀ shape' l', Spells shape' l' → l' <+: t → l'.length ≤ l.length

/-- What is cut from the front of a text, and how it reads. -/
inductive Munch (t : Text) : Text → Reading → Prop where
  | blank {u : UInt16} {r : Text} (ht : t = u :: r) (hu : isBlank u = true) : Munch t [u] .blank
  | token {shape : Shape} {l : Text} {k : Kind} (v : Option Value) (h : Longest t shape l)
      (ho : ¬ OpensComment t) (hk : Emits shape l k) (hn : ∀ cause, ¬ Refuses shape l cause) :
      Munch t l (.token k v)
  | number {shape : Shape} {l : Text} {cause : LexicalFault} (h : Longest t shape l)
      (hr : Refuses shape l cause) : Munch t l (.fault cause)
  | openComment (h : OpensComment t) : Munch t t (.fault .openComment)
  | openString (h : OpensString t) : Munch t t (.fault .openString)
  /-- A unit that begins nothing is taken alone, or with the next one if it is the first half of a
  surrogate pair. -/
  | stray {u : UInt16} {r : Text} (ht : t = u :: r) (hu : isBlank u = false)
      (ho : ¬ OpensString t) (hn : ∀ shape l, Spells shape l → ¬ l <+: t) :
      Munch t (u :: if Text.isHigh u then r.take 1 else [])
        (.fault (.unexpected (u :: if Text.isHigh u then r.take 1 else [])))

end Lexical

end Seanet
