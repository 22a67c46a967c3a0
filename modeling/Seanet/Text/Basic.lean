/-!
# Texts

A text is a sequence of UTF-16 code units. Offsets, lengths and columns count units, so a
character outside the basic plane counts twice. A text may hold a surrogate without its partner;
only `Text.toString`, which leaves the world of units, replaces one.
-/

set_option autoImplicit false

namespace Seanet

/-- A sequence of UTF-16 code units. -/
abbrev Text := List UInt16

namespace Text

/-- The units of one character: one in the basic plane, else a surrogate pair. -/
def unitsOf (c : Char) : Text :=
  if c.toNat < 0x10000 then [c.toNat.toUInt16]
  else
    [(0xD800 + (c.toNat - 0x10000) / 0x400).toUInt16,
      (0xDC00 + (c.toNat - 0x10000) % 0x400).toUInt16]

def ofString (s : String) : Text := s.toList.flatMap unitsOf

instance : Coe String Text := ⟨ofString⟩

def isHigh (u : UInt16) : Bool := 0xD800 ≤ u && u ≤ 0xDBFF

def isLow (u : UInt16) : Bool := 0xDC00 ≤ u && u ≤ 0xDFFF

/-- The code points of a text; a surrogate without its partner stands for itself. -/
def codePoints : Text → List Nat
  | [] => []
  | [u] => [u.toNat]
  | u :: v :: r =>
    if isHigh u && isLow v then
      (0x10000 + (u.toNat - 0xD800) * 0x400 + (v.toNat - 0xDC00)) :: codePoints r
    else u.toNat :: codePoints (v :: r)

def charOf (n : Nat) : Char := if 0xD800 ≤ n && n ≤ 0xDFFF then '\uFFFD' else Char.ofNat n

def toString (t : Text) : String := String.ofList (t.codePoints.map charOf)

/-- Every high surrogate is followed by a low one, and every low one follows a high one. -/
def WellFormed : Text → Bool
  | [] => true
  | [u] => !isHigh u && !isLow u
  | u :: v :: r =>
    if isHigh u then isLow v && WellFormed r
    else !isLow u && WellFormed (v :: r)

def unit (c : Char) : UInt16 := c.toNat.toUInt16

def lineFeed : UInt16 := 0x0A

def ofNat (n : Nat) : Text := (Nat.toDigits 10 n).map unit

def ofInt : Int → Text
  | .ofNat n => ofNat n
  | .negSucc n => unit '-' :: ofNat (n + 1)

def slice (t : Text) (start length : Nat) : Text := (t.drop start).take length

def join (separator : Text) (parts : List Text) : Text := List.intercalate separator parts

def withoutMark : Text → Text
  | [] => []
  | u :: r => if u = 0xFEFF then r else u :: r

/-- Order by units: the order in which paths are listed. -/
def le : Text → Text → Bool
  | [], _ => true
  | _ :: _, [] => false
  | u :: s, v :: t => u < v || (u == v && le s t)

theorem le_total (s t : Text) : (le s t || le t s) = true := by
  induction s generalizing t with
  | nil => simp [le]
  | cons u s ih =>
    cases t with
    | nil => simp [le]
    | cons v t =>
      have hrest := ih t
      simp only [le, Bool.or_eq_true, decide_eq_true_eq, Bool.and_eq_true, beq_iff_eq] at hrest ⊢
      by_cases huv : u = v
      · simpa [huv] using hrest
      · have hlt : u < v ∨ v < u := by
          rw [UInt16.lt_iff_toNat_lt, UInt16.lt_iff_toNat_lt]
          have hne : u.toNat ≠ v.toNat := fun h => huv (UInt16.toNat_inj.1 h)
          omega
        rcases hlt with hlt | hlt
        · exact .inl (.inl hlt)
        · exact .inr (.inl hlt)

theorem le_trans (s t r : Text) (hst : le s t = true) (htr : le t r = true) : le s r = true := by
  induction s generalizing t r with
  | nil => rfl
  | cons u s ih =>
    cases t with
    | nil => simp [le] at hst
    | cons v t =>
      cases r with
      | nil => simp [le] at htr
      | cons x r =>
        simp only [le, Bool.or_eq_true, decide_eq_true_eq, Bool.and_eq_true, beq_iff_eq]
          at hst htr ⊢
        rcases hst with huv | ⟨rfl, hst⟩
        · rcases htr with hvx | ⟨rfl, -⟩
          · refine .inl ?_
            rw [UInt16.lt_iff_toNat_lt] at *
            omega
          · exact .inl huv
        · rcases htr with hvx | ⟨rfl, htr⟩
          · exact .inl hvx
          · exact .inr ⟨rfl, ih t r hst htr⟩

/-- The pieces between the occurrences of `separator`; always at least one. -/
def splitOn (separator : UInt16) : Text → List Text
  | [] => [[]]
  | u :: r =>
    match splitOn separator r with
    | [] => [[u]]
    | p :: ps => if u = separator then [] :: p :: ps else (u :: p) :: ps

/-- What holds of the parts and the separator, and is kept when texts are put together, holds of the
joined text. -/
theorem join_induction {P : Text → Prop} {separator : Text} {parts : List Text} (hn : P [])
    (ha : ∀ s t, P s → P t → P (s ++ t)) (hs : P separator) (h : ∀ p ∈ parts, P p) :
    P (join separator parts) := by
  induction parts with
  | nil => exact hn
  | cons p parts ih =>
    rw [List.forall_mem_cons] at h
    cases parts with
    | nil =>
      change P (p ++ [])
      exact ha _ _ h.1 hn
    | cons q parts =>
      rw [join, List.intercalate_cons_cons]
      exact ha _ _ (ha _ _ h.1 hs) (ih h.2)

end Text

end Seanet
