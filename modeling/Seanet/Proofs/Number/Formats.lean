import Mathlib.Algebra.Order.Field.Power
import Mathlib.Algebra.Order.Field.Rat
import Mathlib.Tactic.FieldSimp
import Mathlib.Tactic.Linarith
import Mathlib.Tactic.NormNum
import Mathlib.Tactic.Positivity
import Mathlib.Tactic.Ring
import Seanet.Number.Rounding

set_option autoImplicit false

namespace Seanet

def Dyadic.toRat (x : Dyadic) : ℚ := x.mantissa * 2 ^ x.exponent

namespace BinaryFormat

def binade (f : BinaryFormat) : Nat := 2 ^ (f.precision - 1)

/-- The number that `n` encodes: a fraction in the low bits, and above it the exponent. The leading
bit of a significand is implicit, but for the lowest exponent. -/
def decode (f : BinaryFormat) (n : Nat) : ℚ :=
  match n / f.binade with
  | 0 => (n % f.binade : Nat) * 2 ^ f.minExponent
  | k + 1 => (f.binade + n % f.binade : Nat) * 2 ^ (f.minExponent + k)

def infinity (f : BinaryFormat) : Nat :=
  ((f.maxExponent - f.precision - f.minExponent).toNat + 2) * f.binade

def limit (f : BinaryFormat) : ℚ :=
  2 ^ f.maxExponent - 2 ^ (f.maxExponent - f.precision - 1)

/-- The number that `n` encodes is the nearest to `v`, ties going to even. -/
structure IsNearest (f : BinaryFormat) (v : ℚ) (n : Nat) : Prop where
  finite : n < f.infinity
  nearest : ∀ k < f.infinity, |v - f.decode n| ≤ |v - f.decode k|
  even : ∀ k < f.infinity, |v - f.decode k| = |v - f.decode n| → k = n ∨ Even n

/-- A significand has a bit besides the leading one, and its bits reach below the point. -/
structure Proper (f : BinaryFormat) : Prop where
  precision : 2 ≤ f.precision
  range : f.minExponent + f.precision ≤ f.maxExponent

theorem double_proper : double.Proper := ⟨by decide, by decide⟩

theorem single_proper : single.Proper := ⟨by decide, by decide⟩

example : double.infinity = 0x7ff0000000000000 := by decide

variable {f : BinaryFormat}

theorem binade_pos (f : BinaryFormat) : 0 < f.binade := Nat.two_pow_pos _

theorem Proper.binade_even (hf : f.Proper) : Even f.binade :=
  Even.pow_of_ne_zero even_two (Nat.sub_ne_zero_of_lt hf.precision)

theorem Proper.two_mul_binade (hf : f.Proper) : 2 * f.binade = 2 ^ f.precision := by
  have hp := hf.precision
  rw [binade, ← Nat.pow_succ']
  congr 1
  omega

/-- The lowest of a significand's bits counts `k` exponents above the lowest. A full significand is
the first one of the next exponent. -/
theorem decode_eq {k m : Nat} (hm : m ≤ 2 * f.binade) (hk : k = 0 ∨ f.binade ≤ m) :
    f.decode (k * f.binade + m) = m * 2 ^ (f.minExponent + k) := by
  have hb := f.binade_pos
  obtain hlt | hle := Nat.lt_or_ge m f.binade
  · obtain rfl : k = 0 := hk.resolve_right (by omega)
    rw [Nat.zero_mul, Nat.zero_add, decode, Nat.div_eq_of_lt hlt, Nat.mod_eq_of_lt hlt]
    simp
  obtain hlt | rfl := Nat.lt_or_eq_of_le hm
  · have hd : k * f.binade + m = (m - f.binade) + (k + 1) * f.binade := by
      rw [Nat.add_mul]
      omega
    have hr : m - f.binade < f.binade := by omega
    rw [hd, decode, Nat.add_mul_div_right _ _ hb, Nat.div_eq_of_lt hr, Nat.add_mul_mod_self_right,
      Nat.mod_eq_of_lt hr, Nat.add_sub_cancel' hle, Nat.zero_add]
  · have hd : k * f.binade + 2 * f.binade = (k + 1 + 1) * f.binade := by
      rw [← Nat.add_mul]
    rw [hd, decode, Nat.mul_div_cancel _ hb, Nat.mul_mod_left, Nat.add_zero]
    push_cast
    rw [← add_assoc, zpow_add_one₀ two_ne_zero]
    ring

theorem exists_parts (f : BinaryFormat) (n : Nat) : ∃ k m, n = k * f.binade + m ∧
    m < 2 * f.binade ∧ (k = 0 ∨ f.binade ≤ m) := by
  have hdiv := Nat.div_add_mod n f.binade
  have hmod := Nat.mod_lt n f.binade_pos
  rw [Nat.mul_comm] at hdiv
  cases hq : n / f.binade with
  | zero =>
    rw [hq, Nat.zero_mul, Nat.zero_add] at hdiv
    exact ⟨0, n % f.binade, by omega, by omega, .inl rfl⟩
  | succ k =>
    rw [hq, Nat.succ_mul] at hdiv
    exact ⟨k, f.binade + n % f.binade, by omega, by omega, .inr (by omega)⟩

theorem decode_lt_succ (f : BinaryFormat) (n : Nat) : f.decode n < f.decode (n + 1) := by
  obtain ⟨k, m, rfl, hm, hk⟩ := f.exists_parts n
  rw [Nat.add_assoc, decode_eq hm.le hk, decode_eq hm (hk.imp_right Nat.le_succ_of_le)]
  have hpos : (0 : ℚ) < 2 ^ (f.minExponent + k) := by positivity
  push_cast
  linarith

theorem decode_strictMono (f : BinaryFormat) : StrictMono f.decode :=
  strictMono_nat_of_lt_succ f.decode_lt_succ

theorem decode_zero (f : BinaryFormat) : f.decode 0 = 0 := by
  simpa using decode_eq (f := f) (Nat.zero_le _) (.inl rfl)

theorem Proper.decode_infinity (hf : f.Proper) : f.decode f.infinity = 2 ^ f.maxExponent := by
  have hrange := hf.range
  obtain ⟨k, hk⟩ := Int.eq_ofNat_of_zero_le (show 0 ≤ f.maxExponent - f.precision - f.minExponent by
    omega)
  have he : f.maxExponent = f.precision + (f.minExponent + k) := by omega
  rw [infinity, hk, Int.toNat_natCast, Nat.add_mul,
    decode_eq le_rfl (.inr (by omega)), hf.two_mul_binade, he,
    zpow_add₀ two_ne_zero (f.precision : Int), zpow_natCast, Nat.cast_pow, Nat.cast_two]

theorem Proper.lt_infinity (hf : f.Proper) {n : Nat} :
    n < f.infinity ↔ f.decode n < 2 ^ f.maxExponent := by
  rw [← hf.decode_infinity, f.decode_strictMono.lt_iff_lt]

theorem decode_cases (n : Nat) {e : Int} (he : f.minExponent ≤ e) :
    (∃ j : Nat, f.decode n = j * 2 ^ e) ∨ (f.minExponent < e ∧ f.decode n < f.binade * 2 ^ e) := by
  obtain ⟨k, m, rfl, hm, hk⟩ := f.exists_parts n
  rw [decode_eq hm.le hk]
  obtain hle | hlt := le_or_gt e (f.minExponent + k)
  · obtain ⟨i, hi⟩ := Int.eq_ofNat_of_zero_le (show 0 ≤ f.minExponent + k - e by omega)
    refine .inl ⟨m * 2 ^ i, ?_⟩
    rw [show f.minExponent + k = i + e by omega, zpow_add₀ two_ne_zero, zpow_natCast]
    push_cast
    ring
  · refine .inr ⟨by omega, ?_⟩
    have hm' : (m : ℚ) < 2 * f.binade := by exact_mod_cast hm
    calc (m : ℚ) * 2 ^ (f.minExponent + k) < 2 * f.binade * 2 ^ (f.minExponent + k) := by gcongr
      _ = f.binade * 2 ^ (f.minExponent + k + 1) := by rw [zpow_add_one₀ two_ne_zero]; ring
      _ ≤ f.binade * 2 ^ e := by gcongr <;> [norm_num; omega]

theorem IsNearest.le {v : ℚ} {n k : Nat} (hn : f.IsNearest v n) (hk : f.IsNearest v k) : n ≤ k := by
  by_contra! hlt
  have htie : |v - f.decode k| = |v - f.decode n| :=
    le_antisymm (hk.nearest n hn.finite) (hn.nearest k hk.finite)
  have hneven : Even n := (hn.even k hk.finite htie).resolve_left hlt.ne
  have hkeven : Even k := (hk.even n hn.finite htie.symm).resolve_left hlt.ne'
  -- Both are even, and the number that the odd encoding between stands for is nearer.
  have hgap : k + 1 < n := by
    obtain ⟨i, rfl⟩ := hneven
    obtain ⟨j, rfl⟩ := hkeven
    omega
  have hbelow : f.decode k < f.decode (k + 1) := f.decode_lt_succ k
  have habove : f.decode (k + 1) < f.decode n := f.decode_strictMono hgap
  have hmid : v - f.decode k = -(v - f.decode n) :=
    (abs_eq_abs.1 htie).resolve_left fun h => by linarith
  have hnear := hn.nearest (k + 1) (hgap.trans hn.finite)
  rw [abs_of_nonpos (show v - f.decode n ≤ 0 by linarith), le_abs] at hnear
  obtain h | h := hnear <;> linarith

theorem IsNearest.unique {v : ℚ} {n k : Nat} (hn : f.IsNearest v n) (hk : f.IsNearest v k) :
    n = k :=
  Nat.le_antisymm (hn.le hk) (hk.le hn)

/-- The middle between two numbers is rounded up to the even one. -/
theorem IsNearest.succ_le_iff {v : ℚ} {n k : Nat} (h : f.IsNearest v n) (hk : k + 1 < f.infinity)
    (heven : Even (k + 1)) : k + 1 ≤ n ↔ f.decode k + f.decode (k + 1) ≤ 2 * v := by
  have hstep := f.decode_lt_succ k
  refine ⟨fun hle => ?_, fun hv => ?_⟩
  · by_contra! hlt
    have hn := f.decode_strictMono.monotone hle
    have hnear := h.nearest k (Nat.lt_of_succ_lt hk)
    rw [abs_of_nonpos (show v - f.decode n ≤ 0 by linarith), le_abs] at hnear
    obtain hnear | hnear := hnear <;> linarith
  · by_contra! hlt
    have hn := f.decode_strictMono.monotone (Nat.lt_succ_iff.1 hlt)
    have hnear := h.nearest (k + 1) hk
    rw [abs_of_pos (show 0 < v - f.decode n by linarith), le_abs] at hnear
    have hnear' : v - f.decode n ≤ -(v - f.decode (k + 1)) :=
      hnear.resolve_left fun hge => by linarith
    -- Only the number below the middle is as near as the one above, and it is odd.
    have hnk : n = k := f.decode_strictMono.injective (by linarith)
    have htie : |v - f.decode (k + 1)| = |v - f.decode n| := by
      rw [abs_of_nonpos (by linarith), abs_of_pos (by linarith), hnk]
      rw [hnk] at hnear'
      linarith
    obtain heq | hn' := h.even (k + 1) hk htie
    · omega
    · exact Nat.even_add_one.1 heven (hnk ▸ hn')

end BinaryFormat

end Seanet
