import Seanet.Lexical.Reading
import Seanet.Proofs.Number.Nearest

set_option autoImplicit false

namespace Seanet

open BinaryFormat

namespace Dyadic

theorem ratio_pos (x : Dyadic) : 0 < x.ratio.2 := by
  unfold ratio
  split
  · exact Nat.one_pos
  · exact Nat.two_pow_pos _

theorem ratio_quotient (x : Dyadic) : (x.ratio.1 : ℚ) / x.ratio.2 = x.toRat := by
  rw [toRat]
  unfold ratio
  split <;> rename_i k hk <;> rw [hk]
  · simp
  · simp [zpow_negSucc, div_eq_mul_inv]

end Dyadic

namespace Decimal

def toRat (d : Decimal) : ℚ := d.digits * 10 ^ d.exponent

theorem ratio_pos (d : Decimal) : 0 < d.ratio.2 := by
  unfold ratio
  split
  · exact Nat.one_pos
  · exact Nat.pow_pos (by decide)

theorem ratio_quotient (d : Decimal) :
    (d.ratio.1 : ℚ) / d.ratio.2 = d.digits * 10 ^ d.boundedExponent := by
  unfold ratio
  split <;> rename_i k hk <;> rw [hk]
  · simp
  · simp [zpow_negSucc, div_eq_mul_inv]

theorem zpow_le_ten_zpow : (2 : ℚ) ^ (1200 : Int) ≤ 10 ^ (400 : Int) := by
  have hmul : (2 : ℚ) ^ (1200 : Nat) = (2 ^ 3) ^ 400 := pow_mul 2 3 400
  rw [zpow_ofNat, zpow_ofNat, hmul]
  gcongr
  norm_num

theorem limit_le {digits : Nat} (h : 0 < digits) {k : Int} (hk : 400 ≤ k) :
    double.limit ≤ digits * 10 ^ k := by
  have hone : (1 : ℚ) ≤ digits := by exact_mod_cast h
  have hpow : (0 : ℚ) < 10 ^ k := by positivity
  calc double.limit ≤ 2 ^ double.maxExponent := by
        rw [limit, sub_le_self_iff]
        positivity
    _ ≤ 2 ^ (1200 : Int) := zpow_le_zpow_right₀ one_le_two (by decide)
    _ ≤ 10 ^ (400 : Int) := zpow_le_ten_zpow
    _ ≤ 10 ^ k := zpow_le_zpow_right₀ (by norm_num) hk
    _ ≤ digits * 10 ^ k := le_mul_of_one_le_left hpow.le hone

theorem lt_half {digits width : Nat} (h : digits < 10 ^ width) {k : Int}
    (hk : k ≤ -(width + 400 : Int)) : (digits * 10 ^ k : ℚ) < 2 ^ double.minExponent / 2 := by
  have hd : (digits : ℚ) < 10 ^ (width : Int) := by exact_mod_cast h
  calc (digits * 10 ^ k : ℚ) < 10 ^ (width : Int) * 10 ^ k := by gcongr
    _ = 10 ^ (width + k) := (zpow_add₀ (by norm_num) _ _).symm
    _ ≤ 10 ^ (-400 : Int) := zpow_le_zpow_right₀ (by norm_num) (by omega)
    _ ≤ 2 ^ (-1200 : Int) := by
      rw [zpow_neg, zpow_neg]
      exact inv_anti₀ (by positivity) zpow_le_ten_zpow
    _ < 2 ^ (double.minExponent - 1) := zpow_lt_zpow_right₀ one_lt_two (by decide)
    _ = 2 ^ double.minExponent / 2 := zpow_sub_one₀ two_ne_zero _

/-- Beyond its bounds an exponent makes no difference. -/
theorem toDouble?_rounds (d : Decimal) (hd : d.digits < 10 ^ d.width) :
    double.Rounds d.toRat d.toDouble? := by
  have h := nearest?_rounds double_proper d.ratio.1 d.ratio_pos
  rw [ratio_quotient] at h
  have hbounded : d.boundedExponent = max (-(d.width + 400 : Int)) (min 400 d.exponent) := rfl
  obtain hlow | hlow := lt_or_ge d.exponent (-(d.width + 400 : Int))
  · have hnonneg : 0 ≤ d.toRat := by
      rw [toRat]
      positivity
    exact h.of_small double_proper (lt_half hd (by omega)) hnonneg (lt_half hd hlow.le)
  obtain hhigh | hhigh := lt_or_ge 400 d.exponent
  · obtain h0 | h0 := Nat.eq_zero_or_pos d.digits
    · rw [h0, Nat.cast_zero, zero_mul] at h
      rwa [toRat, h0, Nat.cast_zero, zero_mul]
    · exact h.of_limit_le (limit_le h0 (by omega)) (limit_le h0 hhigh.le)
  · rwa [hbounded, min_eq_right hhigh, max_eq_right hlow] at h

end Decimal

namespace RealType

def limit : RealType → ℚ
  | double => 2 ^ 1024 - 2 ^ 970
  | float => 2 ^ 128 - 2 ^ 103 - 2 ^ 74

/-- `x` is the nearest number of the type to `v`. A float is the single nearest to the nearest
double. -/
def Nearest : RealType → ℚ → Dyadic → Prop
  | double, v, x => ∃ n, BinaryFormat.double.IsNearest v n ∧ x.toRat = BinaryFormat.double.decode n
  | float, v, x => ∃ n s, BinaryFormat.double.IsNearest v n ∧
      single.IsNearest (BinaryFormat.double.decode n) s ∧ x.toRat = single.decode s

theorem Nearest.unique {type : RealType} {v : ℚ} {x y : Dyadic} (hx : type.Nearest v x)
    (hy : type.Nearest v y) : x.toRat = y.toRat := by
  cases type with
  | double =>
    obtain ⟨n, hn, hx⟩ := hx
    obtain ⟨m, hm, hy⟩ := hy
    rw [hx, hy, hn.unique hm]
  | float =>
    obtain ⟨n, s, hn, hs, hx⟩ := hx
    obtain ⟨m, r, hm, hr, hy⟩ := hy
    rw [hn.unique hm] at hs
    rw [hx, hy, hs.unique hr]

theorem limit_double : BinaryFormat.double.limit = double.limit := by
  have he : (1024 : Int) - (53 : Nat) - 1 = (970 : Nat) := by decide
  rw [BinaryFormat.limit, BinaryFormat.double, he, zpow_natCast, zpow_ofNat]
  rfl

theorem limit_float_le : float.limit ≤ double.limit := by
  calc float.limit ≤ 2 ^ 128 := by
        rw [limit]
        norm_num
    _ ≤ 2 ^ 970 := pow_le_pow_right₀ one_le_two (by norm_num)
    _ = 2 ^ 971 - 2 ^ 970 := by rw [pow_succ 2 970, mul_two, add_sub_cancel_right]
    _ ≤ double.limit := sub_le_sub_right (pow_le_pow_right₀ one_le_two (by norm_num)) _

theorem limit_single : single.limit = 2 ^ 128 - 2 ^ 103 := by
  have he : (128 : Int) - (24 : Nat) - 1 = (103 : Nat) := by decide
  rw [BinaryFormat.limit, single, he, zpow_natCast, zpow_ofNat]

/-- The limit of the single format is an even double, and the middle below is rounded to it. -/
theorem limit_float_le_iff {v : ℚ} {n : Nat} (h : BinaryFormat.double.IsNearest v n) :
    single.limit ≤ BinaryFormat.double.decode n ↔ float.limit ≤ v := by
  have hdecode : ∀ m : Nat, m ≤ 2 ^ 53 → 2 ^ 52 ≤ m →
      BinaryFormat.double.decode (1149 * 2 ^ 52 + m) = m * 2 ^ 75 :=
    fun m hle hge => decode_eq hle (.inr hge)
  have hbelow := hdecode (2 ^ 53 - 2 ^ 28 - 1) (by norm_num) (by norm_num)
  have hlimit : BinaryFormat.double.decode (1149 * 2 ^ 52 + (2 ^ 53 - 2 ^ 28 - 1) + 1) =
      single.limit := by
    refine (hdecode (2 ^ 53 - 2 ^ 28) (by norm_num) (by norm_num)).trans ?_
    rw [limit_single]
    norm_num
  rw [← hlimit, BinaryFormat.double.decode_strictMono.le_iff_le,
    h.succ_le_iff (by decide) (by decide), hbelow, hlimit, limit_single, limit]
  norm_num
  constructor <;> intro hv <;> linarith

theorem value?_double {d : Decimal} (hd : d.digits < 10 ^ d.width) :
    (double.limit ≤ d.toRat ∧ double.value? d = none) ∨ ∃ x, d.toRat < double.limit ∧
      double.value? d = some x ∧ x.IsDouble ∧ double.Nearest d.toRat x := by
  have h := d.toDouble?_rounds hd
  rw [value?]
  generalize d.toDouble? = o at h
  cases h with
  | outOfRange hv => exact .inl ⟨limit_double ▸ hv, rfl⟩
  | @number x hv hx =>
    have hlt := hx.lt_of_lt_limit double_proper hv
    exact .inr ⟨x, limit_double ▸ hv, rfl, x.isDouble hx.mantissa_le hx.lowest hlt, _,
      hx.isNearest double_proper hlt, hx.decode_encode.symm⟩

theorem value?_float {d : Decimal} (hd : d.digits < 10 ^ d.width) :
    (float.limit ≤ d.toRat ∧ float.value? d = none) ∨ ∃ x, d.toRat < float.limit ∧
      float.value? d = some x ∧ x.IsDouble ∧ float.Nearest d.toRat x := by
  have h := d.toDouble?_rounds hd
  rw [value?, Decimal.toSingle?]
  generalize d.toDouble? = o at h
  cases h with
  | outOfRange hv => exact .inl ⟨limit_float_le.trans (limit_double ▸ hv), rfl⟩
  | @number x hv hx =>
    have hn := hx.isNearest double_proper (hx.lt_of_lt_limit double_proper hv)
    have hs := nearest?_rounds single_proper x.ratio.1 x.ratio_pos
    rw [x.ratio_quotient, ← hx.decode_encode] at hs
    rw [Option.bind_eq_bind, Option.bind_some]
    generalize single.nearest? x.ratio.1 x.ratio.2 = o at hs
    cases hs with
    | outOfRange hv' => exact .inl ⟨(limit_float_le_iff hn).1 hv', rfl⟩
    | @number y hv' hy =>
      have hlt := hy.lt_of_lt_limit single_proper hv'
      have hdouble : y.IsDouble := y.isDouble (hy.mantissa_le.trans (by decide))
        (le_trans (by decide) hy.lowest) (hlt.trans (zpow_lt_zpow_right₀ one_lt_two (by decide)))
      refine .inr ⟨y, not_le.1 fun hle => ?_, rfl, hdouble, _, _, hn,
        hy.isNearest single_proper hlt, hy.decode_encode.symm⟩
      exact hv'.not_ge ((limit_float_le_iff hn).2 hle)

theorem value?_spec (type : RealType) {d : Decimal} (hd : d.digits < 10 ^ d.width) :
    (type.limit ≤ d.toRat ∧ type.value? d = none) ∨ ∃ x, d.toRat < type.limit ∧
      type.value? d = some x ∧ x.IsDouble ∧ type.Nearest d.toRat x := by
  cases type with
  | double => exact value?_double hd
  | float => exact value?_float hd

end RealType

end Seanet
