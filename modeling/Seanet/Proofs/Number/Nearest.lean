import Seanet.Proofs.Number.Formats

set_option autoImplicit false

namespace Seanet

theorem scaled_pos (num : Nat) {den : Nat} (h : 0 < den) (e : Int) : 0 < (scaled num den e).2 := by
  cases e with
  | ofNat k => exact Nat.mul_pos h (Nat.two_pow_pos k)
  | negSucc k => exact h

theorem scaled_quotient (num den : Nat) (e : Int) :
    ((scaled num den e).1 : ℚ) / (scaled num den e).2 = num / den / 2 ^ e := by
  cases e with
  | ofNat k =>
    simp only [scaled, Nat.pow_eq, Int.ofNat_eq_natCast, zpow_natCast]
    push_cast
    rw [div_div]
  | negSucc k =>
    simp only [scaled, Nat.pow_eq, zpow_negSucc]
    push_cast
    rw [div_inv_eq_mul, div_mul_eq_mul_div]

theorem scaled_le_iff (num : Nat) {den : Nat} (h : 0 < den) (e : Int) :
    (scaled num den e).2 ≤ (scaled num den e).1 ↔ (2 : ℚ) ^ e ≤ num / den := by
  have hpos : (0 : ℚ) < (scaled num den e).2 := by exact_mod_cast scaled_pos num h e
  have hpow : (0 : ℚ) < 2 ^ e := by positivity
  rw [← Nat.cast_le (α := ℚ), ← one_le_div hpos, scaled_quotient, one_le_div hpow]

theorem roundDiv_near (num : Nat) {den : Nat} (h : 0 < den) :
    |(num / den : ℚ) - roundDiv num den| ≤ 1 / 2 ∧
      (|(num / den : ℚ) - roundDiv num den| = 1 / 2 → Even (roundDiv num den)) := by
  have hd : (0 : ℚ) < den := by exact_mod_cast h
  have hv : (num / den : ℚ) = (num / den : Nat) + (num % den : Nat) / den := by
    have hn : ((num / den * den + num % den : Nat) : ℚ) = num := by rw [Nat.div_add_mod']
    rw [← hn]
    push_cast
    field_simp
  rw [hv]
  fun_cases roundDiv num den with
  | case1 q twice hlt =>
    have ht : ((num % den : Nat) / den : ℚ) < 1 / 2 := by
      rw [div_lt_div_iff₀ hd two_pos]
      exact_mod_cast (by omega : num % den * 2 < 1 * den)
    have ht0 : (0 : ℚ) ≤ (num % den : Nat) / den := by positivity
    rw [add_sub_cancel_left, abs_of_nonneg ht0]
    exact ⟨ht.le, fun he => absurd he ht.ne⟩
  | case2 q twice _ hlt =>
    have ht : (1 / 2 : ℚ) < (num % den : Nat) / den := by
      rw [div_lt_div_iff₀ two_pos hd]
      exact_mod_cast (by omega : 1 * den < num % den * 2)
    have ht1 : ((num % den : Nat) / den : ℚ) < 1 := by
      rw [div_lt_one hd]
      exact_mod_cast Nat.mod_lt num h
    rw [Nat.cast_add_one, add_sub_add_left_eq_sub, abs_sub_comm, abs_of_pos (sub_pos.2 ht1)]
    exact ⟨by linarith, fun he => by linarith⟩
  | case3 q twice hle hge =>
    have ht : ((num % den : Nat) / den : ℚ) = 1 / 2 := by
      rw [div_eq_div_iff hd.ne' two_ne_zero]
      exact_mod_cast (by omega : num % den * 2 = 1 * den)
    have heven : Even (q + q % 2) := by
      rw [Nat.even_iff]
      omega
    refine ⟨le_of_eq ?_, fun _ => heven⟩
    rw [ht, Nat.cast_add, add_sub_add_left_eq_sub]
    obtain h0 | h1 := Nat.mod_two_eq_zero_or_one q
    · rw [h0]
      norm_num
    · rw [h1]
      norm_num

theorem log2_bounds {n : Nat} (h : 0 < n) :
    (2 : ℚ) ^ (n.log2 : Int) ≤ n ∧ (n : ℚ) < 2 ^ (n.log2 + 1 : Int) := by
  have hlt : n < 2 ^ (n.log2 + 1) := Nat.lt_log2_self
  refine ⟨?_, ?_⟩
  · rw [zpow_natCast]
    exact_mod_cast Nat.log2_self_le h.ne'
  · exact_mod_cast hlt

theorem Dyadic.le_toRat_iff (x : Dyadic) (k : Int) :
    (x.mantissa ≠ 0 ∧ k ≤ (x.mantissa.log2 : Int) + x.exponent) ↔ (2 : ℚ) ^ k ≤ x.toRat := by
  obtain ⟨m, e⟩ := x
  obtain rfl | hm := Nat.eq_zero_or_pos m
  · have hpow : (0 : ℚ) < 2 ^ k := by positivity
    simp [Dyadic.toRat, hpow]
  obtain ⟨hle, hlt⟩ := log2_bounds hm
  rw [Dyadic.toRat]
  refine ⟨fun ⟨_, hk⟩ => ?_, fun hk => ⟨hm.ne', ?_⟩⟩
  · calc (2 : ℚ) ^ k ≤ 2 ^ ((m.log2 : Int) + e) := zpow_le_zpow_right₀ one_le_two hk
      _ = 2 ^ (m.log2 : Int) * 2 ^ e := zpow_add₀ two_ne_zero _ _
      _ ≤ m * 2 ^ e := by gcongr
  · have hlt' : (2 : ℚ) ^ k < 2 ^ ((m.log2 : Int) + 1 + e) := by
      rw [zpow_add₀ two_ne_zero]
      exact hk.trans_lt (by gcongr)
    have hk' := (zpow_lt_zpow_iff_right₀ one_lt_two).1 hlt'
    simp only
    omega

theorem floorLog_spec {num den : Nat} (hn : 0 < num) (hd : 0 < den) :
    (2 : ℚ) ^ floorLog num den ≤ num / den ∧ (num / den : ℚ) < 2 ^ (floorLog num den + 1) := by
  obtain ⟨hnle, hnlt⟩ := log2_bounds hn
  obtain ⟨hdle, hdlt⟩ := log2_bounds hd
  have hdpos : (0 : ℚ) < den := by exact_mod_cast hd
  -- The logarithms of the parts leave two candidates.
  have hlow : (2 : ℚ) ^ ((num.log2 : Int) - den.log2 - 1) < num / den := by
    rw [lt_div_iff₀ hdpos]
    calc (2 : ℚ) ^ ((num.log2 : Int) - den.log2 - 1) * den
        < 2 ^ ((num.log2 : Int) - den.log2 - 1) * 2 ^ (den.log2 + 1 : Int) := by gcongr
      _ = 2 ^ (num.log2 : Int) := by
        rw [← zpow_add₀ two_ne_zero]
        congr 1
        omega
      _ ≤ num := hnle
  have hhigh : (num / den : ℚ) < 2 ^ ((num.log2 : Int) - den.log2 + 1) := by
    rw [div_lt_iff₀ hdpos]
    calc (num : ℚ) < 2 ^ (num.log2 + 1 : Int) := hnlt
      _ = 2 ^ ((num.log2 : Int) - den.log2 + 1) * 2 ^ (den.log2 : Int) := by
        rw [← zpow_add₀ two_ne_zero]
        congr 1
        omega
      _ ≤ 2 ^ ((num.log2 : Int) - den.log2 + 1) * den := by gcongr
  have hiff := scaled_le_iff num hd ((num.log2 : Int) - den.log2)
  fun_cases floorLog num den with
  | case1 k a b hab hle =>
    rw [hab] at hiff
    exact ⟨hiff.1 hle, hhigh⟩
  | case2 k a b hab hlt =>
    rw [hab] at hiff
    rw [sub_add_cancel]
    exact ⟨hlow.le, lt_of_not_ge fun hle => hlt (hiff.2 hle)⟩

namespace BinaryFormat

variable {f : BinaryFormat} {v : ℚ} {x : Dyadic}

/-- `x` is `v` rounded, to a mantissa that may be too large by one. -/
structure Rounded (f : BinaryFormat) (v : ℚ) (x : Dyadic) : Prop where
  lowest : f.minExponent ≤ x.exponent
  fits : v < 2 * f.binade * 2 ^ x.exponent
  normal : x.exponent = f.minExponent ∨ f.binade * 2 ^ x.exponent ≤ v
  near : |v - x.toRat| ≤ 2 ^ x.exponent / 2
  tie : |v - x.toRat| = 2 ^ x.exponent / 2 → Even x.mantissa

/-- What rounding makes of `v`: nothing exactly if it is out of range. -/
inductive Rounds (f : BinaryFormat) (v : ℚ) : Option Dyadic → Prop where
  | outOfRange (h : f.limit ≤ v) : Rounds f v none
  | number {x : Dyadic} (h : v < f.limit) (hx : f.Rounded v x) : Rounds f v (some x)

def encode (f : BinaryFormat) (x : Dyadic) : Nat :=
  (x.exponent - f.minExponent).toNat * f.binade + x.mantissa

namespace Rounded

theorem mantissa_le (h : f.Rounded v x) : x.mantissa ≤ 2 * f.binade := by
  have hpow : (0 : ℚ) < 2 ^ x.exponent := by positivity
  have hnear := (abs_le.1 h.near).1
  have hfits := h.fits
  rw [Dyadic.toRat] at hnear
  have hlt : (x.mantissa : ℚ) * 2 ^ x.exponent < (2 * f.binade + 1) * 2 ^ x.exponent := by linarith
  have hlt' : (x.mantissa : ℚ) < 2 * f.binade + 1 := lt_of_mul_lt_mul_right hlt hpow.le
  exact Nat.lt_succ_iff.1 (by exact_mod_cast hlt')

theorem le_mantissa (h : f.Rounded v x) :
    x.exponent = f.minExponent ∨ f.binade ≤ x.mantissa := by
  refine h.normal.imp_right fun hle => ?_
  have hpow : (0 : ℚ) < 2 ^ x.exponent := by positivity
  have hnear := (abs_le.1 h.near).2
  rw [Dyadic.toRat] at hnear
  have hlt : (f.binade : ℚ) * 2 ^ x.exponent < (x.mantissa + 1) * 2 ^ x.exponent := by linarith
  have hlt' : (f.binade : ℚ) < x.mantissa + 1 := lt_of_mul_lt_mul_right hlt hpow.le
  exact Nat.lt_succ_iff.1 (by exact_mod_cast hlt')

theorem decode_encode (h : f.Rounded v x) : f.decode (f.encode x) = x.toRat := by
  have hle := h.le_mantissa
  have he := Int.toNat_of_nonneg (sub_nonneg.2 h.lowest)
  rw [encode, decode_eq h.mantissa_le (hle.imp_left fun h0 => by rw [h0, sub_self]; rfl), he,
    add_sub_cancel, Dyadic.toRat]

theorem encode_even (hf : f.Proper) : Even (f.encode x) ↔ Even x.mantissa := by
  rw [encode, Nat.even_add, iff_true_left (hf.binade_even.mul_left _)]

theorem half_le (h : f.Rounded v x) {j : Nat} (hj : j ≠ x.mantissa) :
    2 ^ x.exponent / 2 ≤ |v - j * 2 ^ x.exponent| := by
  have hpow : (0 : ℚ) < 2 ^ x.exponent := by positivity
  have hgap : (2 : ℚ) ^ x.exponent ≤ |j * 2 ^ x.exponent - x.toRat| := by
    rw [Dyadic.toRat, ← sub_mul, abs_mul, abs_of_pos hpow]
    refine le_mul_of_one_le_left hpow.le ?_
    exact_mod_cast Int.one_le_abs (show (j : Int) - x.mantissa ≠ 0 by omega)
  have hsub := abs_sub_le (j * 2 ^ x.exponent : ℚ) v x.toRat
  rw [abs_sub_comm (j * 2 ^ x.exponent : ℚ) v] at hsub
  have hnear := h.near
  linarith

theorem near_multiple (h : f.Rounded v x) (j : Nat) :
    |v - x.toRat| ≤ |v - j * 2 ^ x.exponent| := by
  obtain rfl | hj := eq_or_ne j x.mantissa
  · exact le_rfl
  · exact h.near.trans (h.half_le hj)

theorem tie_multiple (h : f.Rounded v x) {j : Nat}
    (hj : |v - j * 2 ^ x.exponent| = |v - x.toRat|) : j = x.mantissa ∨ Even x.mantissa := by
  refine or_iff_not_imp_left.2 fun hne => h.tie (le_antisymm h.near ?_)
  rw [← hj]
  exact h.half_le hne

/-- A number of a lower binade is farther than the first multiple of the binade of `v`. -/
theorem near_of_lt (h : f.Rounded v x) {y : ℚ} (he : f.minExponent < x.exponent)
    (hy : y < f.binade * 2 ^ x.exponent) : |v - x.toRat| < |v - y| := by
  have hle : f.binade * 2 ^ x.exponent ≤ v := h.normal.resolve_left he.ne'
  have hnear := h.near_multiple f.binade
  rw [abs_of_nonneg (sub_nonneg.2 hle)] at hnear
  rw [abs_of_pos (sub_pos.2 (hy.trans_le hle))]
  linarith

theorem isNearest (hf : f.Proper) (h : f.Rounded v x) (hx : x.toRat < 2 ^ f.maxExponent) :
    f.IsNearest v (f.encode x) := by
  have hdecode := h.decode_encode
  refine ⟨by rwa [hf.lt_infinity, hdecode], fun k _ => ?_, fun k _ htie => ?_⟩
  · rw [hdecode]
    obtain ⟨j, hj⟩ | ⟨he, hlt⟩ := decode_cases k h.lowest
    · rw [hj]
      exact h.near_multiple j
    · exact (h.near_of_lt he hlt).le
  · rw [hdecode] at htie
    rw [encode_even hf]
    obtain ⟨j, hj⟩ | ⟨he, hlt⟩ := decode_cases k h.lowest
    · rw [hj] at htie
      refine (h.tie_multiple htie).imp_left fun hm => f.decode_strictMono.injective ?_
      rw [hj, hdecode, hm, Dyadic.toRat]
    · exact absurd htie (h.near_of_lt he hlt).ne'

end Rounded

theorem two_mul_zpow_le {a b : Int} (h : a < b) : (2 : ℚ) * 2 ^ a ≤ 2 ^ b := by
  rw [← zpow_one_add₀ two_ne_zero]
  exact zpow_le_zpow_right₀ one_le_two (by omega)

theorem Proper.two_mul_binade_zpow (hf : f.Proper) :
    2 * f.binade * (2 : ℚ) ^ (f.maxExponent - f.precision) = 2 ^ f.maxExponent := by
  have hb : (2 * f.binade : ℚ) = 2 ^ f.precision := by exact_mod_cast hf.two_mul_binade
  rw [hb, ← zpow_natCast, ← zpow_add₀ two_ne_zero, add_sub_cancel]

theorem zpow_le_mul (f : BinaryFormat) (e : Int) : (2 : ℚ) ^ e ≤ f.binade * 2 ^ e := by
  have hb : (1 : ℚ) ≤ f.binade := by exact_mod_cast f.binade_pos
  exact le_mul_of_one_le_left (by positivity) hb

/-- The limit is a half above the last significand of the highest exponent. -/
theorem limit_eq (f : BinaryFormat) :
    f.limit = 2 ^ f.maxExponent - 2 ^ (f.maxExponent - f.precision) / 2 := by
  rw [limit, zpow_sub_one₀ two_ne_zero]
  rfl

namespace Rounded

theorem lt_of_lt_limit (hf : f.Proper) (h : f.Rounded v x) (hv : v < f.limit) :
    x.toRat < 2 ^ f.maxExponent := by
  have hpow : (0 : ℚ) < 2 ^ (f.maxExponent - f.precision) := by positivity
  have hrange := hf.range
  rw [f.limit_eq] at hv
  obtain hlt | he | hgt := lt_trichotomy x.exponent (f.maxExponent - f.precision)
  · have hm : (x.mantissa : ℚ) ≤ 2 * f.binade := by exact_mod_cast h.mantissa_le
    have hb : (0 : ℚ) < 2 * f.binade := by exact_mod_cast Nat.mul_pos two_pos f.binade_pos
    calc x.toRat ≤ 2 * f.binade * 2 ^ x.exponent := by rw [Dyadic.toRat]; gcongr
      _ < 2 * f.binade * 2 ^ (f.maxExponent - f.precision) := by gcongr; norm_num
      _ = 2 ^ f.maxExponent := hf.two_mul_binade_zpow
  · have hnear := (abs_le.1 h.near).1
    rw [he] at hnear
    linarith
  · have hle : f.binade * 2 ^ x.exponent ≤ v := h.normal.resolve_left (by omega)
    have hstep := mul_le_mul_of_nonneg_left (two_mul_zpow_le hgt) (Nat.cast_nonneg f.binade)
    have hmax := hf.two_mul_binade_zpow
    linarith

theorem le_of_limit_le (hf : f.Proper) (h : f.Rounded v x) (hv : f.limit ≤ v) :
    2 ^ f.maxExponent ≤ x.toRat := by
  have hpow : (0 : ℚ) < 2 ^ (f.maxExponent - f.precision) := by positivity
  have hrange := hf.range
  have hmax := hf.two_mul_binade_zpow
  rw [f.limit_eq] at hv
  obtain hlt | he | hgt := lt_trichotomy x.exponent (f.maxExponent - f.precision)
  · have hfits := h.fits
    have hstep := mul_le_mul_of_nonneg_left (two_mul_zpow_le hlt) (Nat.cast_nonneg f.binade)
    have hone := f.zpow_le_mul (f.maxExponent - f.precision)
    linarith
  · -- The last significand is odd, so that a half above it is rounded up.
    by_contra! hlt
    have hnear := (abs_le.1 h.near).2
    have htie := h.tie
    rw [Dyadic.toRat, he, ← hmax] at hlt
    rw [Dyadic.toRat, he] at hnear htie
    have hm : x.mantissa + 1 ≤ 2 * f.binade := by
      exact_mod_cast lt_of_mul_lt_mul_right hlt hpow.le
    have hle : (x.mantissa + 1 : ℚ) ≤ 2 * f.binade := by exact_mod_cast hm
    have hstep := mul_le_mul_of_nonneg_right hle hpow.le
    have hhalf : v - x.mantissa * 2 ^ (f.maxExponent - f.precision) =
        2 ^ (f.maxExponent - f.precision) / 2 := by linarith
    have hge : 2 * f.binade ≤ x.mantissa + 1 := by
      have hmul : (2 * f.binade : ℚ) * 2 ^ (f.maxExponent - f.precision) ≤
          (x.mantissa + 1) * 2 ^ (f.maxExponent - f.precision) := by linarith
      exact_mod_cast le_of_mul_le_mul_right hmul hpow
    obtain ⟨i, hi⟩ : Even x.mantissa := htie (by rw [hhalf, abs_of_pos (by positivity)])
    omega
  · have hm : (f.binade : ℚ) ≤ x.mantissa := by
      exact_mod_cast h.le_mantissa.resolve_left (by omega)
    calc (2 : ℚ) ^ f.maxExponent = f.binade * (2 * 2 ^ (f.maxExponent - f.precision)) := by
          rw [← hmax]; ring
      _ ≤ f.binade * 2 ^ x.exponent := by gcongr; exact two_mul_zpow_le hgt
      _ ≤ x.toRat := by rw [Dyadic.toRat]; gcongr

end Rounded

theorem zpow_le_limit (hf : f.Proper) : 2 ^ f.minExponent ≤ f.limit := by
  have hrange := hf.range
  have hpow : (0 : ℚ) < 2 ^ (f.maxExponent - f.precision) := by positivity
  have hstep := f.zpow_le_mul (f.maxExponent - f.precision)
  have hmax := hf.two_mul_binade_zpow
  calc (2 : ℚ) ^ f.minExponent ≤ 2 ^ (f.maxExponent - f.precision) :=
        zpow_le_zpow_right₀ one_le_two (by omega)
    _ ≤ f.limit := by
      rw [limit_eq]
      linarith

theorem rounded_small (hv : 0 ≤ v) (h : v < 2 ^ f.minExponent / 2) :
    f.Rounded v ⟨0, f.minExponent⟩ := by
  have hdist : |v - Dyadic.toRat ⟨0, f.minExponent⟩| = v := by
    rw [Dyadic.toRat, Nat.cast_zero, zero_mul, sub_zero, abs_of_nonneg hv]
  refine ⟨le_rfl, ?_, .inl rfl, hdist.trans_le h.le, fun he => absurd (hdist.symm.trans he) h.ne⟩
  have hpow : (0 : ℚ) < 2 ^ f.minExponent := by positivity
  have hstep := f.zpow_le_mul f.minExponent
  simp only
  linarith

theorem Rounded.eq_zero (h : f.Rounded v x) (hv : v < 2 ^ f.minExponent / 2) :
    x = ⟨0, f.minExponent⟩ := by
  obtain ⟨m, e⟩ := x
  have hpow : (0 : ℚ) < 2 ^ e := by positivity
  have hlow : (2 : ℚ) ^ f.minExponent ≤ 2 ^ e := zpow_le_zpow_right₀ one_le_two h.lowest
  obtain rfl : e = f.minExponent := h.normal.resolve_right fun hle => by
    have hstep := f.zpow_le_mul e
    simp only at hle
    linarith
  have hnear := (abs_le.1 h.near).1
  simp only [Dyadic.toRat] at hnear
  have hlt : (m : ℚ) * 2 ^ f.minExponent < 1 * 2 ^ f.minExponent := by linarith
  have hm : (m : ℚ) < 1 := lt_of_mul_lt_mul_right hlt hpow.le
  obtain rfl : m = 0 := Nat.lt_one_iff.1 (by exact_mod_cast hm)
  rfl

theorem rounded_quotient (hf : f.Proper) {num den : Nat} (hn : 0 < num) (hd : 0 < den) {e : Int}
    (he : e = max f.minExponent (floorLog num den - (f.precision - 1 : Nat))) :
    f.Rounded (num / den) ⟨roundDiv (scaled num den e).1 (scaled num den e).2, e⟩ := by
  obtain ⟨hlow, hhigh⟩ := floorLog_spec hn hd
  obtain ⟨hnear, htie⟩ := roundDiv_near (scaled num den e).1 (scaled_pos num hd e)
  rw [scaled_quotient] at hnear htie
  have hprecision := hf.precision
  have hpow : (0 : ℚ) < 2 ^ e := by positivity
  have hdist : ∀ m : Nat,
      |(num / den : ℚ) - m * 2 ^ e| = |(num / den : ℚ) / 2 ^ e - m| * 2 ^ e := by
    intro m
    rw [← abs_of_pos hpow, ← abs_mul, abs_of_pos hpow, sub_mul, div_mul_cancel₀ _ hpow.ne']
  refine ⟨he ▸ le_max_left _ _, ?_, ?_, ?_, ?_⟩
  · have hb : (2 * f.binade : ℚ) = 2 ^ (f.precision : Int) := by exact_mod_cast hf.two_mul_binade
    rw [hb, ← zpow_add₀ two_ne_zero]
    have hle : floorLog num den + 1 ≤ f.precision + e := by omega
    exact hhigh.trans_le (zpow_le_zpow_right₀ one_le_two hle)
  · refine or_iff_not_imp_left.2 fun (hne : e ≠ f.minExponent) => ?_
    have hb : (f.binade : ℚ) = 2 ^ ((f.precision - 1 : Nat) : Int) := by
      rw [zpow_natCast, binade]
      push_cast
      rfl
    rw [hb, ← zpow_add₀ two_ne_zero]
    have hle : (f.precision - 1 : Nat) + e ≤ floorLog num den := by omega
    exact (zpow_le_zpow_right₀ one_le_two hle).trans hlow
  · rw [Dyadic.toRat, hdist]
    linarith [mul_le_mul_of_nonneg_right hnear hpow.le]
  · intro heq
    rw [Dyadic.toRat, hdist] at heq
    exact htie (mul_right_cancel₀ hpow.ne' (heq.trans (one_div_mul_eq_div _ _).symm))

theorem nearest?_rounds (hf : f.Proper) (num : Nat) {den : Nat} (hd : 0 < den) :
    f.Rounds (num / den) (f.nearest? num den) := by
  fun_cases nearest? f num den with
  | case1 hn =>
    have hpow : (0 : ℚ) < 2 ^ f.minExponent := by positivity
    rw [hn, Nat.cast_zero, zero_div]
    exact .number (hpow.trans_le (zpow_le_limit hf)) (rounded_small le_rfl (half_pos hpow))
  | case2 hn e a b hab m hout =>
    have hx := rounded_quotient hf (Nat.pos_of_ne_zero hn) hd (e := e) rfl
    rw [hab] at hx
    refine .outOfRange (not_lt.1 fun hv => ?_)
    exact (hx.lt_of_lt_limit hf hv).not_ge ((Dyadic.le_toRat_iff ⟨m, e⟩ _).1 hout)
  | case3 hn e a b hab m hin =>
    have hx := rounded_quotient hf (Nat.pos_of_ne_zero hn) hd (e := e) rfl
    rw [hab] at hx
    refine .number (not_le.1 fun hv => hin ?_) hx
    exact (Dyadic.le_toRat_iff ⟨m, e⟩ _).2 (hx.le_of_limit_le hf hv)

namespace Rounds

variable {w : ℚ} {o : Option Dyadic}

theorem of_limit_le (h : f.Rounds w o) (hw : f.limit ≤ w) (hv : f.limit ≤ v) : f.Rounds v o := by
  cases h with
  | outOfRange _ => exact .outOfRange hv
  | number hlt _ => exact absurd hw hlt.not_ge

theorem of_small (hf : f.Proper) (h : f.Rounds w o) (hw : w < 2 ^ f.minExponent / 2) (h0 : 0 ≤ v)
    (hv : v < 2 ^ f.minExponent / 2) : f.Rounds v o := by
  have hpow : (0 : ℚ) < 2 ^ f.minExponent := by positivity
  have hlimit := zpow_le_limit hf
  cases h with
  | outOfRange hle => linarith
  | number _ hx =>
    rw [hx.eq_zero hw]
    exact .number (by linarith) (rounded_small h0 hv)

end Rounds

end BinaryFormat

open BinaryFormat

theorem scaled_div {m j : Nat} {e : Int} (h : (m : ℚ) = j * 2 ^ e) :
    (scaled m 1 e).1 / (scaled m 1 e).2 = j := by
  have hpos := scaled_pos m Nat.one_pos e
  have hne : ((scaled m 1 e).2 : ℚ) ≠ 0 := by exact_mod_cast hpos.ne'
  have hpow : (2 : ℚ) ^ e ≠ 0 := by positivity
  have hq := scaled_quotient m 1 e
  rw [Nat.cast_one, div_one, h, mul_div_cancel_right₀ _ hpow, div_eq_iff hne] at hq
  exact Nat.div_eq_of_eq_mul_left hpos (by exact_mod_cast hq)

namespace Dyadic

theorem exists_significand {m : Nat} (h0 : 0 < m) (hm : m ≤ 2 ^ 53) :
    ∃ j : Nat, (m : ℚ) = j * 2 ^ ((m.log2 : Int) - 52) ∧ 2 ^ 52 ≤ j ∧ j ≤ 2 * 2 ^ 52 := by
  have hle : 2 ^ m.log2 ≤ m := Nat.log2_self_le h0.ne'
  have hlt : m < 2 ^ (m.log2 + 1) := Nat.lt_log2_self
  obtain hl | hl := Nat.lt_or_ge 52 m.log2
  · have hfull : 2 ^ 53 ≤ 2 ^ m.log2 := Nat.pow_le_pow_right two_pos hl
    obtain rfl : m = 2 ^ 53 := by omega
    refine ⟨2 ^ 52, ?_, le_rfl, by norm_num⟩
    rw [Nat.log2_two_pow]
    norm_num
  · obtain ⟨i, hi⟩ := Nat.exists_eq_add_of_le hl
    have hpow : (2 : Nat) ^ 52 = 2 ^ m.log2 * 2 ^ i := by rw [← Nat.pow_add, ← hi]
    refine ⟨m * 2 ^ i, ?_, ?_, ?_⟩
    · rw [show (m.log2 : Int) - 52 = -i by omega, zpow_neg, zpow_natCast]
      push_cast
      field_simp
    · rw [hpow]
      exact Nat.mul_le_mul_right _ hle
    · rw [hpow, ← Nat.mul_assoc, ← Nat.pow_succ']
      exact Nat.mul_le_mul_right _ hlt.le

theorem decode_bits (x : Dyadic) (hm : x.mantissa ≤ 2 ^ 53) (he : -1074 ≤ x.exponent) :
    double.decode x.bits = x.toRat := by
  have hb : double.binade = 2 ^ 52 := rfl
  have hmin : double.minExponent = -1074 := rfl
  fun_cases bits x with
  | case1 h0 => rw [decode_zero, toRat, h0, Nat.cast_zero, zero_mul]
  | case2 h0 top hlow a b hab =>
    obtain ⟨i, hi⟩ := Int.eq_ofNat_of_zero_le (show 0 ≤ x.exponent + 1074 by omega)
    have hexact : (x.mantissa : ℚ) = (x.mantissa * 2 ^ i : Nat) * 2 ^ (-1074 - x.exponent) := by
      rw [show -1074 - x.exponent = -(i : Int) by omega, zpow_neg, zpow_natCast]
      push_cast
      field_simp
    have hq : a / b = x.mantissa * 2 ^ i := by
      have hdiv := scaled_div hexact
      rwa [hab] at hdiv
    have hle : x.mantissa * 2 ^ i ≤ 2 * double.binade := by
      calc x.mantissa * 2 ^ i ≤ 2 ^ (x.mantissa.log2 + 1) * 2 ^ i :=
            Nat.mul_le_mul_right _ Nat.lt_log2_self.le
        _ = 2 ^ (x.mantissa.log2 + 1 + i) := (Nat.pow_add _ _ _).symm
        _ ≤ 2 ^ 53 := Nat.pow_le_pow_right two_pos (by omega)
    have hdecode := decode_eq (k := 0) hle (.inl rfl)
    rw [Nat.zero_mul, Nat.zero_add] at hdecode
    have hexp : x.exponent = i + (double.minExponent + (0 : Nat)) := by
      rw [hmin]
      omega
    rw [hq, hdecode, toRat, hexp, zpow_add₀ two_ne_zero (i : Int), zpow_natCast, ← mul_assoc,
      Nat.cast_mul, Nat.cast_pow, Nat.cast_two]
  | case3 h0 top hlow a b hab =>
    obtain ⟨j, hj, hjlow, hjhigh⟩ := exists_significand (Nat.pos_of_ne_zero h0) hm
    have hq : a / b = j := by
      have hdiv := scaled_div hj
      rwa [hab] at hdiv
    obtain ⟨k, hk⟩ := Int.eq_ofNat_of_zero_le (show 0 ≤ top + 1022 by omega)
    have hbits : (top + 1023).toNat * Nat.pow 2 52 + (a / b - Nat.pow 2 52) =
        k * double.binade + j := by
      rw [hq, hb, show (top + 1023).toNat = k + 1 by omega, Nat.pow_eq]
      omega
    have hexp : double.minExponent + k = (x.mantissa.log2 - 52) + x.exponent := by
      rw [hmin]
      omega
    rw [hbits, decode_eq hjhigh (.inr hjlow), toRat, hj, mul_assoc, ← zpow_add₀ two_ne_zero, hexp]

def IsDouble (x : Dyadic) : Prop := x.bits < double.infinity ∧ double.decode x.bits = x.toRat

theorem isDouble (x : Dyadic) (hm : x.mantissa ≤ 2 ^ 53) (he : -1074 ≤ x.exponent)
    (h : x.toRat < 2 ^ double.maxExponent) : x.IsDouble := by
  have hbits := x.decode_bits hm he
  exact ⟨by rwa [double_proper.lt_infinity, hbits], hbits⟩

end Dyadic

end Seanet
