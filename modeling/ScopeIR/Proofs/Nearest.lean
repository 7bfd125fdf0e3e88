import Mathlib.Data.Rat.Floor
import Mathlib.Data.Int.Log
import Mathlib.Tactic.FieldSimp
import Mathlib.Tactic.GCongr
import Mathlib.Tactic.Linarith
import Mathlib.Tactic.NormNum
import Mathlib.Tactic.Positivity
import Mathlib.Tactic.Ring
import ScopeIR.Number.Shortest

/-! Reading decimals as numbers. The number nearest to a decimal depends on its magnitude and
not on how it is spelled, a finite number is the nearest to itself, and so the shortest decimal
of a number reads back as that number. -/
namespace ScopeIR

theorem roundHalfEven_mul_left {k : Nat} (hk : 0 < k) (n d : Nat) :
    roundHalfEven (k * n) (k * d) = roundHalfEven n d := by
  have hrest : 2 * (k * n % (k * d)) = k * (2 * (n % d)) := by
    rw [Nat.mul_mod_mul_left, Nat.mul_left_comm]
  unfold roundHalfEven
  simp only [hrest, Nat.mul_div_mul_left n d hk, Nat.mul_lt_mul_left hk]

theorem roundHalfEven_congr {n d n' d' : Nat} (hd : 0 < d) (hd' : 0 < d')
    (h : (n : ℚ) / d = n' / d') : roundHalfEven n d = roundHalfEven n' d' := by
  have hcross : n * d' = n' * d := by
    rw [div_eq_div_iff (by positivity) (by positivity)] at h
    exact_mod_cast h
  calc roundHalfEven n d = roundHalfEven (d' * n) (d' * d) := (roundHalfEven_mul_left hd' n d).symm
    _ = roundHalfEven (d * n') (d * d') := by
      rw [Nat.mul_comm d' n, hcross, Nat.mul_comm n' d, Nat.mul_comm d' d]
    _ = roundHalfEven n' d' := roundHalfEven_mul_left hd n' d'

theorem roundHalfEven_one (n : Nat) : roundHalfEven n 1 = n := by
  simp [roundHalfEven, Nat.mod_one]

theorem pow2_pos (k : Nat) : 0 < pow2 k := Nat.pow_pos Nat.two_pos

theorem log_mul_zpow_lt_iff {b m : Nat} (hb : 1 < b) (hm : 0 < m) (e : Int) (k : Nat) :
    Int.log b ((m : ℚ) * (b : ℚ) ^ e) < k + e ↔ m < b ^ k := by
  have hb' : (0 : ℚ) < b := mod_cast Nat.zero_lt_of_lt hb
  rw [← Int.lt_zpow_iff_log_lt hb (mul_pos (mod_cast hm) (zpow_pos hb' e)), zpow_add₀ hb'.ne',
    zpow_natCast, mul_lt_mul_iff_left₀ (zpow_pos hb' e)]
  exact_mod_cast Iff.rfl

namespace Binary64

variable {n d n' d' : Nat}

theorem scaled_pos (hd : 0 < d) (e : Int) : 0 < (scaled n d e).2 := by
  unfold scaled
  split
  · exact Nat.mul_pos hd (pow2_pos _)
  · exact hd

theorem scaled_value (n d : Nat) (e : Int) :
    ((scaled n d e).1 : ℚ) / (scaled n d e).2 = n / d / 2 ^ e := by
  unfold scaled
  split
  · rename_i he
    obtain ⟨k, rfl⟩ := Int.eq_ofNat_of_zero_le he
    simp [pow2, div_div]
  · rename_i he
    obtain ⟨k, rfl⟩ : ∃ k : Nat, e = -k := ⟨(-e).toNat, by omega⟩
    simp [pow2, mul_div_right_comm]

theorem log_div_bounds (hn : 0 < n) (hd : 0 < d) :
    (n.log2 : Int) - d.log2 - 1 ≤ Int.log 2 ((n : ℚ) / d) ∧
      Int.log 2 ((n : ℚ) / d) ≤ n.log2 - d.log2 := by
  have hq : (0 : ℚ) < n / d := by positivity
  have hn₁ : (2 : ℚ) ^ n.log2 ≤ n := mod_cast Nat.log2_self_le hn.ne'
  have hn₂ : (n : ℚ) < 2 ^ (n.log2 + 1) := mod_cast Nat.lt_log2_self
  have hd₁ : (2 : ℚ) ^ d.log2 ≤ d := mod_cast Nat.log2_self_le hd.ne'
  have hd₂ : (d : ℚ) < 2 ^ (d.log2 + 1) := mod_cast Nat.lt_log2_self
  constructor
  · refine (Int.zpow_le_iff_le_log Nat.one_lt_two hq).mp ?_
    rw [show (n.log2 : Int) - d.log2 - 1 = (n.log2 : Int) - (d.log2 + 1 : Nat) by push_cast; ring,
      Nat.cast_ofNat, zpow_sub₀ two_ne_zero, zpow_natCast, zpow_natCast]
    gcongr
  · refine Int.lt_add_one_iff.mp ((Int.lt_zpow_iff_log_lt Nat.one_lt_two hq).mp ?_)
    rw [show (n.log2 : Int) - d.log2 + 1 = (n.log2 + 1 : Nat) - (d.log2 : Int) by push_cast; ring,
      Nat.cast_ofNat, zpow_sub₀ two_ne_zero, zpow_natCast, zpow_natCast]
    gcongr

theorem fittedExponent_eq (hn : 0 < n) (hd : 0 < d) :
    fittedExponent n d = Int.log 2 ((n : ℚ) / d) - 52 := by
  have hq : (0 : ℚ) < n / d := by positivity
  have hbounds := log_div_bounds hn hd
  have htest (e : Int) :
      (scaled n d e).1 < (scaled n d e).2 * pow2 52 ↔ Int.log 2 ((n : ℚ) / d) < e + 52 := by
    have hpos : (0 : ℚ) < (scaled n d e).2 := mod_cast scaled_pos hd e
    calc (scaled n d e).1 < (scaled n d e).2 * pow2 52
        ↔ ((scaled n d e).1 : ℚ) < (scaled n d e).2 * 2 ^ 52 := by
          norm_cast
      _ ↔ ((scaled n d e).1 : ℚ) / (scaled n d e).2 < 2 ^ 52 := (div_lt_iff₀' hpos).symm
      _ ↔ (n : ℚ) / d < 2 ^ (e + 52) := by
          rw [scaled_value, div_lt_iff₀ (zpow_pos two_pos e), zpow_add₀ two_ne_zero, mul_comm]
          norm_cast
      _ ↔ Int.log 2 ((n : ℚ) / d) < e + 52 := by
          rw [← Int.lt_zpow_iff_log_lt Nat.one_lt_two hq, Nat.cast_ofNat]
  unfold fittedExponent
  simp only [htest]
  split <;> omega

theorem nearestBits_congr (hn : 0 < n) (hd : 0 < d) (hn' : 0 < n') (hd' : 0 < d')
    (h : (n : ℚ) / d = n' / d') : nearestBits n d = nearestBits n' d' := by
  have hround (e : Int) : roundHalfEven (scaled n d e).1 (scaled n d e).2 =
      roundHalfEven (scaled n' d' e).1 (scaled n' d' e).2 := by
    refine roundHalfEven_congr (scaled_pos hd e) (scaled_pos hd' e) ?_
    rw [scaled_value, scaled_value, h]
  have hfitted : fittedExponent n d = fittedExponent n' d' := by
    rw [fittedExponent_eq hn hd, fittedExponent_eq hn' hd', h]
  unfold nearestBits
  simp only [hfitted, hround]

def value (x : Binary64) : ℚ := x.significand * 2 ^ x.exponent

variable {x : Binary64}

theorem of_subnormal (h : x.magnitudeBits < pow2 52) :
    x.significand = x.magnitudeBits ∧ x.exponent = -1074 := by
  unfold significand exponent
  rw [Nat.div_eq_of_lt h, Nat.mod_eq_of_lt h]
  exact ⟨if_pos h, rfl⟩

theorem of_normal (h : pow2 52 ≤ x.magnitudeBits) :
    x.significand = pow2 52 + x.magnitudeBits % pow2 52 ∧
      x.exponent = (x.magnitudeBits / pow2 52 : Nat) - 1075 := by
  have hone : 1 ≤ x.magnitudeBits / pow2 52 := (Nat.one_le_div_iff (pow2_pos 52)).mpr h
  unfold significand exponent
  rw [Nat.max_eq_left hone]
  exact ⟨if_neg (Nat.not_lt.mpr h), rfl⟩

/-- The exponent and the significand lie next to each other, and the leading bit of the
significand counts into the exponent. -/
theorem magnitudeBits_eq (x : Binary64) :
    (x.exponent + 1074).toNat * pow2 52 + x.significand = x.magnitudeBits := by
  rcases Nat.lt_or_ge x.magnitudeBits (pow2 52) with h | h
  · rw [(of_subnormal h).1, (of_subnormal h).2]
    exact Nat.zero_add _
  · have hone : 1 ≤ x.magnitudeBits / pow2 52 := (Nat.one_le_div_iff (pow2_pos 52)).mpr h
    have hdiv := Nat.div_add_mod x.magnitudeBits (pow2 52)
    rw [(of_normal h).1, (of_normal h).2]
    obtain ⟨k, hk⟩ := Nat.exists_eq_add_of_le' hone
    rw [hk] at hdiv ⊢
    have htoNat : (((k + 1 : Nat) : Int) - 1075 + 1074).toNat = k := by omega
    rw [htoNat, ← Nat.add_assoc, ← Nat.succ_mul, Nat.mul_comm]
    exact hdiv

theorem significand_pos (hz : x.isZero = false) : 0 < x.significand := by
  have hm : x.magnitudeBits ≠ 0 := by simpa [isZero] using hz
  rcases Nat.lt_or_ge x.magnitudeBits (pow2 52) with h | h
  · rw [(of_subnormal h).1]
    exact Nat.pos_of_ne_zero hm
  · rw [(of_normal h).1]
    exact Nat.add_pos_left (pow2_pos 52) _

theorem significand_lt (x : Binary64) : x.significand < 2 ^ 53 := by
  have hmod : x.magnitudeBits % pow2 52 < pow2 52 := Nat.mod_lt _ (pow2_pos 52)
  rcases Nat.lt_or_ge x.magnitudeBits (pow2 52) with h | h
  · rw [(of_subnormal h).1]
    exact Nat.lt_trans h (by decide)
  · rw [(of_normal h).1]
    exact Nat.add_lt_add_left hmod _

theorem value_pos (hz : x.isZero = false) : 0 < x.value :=
  mul_pos (mod_cast significand_pos hz) (zpow_pos two_pos _)

theorem exponent_bounds (hx : x.isFinite) : -1074 ≤ x.exponent ∧ x.exponent ≤ 971 := by
  have hbits : x.magnitudeBits < 2047 * pow2 52 := of_decide_eq_true hx
  have hdiv : x.magnitudeBits / pow2 52 < 2047 := Nat.div_lt_of_lt_mul (by rwa [Nat.mul_comm])
  unfold exponent
  omega

theorem max_log_value (hx : x.isFinite) (hz : x.isZero = false) :
    max (Int.log 2 x.value - 52) (-1074) = x.exponent := by
  have hlog := log_mul_zpow_lt_iff Nat.one_lt_two (significand_pos hz) x.exponent
  rw [Nat.cast_ofNat, ← value] at hlog
  rcases Nat.lt_or_ge x.magnitudeBits (pow2 52) with h | h
  · have hlog := (hlog 52).mpr ((of_subnormal h).1 ▸ h)
    have hexp := (of_subnormal h).2
    omega
  · have hlow : ¬ x.significand < 2 ^ 52 := by
      rw [(of_normal h).1]
      exact Nat.not_lt.mpr (Nat.le_add_right _ _)
    have h₁ := mt (hlog 52).mp hlow
    have h₂ := (hlog 53).mpr x.significand_lt
    have hexp := exponent_bounds hx
    omega

theorem round_scaled {k : Nat} {e : Int} (hd : 0 < d) (h : (n : ℚ) / d = k * 2 ^ e) :
    roundHalfEven (scaled n d e).1 (scaled n d e).2 = k := by
  have hvalue : ((scaled n d e).1 : ℚ) / (scaled n d e).2 = k / (1 : Nat) := by
    rw [scaled_value, h, mul_div_cancel_right₀ _ (zpow_ne_zero e two_ne_zero), Nat.cast_one,
      div_one]
  rw [roundHalfEven_congr (scaled_pos hd e) Nat.one_pos hvalue, roundHalfEven_one]

theorem nearestBits_value (hx : x.isFinite) (hz : x.isZero = false) (hn : 0 < n) (hd : 0 < d)
    (h : (n : ℚ) / d = x.value) : nearestBits n d = x.magnitudeBits := by
  have hmax : max (fittedExponent n d) (-1074) = x.exponent := by
    rw [fittedExponent_eq hn hd, h, max_log_value hx hz]
  unfold nearestBits
  dsimp only
  rw [hmax, round_scaled hd h, magnitudeBits_eq]

end Binary64

namespace Decimal

def value (d : Decimal) : ℚ := d.digits * 10 ^ d.scale

variable {d d' : Decimal}

theorem ratio_value (d : Decimal) : (d.ratio.1 : ℚ) / d.ratio.2 = d.value := by
  unfold ratio value
  split
  · rename_i he
    obtain ⟨k, hk⟩ := Int.eq_ofNat_of_zero_le he
    simp [hk, pow10]
  · rename_i he
    obtain ⟨k, hk⟩ : ∃ k : Nat, d.scale = -k := ⟨(-d.scale).toNat, by omega⟩
    simp [hk, pow10, div_eq_mul_inv]

theorem ratio_pos (h : 0 < d.digits) : 0 < d.ratio.1 ∧ 0 < d.ratio.2 := by
  have hpow (k : Nat) : 0 < pow10 k := Nat.pow_pos (by decide)
  unfold ratio
  split
  · exact ⟨Nat.mul_pos h (hpow _), Nat.one_pos⟩
  · exact ⟨h, hpow _⟩

theorem value_eq_zero_iff : d.value = 0 ↔ d.digits = 0 := by
  simp [value, zpow_ne_zero]

/-- The place of the first digit is the logarithm. -/
theorem places_eq (h : 0 < d.digits) :
    ((Nat.toDigits 10 d.digits).length : Int) + d.scale = Int.log 10 d.value + 1 := by
  have hlog := log_mul_zpow_lt_iff (by decide : 1 < 10) h d.scale
  rw [Nat.cast_ofNat, ← value] at hlog
  obtain ⟨k, hk⟩ := Nat.exists_eq_add_of_le' (Nat.length_toDigits_pos (b := 10) (n := d.digits))
  have hupper := (hlog (k + 1)).mpr ((Nat.length_toDigits_le_iff (by decide) k.succ_pos).mp hk.le)
  have hlower : ¬ d.digits < 10 ^ k := by
    rcases k.eq_zero_or_pos with rfl | hpos
    · simpa using h.ne'
    · rw [← Nat.length_toDigits_le_iff (by decide) hpos, hk]
      omega
  have := mt (hlog k).mp hlower
  rw [hk]
  push_cast at hupper ⊢
  omega

end Decimal

namespace Binary64

variable {x : Binary64} {d d' : Decimal}

theorem ofDecimal?_of_zero (negative : Bool) (h : d.digits = 0) :
    ofDecimal? negative d = some (ofMagnitude negative 0) := by
  simp [ofDecimal?, h]

theorem ofDecimal?_of_pos (negative : Bool) (h : 0 < d.digits) :
    ofDecimal? negative d =
      if Int.log 10 d.value + 1 < -400 then some (ofMagnitude negative 0)
      else if 400 < Int.log 10 d.value + 1 then none
      else if nearestBits d.ratio.1 d.ratio.2 < infinityBits then
        some (ofMagnitude negative (nearestBits d.ratio.1 d.ratio.2))
      else none := by
  simp only [ofDecimal?, Decimal.places_eq h, h.ne', decide_false, Bool.false_or,
    decide_eq_true_eq]

theorem ofDecimal?_congr (negative : Bool) (h : d.value = d'.value) :
    ofDecimal? negative d = ofDecimal? negative d' := by
  have hzero : d.digits = 0 ↔ d'.digits = 0 := by
    rw [← Decimal.value_eq_zero_iff, h, Decimal.value_eq_zero_iff]
  rcases d.digits.eq_zero_or_pos with hd | hd
  · rw [ofDecimal?_of_zero negative hd, ofDecimal?_of_zero negative (hzero.mp hd)]
  · have hd' : 0 < d'.digits := Nat.pos_of_ne_zero fun h0 => hd.ne' (hzero.mpr h0)
    have hbits : nearestBits d.ratio.1 d.ratio.2 = nearestBits d'.ratio.1 d'.ratio.2 := by
      have hr := Decimal.ratio_pos hd
      have hr' := Decimal.ratio_pos hd'
      refine nearestBits_congr hr.1 hr.2 hr'.1 hr'.2 ?_
      rw [d.ratio_value, d'.ratio_value, h]
    rw [ofDecimal?_of_pos negative hd, ofDecimal?_of_pos negative hd', h, hbits]

theorem two_zpow_le_ten_zpow {a k : Int} (hk : 0 ≤ k) (h : a ≤ 3 * k) :
    (2 : ℚ) ^ a ≤ 10 ^ k :=
  calc (2 : ℚ) ^ a ≤ 2 ^ (3 * k) := zpow_le_zpow_right₀ one_le_two h
    _ = 8 ^ k := by rw [zpow_mul]; norm_num
    _ ≤ 10 ^ k := zpow_le_zpow_left₀ hk (by norm_num) (by norm_num)

/-- Finite magnitudes lie far inside the decimals that are looked at. -/
theorem log_value_bounds (hx : x.isFinite) (hz : x.isZero = false) :
    -401 ≤ Int.log 10 x.value ∧ Int.log 10 x.value < 400 := by
  have hpos := value_pos hz
  have hexp := exponent_bounds hx
  have hsig : (1 : ℚ) ≤ x.significand := mod_cast significand_pos hz
  have hsig' : (x.significand : ℚ) < 2 ^ (53 : Int) := mod_cast x.significand_lt
  have hlower : (2 : ℚ) ^ (-1074 : Int) ≤ x.value :=
    calc (2 : ℚ) ^ (-1074 : Int) ≤ 2 ^ x.exponent := zpow_le_zpow_right₀ one_le_two hexp.1
      _ ≤ x.value := le_mul_of_one_le_left (zpow_pos two_pos _).le hsig
  have hupper : x.value < 2 ^ (1024 : Int) :=
    calc x.value < 2 ^ (53 : Int) * 2 ^ x.exponent :=
          mul_lt_mul_of_pos_right hsig' (zpow_pos two_pos _)
      _ ≤ 2 ^ (53 : Int) * 2 ^ (971 : Int) :=
          mul_le_mul_of_nonneg_left (zpow_le_zpow_right₀ one_le_two hexp.2) (by norm_num)
      _ = 2 ^ (1024 : Int) := (zpow_add₀ two_ne_zero 53 971).symm
  refine ⟨(Int.zpow_le_iff_le_log (by decide) hpos).mp (le_trans ?_ hlower),
    (Int.lt_zpow_iff_log_lt (by decide) hpos).mp (hupper.trans_le ?_)⟩
  · rw [Nat.cast_ofNat, zpow_neg, zpow_neg]
    exact inv_anti₀ (zpow_pos two_pos _) (two_zpow_le_ten_zpow (by decide) (by decide))
  · exact two_zpow_le_ten_zpow (by decide) (by decide)

theorem ofDecimal?_of_value_eq (negative : Bool) (hx : x.isFinite) (hz : x.isZero = false)
    (h : d.value = x.value) :
    ofDecimal? negative d = some (ofMagnitude negative x.magnitudeBits) := by
  have hd : 0 < d.digits := Nat.pos_of_ne_zero fun h0 =>
    (value_pos hz).ne' (h ▸ Decimal.value_eq_zero_iff.mpr h0)
  have hr := Decimal.ratio_pos hd
  have hbits := nearestBits_value hx hz hr.1 hr.2 (d.ratio_value.trans h)
  have hbounds := log_value_bounds hx hz
  rw [ofDecimal?_of_pos negative hd, hbits, h, if_neg (by omega), if_neg (by omega),
    if_pos (of_decide_eq_true hx)]

theorem magnitudeBits_ofMagnitude (negative : Bool) {bits : Nat} (h : bits < pow2 63) :
    (ofMagnitude negative bits).magnitudeBits = bits := by
  have hpow : pow2 63 = 9223372036854775808 := rfl
  rw [hpow] at h
  cases negative <;> simp [ofMagnitude, magnitudeBits, hpow] <;> omega

theorem ofMagnitude_magnitudeBits (x : Binary64) :
    ofMagnitude x.negative x.magnitudeBits = x := by
  obtain ⟨bits⟩ := x
  have hlt := bits.toNat_lt
  have hpow : pow2 63 = 9223372036854775808 := rfl
  simp only [ofMagnitude, magnitudeBits, negative, mk.injEq, hpow, decide_eq_true_eq]
  apply UInt64.toNat.inj
  rw [UInt64.toNat_ofNat']
  split <;> omega

theorem ofDecimal?_sign (negative : Bool) (d : Decimal) :
    ofDecimal? negative d =
      (ofDecimal? false d).map fun y => ofMagnitude negative y.magnitudeBits := by
  have hinf : infinityBits < pow2 63 := by decide
  rcases d.digits.eq_zero_or_pos with hd | hd
  · rw [ofDecimal?_of_zero _ hd, ofDecimal?_of_zero _ hd, Option.map_some,
      magnitudeBits_ofMagnitude false (pow2_pos 63)]
  · rw [ofDecimal?_of_pos _ hd, ofDecimal?_of_pos _ hd]
    split
    · rw [Option.map_some, magnitudeBits_ofMagnitude false (pow2_pos 63)]
    · split
      · rfl
      · split
        · rename_i hlt
          rw [Option.map_some, magnitudeBits_ofMagnitude false (hlt.trans hinf)]
        · rfl

theorem exactDecimal_value (x : Binary64) : x.exactDecimal.value = x.value := by
  unfold exactDecimal Decimal.value value
  split
  · rename_i he
    obtain ⟨k, hk⟩ := Int.eq_ofNat_of_zero_le he
    simp [hk, pow2]
  · rename_i he
    obtain ⟨k, hk⟩ : ∃ k : Nat, x.exponent = -k := ⟨(-x.exponent).toNat, by omega⟩
    have hten : (5 : ℚ) ^ k * ((10 : ℚ) ^ k)⁻¹ = (2 ^ k)⁻¹ := by
      rw [show (10 : ℚ) = 5 * 2 by norm_num, mul_pow]
      field_simp
    simp [hk, pow5, mul_assoc, hten]

theorem readsBack_shortest (hx : x.isFinite) : x.readsBack x.shortest := by
  unfold shortest
  split
  · rename_i hz
    have hbits : x.magnitudeBits = 0 := by simpa [isZero] using hz
    simp [readsBack, abs, hbits, ofDecimal?_of_zero]
  · rename_i hz
    cases hs : (List.range 17).findSome? fun n => x.decimalWithin (n + 1) with
    | none =>
      have hexact := ofDecimal?_of_value_eq false hx (Bool.eq_false_of_not_eq_true hz)
        x.exactDecimal_value
      simp [readsBack, abs, hexact]
    | some d =>
      obtain ⟨n, -, hn⟩ := List.exists_of_findSome?_eq_some hs
      exact List.find?_some hn

theorem ofDecimal?_shortest (hx : x.isFinite) : ofDecimal? false x.shortest = some x.abs := by
  simpa [readsBack] using readsBack_shortest hx

theorem magnitudeBits_abs (x : Binary64) : x.abs.magnitudeBits = x.magnitudeBits :=
  magnitudeBits_ofMagnitude false (Nat.mod_lt _ (pow2_pos 63))

theorem shortest_digits_pos (hx : x.isFinite) (hz : x.isZero = false) : 0 < x.shortest.digits := by
  refine Nat.pos_of_ne_zero fun h => ?_
  have hzero := (ofDecimal?_of_zero false h).symm.trans (ofDecimal?_shortest hx)
  have hbits := congrArg magnitudeBits (Option.some.inj hzero)
  rw [magnitudeBits_ofMagnitude false (pow2_pos 63), magnitudeBits_abs] at hbits
  simp [isZero, ← hbits] at hz

/-- Any spelling of the shortest decimal, with the sign of the number, reads back. -/
theorem ofDecimal?_of_shortest_value (hx : x.isFinite) (h : d.value = x.shortest.value) :
    ofDecimal? x.negative d = some x := by
  rw [ofDecimal?_congr _ h, ofDecimal?_sign, ofDecimal?_shortest hx, Option.map_some,
    magnitudeBits_abs, ofMagnitude_magnitudeBits]

end Binary64

end ScopeIR
