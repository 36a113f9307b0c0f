import Mathlib.Tactic.Ring
import LineCalc.Number.Layout

/-!
# Decimals and the codes that they round to

A decimal is a fraction of two naturals, and its code is the one nearest to this fraction
(`Decimal.code_eq`): the two shortcuts, for decimals that are too large or too small, agree with the
rounding. So the code depends on the value of a decimal and not on how it is written
(`Decimal.code_mul_pow`).

Every finite magnitude is a decimal, and rounds to its own code (`Shortest.code_exact`). All other
decimals that the search for the shortest one considers are compared with the code before they are
taken, so the one that is displayed rounds to it as well (`Binary64.code_shortest`).
-/

namespace LineCalc

namespace Binary64

/-! ## Rounding of fractions -/

/-- A fraction is rounded as it is in other terms. -/
theorem roundDiv_mul_right (num den : Nat) {k : Nat} (hk : 0 < k) :
    roundDiv (num * k) (den * k) = roundDiv num den := by
  have hquotient : num * k / (den * k) = num / den := Nat.mul_div_mul_right num den hk
  have hremainder : num * k % (den * k) = num % den * k := Nat.mul_mod_mul_right k num den
  have htwice : 2 * (num % den * k) = 2 * (num % den) * k := (Nat.mul_assoc 2 _ k).symm
  have hlt : 2 * (num % den) * k < den * k ↔ 2 * (num % den) < den := Nat.mul_lt_mul_right hk
  have heq : 2 * (num % den) * k = den * k ↔ 2 * (num % den) = den :=
    Nat.mul_left_inj (Nat.pos_iff_ne_zero.mp hk)
  unfold roundDiv
  simp only [hquotient, hremainder, htwice, hlt, heq]

/-- So is a fraction of units. -/
theorem roundUnits_mul_right (num den : Nat) {k : Nat} (hk : 0 < k) :
    roundUnits (num * k) (den * k) = roundUnits num den := by
  have hquotient : num * k / (den * k) = num / den := Nat.mul_div_mul_right num den hk
  have hshift : ∀ scale, (den * k) <<< scale = (den <<< scale) * k := by
    intro scale
    rw [Nat.shiftLeft_eq, Nat.shiftLeft_eq, Nat.mul_right_comm]
  unfold roundUnits
  simp only [hquotient, hshift, roundDiv_mul_right _ _ hk]

/-- Equal fractions have the same code, in units of any power of two. -/
theorem roundUnits_shift_congr (unit : Nat) {num den num' den' : Nat} (hden : 0 < den)
    (hden' : 0 < den') (h : num * den' = num' * den) :
    roundUnits (num <<< unit) den = roundUnits (num' <<< unit) den' := by
  have hscaled : num <<< unit * den' = num' <<< unit * den := by
    rw [Nat.shiftLeft_eq, Nat.shiftLeft_eq, Nat.mul_right_comm, h, Nat.mul_right_comm]
  calc roundUnits (num <<< unit) den
      = roundUnits (num <<< unit * den') (den * den') := (roundUnits_mul_right _ _ hden').symm
    _ = roundUnits (num' <<< unit * den) (den' * den) := by rw [hscaled, Nat.mul_comm den]
    _ = roundUnits (num' <<< unit) den' := roundUnits_mul_right _ _ hden

/-- A number of units in terms of a power of ten. -/
theorem roundUnits_five_pow (num unit : Nat) :
    roundUnits ((num * 5 ^ unit) <<< unit) (10 ^ unit) = roundUnits num 1 := by
  have hten : (num * 5 ^ unit) <<< unit = num * 10 ^ unit := by
    rw [Nat.shiftLeft_eq, Nat.mul_assoc, ← Nat.mul_pow]
  have hterms := roundUnits_mul_right num 1 (Nat.pow_pos (n := unit) (show 0 < 10 by decide))
  rw [Nat.one_mul] at hterms
  rw [hten, hterms]

/-- At most half a unit rounds to zero. -/
theorem roundUnits_of_two_mul_le {num den : Nat} (h : 2 * num ≤ den) : roundUnits num den = 0 := by
  have hlt : num < den ∨ (num = 0 ∧ den = 0) := by omega
  have hquotient : num / den = 0 := by
    rcases hlt with hlt | ⟨rfl, rfl⟩
    · exact Nat.div_eq_of_lt hlt
    · rfl
  have hremainder : num % den = num := by
    rcases hlt with hlt | ⟨rfl, rfl⟩
    · exact Nat.mod_eq_of_lt hlt
    · rfl
  have hround : roundDiv num den = 0 := by
    unfold roundDiv
    rw [hquotient, hremainder]
    exact if_pos (by omega)
  unfold roundUnits
  rw [hquotient]
  show min infinityCode (0 * binade + roundDiv num (den <<< 0)) = 0
  rw [Nat.shiftLeft_zero, hround]
  rfl

/-- So does a fraction of at most half a unit. -/
theorem roundUnits_shift_of_le {unit bits num den : Nat} (hbits : unit < bits)
    (h : num * 2 ^ bits ≤ den) : roundUnits (num <<< unit) den = 0 := by
  have hpow : 2 ^ (unit + 1) ≤ 2 ^ bits := Nat.pow_le_pow_right (by decide) hbits
  refine roundUnits_of_two_mul_le ?_
  calc 2 * num <<< unit = num * 2 ^ (unit + 1) := by rw [Nat.shiftLeft_eq, Nat.pow_succ]; ring
    _ ≤ num * 2 ^ bits := Nat.mul_le_mul_left num hpow
    _ ≤ den := h

/-- A fraction of at least `2^2098` units, which are `2^1024`, is infinite. -/
theorem roundUnits_shift_of_ge {unit bits num den : Nat} (hden : 0 < den)
    (hbits : 2098 ≤ bits + unit) (h : 2 ^ bits * den ≤ num) :
    roundUnits (num <<< unit) den = infinityCode := by
  have hscaled : 2 ^ (bits + unit) * den ≤ num <<< unit := by
    rw [Nat.shiftLeft_eq, Nat.pow_add, Nat.mul_right_comm]
    exact Nat.mul_le_mul_right _ h
  generalize num <<< unit = scaled at hscaled
  have hquotient : 2 ^ (bits + unit) ≤ scaled / den := (Nat.le_div_iff_mul_le hden).mpr hscaled
  have hpos : scaled / den ≠ 0 := by
    have := Nat.two_pow_pos (bits + unit)
    omega
  have hlog : 2098 ≤ (scaled / den).log2 :=
    Nat.le_trans hbits ((Nat.le_log2 hpos).mpr hquotient)
  -- Of the bits of the quotient 53 are kept, and the first of them is one.
  have hround : 2 ^ 52 ≤ roundDiv scaled (den <<< ((scaled / den).log2 - 52)) := by
    have hkept : 2 ^ 52 * 2 ^ ((scaled / den).log2 - 52) ≤ scaled / den := by
      rw [← Nat.pow_add, Nat.add_sub_cancel' (by omega)]
      exact Nat.log2_self_le hpos
    have hdiv : 2 ^ 52 ≤ scaled / (den <<< ((scaled / den).log2 - 52)) := by
      rw [Nat.shiftLeft_eq, ← Nat.div_div_eq_div_mul]
      exact (Nat.le_div_iff_mul_le (Nat.two_pow_pos _)).mpr hkept
    unfold roundDiv
    dsimp only
    split
    · exact hdiv
    · exact Nat.le_succ_of_le hdiv
  unfold roundUnits
  refine Nat.min_eq_left ?_
  generalize roundDiv _ _ = rounded at hround
  generalize (scaled / den).log2 = log at hlog
  simp only [infinityCode, binade]
  omega

/-! ## Magnitudes -/

/-- A code is made up of its scale and its significand, which has its first bit if it is scaled. -/
theorem significand_bounds (code : Nat) : code = scale code * binade + significand code ∧
    significand code < 2 * binade ∧ (0 < scale code → binade ≤ significand code) := by
  have hdiv := Nat.div_add_mod code binade
  have hmod := Nat.mod_lt code (show 0 < binade by decide)
  unfold significand scale
  simp only [binade] at *
  omega

/-- The bits of a scaled significand that are too many for a quotient. -/
theorem log2_significand {m s : Nat} (hlt : m < 2 ^ 53) (hfirst : 0 < s → 2 ^ 52 ≤ m) :
    (m * 2 ^ s).log2 - 52 = s := by
  by_cases hs : s = 0
  · subst hs
    rw [Nat.pow_zero, Nat.mul_one]
    by_cases hm : m = 0
    · subst hm
      rfl
    · have := (Nat.log2_lt hm).mpr hlt
      omega
  · have hfirst := hfirst (Nat.pos_of_ne_zero hs)
    have hpos : m * 2 ^ s ≠ 0 := Nat.mul_ne_zero (by omega) (Nat.two_pow_pos s).ne'
    have hlow : 52 + s ≤ (m * 2 ^ s).log2 := by
      rw [Nat.le_log2 hpos, Nat.pow_add]
      exact Nat.mul_le_mul_right _ hfirst
    have hhigh : (m * 2 ^ s).log2 < 53 + s := by
      rw [Nat.log2_lt hpos, Nat.pow_add]
      exact Nat.mul_lt_mul_of_pos_right hlt (Nat.two_pow_pos s)
    omega

/-- The magnitude of a finite code rounds to the code. -/
theorem roundUnits_units {code : Nat} (h : code < infinityCode) :
    roundUnits (units code) 1 = code := by
  obtain ⟨hcode, hlt, hfirst⟩ := significand_bounds code
  unfold units
  generalize significand code = m at hcode hlt hfirst
  generalize scale code = s at hcode hfirst
  have hround : roundDiv (m * 2 ^ s) (1 * 2 ^ s) = m := by
    rw [roundDiv_mul_right _ _ (Nat.two_pow_pos s)]
    simp [roundDiv, Nat.mod_one]
  unfold roundUnits
  rw [Nat.shiftLeft_eq, Nat.div_one, log2_significand hlt hfirst]
  simp only [Nat.shiftLeft_eq, hround]
  rw [← hcode]
  exact Nat.min_eq_right (Nat.le_of_lt h)

end Binary64

/-! ## Decimals -/

/-- Powers of ten are above powers of two with not much more than three times their exponents. -/
theorem two_pow_le_ten_pow {bits places : Nat} (h : 28 * bits ≤ 93 * places) :
    2 ^ bits ≤ 10 ^ places := by
  have hpow : (2 ^ bits) ^ 28 ≤ (10 ^ places) ^ 28 := by
    calc (2 ^ bits) ^ 28 = 2 ^ (28 * bits) := by rw [← Nat.pow_mul, Nat.mul_comm]
      _ ≤ 2 ^ (93 * places) := Nat.pow_le_pow_right (by decide) h
      _ = (2 ^ 93) ^ places := Nat.pow_mul ..
      _ ≤ (10 ^ 28) ^ places := Nat.pow_le_pow_left (by decide) places
      _ = (10 ^ places) ^ 28 := by rw [← Nat.pow_mul, ← Nat.pow_mul, Nat.mul_comm]
  exact (Nat.pow_le_pow_iff_left (by decide)).mp hpow

/-- A natural is less than a power of ten with a third of its bits. -/
theorem lt_ten_pow_log2 (n : Nat) : n < 10 ^ (n.log2 / 3 + 1) := by
  have hbits : n.log2 + 1 ≤ 3 * (n.log2 / 3 + 1) := by omega
  calc n < 2 ^ (n.log2 + 1) := Nat.lt_log2_self
    _ ≤ 2 ^ (3 * (n.log2 / 3 + 1)) := Nat.pow_le_pow_right (by decide) hbits
    _ = (2 ^ 3) ^ (n.log2 / 3 + 1) := Nat.pow_mul ..
    _ ≤ 10 ^ (n.log2 / 3 + 1) := Nat.pow_le_pow_left (by decide) _

namespace Decimal

open Binary64

/-- The numerator of a decimal as a fraction. -/
def numerator (d : Decimal) : Nat :=
  d.digits * 10 ^ d.exponent.toNat

/-- The denominator of a decimal as a fraction. -/
def denominator (d : Decimal) : Nat :=
  10 ^ (-d.exponent).toNat

/-- A denominator is not zero. -/
theorem denominator_pos (d : Decimal) : 0 < d.denominator :=
  Nat.pow_pos (by decide)

/-- A decimal of at least `10^309` is infinite. -/
theorem nearestCode_of_large {d : Decimal} (hdigits : d.digits ≠ 0) (h : 309 ≤ d.exponent) :
    nearestCode d.numerator d.denominator = infinityCode := by
  obtain ⟨bits, hbits⟩ : ∃ bits, bits = 1024 := ⟨_, rfl⟩
  have hden : d.denominator = 1 := by
    have hexponent : (-d.exponent).toNat = 0 := by omega
    rw [denominator, hexponent, Nat.pow_zero]
  have hnum : 2 ^ bits * d.denominator ≤ d.numerator := by
    calc 2 ^ bits * d.denominator = 2 ^ bits := by rw [hden, Nat.mul_one]
      _ ≤ 10 ^ d.exponent.toNat := two_pow_le_ten_pow (by omega)
      _ ≤ d.numerator := Nat.le_mul_of_pos_left _ (Nat.pos_of_ne_zero hdigits)
  unfold nearestCode
  exact roundUnits_shift_of_ge d.denominator_pos (by omega) hnum

/-- A decimal of at most `10^(-324)` rounds to zero. -/
theorem nearestCode_of_small {d : Decimal} (h : d.exponent + (d.digits.log2 / 3 + 1) ≤ -324) :
    nearestCode d.numerator d.denominator = 0 := by
  obtain ⟨bits, hbits⟩ : ∃ bits, bits = 1075 := ⟨_, rfl⟩
  obtain ⟨places, hplaces⟩ : ∃ places, places = 324 := ⟨_, rfl⟩
  have hnum : d.numerator = d.digits := by
    have hexponent : d.exponent.toNat = 0 := by omega
    rw [numerator, hexponent, Nat.pow_zero, Nat.mul_one]
  have hden : d.numerator * 2 ^ bits ≤ d.denominator := by
    have hpow : 2 ^ bits ≤ 10 ^ places := two_pow_le_ten_pow (by omega)
    calc d.numerator * 2 ^ bits
        ≤ 10 ^ (d.digits.log2 / 3 + 1) * 10 ^ places := by
          rw [hnum]
          exact Nat.mul_le_mul (Nat.le_of_lt (lt_ten_pow_log2 _)) hpow
      _ = 10 ^ (d.digits.log2 / 3 + 1 + places) := (Nat.pow_add ..).symm
      _ ≤ d.denominator := Nat.pow_le_pow_right (by decide) (by omega)
  unfold nearestCode
  exact roundUnits_shift_of_le (by omega) hden

/-- The code of a decimal is the one nearest to it as a fraction. -/
theorem code_eq (d : Decimal) : d.code = nearestCode d.numerator d.denominator := by
  unfold code
  split
  · next hzero =>
    have hnum : d.numerator = 0 := by rw [numerator, hzero, Nat.zero_mul]
    unfold nearestCode
    rw [hnum, Nat.zero_shiftLeft, roundUnits_of_two_mul_le (Nat.zero_le _)]
  · next hdigits =>
    split
    · next h => exact (nearestCode_of_large hdigits h).symm
    · split
      · next h => exact (nearestCode_of_small h).symm
      · split
        · next h =>
          have hexponent : (-d.exponent).toNat = 0 := by omega
          rw [denominator, hexponent, Nat.pow_zero]
          rfl
        · next h =>
          have hexponent : d.exponent.toNat = 0 := by omega
          rw [numerator, hexponent, Nat.pow_zero, Nat.mul_one]
          rfl

/-- Zeros at the end of the digits count as powers of ten. -/
theorem code_mul_pow (digits k : Nat) (exponent : Int) :
    code ⟨digits * 10 ^ k, exponent⟩ = code ⟨digits, exponent + k⟩ := by
  rw [code_eq, code_eq]
  unfold nearestCode
  refine roundUnits_shift_congr _ (denominator_pos _) (denominator_pos _) ?_
  show digits * 10 ^ k * 10 ^ exponent.toNat * 10 ^ (-(exponent + k)).toNat =
    digits * 10 ^ (exponent + k).toNat * 10 ^ (-exponent).toNat
  have hexponents : k + exponent.toNat + (-(exponent + k)).toNat =
      (exponent + k).toNat + (-exponent).toNat := by omega
  calc digits * 10 ^ k * 10 ^ exponent.toNat * 10 ^ (-(exponent + k)).toNat
      = digits * 10 ^ (k + exponent.toNat + (-(exponent + k)).toNat) := by ring
    _ = digits * 10 ^ (exponent + k).toNat * 10 ^ (-exponent).toNat := by
      rw [hexponents]
      ring

/-- Without zeros at its end a decimal has the same code. -/
theorem code_dropZeros (fuel : Nat) (d : Decimal) : (dropZeros fuel d).code = d.code := by
  induction fuel generalizing d with
  | zero => rfl
  | succ fuel ih =>
    unfold dropZeros
    split
    · next hzero =>
      have hdigits : d.digits = d.digits / 10 * 10 ^ 1 := by omega
      have hscaled := code_mul_pow (d.digits / 10) 1 d.exponent
      rw [← hdigits] at hscaled
      exact (ih _).trans hscaled.symm
    · rfl

end Decimal

/-! ## Shortest decimals -/

namespace Shortest

open Binary64

/-- A finite magnitude as a decimal has its code. -/
theorem code_exact {code : Nat} (h : code < infinityCode) : (exact code).code = code := by
  obtain ⟨unit, hunit⟩ : ∃ unit : Nat, unit = 1074 := ⟨_, rfl⟩
  have hexact : exact code = ⟨units code * 5 ^ unit, -unit⟩ := by
    have hneg : (-1074 : Int) = -unit := by omega
    unfold exact
    rw [hneg, ← hunit]
    rfl
  have hnearest : (exact code).code = roundUnits ((units code * 5 ^ unit) <<< unit) (10 ^ unit) := by
    rw [Decimal.code_eq, hexact]
    unfold nearestCode Decimal.numerator Decimal.denominator
    rw [← hunit]
    simp
  rw [hnearest, roundUnits_five_pow, roundUnits_units h]

/-- A decimal of the grid is taken only if it has the code. -/
theorem code_onGrid? {code : Nat} {exponent : Int} {d : Decimal}
    (h : onGrid? code exponent = some d) : d.code = code := by
  unfold onGrid? at h
  dsimp only at h
  split at h
  · next hbelow =>
    split at h
    · next habove =>
      obtain rfl := Option.some.inj h
      exact habove.1
    · obtain rfl := Option.some.inj h
      exact hbelow
  · split at h
    · next habove =>
      obtain rfl := Option.some.inj h
      exact habove
    · cases h

/-- The shortest decimal of a code has the code. -/
theorem code_decimal {code : Nat} (h : code < infinityCode) : (decimal code).code = code := by
  unfold decimal Decimal.reduced
  rw [Decimal.code_dropZeros]
  cases hfound : (List.range 17).findSome? fun (places : Nat) =>
      onGrid? code (leadingPower code - places) with
  | none => exact code_exact h
  | some d =>
    obtain ⟨places, -, hplaces⟩ := List.exists_of_findSome?_eq_some hfound
    exact code_onGrid? hplaces

end Shortest

/-- The decimal that is displayed has the code. -/
theorem Binary64.code_shortest {code : Nat} (h : code < infinityCode) :
    (Binary64.shortest code).code = code := by
  unfold Binary64.shortest
  split
  · next hzero =>
    subst hzero
    rfl
  · exact Shortest.code_decimal h

end LineCalc
