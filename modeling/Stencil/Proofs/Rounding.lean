import Mathlib.Algebra.Order.Ring.Nat

/-! # Rounding to 53 bits

What the rounding of the float model does with a number that has no fraction: it keeps 53 significant bits
and takes the nearest number that has no more, of two the one that is even at its last bit. -/
namespace Stencil.Number.Rounding
open Float.Model Float.Model.UnpackedFloat

/-! ## The nearest multiple -/

/-- The whole number nearest to the quotient, of two the even one. -/
def divNearest (n d : Nat) : Nat :=
  if 2 * (n % d) < d then n / d
  else if 2 * (n % d) = d then n / d + n / d % 2
  else n / d + 1

theorem div_le_divNearest (n d : Nat) : n / d ≤ divNearest n d := by
  unfold divNearest
  split
  · exact Nat.le_refl _
  · split <;> omega

theorem divNearest_le (n d : Nat) : divNearest n d ≤ n / d + 1 := by
  unfold divNearest
  split
  · omega
  · split <;> omega

theorem divNearest_one (n : Nat) : divNearest n 1 = n := by
  simp [divNearest, Nat.mod_one]

theorem divNearest_mul_right {c : Nat} (hc : 0 < c) (n d : Nat) :
    divNearest (n * c) (d * c) = divNearest n d := by
  unfold divNearest
  simp only [Nat.mul_mod_mul_right, Nat.mul_div_mul_right n d hc, ← Nat.mul_assoc,
    Nat.mul_lt_mul_right hc, Nat.mul_left_inj (Nat.ne_of_gt hc)]

theorem divNearest_mono {m n : Nat} (h : m ≤ n) (d : Nat) : divNearest m d ≤ divNearest n d := by
  have hdiv : m / d ≤ n / d := Nat.div_le_div_right h
  have hm := Nat.div_add_mod m d
  have hn := Nat.div_add_mod n d
  rcases Nat.lt_or_eq_of_le hdiv with hlt | heq
  · exact (divNearest_le m d).trans ((Nat.succ_le_of_lt hlt).trans (div_le_divNearest n d))
  · -- with the same quotient the remainders are in order
    rw [heq] at hm
    have hmod : m % d ≤ n % d := by omega
    unfold divNearest
    rw [heq]
    split <;> split <;> (try split) <;> (try split) <;> omega

/-- The nearest multiple is at most half a step away. -/
theorem divNearest_near (n : Nat) {d : Nat} (hd : 0 < d) :
    2 * (divNearest n d * d) ≤ 2 * n + d ∧ 2 * n ≤ 2 * (divNearest n d * d) + d := by
  have hn := Nat.div_add_mod n d
  have hlt := Nat.mod_lt n hd
  have hdown : n / d * d = d * (n / d) := Nat.mul_comm ..
  have hup : (n / d + 1) * d = d * (n / d) + d := by rw [Nat.add_mul, Nat.one_mul, Nat.mul_comm]
  unfold divNearest
  split
  · omega
  · split
    · rcases Nat.mod_two_eq_zero_or_one (n / d) with h | h
      · rw [h, Nat.add_zero]
        omega
      · rw [h]
        omega
    · omega

/-! ## The residual bits -/

/-- The mantissa of a number without its last bits, and what the residual bits tell of these: whether they
are at least one half, and whether they are anything else than nothing or one half. -/
structure Shifted (n bits : Nat) (em : ExtendedMantissa) : Prop where
  mantissa_eq : em.mantissa = n / 2 ^ bits
  round_iff : em.roundBit = true ↔ 2 ^ bits ≤ 2 * (n % 2 ^ bits)
  sticky_iff : em.stickyBit = true ↔ n % 2 ^ bits ≠ 0 ∧ 2 * (n % 2 ^ bits) ≠ 2 ^ bits

theorem shifted_zero (n : Nat) : Shifted n 0 ⟨n, false, false⟩ := by
  constructor <;> simp [Nat.mod_one]

theorem Shifted.succ {n bits : Nat} {em : ExtendedMantissa} (h : Shifted n bits em) :
    Shifted n (bits + 1) em.shiftRightOne := by
  have hpos : 0 < 2 ^ bits := Nat.two_pow_pos bits
  have hlt : n % 2 ^ bits < 2 ^ bits := Nat.mod_lt n hpos
  have hmod : n % 2 ^ (bits + 1) = n % 2 ^ bits + 2 ^ bits * (n / 2 ^ bits % 2) := by
    rw [Nat.pow_succ, Nat.mod_mul]
  have hpow : 2 ^ (bits + 1) = 2 * 2 ^ bits := Nat.pow_succ'
  have hround := h.round_iff
  have hsticky := h.sticky_iff
  constructor
  · rw [ExtendedMantissa.shiftRightOne, h.mantissa_eq, Nat.div_div_eq_div_mul, Nat.pow_succ]
  · simp only [ExtendedMantissa.shiftRightOne, h.mantissa_eq, bne_iff_ne]
    rw [hmod, hpow]
    rcases Nat.mod_two_eq_zero_or_one (n / 2 ^ bits) with h0 | h1
    · rw [h0]
      omega
    · rw [h1]
      omega
  · simp only [ExtendedMantissa.shiftRightOne, Bool.or_eq_true, hround, hsticky]
    rw [hmod, hpow]
    rcases Nat.mod_two_eq_zero_or_one (n / 2 ^ bits) with h0 | h1
    · rw [h0]
      omega
    · rw [h1]
      omega

theorem shifted_shiftRight (n bits : Nat) :
    Shifted n bits (ExtendedMantissa.mk n false false >>> bits) := by
  induction bits with
  | zero => exact shifted_zero n
  | succ bits ih => exact ih.succ

theorem Shifted.rounded {n bits : Nat} {em : ExtendedMantissa} (h : Shifted n bits em) :
    em.roundedMantissa = divNearest n (2 ^ bits) := by
  obtain ⟨mantissa, round, sticky⟩ := em
  obtain ⟨rfl, hround, hsticky⟩ := h
  have hlt : n % 2 ^ bits < 2 ^ bits := Nat.mod_lt n (Nat.two_pow_pos bits)
  unfold divNearest
  cases round with
  | false =>
    have hless : 2 * (n % 2 ^ bits) < 2 ^ bits := by simpa using hround
    rw [if_pos hless]
    cases sticky <;> rfl
  | true =>
    have hmore : 2 ^ bits ≤ 2 * (n % 2 ^ bits) := hround.mp rfl
    rw [if_neg (Nat.not_lt_of_le hmore)]
    cases sticky with
    | false =>
      have hhalf : 2 * (n % 2 ^ bits) = 2 ^ bits := by
        have hn : ¬ (n % 2 ^ bits ≠ 0 ∧ 2 * (n % 2 ^ bits) ≠ 2 ^ bits) := by simpa using hsticky
        by_contra hne
        have hpos := Nat.two_pow_pos bits
        omega
      rw [if_pos hhalf]
      rfl
    | true =>
      rw [if_neg (hsticky.mp rfl).2]
      rfl

/-! ## One rounding -/

theorem targetExponent_of_le {n : Nat} {exponent : Int} (h : -1074 ≤ exponent + (n.log2 - 52 : Int)) :
    Format.binary64.targetExponent (totalExponent n exponent) = exponent + (n.log2 - 52 : Int) := by
  have hbits : Format.binary64.mantissaBits = 53 := rfl
  simp only [Format.targetExponent, totalExponent, hbits, Format.minExponent]
  omega

theorem shiftToTargetExponent_of_le {n : Nat} {exponent : Int} {bits : Nat} (hbits : n.log2 = 52 + bits)
    (h : -1074 ≤ exponent + bits) :
    shiftToTargetExponent Format.binary64 n exponent .exact =
      (ExtendedMantissa.mk n false false >>> bits, exponent + bits) := by
  have hshift : exponent + (n.log2 - 52 : Int) - exponent = bits := by omega
  unfold shiftToTargetExponent
  rw [targetExponent_of_le (by omega), shiftToExponent, hshift]
  rfl

/-- A number of at least 53 bits is rounded to 53 bits. If that takes it up to the next power of two, its
last bit is dropped. -/
theorem roundWithAccuracy_exact (sign : Sign) {n : Nat} {exponent : Int} {bits : Nat}
    (hbits : n.log2 = 52 + bits) (h : -1074 ≤ exponent + bits) :
    ∃ (m carry : Nat) (hm : 0 < m), 2 ^ 52 ≤ m ∧ m < 2 ^ 53 ∧ m * 2 ^ carry = divNearest n (2 ^ bits) ∧
      roundWithAccuracy Format.binary64 sign n exponent .exact =
        .finite sign m (exponent + bits + carry) hm := by
  have hn : n ≠ 0 := by
    rintro rfl
    rw [Nat.log2_zero] at hbits
    omega
  have hlow : 2 ^ 52 ≤ n / 2 ^ bits := by
    rw [Nat.le_div_iff_mul_le (Nat.two_pow_pos bits), ← Nat.pow_add, ← hbits]
    exact Nat.log2_self_le hn
  have hhigh : n / 2 ^ bits < 2 ^ 53 := by
    rw [Nat.div_lt_iff_lt_mul (Nat.two_pow_pos bits), ← Nat.pow_add,
      show 53 + bits = n.log2 + 1 by omega]
    exact Nat.lt_log2_self
  have hfrom := div_le_divNearest n (2 ^ bits)
  have hto := divNearest_le n (2 ^ bits)
  unfold roundWithAccuracy
  rw [shiftToTargetExponent_of_le hbits h]
  dsimp only
  rw [(shifted_shiftRight n bits).rounded]
  generalize divNearest n (2 ^ bits) = rounded at hfrom hto ⊢
  have hrounded : rounded ≠ 0 := by omega
  by_cases hcarry : rounded < 2 ^ 53
  · have hlog : rounded.log2 = 52 + 0 := (Nat.log2_eq_iff hrounded).mpr ⟨by omega, hcarry⟩
    rw [shiftToTargetExponent_of_le hlog (by omega)]
    refine ⟨rounded, 0, by omega, by omega, hcarry, by omega, ?_⟩
    exact dif_neg hrounded
  · obtain rfl : rounded = 2 ^ 53 := by omega
    have hlog : (2 ^ 53).log2 = 52 + 1 := by decide
    rw [shiftToTargetExponent_of_le hlog (by omega)]
    exact ⟨2 ^ 52, 1, by decide, by decide, by decide, by decide, rfl⟩

/-! ## The nearest number of 53 bits -/

/-- The nearest number with 53 significant bits at most, of two the one that is even at its last bit. -/
def nearestNat (n : Nat) : Nat :=
  divNearest n (2 ^ (n.log2 - 52)) * 2 ^ (n.log2 - 52)

def nearest : Int → Int
  | .ofNat n => nearestNat n
  | .negSucc n => -nearestNat (n + 1)

theorem nearestNat_of_le {n : Nat} (h : n ≤ 2 ^ 53) : nearestNat n = n := by
  rcases Nat.lt_or_eq_of_le h with hlt | rfl
  · have hlog : n.log2 - 52 = 0 := by
      rcases Nat.eq_zero_or_pos n with rfl | hpos
      · rfl
      · have := (Nat.log2_lt (Nat.ne_of_gt hpos)).mpr hlt
        omega
    rw [nearestNat, hlog, Nat.pow_zero, divNearest_one, Nat.mul_one]
  · decide

/-- Rounding does not leave the powers of two around a number. -/
theorem nearestNat_bounds {n : Nat} (h : n ≠ 0) :
    2 ^ n.log2 ≤ nearestNat n ∧ nearestNat n ≤ 2 ^ (n.log2 + 1) := by
  have hlow : 2 ^ n.log2 ≤ n := Nat.log2_self_le h
  have hhigh : n < 2 ^ (n.log2 + 1) := Nat.lt_log2_self
  by_cases hlog : n.log2 ≤ 52
  · have hle : n ≤ 2 ^ 53 := hhigh.le.trans (Nat.pow_le_pow_right (by decide) (by omega))
    rw [nearestNat_of_le hle]
    exact ⟨hlow, hhigh.le⟩
  · have hpos : 0 < 2 ^ (n.log2 - 52) := Nat.two_pow_pos _
    have hpow : 2 ^ n.log2 = 2 ^ 52 * 2 ^ (n.log2 - 52) := by
      rw [← Nat.pow_add, Nat.add_sub_cancel' (by omega)]
    have hpow' : 2 ^ (n.log2 + 1) = 2 ^ 53 * 2 ^ (n.log2 - 52) := by
      rw [Nat.pow_succ, hpow]
      omega
    have hdiv : 2 ^ 52 ≤ n / 2 ^ (n.log2 - 52) := by
      rw [Nat.le_div_iff_mul_le hpos, ← hpow]
      exact hlow
    have hdiv' : n / 2 ^ (n.log2 - 52) < 2 ^ 53 := by
      rw [Nat.div_lt_iff_lt_mul hpos, ← hpow']
      exact hhigh
    have hfrom := div_le_divNearest n (2 ^ (n.log2 - 52))
    have hto := divNearest_le n (2 ^ (n.log2 - 52))
    rw [nearestNat, hpow, hpow']
    exact ⟨Nat.mul_le_mul_right _ (by omega), Nat.mul_le_mul_right _ (by omega)⟩

theorem nearestNat_mono {m n : Nat} (h : m ≤ n) : nearestNat m ≤ nearestNat n := by
  rcases Nat.eq_zero_or_pos m with rfl | hm
  · exact Nat.zero_le _
  · have hlog : m.log2 ≤ n.log2 :=
      (Nat.le_log2 (by omega)).mpr ((Nat.log2_self_le (by omega)).trans h)
    rcases Nat.lt_or_eq_of_le hlog with hlt | heq
    · calc nearestNat m ≤ 2 ^ (m.log2 + 1) := (nearestNat_bounds (by omega)).2
        _ ≤ 2 ^ n.log2 := Nat.pow_le_pow_right (by decide) hlt
        _ ≤ nearestNat n := (nearestNat_bounds (by omega)).1
    · rw [nearestNat, nearestNat, heq]
      exact Nat.mul_le_mul_right _ (divNearest_mono h _)

theorem nearestNat_le {n bits : Nat} (h : n < 2 ^ bits) : nearestNat n ≤ 2 ^ bits := by
  rcases Nat.eq_zero_or_pos n with rfl | hpos
  · exact Nat.zero_le _
  · have hn := Nat.ne_of_gt hpos
    exact (nearestNat_bounds hn).2.trans (Nat.pow_le_pow_right (by decide) ((Nat.log2_lt hn).mpr h))

/-! ## The nearest number of either sign -/

theorem nearest_of_le {n : Int} (h : n.natAbs ≤ 2 ^ 53) : nearest n = n := by
  cases n with
  | ofNat n => exact congrArg Int.ofNat (nearestNat_of_le h)
  | negSucc n => exact congrArg (fun m : Nat => (-m : Int)) (nearestNat_of_le h)

theorem nearest_mono {m n : Int} (h : m ≤ n) : nearest m ≤ nearest n := by
  cases m with
  | ofNat m =>
    cases n with
    | ofNat n => exact Int.ofNat_le.mpr (nearestNat_mono (Int.ofNat_le.mp h))
    | negSucc n => exact absurd h (Int.not_le.mpr (Int.negSucc_lt_zero n |>.trans_le (Int.natCast_nonneg m)))
  | negSucc m =>
    cases n with
    | ofNat n =>
      rw [nearest, nearest]
      omega
    | negSucc n =>
      have hmono : nearestNat (n + 1) ≤ nearestNat (m + 1) := nearestNat_mono (by omega)
      rw [nearest, nearest]
      omega

theorem nearest_near (n : Int) : 2 * (nearest n - n).natAbs ≤ 2 ^ (n.natAbs.log2 - 52) := by
  have hnear (n : Nat) : 2 * nearestNat n ≤ 2 * n + 2 ^ (n.log2 - 52) ∧
      2 * n ≤ 2 * nearestNat n + 2 ^ (n.log2 - 52) :=
    divNearest_near n (Nat.two_pow_pos _)
  cases n with
  | ofNat n =>
    obtain ⟨hup, hdown⟩ := hnear n
    rw [nearest]
    show 2 * ((nearestNat n : Int) - n).natAbs ≤ 2 ^ (n.log2 - 52)
    omega
  | negSucc n =>
    obtain ⟨hup, hdown⟩ := hnear (n + 1)
    rw [nearest]
    show 2 * (-(nearestNat (n + 1) : Int) - Int.negSucc n).natAbs ≤ 2 ^ ((n + 1).log2 - 52)
    omega

/-! ## Zeros at the end -/

theorem log2_mul_two_pow {n : Nat} (h : n ≠ 0) (bits : Nat) : (n * 2 ^ bits).log2 = n.log2 + bits := by
  have hpos := Nat.two_pow_pos bits
  refine (Nat.log2_eq_iff (Nat.mul_ne_zero h (Nat.ne_of_gt hpos))).mpr ⟨?_, ?_⟩
  · rw [Nat.pow_add]
    exact Nat.mul_le_mul_right _ (Nat.log2_self_le h)
  · rw [Nat.add_right_comm, Nat.pow_add]
    exact Nat.mul_lt_mul_of_pos_right Nat.lt_log2_self hpos

/-- How many zeros there are behind the point does not matter. -/
theorem divNearest_zeros {n zeros bits : Nat} (h : n.log2 + zeros = 52 + bits) :
    divNearest (n * 2 ^ zeros) (2 ^ bits) * 2 ^ n.log2 = nearestNat n * 2 ^ 52 := by
  by_cases hlog : n.log2 ≤ 52
  · have hn : n ≤ 2 ^ 53 :=
      Nat.lt_log2_self.le.trans (Nat.pow_le_pow_right (by decide) (Nat.succ_le_succ hlog))
    have hzeros : n * 2 ^ zeros = n * 2 ^ (52 - n.log2) * 2 ^ bits := by
      rw [Nat.mul_assoc, ← Nat.pow_add, show 52 - n.log2 + bits = zeros by omega]
    have hone := divNearest_mul_right (Nat.two_pow_pos bits) (n * 2 ^ (52 - n.log2)) 1
    rw [Nat.one_mul, divNearest_one] at hone
    rw [hzeros, hone, nearestNat_of_le hn, Nat.mul_assoc, ← Nat.pow_add, Nat.sub_add_cancel hlog]
  · have hbits : 2 ^ bits = 2 ^ (n.log2 - 52) * 2 ^ zeros := by
      rw [← Nat.pow_add, show n.log2 - 52 + zeros = bits by omega]
    have hpow : 2 ^ n.log2 = 2 ^ (n.log2 - 52) * 2 ^ 52 := by
      rw [← Nat.pow_add, Nat.sub_add_cancel (by omega)]
    rw [hbits, divNearest_mul_right (Nat.two_pow_pos zeros), nearestNat, Nat.mul_assoc, ← hpow]

end Stencil.Number.Rounding
