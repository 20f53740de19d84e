import Stencil.Proofs.Rounding

/-! # Whole numbers as floats

A whole number below 2⁶⁴ becomes the float that stands for the nearest number of 53 bits, and floats that
stand for whole numbers are ordered as these. -/
namespace Stencil.Number.Rounding
open Float.Model Float.Model.UnpackedFloat

/-- The canonical form of a whole number: zero, or 53 significant bits and their place. -/
inductive IsWhole : UnpackedFloat → Int → Prop
  | zero {sign} : IsWhole (.zero sign) 0
  | finite {sign n m} {shift : Nat} {hm} : 2 ^ 52 ≤ m → m < 2 ^ 53 → m * 2 ^ shift = n * 2 ^ 52 →
      IsWhole (.finite sign m (shift - 52) hm) (Sign.apply sign (n : Nat))

theorem pos_of_mul_eq {n m shift : Nat} (hm : 0 < m) (hvalue : m * 2 ^ shift = n * 2 ^ 52) : 0 < n := by
  have hpos := Nat.mul_pos hm (Nat.two_pow_pos shift)
  omega

theorem IsWhole.neg {x : UnpackedFloat} {n : Int} (h : IsWhole x n) : IsWhole x.neg (-n) := by
  cases h with
  | zero => exact .zero
  | @finite sign n m shift hm hlow hhigh hvalue =>
    have hneg : -Sign.apply sign (n : Int) = Sign.apply (-sign) n := by
      cases sign
      · exact Int.neg_neg _
      · rfl
    rw [hneg]
    exact .finite hlow hhigh hvalue

theorem finite_congr {sign sign' : Sign} {m m' : Nat} {e e' : Int} {h : 0 < m} (hs : sign = sign')
    (hm : m = m') (he : e = e') : UnpackedFloat.finite sign m e h = .finite sign' m' e' (hm ▸ h) := by
  subst hs hm he
  rfl

/-! ## Packing -/

theorem pack_normal {sign : Sign} {m shift : Nat} {hm : 0 < m} (hlow : 2 ^ 52 ≤ m) (hhigh : m < 2 ^ 53)
    (hs : shift < 1024) : UnpackedFloat.pack Format.binary64 (.finite sign m (shift - 52) hm) =
      packComponents Format.binary64 sign (BitVec.ofNat _ (shift + 1023)) (BitVec.ofNat _ m) := by
  have hlog : m.log2 = 52 := (Nat.log2_eq_iff (by omega)).mpr ⟨hlow, hhigh⟩
  have hbiased : ((shift : Int) - 52 + Format.binary64.exponentBias + 52).toNat = shift + 1023 := by
    simp only [Format.exponentBias]
    omega
  show (if 2 ^ 11 ≤ ((shift : Int) - 52 + Format.binary64.exponentBias + 52).toNat + 1 then _
    else if m.log2 + 1 = 53 then _ else _) = _
  rw [hbiased, hlog, if_neg (by omega), if_pos rfl]
  exact congrArg (fun e => packComponents _ sign (BitVec.ofNat _ e) _) hbiased

/-- The sign is the first bit, before the exponent and the mantissa. -/
theorem sign_packComponents (sign : Sign) (exponent : BitVec 11) (mantissa : BitVec 52) :
    Sign.ofBitVec (unpackSign (packComponents Format.binary64 sign exponent mantissa)) = sign := by
  show Sign.ofBitVec ((sign.toBitVec ++ exponent ++ mantissa).extractLsb' 63 1) = sign
  rw [BitVec.extractLsb'_append_eq_of_le (by decide), BitVec.extractLsb'_append_eq_of_le (by decide)]
  cases sign <;> rfl

/-- Components of neither a zero nor an infinity. The first bit of the mantissa is not stored. -/
theorem unpack_packComponents {sign : Sign} {exponent : BitVec 11} {mantissa : BitVec 52} {m : Nat} {e : Int}
    (hall : exponent ≠ -1#11) (hzero : exponent ≠ 0#11) (hm : (1#1 ++ mantissa).toNat = m)
    (he : (exponent.toNat : Int) - ((1023 : Nat) + (52 : Nat)) = e) (h : 0 < m) :
    UnpackedFloat.unpack Format.binary64 (packComponents Format.binary64 sign exponent mantissa) =
      .finite sign m e h := by
  generalize hb : packComponents Format.binary64 sign exponent mantissa = b
  have hsign : Sign.ofBitVec (unpackSign b) = sign := hb ▸ sign_packComponents sign exponent mantissa
  have hexponent : unpackExponent b = exponent := hb ▸ unpackExponent_packComponents
  have hmantissa : unpackMantissa b = mantissa := hb ▸ unpackMantissa_packComponents
  show (if unpackExponent b = -1#11 then _ else if unpackExponent b = 0#11 then _ else _) = _
  rw [if_neg (by rwa [hexponent]), if_neg (by rwa [hexponent])]
  refine finite_congr hsign (by rw [hmantissa]; exact hm) ?_
  rw [hexponent]
  exact he

theorem unpack_pack_normal {sign : Sign} {m shift : Nat} {hm : 0 < m} (hlow : 2 ^ 52 ≤ m)
    (hhigh : m < 2 ^ 53) (hs : shift < 1024) :
    (Float.Model.pack (.finite sign m (shift - 52) hm)).unpack = .finite sign m (shift - 52) hm := by
  have hexponent : (BitVec.ofNat 11 (shift + 1023)).toNat = shift + 1023 := by
    rw [BitVec.toNat_ofNat, Nat.mod_eq_of_lt (by omega)]
  have hall : BitVec.ofNat 11 (shift + 1023) ≠ -1#11 := by
    rw [ne_eq, ← BitVec.toNat_inj, hexponent]
    simp only [BitVec.toNat_neg, BitVec.toNat_ofNat]
    omega
  have hzero : BitVec.ofNat 11 (shift + 1023) ≠ 0#11 := by
    rw [ne_eq, ← BitVec.toNat_inj, hexponent, BitVec.toNat_ofNat]
    omega
  have hmantissa : (1#1 ++ BitVec.ofNat 52 m).toNat = m := by
    rw [BitVec.toNat_append, BitVec.toNat_ofNat, BitVec.toNat_ofNat,
      ← Nat.shiftLeft_add_eq_or_of_lt (Nat.mod_lt m (Nat.two_pow_pos 52))]
    omega
  show UnpackedFloat.unpack Format.binary64 (UnpackedFloat.pack Format.binary64 _) = _
  rw [pack_normal hlow hhigh hs]
  refine unpack_packComponents hall hzero hmantissa ?_ hm
  rw [hexponent]
  omega

theorem IsWhole.unpack_pack {x : UnpackedFloat} {n : Int} (h : IsWhole x n) (hn : n.natAbs ≤ 2 ^ 64) :
    (Float.Model.pack x).unpack = x := by
  cases h with
  | @zero sign => cases sign <;> rfl
  | @finite sign n m shift hm hlow hhigh hvalue =>
    have habs : (Sign.apply sign (n : Int)).natAbs = n := by
      cases sign
      · exact Int.natAbs_neg n
      · rfl
    rw [habs] at hn
    have hle : 2 ^ shift ≤ n := by
      refine Nat.le_of_mul_le_mul_right ?_ (Nat.two_pow_pos 52)
      rw [← hvalue, Nat.mul_comm]
      exact Nat.mul_le_mul_right _ hlow
    have hshift : shift ≤ 64 := (Nat.pow_le_pow_iff_right (by decide)).mp (hle.trans hn)
    exact unpack_pack_normal hlow hhigh (by omega)

/-! ## The order -/

theorem compare_map {α β : Type} [LinearOrder α] [LinearOrder β] {f : α → β} (hf : StrictMono f) (a b : α) :
    compare (f a) (f b) = compare a b := by
  rw [← cmp_eq_compare, ← cmp_eq_compare]
  exact hf.cmp_map_eq a b

theorem compare_mul (a b bits : Nat) : compare (a * 2 ^ bits) (b * 2 ^ bits) = compare a b :=
  compare_map (f := (· * 2 ^ bits))
    (fun _ _ h => Nat.mul_lt_mul_of_pos_right h (Nat.two_pow_pos bits)) a b

theorem compare_cast (a b : Nat) : compare (a : Int) b = compare a b :=
  compare_map (f := Nat.cast) (fun _ _ h => Int.ofNat_lt.mpr h) a b

theorem compare_shift (a b : Nat) : compare (a - 52 : Int) (b - 52) = compare a b :=
  compare_map (f := fun a : Nat => (a - 52 : Int))
    (fun _ _ h => Int.sub_lt_sub_right (Int.ofNat_lt.mpr h) 52) a b

theorem compare_neg (a b : Nat) : compare (-a : Int) (-b) = (compare a b).swap := by
  have hanti : StrictAnti fun a : Nat => (-a : Int) :=
    fun _ _ h => Int.neg_lt_neg (Int.ofNat_lt.mpr h)
  rw [← cmp_eq_compare, ← cmp_eq_compare, cmp_swap]
  exact hanti.cmp_map_eq a b

/-- Of two numbers with as many significant bits the one whose bits stand higher is greater. -/
theorem lt_of_shift_lt {m m' shift shift' n n' : Nat} (hhigh : m < 2 ^ 53) (hlow : 2 ^ 52 ≤ m')
    (hvalue : m * 2 ^ shift = n * 2 ^ 52) (hvalue' : m' * 2 ^ shift' = n' * 2 ^ 52)
    (h : shift < shift') : n < n' := by
  have hlt : n * 2 ^ 52 < n' * 2 ^ 52 := by
    calc n * 2 ^ 52 = m * 2 ^ shift := hvalue.symm
      _ < 2 ^ 53 * 2 ^ shift := Nat.mul_lt_mul_of_pos_right hhigh (Nat.two_pow_pos _)
      _ = 2 ^ 52 * 2 ^ (shift + 1) := by
        rw [← Nat.pow_add, ← Nat.pow_add, show 53 + shift = 52 + (shift + 1) by omega]
      _ ≤ 2 ^ 52 * 2 ^ shift' := Nat.mul_le_mul_left _ (Nat.pow_le_pow_right (by decide) h)
      _ ≤ m' * 2 ^ shift' := Nat.mul_le_mul_right _ hlow
      _ = n' * 2 ^ 52 := hvalue'
  exact Nat.lt_of_mul_lt_mul_right hlt

theorem compare_magnitudes {m m' shift shift' n n' : Nat} (hlow : 2 ^ 52 ≤ m) (hhigh : m < 2 ^ 53)
    (hvalue : m * 2 ^ shift = n * 2 ^ 52) (hlow' : 2 ^ 52 ≤ m') (hhigh' : m' < 2 ^ 53)
    (hvalue' : m' * 2 ^ shift' = n' * 2 ^ 52) :
    (compare (shift - 52 : Int) (shift' - 52)).then (compare m m') = compare n n' := by
  rw [compare_shift]
  rcases Nat.lt_trichotomy shift shift' with h | rfl | h
  · rw [compare_lt_iff_lt.mpr h, compare_lt_iff_lt.mpr (lt_of_shift_lt hhigh hlow' hvalue hvalue' h)]
    rfl
  · rw [compare_eq_iff_eq.mpr rfl, ← compare_mul m m' shift, hvalue, hvalue', compare_mul]
    rfl
  · rw [compare_gt_iff_gt.mpr h, compare_gt_iff_gt.mpr (lt_of_shift_lt hhigh' hlow hvalue' hvalue h)]
    rfl

/-- The model orders canonical forms as the numbers. -/
theorem IsWhole.compare {x y : UnpackedFloat} {a b : Int} (hx : IsWhole x a) (hy : IsWhole y b) :
    x.compare y = some (compare a b) := by
  cases hx with
  | zero =>
    cases hy with
    | zero => rfl
    | @finite sign n m shift hm hlow hhigh hvalue =>
      have hn := pos_of_mul_eq hm hvalue
      cases sign with
      | negative => exact congrArg some (compare_gt_iff_gt.mpr (show (0 : Int) > -n by omega)).symm
      | positive => exact congrArg some (compare_lt_iff_lt.mpr (show (0 : Int) < n by omega)).symm
  | @finite sign n m shift hm hlow hhigh hvalue =>
    have hn := pos_of_mul_eq hm hvalue
    cases hy with
    | zero =>
      cases sign with
      | negative => exact congrArg some (compare_lt_iff_lt.mpr (show (-n : Int) < 0 by omega)).symm
      | positive => exact congrArg some (compare_gt_iff_gt.mpr (show (n : Int) > 0 by omega)).symm
    | @finite sign' n' m' shift' hm' hlow' hhigh' hvalue' =>
      have hn' := pos_of_mul_eq hm' hvalue'
      have hall := compare_magnitudes hlow hhigh hvalue hlow' hhigh' hvalue'
      cases sign with
      | negative =>
        cases sign' with
        | negative => exact congrArg some ((congrArg Ordering.swap hall).trans (compare_neg n n').symm)
        | positive => exact congrArg some (compare_lt_iff_lt.mpr (show (-n : Int) < n' by omega)).symm
      | positive =>
        cases sign' with
        | negative => exact congrArg some (compare_gt_iff_gt.mpr (show (n : Int) > -n' by omega)).symm
        | positive => exact congrArg some (hall.trans (compare_cast n n').symm)

/-- A number other than zero has one canonical form. -/
theorem IsWhole.unique {x y : UnpackedFloat} {n : Int} (hx : IsWhole x n) (hy : IsWhole y n) (hn : n ≠ 0) :
    x = y := by
  generalize hk : n = k at hy
  cases hx with
  | zero => exact absurd rfl hn
  | @finite sign n m shift hm hlow hhigh hvalue =>
    cases hy with
    | zero => exact absurd hk hn
    | @finite sign' n' m' shift' hm' hlow' hhigh' hvalue' =>
      have hpos := pos_of_mul_eq hm hvalue
      have hpos' := pos_of_mul_eq hm' hvalue'
      obtain ⟨rfl, rfl⟩ : sign = sign' ∧ n = n' := by
        cases sign <;> cases sign' <;> simp only [Sign.apply, true_and, reduceCtorEq, false_and] at hk ⊢ <;>
          omega
      have hshift : shift = shift' := by
        rcases Nat.lt_trichotomy shift shift' with h | h | h
        · exact absurd (lt_of_shift_lt hhigh hlow' hvalue hvalue' h) (Nat.lt_irrefl n)
        · exact h
        · exact absurd (lt_of_shift_lt hhigh' hlow hvalue' hvalue h) (Nat.lt_irrefl n)
      subst hshift
      exact finite_congr rfl (Nat.eq_of_mul_eq_mul_right (Nat.two_pow_pos shift) (hvalue.trans hvalue'.symm)) rfl

/-! ## Conversions -/

/-- Rounding a number that is written with zeros behind its point. -/
theorem isWhole_roundWithAccuracy (sign : Sign) {n zeros : Nat} (hn : n ≠ 0) (hz : 52 ≤ n.log2 + zeros) :
    IsWhole (roundWithAccuracy Format.binary64 sign (n * 2 ^ zeros) (-zeros) .exact)
      (Sign.apply sign (nearestNat n)) := by
  obtain ⟨bits, hbits⟩ := Nat.exists_eq_add_of_le hz
  have hlog : (n * 2 ^ zeros).log2 = 52 + bits := (log2_mul_two_pow hn zeros).trans hbits
  obtain ⟨m, carry, hm, hlow, hhigh, hrounded, heq⟩ :=
    roundWithAccuracy_exact sign hlog (show (-1074 : Int) ≤ -zeros + bits by omega)
  have hshift : (-zeros : Int) + bits + carry = (n.log2 + carry : Nat) - 52 := by omega
  rw [heq, finite_congr rfl rfl hshift]
  refine .finite hlow hhigh ?_
  rw [Nat.pow_add, Nat.mul_left_comm, hrounded, Nat.mul_comm, divNearest_zeros hbits]

/-- The mantissa of one is all zeros but for its first bit, so nothing is lost in a product with one. -/
theorem roundWithAccuracy_mul_one {sign : Sign} {m shift : Nat} {hm : 0 < m} (hlow : 2 ^ 52 ≤ m)
    (hhigh : m < 2 ^ 53) :
    roundWithAccuracy Format.binary64 sign (m * 2 ^ 52) (shift - 52 + -52) .exact =
      .finite sign m (shift - 52) hm := by
  have hlog : (m * 2 ^ 52).log2 = 52 + 52 := by
    rw [log2_mul_two_pow (by omega), (Nat.log2_eq_iff (by omega)).mpr ⟨hlow, hhigh⟩]
  obtain ⟨m', carry, hm', hlow', hhigh', hrounded, heq⟩ :=
    roundWithAccuracy_exact sign hlog (show -1074 ≤ (shift - 52 + -52 : Int) + (52 : Nat) by omega)
  have hone := divNearest_mul_right (Nat.two_pow_pos 52) m 1
  rw [Nat.one_mul, divNearest_one] at hone
  rw [hone] at hrounded
  have hcarry : carry = 0 := by
    by_contra hne
    have htwo : 2 ≤ 2 ^ carry := Nat.le_self_pow hne 2
    have htwice := Nat.mul_le_mul hlow' htwo
    omega
  subst hcarry
  rw [heq]
  exact finite_congr rfl (by omega) (by omega)

theorem isWhole_ofNat_model {n : Nat} (hn : n ≠ 0) (hlt : n < 2 ^ 53) :
    IsWhole (UnpackedFloat.ofNat Format.binary64 n) n := by
  have hlog : n.log2 < 53 := (Nat.log2_lt hn).mpr hlt
  have hround : UnpackedFloat.ofNat Format.binary64 n = UnpackedFloat.round Format.binary64 .positive n 0 := by
    have hpos : compare (n : Int) 0 = .gt := compare_gt_iff_gt.mpr (by omega)
    unfold UnpackedFloat.ofNat UnpackedFloat.ofInt UnpackedFloat.normalize
    rw [hpos]
    rfl
  have htarget : Format.binary64.targetExponent (totalExponent n 0) = n.log2 - 52 := by
    rw [targetExponent_of_le (by omega)]
    omega
  have hzeros : (0 - (n.log2 - 52 : Int)).toNat = 52 - n.log2 := by omega
  have hwhole := isWhole_roundWithAccuracy .positive hn (show 52 ≤ n.log2 + (52 - n.log2) by omega)
  rw [nearestNat_of_le hlt.le] at hwhole
  rw [hround, UnpackedFloat.round, htarget, decreaseExponent, hzeros, Nat.shiftLeft_eq, Int.zero_sub]
  exact hwhole

/-- One in its canonical form. -/
def one : UnpackedFloat :=
  .finite .positive (2 ^ 52) (-52) (by decide)

theorem mul_finite {sign sign' : Sign} {m m' : Nat} {e e' : Int} {h : 0 < m} {h' : 0 < m'} :
    UnpackedFloat.mul Format.binary64 (.finite sign m e h) (.finite sign' m' e' h') =
      roundWithAccuracy Format.binary64 (sign * sign') (m * m') (e + e') .exact :=
  rfl

theorem sign_mul_positive (sign : Sign) : sign * Sign.positive = sign := by
  cases sign <;> rfl

theorem IsWhole.mul_one {x : UnpackedFloat} {n : Int} (h : IsWhole x n) :
    UnpackedFloat.mul Format.binary64 x one = x := by
  cases h with
  | @zero sign => exact congrArg UnpackedFloat.zero (sign_mul_positive sign)
  | @finite sign n m shift hm hlow hhigh hvalue =>
    rw [one, mul_finite, sign_mul_positive]
    exact roundWithAccuracy_mul_one hlow hhigh

/-- A number of 53 bits is converted exactly, then multiplied by a power of ten that is one. -/
theorem ofNat_eq_of_lt {n : Nat} (h : n < 2 ^ 53) : (Float.ofNat n).toModel =
    .pack (UnpackedFloat.mul Format.binary64
      (Float.Model.pack (UnpackedFloat.ofNat Format.binary64 n.toUInt64.toNat)).unpack one) := by
  have hfast : Float.ofNat n = n.toUInt64.toFloat * Float.ofBits 0x3FF0000000000000 :=
    dif_pos ⟨h, by decide⟩
  rw [hfast]
  rfl

/-- A greater number is rounded in the product with that power. -/
theorem ofNat_eq_of_le {n : Nat} (hn : n ≠ 0) (h : 2 ^ 53 ≤ n) : (Float.ofNat n).toModel =
    .pack (roundWithAccuracy Format.binary64 .positive (n * 2 ^ 53) (-(53 : Nat)) .exact) := by
  have hslow : Float.ofNat n = .ofModel (Float.Model.ofScientific n 0) :=
    dif_neg fun hfast => absurd hfast.1 (Nat.not_lt_of_le h)
  rw [hslow]
  show Float.Model.pack (UnpackedFloat.ofScientific Format.binary64 n 0) = _
  unfold UnpackedFloat.ofScientific
  have hsafe : ¬ (0 : Int) < -((2 ^ 11 : Int) + n.log2) := by omega
  rw [dif_neg hn, if_neg (by decide), if_neg hsafe, if_pos (by decide), mul_finite, Nat.shiftLeft_eq]
  show Float.Model.pack (roundWithAccuracy Format.binary64 .positive (n * 2 ^ 53 * 1) (-(53 : Nat) + 0) _) = _
  rw [Nat.mul_one, Int.add_zero]

theorem isWhole_ofNat {n : Nat} (h : n < 2 ^ 64) :
    IsWhole (Float.ofNat n).toModel.unpack (nearestNat n) := by
  rcases Nat.eq_zero_or_pos n with rfl | hpos
  · exact .zero
  · have hn := Nat.ne_of_gt hpos
    by_cases hlt : n < 2 ^ 53
    · have hwhole := isWhole_ofNat_model hn hlt
      have hle : (n : Int).natAbs ≤ 2 ^ 64 := h.le
      have hnat : n.toUInt64.toNat = n := UInt64.toNat_ofNat_of_lt' h
      rw [ofNat_eq_of_lt hlt, hnat, hwhole.unpack_pack hle, hwhole.mul_one, hwhole.unpack_pack hle,
        nearestNat_of_le hlt.le]
      exact hwhole
    · have hle : 2 ^ 53 ≤ n := Nat.le_of_not_lt hlt
      have hwhole := isWhole_roundWithAccuracy .positive hn (show 52 ≤ n.log2 + 53 by omega)
      have hbound : (Sign.apply .positive (nearestNat n)).natAbs ≤ 2 ^ 64 := nearestNat_le h
      rw [ofNat_eq_of_le hn hle, hwhole.unpack_pack hbound]
      exact hwhole

/-- A whole number becomes the float of the nearest number of 53 bits. -/
theorem isWhole_ofInt {n : Int} (h : n.natAbs < 2 ^ 64) :
    IsWhole (Float.ofInt n).toModel.unpack (nearest n) := by
  cases n with
  | ofNat n => exact isWhole_ofNat h
  | negSucc n =>
    have hwhole := (isWhole_ofNat (n := n + 1) h).neg
    show IsWhole (Float.Model.pack (Float.ofNat (n + 1)).toModel.unpack.neg).unpack _
    have hbound : (-(nearestNat (n + 1) : Int)).natAbs ≤ 2 ^ 64 := by
      rw [Int.natAbs_neg]
      exact nearestNat_le h
    rw [hwhole.unpack_pack hbound]
    exact hwhole

end Stencil.Number.Rounding
