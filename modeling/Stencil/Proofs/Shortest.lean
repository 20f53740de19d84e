import Stencil.Proofs.Decimals
import Stencil.Proofs.WholeFloats

/-! # Great whole numbers on a page

A float from 2⁶³ to 2⁶⁴ is shown as a whole number. This need not be the number that the float stands for, but
it is rounded to that one, so floats that stand for different numbers are shown differently. -/
namespace Stencil.Number
open Rounding

namespace Shortest

/-! ## The decimals of an interval -/

/-- Whether a whole number lies in the interval, if a quarter is `2^quarter`. -/
def Interval.holds (i : Interval) (quarter w : Nat) : Bool :=
  if i.ends then i.low * 2 ^ quarter ≤ w && w ≤ i.high * 2 ^ quarter
  else i.low * 2 ^ quarter < w && w < i.high * 2 ^ quarter

theorem Interval.bounds_of_holds {i : Interval} {quarter w : Nat} (h : i.holds quarter w = true) :
    i.low * 2 ^ quarter ≤ w ∧ w ≤ i.high * 2 ^ quarter ∧
      (i.ends = false → i.low * 2 ^ quarter < w ∧ w < i.high * 2 ^ quarter) := by
  rw [holds] at h
  split at h
  next hends =>
    obtain ⟨hlow, hhigh⟩ := Bool.and_eq_true_iff.mp h
    refine ⟨of_decide_eq_true hlow, of_decide_eq_true hhigh, fun hfalse => ?_⟩
    rw [hfalse] at hends
    cases hends
  next =>
    obtain ⟨hlow, hhigh⟩ := Bool.and_eq_true_iff.mp h
    have hinner := And.intro (of_decide_eq_true hlow) (of_decide_eq_true hhigh)
    exact ⟨hinner.1.le, hinner.2.le, fun _ => hinner⟩

theorem scale_natCast (quarter grid : Nat) : scale quarter grid = (2 ^ quarter, 10 ^ grid) := by
  simp [scale]

theorem pick_eq {i : Interval} {quarter below : Nat} (hq : i.exponent = quarter) (grid : Nat)
    (hbelow : i.mid * 2 ^ quarter / 10 ^ grid = below) : i.pick grid =
      if i.holds quarter (below * 10 ^ grid) then
        if i.holds quarter ((below + 1) * 10 ^ grid) &&
            (2 * below + 1) * 10 ^ grid ≤ 2 * (i.mid * 2 ^ quarter) then some (below + 1)
        else some below
      else if i.holds quarter ((below + 1) * 10 ^ grid) then some (below + 1)
      else none := by
  rw [Interval.pick, hq, scale_natCast, ← hbelow]
  rfl

theorem holds_of_pick {i : Interval} {quarter grid c : Nat} (hq : i.exponent = quarter)
    (h : i.pick grid = some c) : i.holds quarter (c * 10 ^ grid) = true := by
  rw [pick_eq hq grid rfl] at h
  split at h
  next hbelow =>
    split at h
    next habove =>
      cases h
      exact (Bool.and_eq_true_iff.mp habove).1
    next =>
      cases h
      exact hbelow
  next =>
    split at h
    next habove =>
      cases h
      exact habove
    next => cases h

/-- A grid that is finer than the upper half of the interval has a point in it. -/
theorem exists_pick {i : Interval} {quarter grid : Nat} (hq : i.exponent = quarter) (hlow : i.low < i.mid)
    (hhigh : i.high = i.mid + 2) (hfine : 10 ^ grid < 2 ^ (quarter + 1)) : ∃ c, i.pick grid = some c := by
  have hpos : 0 < 2 ^ quarter := Nat.two_pow_pos quarter
  have hgrid : 0 < 10 ^ grid := Nat.pow_pos (by decide)
  obtain ⟨below, hbelow⟩ : ∃ below, i.mid * 2 ^ quarter / 10 ^ grid = below := ⟨_, rfl⟩
  have hle : below * 10 ^ grid ≤ i.mid * 2 ^ quarter := hbelow ▸ Nat.div_mul_le_self ..
  have hlt : i.mid * 2 ^ quarter < (below + 1) * 10 ^ grid :=
    (Nat.div_lt_iff_lt_mul hgrid).mp (by omega)
  have hfirst : i.low * 2 ^ quarter < i.mid * 2 ^ quarter := Nat.mul_lt_mul_of_pos_right hlow hpos
  have hlast : (below + 1) * 10 ^ grid < i.high * 2 ^ quarter := by
    rw [hhigh, Nat.add_mul, Nat.add_mul]
    omega
  have hnext : i.holds quarter ((below + 1) * 10 ^ grid) = true := by
    rw [Interval.holds]
    split <;> simp <;> omega
  rw [pick_eq hq grid hbelow, hnext]
  split
  · split
    · exact ⟨_, rfl⟩
    · exact ⟨_, rfl⟩
  · exact ⟨_, rfl⟩

/-- The search ends on a grid that has a point in the interval, at the latest on the first one known to. -/
theorem exists_pick_of_search {i : Interval} {last grid : Nat} (rounds : Nat) (hlast : last ≤ grid)
    (hrounds : grid < last + rounds) (h : ∃ c, i.pick last = some c) :
    ∃ c g : Nat, i.pick g = some c ∧ i.search rounds grid = ⟨c, g⟩ := by
  induction rounds generalizing grid with
  | zero => omega
  | succ rounds ih =>
    rw [Interval.search]
    cases hpick : i.pick grid with
    | some c => exact ⟨c, grid, hpick, rfl⟩
    | none =>
      have hne : grid ≠ last := by
        rintro rfl
        rw [hpick] at h
        simp at h
      obtain ⟨next, rfl⟩ : ∃ next, grid = next + 1 := ⟨grid - 1, by omega⟩
      obtain ⟨c, g, hg, hsearch⟩ := ih (show last ≤ next by omega) (by omega)
      refine ⟨c, g, hg, ?_⟩
      rw [← hsearch]
      simp

/-- The shortest decimal of a whole number with a grid of whole numbers that is fine enough. -/
theorem exists_shortest {m : Nat} (quarter last : Nat) (hm : 0 < m) (hfine : 10 ^ last < 2 ^ (quarter + 1))
    (hfrom : 10 ^ last ≤ 4 * m * 2 ^ quarter) (hto : 4 * m * 2 ^ quarter < 10 ^ (last + 17)) :
    ∃ c g : Nat, shortest m (quarter + 2 : Nat) = ⟨c, g⟩ ∧
      (Interval.around m (quarter + 2 : Nat)).holds quarter (c * 10 ^ g) = true := by
  have hquarter : (Interval.around m (quarter + 2 : Nat)).exponent = quarter := by
    simp [Interval.around]
  obtain ⟨digits, hdigits⟩ : ∃ digits, (Nat.toDigits 10 (4 * m * 2 ^ quarter)).length = digits := ⟨_, rfl⟩
  have hlead : leading (4 * m * 2 ^ quarter) 1 + 1 = digits := by
    have hpos : 1 ≤ 4 * m * 2 ^ quarter := (Nat.pow_pos (by decide)).trans_le hfrom
    rw [leading, if_pos hpos, Nat.div_one, hdigits]
    omega
  have hlow : last ≤ digits := by
    have hpos : 0 < digits := hdigits ▸ Nat.length_toDigits_pos
    have hlt : 4 * m * 2 ^ quarter < 10 ^ digits :=
      (Nat.length_toDigits_le_iff (by decide) hpos).mp hdigits.le
    exact ((Nat.pow_lt_pow_iff_right (by decide)).mp (hfrom.trans_lt hlt)).le
  have hhigh : digits ≤ last + 17 := by
    rw [← hdigits]
    exact (Nat.length_toDigits_le_iff (by decide) (by omega)).mpr hto
  have hbelow : (Interval.around m (quarter + 2 : Nat)).low < 4 * m := by
    rw [Interval.around]
    dsimp only
    split <;> omega
  obtain ⟨c, g, hpick, hsearch⟩ := exists_pick_of_search 18 hlow (by omega)
    (exists_pick hquarter hbelow rfl hfine)
  refine ⟨c, g, ?_, holds_of_pick hquarter hpick⟩
  have hscale : scale quarter 0 = (2 ^ quarter, 1) := scale_natCast quarter 0
  rw [← hsearch, shortest]
  dsimp only
  rw [hquarter, hscale]
  exact congrArg _ hlead

/-! ## Rounding a decimal of an interval -/

theorem nearestNat_of_log2 {w bits : Nat} (hlow : 2 ^ (52 + bits) ≤ w) (hhigh : w < 2 ^ (53 + bits)) :
    nearestNat w = divNearest w (2 ^ bits) * 2 ^ bits := by
  have hpos := Nat.two_pow_pos (52 + bits)
  have hlog : w.log2 = 52 + bits :=
    (Nat.log2_eq_iff (by omega)).mpr ⟨hlow, by rwa [Nat.add_right_comm]⟩
  rw [nearestNat, hlog, Nat.add_sub_cancel_left]

/-- What lies in the interval of a number of 53 bits that is no power of two is rounded to that number. -/
theorem nearestNat_of_holds {m w : Nat} (hlow : 2 ^ 52 < m) (hhigh : m < 2 ^ 53)
    (h : (Interval.around m (11 : Nat)).holds 9 w = true) :
    2 ^ 63 ≤ w ∧ nearestNat w = m * 2 ^ 11 := by
  have hpower : ¬ (m = 1 <<< 52 ∧ -1074 < ((11 : Nat) : Int)) := by
    rintro ⟨rfl, -⟩
    exact absurd hlow (by decide)
  obtain ⟨hfrom, hto, hinner⟩ := Interval.bounds_of_holds h
  rw [Interval.around, if_neg hpower] at hfrom hto hinner
  dsimp only at hfrom hto hinner
  rw [decide_eq_false_iff_not] at hinner
  have hrange : 2 ^ (52 + 11) ≤ w ∧ w < 2 ^ (53 + 11) := by omega
  have hround : divNearest w (2 ^ 11) = m := by
    unfold divNearest
    split
    · omega
    · split <;> omega
  exact ⟨hrange.1, by rw [nearestNat_of_log2 hrange.1 hrange.2, hround]⟩

/-- A number from 2⁶³ to 2⁶⁴ with 53 significant bits is shown as one that is rounded to it. -/
theorem exists_shortest_great {m shift n : Nat} (hlow : 2 ^ 52 ≤ m) (hhigh : m < 2 ^ 53)
    (hvalue : m * 2 ^ shift = n * 2 ^ 52) (hfrom : 2 ^ 63 ≤ n) (hto : n ≤ 2 ^ 64) :
    ∃ c g : Nat, shortest m (shift - 52) = ⟨c, g⟩ ∧ 2 ^ 63 ≤ c * 10 ^ g ∧ nearestNat (c * 10 ^ g) = n := by
  have hshift : 63 ≤ shift ∧ shift ≤ 64 := by
    constructor
    · have hlt : 2 ^ 115 < 2 ^ (53 + shift) := by
        calc 2 ^ 115 ≤ n * 2 ^ 52 := Nat.mul_le_mul_right (2 ^ 52) hfrom
          _ = m * 2 ^ shift := hvalue.symm
          _ < 2 ^ 53 * 2 ^ shift := Nat.mul_lt_mul_of_pos_right hhigh (Nat.two_pow_pos _)
          _ = 2 ^ (53 + shift) := (Nat.pow_add ..).symm
      have hexponent := (Nat.pow_lt_pow_iff_right (by decide)).mp hlt
      omega
    · have hle : 2 ^ (52 + shift) ≤ 2 ^ 116 := by
        calc 2 ^ (52 + shift) = 2 ^ 52 * 2 ^ shift := Nat.pow_add ..
          _ ≤ m * 2 ^ shift := Nat.mul_le_mul_right _ hlow
          _ = n * 2 ^ 52 := hvalue
          _ ≤ 2 ^ 116 := Nat.mul_le_mul_right (2 ^ 52) hto
      have hexponent := (Nat.pow_le_pow_iff_right (by decide)).mp hle
      omega
  obtain rfl | rfl : shift = 63 ∨ shift = 64 := by omega
  · rcases Nat.eq_or_lt_of_le hlow with rfl | hlow
    · obtain rfl : n = 2 ^ 63 := by omega
      exact ⟨9223372036854776, 3, by decide +kernel, by decide, by decide⟩
    · obtain rfl : n = m * 2 ^ 11 := by omega
      -- a step of a thousand is less than half of the interval
      obtain ⟨c, g, hshortest, hholds⟩ :=
        exists_shortest 9 3 (show 0 < m by omega) (by decide) (by omega) (by omega)
      exact ⟨c, g, hshortest, nearestNat_of_holds hlow hhigh hholds⟩
  · obtain rfl : m = 2 ^ 52 := by omega
    obtain rfl : n = 2 ^ 64 := by omega
    exact ⟨18446744073709552, 3, by decide +kernel, by decide, by decide⟩

end Shortest

namespace Notation
open Shortest

/-! ## What is shown -/

theorem toDigits_mul_ten_pow {c : Nat} (hc : 0 < c) (zeros : Nat) :
    Nat.toDigits 10 (c * 10 ^ zeros) = Nat.toDigits 10 c ++ List.replicate zeros '0' := by
  induction zeros with
  | zero => simp
  | succ zeros ih =>
    have hpos : 0 < c * 10 ^ zeros := Nat.mul_pos hc (Nat.pow_pos (by decide))
    have hten : c * 10 ^ (zeros + 1) = 10 * (c * 10 ^ zeros) + 0 := by
      rw [Nat.pow_succ, ← Nat.mul_assoc, Nat.mul_comm, Nat.add_zero]
    rw [hten, ← Nat.toDigits_append_toDigits (by decide) hpos (by decide), ih, List.replicate_succ',
      List.append_assoc]
    rfl

theorem magnitude_page {c : Nat} (hc : 0 < c) (zeros : Nat) :
    page.magnitude ⟨c, zeros⟩ = integer (c * 10 ^ zeros : Nat) := by
  rw [← String.toList_inj, toList_integer_natCast, toDigits_mul_ten_pow hc]
  show (String.ofList (Nat.toDigits 10 c ++ List.replicate zeros '0') ++ "").toList = _
  rw [String.append_empty, String.toList_ofList]

theorem exists_write_great {x : Float} {n : Nat} (h : IsWhole x.toModel.unpack n) (hfrom : 2 ^ 63 ≤ n)
    (hto : n ≤ 2 ^ 64) :
    ∃ w : Nat, page.write x = integer w ∧ 2 ^ 63 ≤ w ∧ nearestNat w = n := by
  rw [write]
  generalize x.toModel.unpack = u at h
  generalize hn : (n : Int) = k at h
  cases h with
  | zero => omega
  | @finite sign n' m shift hm hlow hhigh hvalue =>
    cases sign with
    | negative =>
      have hneg : (n : Int) = -n' := hn
      omega
    | positive =>
      obtain rfl : n = n' := Int.ofNat.inj hn
      obtain ⟨c, g, hshortest, hgreat, hround⟩ := exists_shortest_great hlow hhigh hvalue hfrom hto
      have hc : 0 < c := by
        rcases Nat.eq_zero_or_pos c with rfl | hc
        · omega
        · exact hc
      refine ⟨c * 10 ^ g, ?_, hgreat, hround⟩
      rw [← magnitude_page hc, ← hshortest]
      exact String.empty_append

end Notation

end Stencil.Number
