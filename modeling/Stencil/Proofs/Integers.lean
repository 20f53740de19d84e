import Stencil.Proofs.WholeFloats
import Stencil.Relation

/-! # Relations between whole numbers

Whole numbers are compared as floats, so each is rounded to 53 bits first. The relations are those of the
rounded numbers: they are exact up to a magnitude of 2⁵³ and never turn an order around, but neighbours
above can be taken for equal. -/
namespace Stencil
open Number.Rounding

/-- The relation between numbers that a relation between values stands for. -/
def Relation.Between (r : Relation) (a b : Int) : Prop :=
  match r with
  | .lt => a < b
  | .gt => b < a
  | .le => a ≤ b
  | .ge => b ≤ a
  | .eq | .strictEq => a = b
  | .ne | .strictNe => a ≠ b

/-! ## Floats -/

theorem lt_iff_compare {x y : Float} :
    x < y ↔ x.toModel.unpack.compare y.toModel.unpack = some .lt := by
  show x.lt y = true ↔ _
  rw [Float.lt, decide_eq_true_iff]
  exact beq_iff_eq

theorem beq_iff_compare {x y : Float} :
    (x == y) = true ↔ x.toModel.unpack.compare y.toModel.unpack = some .eq := by
  show (x.toModel.unpack.compare y.toModel.unpack == some .eq) = true ↔ _
  rw [beq_iff_eq]

variable {x y : Float} {a b : Int}

theorem compareNumbers?_whole (hx : IsWhole x.toModel.unpack a) (hy : IsWhole y.toModel.unpack b) :
    Value.compareNumbers? x y = some (compare a b) := by
  unfold Value.compareNumbers?
  simp only [lt_iff_compare, beq_iff_compare, hx.compare hy, hy.compare hx, Option.some.injEq,
    compare_lt_iff_lt, compare_eq_iff_eq]
  rcases lt_trichotomy a b with h | h | h
  · rw [if_pos h, compare_lt_iff_lt.mpr h]
  · rw [if_neg (not_lt_of_ge h.ge), if_neg (not_lt_of_ge h.le), if_pos h, compare_eq_iff_eq.mpr h]
  · rw [if_neg (not_lt_of_gt h), if_pos h, compare_gt_iff_gt.mpr h]

theorem beq_whole (hx : IsWhole x.toModel.unpack a) (hy : IsWhole y.toModel.unpack b) :
    (x == y) = true ↔ a = b := by
  rw [beq_iff_compare, hx.compare hy, Option.some.injEq, compare_eq_iff_eq]

/-! ## Values -/

theorem natAbs_toInt_lt (n : Int64) : n.toInt.natAbs < 2 ^ 64 := by
  have hlow := n.le_toInt
  have hhigh := n.toInt_lt
  omega

theorem isWhole_number (n : Int64) : IsWhole (Float.ofInt n.toInt).toModel.unpack (nearest n.toInt) :=
  isWhole_ofInt (natAbs_toInt_lt n)

theorem compare?_int (a b : Int64) :
    Value.compare? (.int a) (.int b) = some (compare (nearest a.toInt) (nearest b.toInt)) :=
  compareNumbers?_whole (isWhole_number a) (isWhole_number b)

theorem equalNumbers_int_iff (a b : Int64) :
    Value.equalNumbers (.int a) (.int b) = true ↔ nearest a.toInt = nearest b.toInt :=
  beq_whole (isWhole_number a) (isWhole_number b)

theorem not_equalNumbers_int_iff (a b : Int64) :
    (!Value.equalNumbers (.int a) (.int b)) = true ↔ nearest a.toInt ≠ nearest b.toInt := by
  rw [Bool.not_eq_true', Bool.eq_false_iff, ne_eq, equalNumbers_int_iff]

theorem ordered_iff {a b : Int64} (o : Ordering) :
    (Value.compare? (.int a) (.int b) == some o) = true ↔
      compare (nearest a.toInt) (nearest b.toInt) = o := by
  rw [compare?_int, beq_iff_eq, Option.some.injEq]

theorem Relation.holds_int_iff_between (r : Relation) (a b : Int64) :
    r.holds (.int a) (.int b) = true ↔ r.Between (nearest a.toInt) (nearest b.toInt) := by
  cases r with
  | lt => exact (ordered_iff .lt).trans compare_lt_iff_lt
  | gt => exact (ordered_iff .gt).trans compare_gt_iff_gt
  | le =>
    rw [Relation.holds, Bool.or_eq_true, ordered_iff, ordered_iff, compare_lt_iff_lt, compare_eq_iff_eq]
    exact le_iff_lt_or_eq.symm
  | ge =>
    rw [Relation.holds, Bool.or_eq_true, ordered_iff, ordered_iff, compare_gt_iff_gt, compare_eq_iff_eq]
    exact (or_congr Iff.rfl eq_comm).trans le_iff_lt_or_eq.symm
  | eq => exact equalNumbers_int_iff a b
  | strictEq => exact equalNumbers_int_iff a b
  | ne => exact not_equalNumbers_int_iff a b
  | strictNe => exact not_equalNumbers_int_iff a b

/-- A relation between whole numbers is the one between the nearest numbers of 53 bits. Up to a magnitude of
2⁵³ these are the numbers themselves. They are at most half of their last bit away from them, and in the same
order. -/
theorem Relation.holds_int (r : Relation) (a b : Int64) :
    (r.holds (.int a) (.int b) = true ↔ r.Between (nearest a.toInt) (nearest b.toInt)) ∧
      (a.toInt.natAbs ≤ 2 ^ 53 → b.toInt.natAbs ≤ 2 ^ 53 →
        (r.holds (.int a) (.int b) = true ↔ r.Between a.toInt b.toInt)) ∧
      2 * (nearest a.toInt - a.toInt).natAbs ≤ 2 ^ (a.toInt.natAbs.log2 - 52) ∧
      (a.toInt ≤ b.toInt → nearest a.toInt ≤ nearest b.toInt) := by
  have hholds := holds_int_iff_between r a b
  refine ⟨hholds, fun ha hb => ?_, nearest_near a.toInt, nearest_mono⟩
  rw [hholds, nearest_of_le ha, nearest_of_le hb]

theorem Relation.holds_int_below :
    Relation.le.holds (.int 9007199254740991) (.int 9007199254740992) = true ↔
      Relation.le.Between 9007199254740991 9007199254740992 :=
  (Relation.holds_int .le 9007199254740991 9007199254740992).2.1 (by decide) (by decide)

/-- Two neighbours above 2⁵³ are rounded to the same number. -/
theorem Relation.holds_int_neighbours :
    ∃ a b : Int64, a < b ∧ Relation.strictEq.holds (.int a) (.int b) = true ∧
      Relation.eq.holds (.int a) (.int b) = true ∧ Relation.lt.holds (.int a) (.int b) = false := by
  refine ⟨9007199254740992, 9007199254740993, by decide, ?_, ?_, ?_⟩
  · decide +kernel
  · decide +kernel
  · decide +kernel

end Stencil
