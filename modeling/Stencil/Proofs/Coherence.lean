import Mathlib.Data.String.Basic
import Stencil.Proofs.Equality

/-! # How the relations belong together

Two equalities and four orderings are computed in three ways. Between values of one kind the equalities are
the same, and between values of two kinds only the loose one can hold, if both are the same number. Values
that are no containers are loosely equal just when they are in order both ways, null apart, which is the
number zero in the order and equal only to itself. -/
namespace Stencil
open Float.Model

/-! ## The order of floats -/

theorem compareNumbers?_eq (x y : Float) :
    Value.compareNumbers? x y = x.toModel.unpack.compare y.toModel.unpack := by
  unfold Value.compareNumbers?
  simp only [lt_iff_compare, beq_iff_compare, ← unpacked_compare_swap x.toModel.unpack]
  cases x.toModel.unpack.compare y.toModel.unpack with
  | none => rfl
  | some o => cases o <;> rfl

theorem compareNumbers?_swap (x y : Float) :
    (Value.compareNumbers? x y).map Ordering.swap = Value.compareNumbers? y x := by
  rw [compareNumbers?_eq, compareNumbers?_eq, unpacked_compare_swap]

theorem compareNumbers?_eq_eq_iff (x y : Float) :
    Value.compareNumbers? x y = some .eq ↔ (x == y) = true := by
  rw [compareNumbers?_eq, beq_iff_compare]

namespace Value

/-! ## The order of values -/

theorem compare?_str (s t : String) : compare? (.str s) (.str t) = some (compare s t) :=
  rfl

/-- Only two texts are compared in another way than as numbers. -/
theorem compare?_of_kind {a b : Value} (h : ¬ (a.kind = .str ∧ b.kind = .str)) :
    compare? a b = a.number?.bind fun x => b.number?.bind fun y => compareNumbers? x y := by
  unfold compare?
  split
  · exact absurd ⟨rfl, rfl⟩ h
  · rfl

theorem str_of_kind {a : Value} (h : a.kind = .str) : ∃ s, a = .str s := by
  cases a with
  | str s => exact ⟨s, rfl⟩
  | _ => cases h

theorem compare?_swap (a b : Value) : (compare? a b).map Ordering.swap = compare? b a := by
  by_cases h : a.kind = .str ∧ b.kind = .str
  · obtain ⟨s, rfl⟩ := str_of_kind h.1
    obtain ⟨t, rfl⟩ := str_of_kind h.2
    exact congrArg some Std.OrientedCmp.eq_swap.symm
  · rw [compare?_of_kind h, compare?_of_kind fun h' => h h'.symm]
    cases a.number? with
    | none => cases b.number? <;> rfl
    | some x =>
      cases b.number? with
      | none => rfl
      | some y => exact compareNumbers?_swap x y

theorem equalNumbers_iff_compare? {a b : Value} (h : ¬ (a.kind = .str ∧ b.kind = .str)) :
    equalNumbers a b = true ↔ compare? a b = some .eq := by
  rw [compare?_of_kind h, equalNumbers]
  cases a.number? with
  | none => simp
  | some x =>
    cases b.number? with
    | none => simp
    | some y => exact (compareNumbers?_eq_eq_iff x y).symm

/-! ## The equalities -/

theorem equalNumbers_comm (a b : Value) : equalNumbers a b = equalNumbers b a := by
  unfold equalNumbers
  cases a.number? with
  | none => cases b.number? <;> rfl
  | some x =>
    cases b.number? with
    | none => rfl
    | some y => exact float_beq_comm x y

theorem looseEq_of_kind_eq {a b : Value} (h : a.kind = b.kind) : looseEq a b = strictEq a b := by
  cases a <;> cases b <;> first | rfl | cases h

theorem looseEq_of_kind_ne {a b : Value} (h : a.kind ≠ b.kind) :
    looseEq a b = (!(a.isNull || b.isNull || a.isContainer || b.isContainer) && equalNumbers a b) := by
  cases a <;> cases b <;> first | rfl | exact absurd rfl h

theorem strictEq_comm (a b : Value) : strictEq a b = strictEq b a := by
  by_cases hk : a.kind = b.kind
  · by_cases hn : a.kind = .number
    · have hn' := hk.symm.trans hn
      rw [strictEq, strictEq, if_pos hk, if_pos hk.symm, hn, hn']
      exact equalNumbers_comm a b
    · rw [Bool.eq_iff_iff, strictEq_iff_same hn, strictEq_iff_same (hk ▸ hn)]
      exact same_comm a b
  · rw [strictEq, strictEq, if_neg hk, if_neg fun h => hk h.symm]

theorem looseEq_comm (a b : Value) : looseEq a b = looseEq b a := by
  by_cases hk : a.kind = b.kind
  · rw [looseEq_of_kind_eq hk, looseEq_of_kind_eq hk.symm, strictEq_comm]
  · rw [looseEq_of_kind_ne hk, looseEq_of_kind_ne fun h => hk h.symm, equalNumbers_comm]
    cases a.isNull <;> cases b.isNull <;> cases a.isContainer <;> cases b.isContainer <;> rfl

theorem looseEq_of_strictEq {a b : Value} (h : strictEq a b = true) : looseEq a b = true := by
  rwa [looseEq_of_kind_eq (kind_eq_of_strictEq h)]

/-- The two equalities of one kind are those of the numbers, but for texts and containers. -/
theorem strictEq_eq_equalNumbers {a b : Value} (hk : a.kind = b.kind) (hs : a.kind ≠ .str)
    (hc : a.isContainer = false) : strictEq a b = equalNumbers a b := by
  cases a with
  | null =>
    cases b with
    | null => decide +kernel
    | _ => cases hk
  | bool p =>
    cases b with
    | bool q => revert p q; decide +kernel
    | _ => cases hk
  | int m => cases b <;> first | rfl | cases hk
  | float x => cases b <;> first | rfl | cases hk
  | str s => exact absurd rfl hs
  | list xs => cases hc
  | map m => cases hc

theorem kind_of_isNull {a : Value} (h : a.isNull = true) : a.kind = .null := by
  cases a with
  | null => rfl
  | _ => cases h

theorem looseEq_iff_compare? {a b : Value} (ha : a.isContainer = false) (hb : b.isContainer = false)
    (hnull : a.isNull = b.isNull) : looseEq a b = true ↔ compare? a b = some .eq := by
  by_cases hs : a.kind = .str ∧ b.kind = .str
  · obtain ⟨s, rfl⟩ := str_of_kind hs.1
    obtain ⟨t, rfl⟩ := str_of_kind hs.2
    rw [compare?_str, Option.some.injEq, compare_eq_iff_eq]
    exact beq_iff_eq
  · rw [← equalNumbers_iff_compare? hs]
    by_cases hk : a.kind = b.kind
    · rw [looseEq_of_kind_eq hk, strictEq_eq_equalNumbers hk (fun h => hs ⟨h, hk ▸ h⟩) ha]
    · have hne : a.isNull = false := by
        by_contra hn
        rw [Bool.not_eq_false] at hn
        exact hk ((kind_of_isNull hn).trans (kind_of_isNull (hnull ▸ hn)).symm)
      rw [looseEq_of_kind_ne hk, ← hnull, hne, ha, hb]
      rfl

end Value

namespace Relation

/-! ## The relations -/

theorem lt_holds_iff {a b : Value} : lt.holds a b = true ↔ Value.compare? a b = some .lt :=
  beq_iff_eq

theorem gt_holds_iff {a b : Value} : gt.holds a b = true ↔ Value.compare? a b = some .gt :=
  beq_iff_eq

theorem le_ge_holds_iff {a b : Value} :
    (le.holds a b = true ∧ ge.holds a b = true) ↔ Value.compare? a b = some .eq := by
  rw [holds, holds]
  cases Value.compare? a b with
  | none => decide
  | some o => cases o <;> decide

/-- The orderings are the same the other way round. -/
theorem holds_swap (a b : Value) :
    lt.holds a b = gt.holds b a ∧ le.holds a b = ge.holds b a := by
  simp only [holds, ← Value.compare?_swap a b]
  cases Value.compare? a b with
  | none => simp
  | some o => cases o <;> simp

/-- Both equalities are symmetric, and the strict one is the finer. The orderings are each other's mirror
images, at most one of less, greater and in order both ways holds, and where null does not meet another
value and neither is a container, in order both ways is loosely equal. -/
theorem holds_coherent (a b : Value) :
    (eq.holds a b = eq.holds b a ∧ strictEq.holds a b = strictEq.holds b a) ∧
    (strictEq.holds a b = true → eq.holds a b = true) ∧
    (lt.holds a b = gt.holds b a ∧ le.holds a b = ge.holds b a) ∧
    (¬ (lt.holds a b = true ∧ gt.holds a b = true) ∧
      ¬ (lt.holds a b = true ∧ le.holds a b = true ∧ ge.holds a b = true) ∧
      ¬ (gt.holds a b = true ∧ le.holds a b = true ∧ ge.holds a b = true)) ∧
    (a.isContainer = false → b.isContainer = false → a.isNull = b.isNull →
      (eq.holds a b = true ↔ le.holds a b = true ∧ ge.holds a b = true)) := by
  rw [le_ge_holds_iff, lt_holds_iff, gt_holds_iff]
  refine ⟨⟨Value.looseEq_comm a b, Value.strictEq_comm a b⟩, Value.looseEq_of_strictEq,
    holds_swap a b, ?_, Value.looseEq_iff_compare?⟩
  cases Value.compare? a b with
  | none => simp
  | some o => cases o <;> simp

theorem holds_coherent_numeral :
    ∃ a b : Value, a.kind ≠ b.kind ∧ eq.holds a b = true ∧ strictEq.holds a b = false ∧
      le.holds a b = true ∧ ge.holds a b = true := by
  have heq : eq.holds (.str "1e1") (.int 10) = true := by
    decide +kernel
  refine ⟨.str "1e1", .int 10, by decide, heq, rfl, ?_⟩
  exact ((holds_coherent (.str "1e1") (.int 10)).2.2.2.2 rfl rfl rfl).mp heq

end Relation

end Stencil
