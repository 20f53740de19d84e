import Mathlib.Algebra.Group.Int.Defs
import Stencil.Proofs.Unambiguous

/-! # Whole numbers in arithmetic

Sums, differences, products and negations of whole numbers are exact as long as 64 bits hold every number on
the way. As soon as one does not fit, the result is a float, and stays one. -/
namespace Stencil

/-- 64 bits hold the number. -/
def Representable (n : Int) : Prop :=
  -2 ^ 63 ≤ n ∧ n < 2 ^ 63

theorem representable_toInt (n : Int64) : Representable n.toInt :=
  ⟨n.le_toInt, n.toInt_lt⟩

namespace Value

/-- The result is the whole number if it fits, and a float otherwise. -/
inductive Exactly (n : Int) : Value → Prop
  | int {m : Int64} : m.toInt = n → Exactly n (.int m)
  | float {x} : ¬ Representable n → Exactly n (.float x)

theorem exactly_exactly (n : Int) (rounded : Float) : Exactly n (exactly n rounded) := by
  unfold exactly ofInt?
  split
  · rename_i h
    exact .int (Int64.toInt_ofInt_of_le h.1 (Int.lt_of_le_of_lt h.2 (by decide)))
  · rename_i h
    refine .float fun hfits => h ⟨hfits.1, ?_⟩
    exact Int.le_of_lt_add_one hfits.2

end Value

namespace Operator

/-- The exact result for whole numbers. There is none for a quotient. -/
def integer? : Operator → Int → Int → Option Int
  | .add, a, b => some (a + b)
  | .sub, a, b => some (a - b)
  | .mul, a, b => some (a * b)
  | .div, _, _ => none

theorem apply_int {o : Operator} (h : o ≠ .div) (a b : Int64) :
    ∃ n, o.integer? a.toInt b.toInt = some n ∧ Value.Exactly n (o.apply (.int a) (.int b)) := by
  cases o with
  | div => exact absurd rfl h
  | _ => exact ⟨_, rfl, Value.exactly_exactly _ _⟩

theorem apply_float_left (o : Operator) (x : Float) {v : Value} (h : v.kind = .number) :
    ∃ y, o.apply (.float x) v = .float y := by
  cases v with
  | int | float => cases o <;> exact ⟨_, rfl⟩
  | _ => cases h

theorem apply_float_right (o : Operator) (x : Float) {v : Value} (h : v.kind = .number) :
    ∃ y, o.apply v (.float x) = .float y := by
  cases v with
  | int | float => cases o <;> exact ⟨_, rfl⟩
  | _ => cases h

end Operator

namespace Expression

variable {α : Type} {meaning : α → Value}

namespace Tree

/-- The exact number that an expression of whole numbers stands for. -/
def integer? (meaning : α → Value) : Tree α → Option Int
  | .operand x =>
    match meaning x with
    | .int n => some n.toInt
    | _ => none
  | .minus t => (t.integer? meaning).map fun n => -n
  | .join o t u => (t.integer? meaning).bind fun a => (u.integer? meaning).bind fun b => o.integer? a b

/-- The expression and all expressions in it. -/
def parts : Tree α → List (Tree α)
  | .operand x => [.operand x]
  | .minus t => .minus t :: t.parts
  | .join o t u => .join o t u :: (t.parts ++ u.parts)

/-- The expression stands for a number that fits. -/
def FitsExactly (meaning : α → Value) (t : Tree α) : Prop :=
  ∃ n, t.integer? meaning = some n ∧ Representable n

/-- Every number on the way fits. -/
def AllFit (meaning : α → Value) (t : Tree α) : Prop :=
  ∀ u ∈ t.parts, u.FitsExactly meaning

theorem allFit_operand_iff {x : α} :
    AllFit meaning (.operand x) ↔ FitsExactly meaning (.operand x) := by
  simp [AllFit, parts]

theorem allFit_minus_iff {t : Tree α} :
    AllFit meaning (.minus t) ↔ FitsExactly meaning (.minus t) ∧ AllFit meaning t := by
  simp [AllFit, parts]

theorem allFit_join_iff {o : Operator} {t u : Tree α} :
    AllFit meaning (.join o t u) ↔
      FitsExactly meaning (.join o t u) ∧ AllFit meaning t ∧ AllFit meaning u := by
  simp [AllFit, parts, or_imp, forall_and]

/-- Whole numbers without a quotient. -/
inductive Whole (meaning : α → Value) : Tree α → Prop
  | operand {x n} : meaning x = .int n → Whole meaning (.operand x)
  | minus {t} : Whole meaning t → Whole meaning (.minus t)
  | join {o t u} : o ≠ .div → Whole meaning t → Whole meaning u → Whole meaning (.join o t u)

/-- The value is exact if every number on the way fits, and a float otherwise. -/
inductive ExactOrFloat (meaning : α → Value) (t : Tree α) : Value → Prop
  | int {n : Int64} : t.AllFit meaning → t.integer? meaning = some n.toInt →
      ExactOrFloat meaning t (.int n)
  | float {x} : ¬ t.AllFit meaning → ExactOrFloat meaning t (.float x)

theorem ExactOrFloat.kind_eq {t : Tree α} {v : Value} (h : ExactOrFloat meaning t v) :
    v.kind = .number := by
  cases h <;> rfl

/-- One operation, on numbers that have all fitted. -/
theorem ExactOrFloat.of_exactly {t : Tree α} {n : Int} {v : Value} (hn : t.integer? meaning = some n)
    (hall : t.AllFit meaning ↔ t.FitsExactly meaning) (hv : Value.Exactly n v) :
    ExactOrFloat meaning t v := by
  cases hv with
  | @int m hm =>
    subst hm
    exact .int (hall.mpr ⟨_, hn, representable_toInt m⟩) hn
  | float hnot =>
    refine .float fun h => ?_
    obtain ⟨k, hk, hfits⟩ := hall.mp h
    obtain rfl := Option.some.inj (hn.symm.trans hk)
    exact hnot hfits

theorem ExactOrFloat.minus {t : Tree α} {v : Value} (h : ExactOrFloat meaning t v) :
    ExactOrFloat meaning (.minus t) v.neg := by
  cases h with
  | @int n hfit hn =>
    have hinteger : integer? meaning (.minus t) = some (-n.toInt) := by rw [integer?, hn, Option.map_some]
    exact .of_exactly hinteger (allFit_minus_iff.trans (and_iff_left hfit)) (Value.exactly_exactly _ _)
  | float hnot => exact .float fun hall => hnot (allFit_minus_iff.mp hall).2

theorem ExactOrFloat.join {o : Operator} {t u : Tree α} {v w : Value} (ho : o ≠ .div)
    (ht : ExactOrFloat meaning t v) (hu : ExactOrFloat meaning u w) :
    ExactOrFloat meaning (.join o t u) (o.apply v w) := by
  have hv := ht.kind_eq
  -- a float on one side makes a float, and not every number on that side has fitted
  cases ht with
  | float hnot =>
    obtain ⟨y, hy⟩ := Operator.apply_float_left o _ hu.kind_eq
    rw [hy]
    exact .float fun hall => hnot (allFit_join_iff.mp hall).2.1
  | @int a hfit ha =>
    cases hu with
    | float hnot =>
      obtain ⟨y, hy⟩ := Operator.apply_float_right o _ hv
      rw [hy]
      exact .float fun hall => hnot (allFit_join_iff.mp hall).2.2
    | @int b hfit' hb =>
      obtain ⟨n, hn, hv⟩ := Operator.apply_int ho a b
      have hinteger : integer? meaning (.join o t u) = some n := by
        rw [integer?, ha, hb, Option.bind_some, Option.bind_some, hn]
      exact .of_exactly hinteger (allFit_join_iff.trans (and_iff_left ⟨hfit, hfit'⟩)) hv

theorem exactOrFloat_value {t : Tree α} (h : t.Whole meaning) :
    ExactOrFloat meaning t (t.value meaning) := by
  induction h with
  | @operand x n hx =>
    have hinteger : integer? meaning (.operand x) = some n.toInt := by rw [integer?, hx]
    rw [value, hx]
    exact .int (allFit_operand_iff.mpr ⟨_, hinteger, representable_toInt n⟩) hinteger
  | minus _ ih => exact ih.minus
  | join ho _ _ iht ihu => exact iht.join ho ihu

end Tree

theorem Derives.whole {level : Level} {room : Nat} {tokens : List (Token α)} {t : Tree α}
    (h : Derives level room tokens t) (hops : ∀ x, .operand x ∈ tokens → ∃ n, meaning x = .int n)
    (hdiv : .operator .div ∉ tokens) : t.Whole meaning := by
  induction h with
  | @operand _ x =>
    obtain ⟨n, hn⟩ := hops x List.mem_cons_self
    exact .operand hn
  | minus _ ih => exact .minus (ih (fun x hx => hops x (by simp [hx])) (by simp_all))
  | group _ ih => exact ih (fun x hx => hops x (by simp [hx])) (by simp_all)
  | term _ ih => exact ih hops hdiv
  | sum _ ih => exact ih hops hdiv
  | joinFactor _ _ _ iht ihu | joinTerm _ _ _ iht ihu =>
    refine .join ?_ (iht (fun x hx => hops x (by simp [hx])) (by simp_all))
      (ihu (fun x hx => hops x (by simp [hx])) (by simp_all))
    rintro rfl
    simp at hdiv

/-- An expression of whole numbers without a quotient has one reading, and if every number on the way
fits, its value is the exact number. Otherwise the value is a float. -/
theorem evaluate_whole {tokens : List (Token α)} {v : Value} (hne : tokens ≠ [])
    (hops : ∀ x, .operand x ∈ tokens → ∃ n, meaning x = .int n) (hdiv : .operator .div ∉ tokens)
    (h : evaluate meaning tokens = .ok v) :
    ∃ t, (∀ u, Derives .sum limit tokens u ↔ u = t) ∧
      ((∃ n, v = .int n) ↔ ∀ u ∈ t.parts, ∃ n, u.integer? meaning = some n ∧ Representable n) ∧
      (∀ n, v = .int n → t.integer? meaning = some n.toInt) ∧
      ((∀ n, v ≠ .int n) → ∃ x, v = .float x) := by
  obtain ⟨t, ht, rfl⟩ := (evaluate_eq_ok_iff.mp h).resolve_left fun hnil => hne hnil.1
  refine ⟨t, fun u => ⟨fun hu => hu.unique ht, fun hu => hu ▸ ht⟩, ?_⟩
  have hvalue := Tree.exactOrFloat_value (ht.whole hops hdiv)
  generalize t.value meaning = v at hvalue
  cases hvalue with
  | @int n hfit hn =>
    refine ⟨iff_of_true ⟨n, rfl⟩ hfit, fun m hm => ?_, fun hnot => absurd rfl (hnot n)⟩
    rw [hn, Value.int.inj hm]
  | @float x hnot => exact ⟨iff_of_false nofun hnot, nofun, fun _ => ⟨x, rfl⟩⟩

/-- The sum on the way does not fit, although the number in the end does. -/
theorem evaluate_whole_overflow :
    ∃ (tokens : List (Token Value)) (x : Float) (t : Tree Value),
      (∀ v, .operand v ∈ tokens → ∃ n, v = .int n) ∧ .operator .div ∉ tokens ∧
      evaluate id tokens = .ok (.float x) ∧ (∀ u, Derives .sum limit tokens u ↔ u = t) ∧
      t.integer? id = some (2 ^ 63 - 1) ∧
      ¬ ∀ u ∈ t.parts, ∃ n, u.integer? id = some n ∧ Representable n := by
  let tokens : List (Token Value) :=
    [.operand (.int Int64.maxValue), .operator .add, .operand (.int 1), .operator .sub,
      .operand (.int 1)]
  have hops : ∀ v, .operand v ∈ tokens → ∃ n, v = .int n := by simp [tokens]
  have hdiv : .operator .div ∉ tokens := by simp [tokens]
  have hderives : Derives .sum limit tokens
      (.join .sub (.join .add (.operand _) (.operand _)) (.operand _)) :=
    .joinTerm (.joinTerm (.sum (.term .operand)) rfl (.term .operand)) rfl (.term .operand)
  obtain ⟨x, h⟩ : ∃ x, evaluate id tokens = .ok (.float x) := ⟨_, rfl⟩
  obtain ⟨t, huniq, hiff, -⟩ := evaluate_whole (List.cons_ne_nil _ _) hops hdiv h
  refine ⟨tokens, x, t, hops, hdiv, h, huniq, ?_, fun hall => nomatch hiff.mpr hall⟩
  rw [← (huniq _).mp hderives]
  rfl

/-- Where there is no number at all, the value is none. -/
theorem evaluate_whole_nothing :
    ∃ (tokens : List (Token Value)) (v : Value), (∀ x, .operand x ∈ tokens → ∃ n, x = .int n) ∧
      .operator .div ∉ tokens ∧ evaluate id tokens = .ok v ∧ (∀ n, v ≠ .int n) ∧ ∀ x, v ≠ .float x :=
  ⟨[], .null, nofun, nofun, rfl, nofun, nofun⟩

end Expression

end Stencil
