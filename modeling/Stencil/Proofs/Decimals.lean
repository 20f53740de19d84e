import Mathlib.Data.List.TakeWhile
import Stencil.Number.Notation
import Stencil.Number.Reading

/-! # Numbers in decimal

A text of digits and points is a number if it has a digit and no second point. A whole number is written with
digits alone, behind a minus if it is negative; it can be read off what is written, so no two whole numbers
are written the same way. -/
namespace Stencil.Number

/-! ## Digits and points -/

namespace Reading

theorem isPlain_iff {s : List Char} :
    isPlain s = true ↔ s ≠ [] ∧ ∀ c ∈ s, c.isDigit = true ∨ c = '.' := by
  simp [isPlain]

/-- Two texts with a point between them, or the first alone if the second is empty. -/
inductive Pointed (whole : List Char) : List Char → List Char → Prop
  | without : Pointed whole [] whole
  | between {places} : Pointed whole places (whole ++ '.' :: places)

theorem decimal?_pointed {whole places s : List Char} (hs : Pointed whole places s)
    (h : ∀ c ∈ whole ++ places, c.isDigit = true) : decimal? s =
      if (whole ++ places).isEmpty then none
      else some (scientific (natural (whole ++ places)) (-places.length)) := by
  obtain ⟨hwhole, hplaces⟩ := List.forall_mem_append.mp h
  cases hs with
  | without =>
    have htake := List.takeWhile_eq_self_iff.mpr hwhole
    have hdrop := List.dropWhile_eq_nil_iff.mpr hwhole
    simp [decimal?, htake, hdrop, fraction, exponent?]
  | between =>
    have htake : (whole ++ '.' :: places).takeWhile Char.isDigit = whole := by
      rw [List.takeWhile_append_of_pos hwhole, List.takeWhile_cons_of_neg (by decide), List.append_nil]
    have hdrop : (whole ++ '.' :: places).dropWhile Char.isDigit = '.' :: places := by
      rw [List.dropWhile_append_of_pos hwhole, List.dropWhile_cons_of_neg (by decide)]
    have htake' := List.takeWhile_eq_self_iff.mpr hplaces
    have hdrop' := List.dropWhile_eq_nil_iff.mpr hplaces
    simp [decimal?, htake, hdrop, fraction, htake', hdrop', exponent?]

theorem eq_point_of_dropWhile {s : List Char} (h : ∀ c ∈ s, c.isDigit = true ∨ c = '.') {c : Char}
    {rest : List Char} (hs : s.dropWhile Char.isDigit = c :: rest) : c = '.' := by
  have hnot := List.head?_dropWhile_not Char.isDigit s
  rw [hs] at hnot
  have hm : c ∈ s := (List.dropWhile_sublist Char.isDigit).subset (hs ▸ List.mem_cons_self)
  exact (h c hm).resolve_left (Bool.eq_false_iff.mp hnot)

theorem pointed_of_decimal? {s : List Char} (h : ∀ c ∈ s, c.isDigit = true ∨ c = '.') {x : Float}
    (hx : decimal? s = some x) :
    ∃ whole places, Pointed whole places s ∧ ∀ c ∈ whole ++ places, c.isDigit = true := by
  have hs : s.takeWhile Char.isDigit ++ s.dropWhile Char.isDigit = s := List.takeWhile_append_dropWhile
  cases hrest : s.dropWhile Char.isDigit with
  | nil => exact ⟨s, [], .without, by simpa using List.dropWhile_eq_nil_iff.mp hrest⟩
  | cons c rest =>
    obtain rfl := eq_point_of_dropWhile h hrest
    rw [hrest] at hs
    have hmem : ∀ c ∈ rest, c.isDigit = true ∨ c = '.' := fun c hc =>
      h c (hs ▸ List.mem_append_right _ (List.mem_cons_of_mem _ hc))
    cases hmore : rest.dropWhile Char.isDigit with
    | nil =>
      have hpointed : Pointed (s.takeWhile Char.isDigit) rest (s.takeWhile Char.isDigit ++ '.' :: rest) :=
        .between
      rw [hs] at hpointed
      refine ⟨s.takeWhile Char.isDigit, rest, hpointed, List.forall_mem_append.mpr ⟨?_, ?_⟩⟩
      · exact fun c hc => List.mem_takeWhile_imp hc
      · exact List.dropWhile_eq_nil_iff.mp hmore
    | cons e others =>
      -- a second point is no power of ten
      obtain rfl := eq_point_of_dropWhile hmem hmore
      simp [decimal?, hrest, fraction, hmore, exponent?] at hx

theorem plain_decimal?_iff {s : List Char} {x : Float} :
    (isPlain s = true ∧ decimal? s = some x) ↔
      ∃ whole places, Pointed whole places s ∧ whole ++ places ≠ [] ∧
        (∀ c ∈ whole ++ places, c.isDigit = true) ∧
        scientific (natural (whole ++ places)) (-places.length) = x := by
  constructor
  · intro ⟨hplain, hx⟩
    obtain ⟨whole, places, hs, hdigits⟩ := pointed_of_decimal? (isPlain_iff.mp hplain).2 hx
    rw [decimal?_pointed hs hdigits] at hx
    split at hx
    · cases hx
    · rename_i hne
      exact ⟨whole, places, hs, by simpa using hne, hdigits, Option.some.inj hx⟩
  · intro ⟨whole, places, hs, hne, hdigits, hx⟩
    constructor
    · obtain ⟨hwhole, hplaces⟩ := List.forall_mem_append.mp hdigits
      rw [isPlain_iff]
      cases hs with
      | without => exact ⟨by simpa using hne, fun c hc => .inl (hwhole c hc)⟩
      | between =>
        refine ⟨by simp, fun c hc => ?_⟩
        simp only [List.mem_append, List.mem_cons] at hc
        obtain hc | rfl | hc := hc
        · exact .inl (hwhole c hc)
        · exact .inr rfl
        · exact .inl (hplaces c hc)
    · rw [decimal?_pointed hs hdigits, if_neg (by simpa using hne), hx]

end Reading

/-! ## Whole numbers -/

namespace Notation
open Reading

theorem isDigit_of_mem {n : Nat} {c : Char} (h : c ∈ Nat.toDigits 10 n) : c.isDigit = true :=
  Nat.isDigit_of_mem_toDigits (by decide) (by decide) h

theorem not_mem_toDigits {c : Char} (hc : c.isDigit = false) (n : Nat) : c ∉ Nat.toDigits 10 n := by
  intro h
  rw [isDigit_of_mem h] at hc
  cases hc

theorem natural?_toDigits (n : Nat) : natural? (Nat.toDigits 10 n) = some n := by
  have hall : (Nat.toDigits 10 n).all Char.isDigit = true :=
    List.all_eq_true.mpr fun c hc => isDigit_of_mem hc
  have hne : (Nat.toDigits 10 n).isEmpty = false := by simp
  rw [natural?, hall, hne]
  exact congrArg some Nat.ofDigitChars_ten_toDigits

theorem toList_integer_natCast (n : Nat) : (integer n).toList = Nat.toDigits 10 n := by
  have hpos : ¬ (n : Int) < 0 := Int.not_lt.mpr (Int.natCast_nonneg n)
  rw [integer, decide_eq_false hpos, sign, if_neg Bool.false_ne_true, String.empty_append,
    String.toList_ofList, Int.natAbs_natCast]

theorem toList_integer_negSucc (n : Nat) :
    (integer (Int.negSucc n)).toList = '-' :: Nat.toDigits 10 (n + 1) := by
  have hdigits : (String.ofList (Nat.toDigits 10 (n + 1))).toList = Nat.toDigits 10 (n + 1) :=
    String.toList_ofList
  rw [integer, decide_eq_true (Int.negSucc_lt_zero n), sign, if_pos rfl, String.toList_append,
    Int.natAbs_negSucc, hdigits]
  rfl

/-- A sign is not mistaken for a digit. -/
theorem signed_toDigits (n : Nat) : signed (Nat.toDigits 10 n) = (false, Nat.toDigits 10 n) := by
  have hminus : '-' ∉ Nat.toDigits 10 n := not_mem_toDigits (by decide) n
  have hplus : '+' ∉ Nat.toDigits 10 n := not_mem_toDigits (by decide) n
  unfold signed
  split
  · simp_all
  · simp_all
  · rfl

/-- A position in decimal is read as that position. -/
theorem index?_integer (n : Nat) : index? (integer n).toList = some n := by
  have hplus : '+' ∉ Nat.toDigits 10 n := not_mem_toDigits (by decide) n
  rw [toList_integer_natCast]
  unfold index?
  split
  · simp_all
  · exact natural?_toDigits n

theorem point_not_mem_integer (n : Int) : '.' ∉ (integer n).toList := by
  have hdigits (n : Nat) : '.' ∉ Nat.toDigits 10 n := not_mem_toDigits (by decide) n
  cases n with
  | ofNat n =>
    rw [Int.ofNat_eq_natCast, toList_integer_natCast]
    exact hdigits n
  | negSucc n =>
    rw [toList_integer_negSucc, List.mem_cons]
    exact not_or.mpr ⟨by decide, hdigits (n + 1)⟩

/-- The number that a decimal with a sign stands for. -/
def ofSigned : Bool × List Char → Int
  | (true, digits) => -natural digits
  | (false, digits) => natural digits

theorem ofSigned_integer (n : Int) : ofSigned (signed (integer n).toList) = n := by
  have hdigits (n : Nat) : natural (Nat.toDigits 10 n) = n := Nat.ofDigitChars_ten_toDigits
  cases n with
  | ofNat n =>
    rw [Int.ofNat_eq_natCast, toList_integer_natCast, signed_toDigits, ofSigned, hdigits]
  | negSucc n =>
    rw [toList_integer_negSucc, signed, ofSigned, hdigits]
    rfl

theorem integer_injective {m n : Int} (h : integer m = integer n) : m = n := by
  rw [← ofSigned_integer m, h, ofSigned_integer]

end Notation

end Stencil.Number
