import Mathlib.Data.List.Nodup
import Stencil.Proofs.Conversion
import Stencil.Proofs.Exactness
import Stencil.Proofs.Paths
import Stencil.Proofs.Shortest

/-! # Maps with whole numbers as keys

A whole number below 2⁶³ is a name in its decimal form. A greater one becomes a float first, so that of its
bits the first 53 are left: keys that are rounded to the same number have the same name, and only the entry
of the last of them is kept. -/
namespace Stencil
open Number Rounding

namespace Datum

/-- A whole number as a key: of at most 64 bits, with a sign or without. -/
inductive IntegerKey where
  | signed (n : Int64)
  | unsigned (n : UInt64)

namespace IntegerKey

variable {key other : IntegerKey}

def datum : IntegerKey → Datum
  | .signed n => .signed n
  | .unsigned n => .unsigned n

def number : IntegerKey → Int
  | .signed n => n.toInt
  | .unsigned n => n.toNat

/-- What is left of a number that becomes a value: all of it below 2⁶³, and else the nearest number of 53 bits. -/
def kept (n : Int) : Int :=
  if n < 2 ^ 63 then n else nearest n

def value : IntegerKey → Value
  | .signed n => .int n
  | .unsigned n => (Value.ofInt? n.toNat).getD (.float (Float.ofNat n.toNat))

def name (key : IntegerKey) : String :=
  key.value.display

theorem toValue_datum (key : IntegerKey) : key.datum.toValue = .ok key.value := by
  cases key <;> rfl

theorem keyName_value (key : IntegerKey) : keyName key.value = .ok key.name := by
  cases key with
  | signed n => rfl
  | unsigned n =>
    rw [name, value, Value.ofInt?]
    split <;> rfl

/-! ## Names -/

theorem value_unsigned_from {n : UInt64} (h : 2 ^ 63 ≤ n.toNat) :
    (unsigned n).value = .float (Float.ofNat n.toNat) := by
  have hmax : Int64.maxValue.toInt = 2 ^ 63 - 1 := by decide
  rw [value, Value.ofInt?, if_neg (by omega)]
  rfl

/-- Only a number without a sign can be so great. -/
theorem eq_unsigned_of_le (h : 2 ^ 63 ≤ key.number) : ∃ n : UInt64, key = unsigned n ∧ 2 ^ 63 ≤ n.toNat := by
  cases key with
  | signed n => exact absurd n.toInt_lt (Int.not_lt.mpr h)
  | unsigned n => exact ⟨n, rfl, Int.ofNat_le.mp h⟩

theorem name_below (h : key.number < 2 ^ 63) : key.name = Notation.integer key.number := by
  cases key with
  | signed n => rfl
  | unsigned n =>
    have hexactly : Value.Exactly n.toNat (unsigned n).value := Value.exactly_exactly _ _
    rw [name, number]
    generalize (unsigned n).value = v at hexactly
    cases hexactly with
    | int hm => rw [Value.display, hm]
    | float hlarge => exact absurd ⟨by omega, h⟩ hlarge

theorem isWhole_unsigned (n : UInt64) : IsWhole (Float.ofNat n.toNat).toModel.unpack (nearestNat n.toNat) :=
  isWhole_ofNat n.toNat_lt

theorem nearestNat_from {n : Nat} (h : 2 ^ 63 ≤ n) : 2 ^ 63 ≤ nearestNat n := by
  have hpower : nearestNat (2 ^ 63) = 2 ^ 63 := by decide
  exact hpower ▸ nearestNat_mono h

theorem name_from {n : UInt64} (h : 2 ^ 63 ≤ n.toNat) :
    ∃ w : Nat, (unsigned n).name = Notation.integer w ∧ 2 ^ 63 ≤ w ∧ nearestNat w = nearestNat n.toNat := by
  rw [name, value_unsigned_from h]
  exact Notation.exists_write_great (isWhole_unsigned n) (nearestNat_from h) (nearestNat_le n.toNat_lt)

theorem name_eq_of_nearestNat {m n : UInt64} (hm : 2 ^ 63 ≤ m.toNat) (hn : 2 ^ 63 ≤ n.toNat)
    (h : nearestNat m.toNat = nearestNat n.toNat) : (unsigned m).name = (unsigned n).name := by
  have hwhole := isWhole_unsigned m
  rw [h] at hwhole
  have hne : (nearestNat n.toNat : Int) ≠ 0 := by
    have hfrom := nearestNat_from hn
    omega
  have hunpack := hwhole.unique (isWhole_unsigned n) hne
  rw [name, name, value_unsigned_from hm, value_unsigned_from hn, Value.display, Value.display,
    Notation.write, Notation.write, hunpack]

theorem kept_below {n : Int} (h : n < 2 ^ 63) : kept n = n :=
  if_pos h

theorem kept_from {n : Nat} (h : 2 ^ 63 ≤ n) : kept n = nearestNat n :=
  if_neg (show ¬ (n : Int) < 2 ^ 63 by omega)

theorem kept_lt_iff {n : Int} : kept n < 2 ^ 63 ↔ n < 2 ^ 63 := by
  rcases Int.lt_or_le n (2 ^ 63) with h | h
  · rw [kept_below h]
  · obtain ⟨n, rfl⟩ := Int.eq_ofNat_of_zero_le (show 0 ≤ n by omega)
    have hfrom := nearestNat_from (Int.ofNat_le.mp h)
    rw [kept_from (Int.ofNat_le.mp h)]
    omega

theorem eq_of_kept_eq {m n : Int} (hn : n < 2 ^ 63) (h : kept m = kept n) : m = n := by
  have hm : m < 2 ^ 63 := by rwa [← kept_lt_iff, h, kept_lt_iff]
  rwa [kept_below hm, kept_below hn] at h

/-- A name is the decimal form of a number of which the same is left. -/
theorem exists_name_eq (key : IntegerKey) :
    ∃ w, key.name = Notation.integer w ∧ kept w = kept key.number := by
  rcases Int.lt_or_le key.number (2 ^ 63) with h | h
  · exact ⟨key.number, name_below h, rfl⟩
  · obtain ⟨n, rfl, hn⟩ := eq_unsigned_of_le h
    obtain ⟨w, hname, hw, hround⟩ := name_from hn
    exact ⟨w, hname, by rw [number, kept_from hw, kept_from hn, hround]⟩

/-- Keys have the same name just when the same is left of their numbers. -/
theorem name_eq_iff : key.name = other.name ↔ kept key.number = kept other.number := by
  constructor
  · intro h
    obtain ⟨w, hname, hkept⟩ := key.exists_name_eq
    obtain ⟨w', hname', hkept'⟩ := other.exists_name_eq
    rw [hname, hname'] at h
    rw [← hkept, ← hkept', Notation.integer_injective h]
  · intro h
    rcases Int.lt_or_le key.number (2 ^ 63) with hkey | hkey
    · have hnumber : other.number = key.number := eq_of_kept_eq hkey h.symm
      rw [name_below hkey, name_below (hnumber ▸ hkey), hnumber]
    · have hother : 2 ^ 63 ≤ other.number := by
        rwa [← Int.not_lt, ← kept_lt_iff, ← h, kept_lt_iff, Int.not_lt]
      obtain ⟨m, rfl, hm⟩ := eq_unsigned_of_le hkey
      obtain ⟨n, rfl, hn⟩ := eq_unsigned_of_le hother
      rw [number, number, kept_from hm, kept_from hn] at h
      exact name_eq_of_nearestNat hm hn (Int.ofNat.inj h)

theorem point_not_mem_name (key : IntegerKey) : '.' ∉ key.name.toList := by
  obtain ⟨w, hname, -⟩ := key.exists_name_eq
  rw [hname]
  exact Notation.point_not_mem_integer w

end IntegerKey

/-! ## Entries -/

open IntegerKey

variable {entries : List (IntegerKey × Datum)} {pairs table : List (String × Value)}

/-- What an entry becomes. -/
def Becomes (entry : IntegerKey × Datum) (stored : String × Value) : Prop :=
  stored.1 = entry.1.name ∧ entry.2.toValue = .ok stored.2

theorem exists_becomes (h : ∀ entry ∈ entries, ∃ v, entry.2.toValue = .ok v) :
    ∃ pairs, List.Forall₂ Becomes entries pairs := by
  induction entries with
  | nil => exact ⟨[], .nil⟩
  | cons entry rest ih =>
    obtain ⟨⟨v, hv⟩, hrest⟩ := List.forall_mem_cons.mp h
    obtain ⟨pairs, hpairs⟩ := ih hrest
    exact ⟨(entry.1.name, v) :: pairs, .cons ⟨rfl, hv⟩ hpairs⟩

theorem rightUnique_becomes : Relator.RightUnique Becomes := by
  intro entry stored stored' h h'
  obtain ⟨hname, hvalue⟩ := h
  obtain ⟨hname', hvalue'⟩ := h'
  rw [hvalue] at hvalue'
  exact Prod.ext (hname.trans hname'.symm) (Except.ok.inj hvalue')

theorem names_of_becomes (h : List.Forall₂ Becomes entries pairs) :
    Entries.keys pairs = entries.map (·.1.name) := by
  induction h with
  | nil => rfl
  | cons hpair _ ih => exact congr (congrArg _ hpair.1) ih

theorem stores_of_becomes (h : List.Forall₂ Becomes entries pairs) :
    List.Forall₂ Stores (entries.map fun entry => (entry.1.datum, entry.2)) pairs := by
  rw [List.forall₂_map_left_iff]
  refine h.imp fun entry stored hbecomes => ⟨entry.1.value, toValue_datum _, ?_, hbecomes.2⟩
  rw [hbecomes.1]
  exact keyName_value _

theorem nodup_names_iff : (entries.map (·.1.name)).Nodup ↔ (entries.map (kept ·.1.number)).Nodup := by
  rw [List.Nodup, List.Nodup, List.pairwise_map, List.pairwise_map]
  exact List.Pairwise.iff fun _ _ => not_congr name_eq_iff

/-- An entry is found by its name unless a later one has the same name. -/
theorem get?_enterAll (h : List.Forall₂ Becomes entries pairs) {before after : List (IntegerKey × Datum)}
    {entry : IntegerKey × Datum} (hentries : entries = before ++ entry :: after)
    (hlater : ∀ other ∈ after, kept other.1.number ≠ kept entry.1.number) :
    ∃ v, entry.2.toValue = .ok v ∧
      (Value.map (Entries.enterAll [] pairs)).get? entry.1.name = some v := by
  -- the pair that comes last under a name decides, so nothing before the entry matters
  have hrest := List.forall₂_drop before.length h
  rw [hentries, List.drop_left] at hrest
  rw [← List.take_append_drop before.length pairs]
  generalize pairs.drop before.length = rest at hrest
  cases hrest with
  | @cons _ stored _ back hstored hback =>
    obtain ⟨name, v⟩ := stored
    obtain ⟨rfl, hvalue⟩ := hstored
    have hnew : entry.1.name ∉ Entries.keys back.reverse := by
      rw [Entries.keys, List.map_reverse, List.mem_reverse]
      show entry.1.name ∉ Entries.keys back
      rw [names_of_becomes hback, List.mem_map]
      rintro ⟨other, hother, hname⟩
      exact hlater other hother (name_eq_iff.mp hname)
    refine ⟨v, hvalue, ?_⟩
    rw [Value.get?_of_not_mem entry.1.point_not_mem_name, Value.step?, String.ofList_toList,
      (Entries.gathers_enterAll _).get?_eq, List.reverse_append, List.reverse_cons, List.append_assoc,
      Entries.get?_append_of_not_mem hnew]
    exact if_pos rfl

/-- The entries of a map whose keys are distinct whole numbers. They are all kept, in order, just when no two
of the numbers are rounded to the same. A number below 2⁶³ always leads to its value. The value of a greater one
is found if none behind it is rounded to the same, by the decimal form of a number that is. -/
theorem toValue_integerKeys (hvalues : ∀ entry ∈ entries, ∃ v, entry.2.toValue = .ok v)
    (hkeys : (entries.map (·.1.number)).Nodup) :
    ∃ table, (ofEntries (entries.map fun entry => (entry.1.datum, entry.2))).toValue = .ok (.map table) ∧
      (List.Forall₂ Becomes entries table ↔ (entries.map (kept ·.1.number)).Nodup) ∧
      (∀ entry ∈ entries, entry.1.number < 2 ^ 63 →
        entry.1.name = Notation.integer entry.1.number ∧
        ∃ v, entry.2.toValue = .ok v ∧
          (Value.map table).get? (Notation.integer entry.1.number) = some v) ∧
      ∀ before entry after, entries = before ++ entry :: after →
        (∀ other ∈ after, kept other.1.number ≠ kept entry.1.number) →
        ∃ w v, entry.1.name = Notation.integer w ∧ kept w = kept entry.1.number ∧
          entry.2.toValue = .ok v ∧ (Value.map table).get? (Notation.integer w) = some v := by
  obtain ⟨pairs, hpairs⟩ := exists_becomes hvalues
  refine ⟨Entries.enterAll [] pairs, ?_, ?_, fun entry hentry hlt => ?_, fun before entry after h hlater => ?_⟩
  · have htable := toEntries_of_stores (stores_of_becomes hpairs) []
    rw [ofEntries, toValue, htable]
    rfl
  · rw [← nodup_names_iff, ← names_of_becomes hpairs, Entries.keys, ← Entries.enterAll_eq_self_iff]
    constructor
    · exact fun htable => List.right_unique_forall₂' rightUnique_becomes htable hpairs
    · intro hself
      rwa [hself]
  · refine ⟨name_below hlt, ?_⟩
    obtain ⟨before, after, h⟩ := List.append_of_mem hentry
    have hlater : ∀ other ∈ after, kept other.1.number ≠ kept entry.1.number := by
      rw [h, List.map_append, List.map_cons] at hkeys
      have hnot := (List.nodup_cons.mp (List.Nodup.of_append_right hkeys)).1
      exact fun other hother heq => hnot (List.mem_map.mpr ⟨other, hother, eq_of_kept_eq hlt heq⟩)
    obtain ⟨v, hvalue, hget⟩ := get?_enterAll hpairs h hlater
    exact ⟨v, hvalue, name_below hlt ▸ hget⟩
  · obtain ⟨w, hname, hkept⟩ := entry.1.exists_name_eq
    obtain ⟨v, hvalue, hget⟩ := get?_enterAll hpairs h hlater
    exact ⟨w, v, hname, hkept, hvalue, hname ▸ hget⟩

/-- A negative key, and the smallest and the greatest key that become floats. -/
theorem toValue_integerKeys_mixed :
    ∃ table, (ofEntries [(.signed (-1), .text "a"), (.unsigned 9223372036854775808, .nothing),
        (.unsigned 18446744073709551615, .bool true)]).toValue = .ok (.map table) ∧
      table.length = 3 ∧ (Value.map table).get? (Notation.integer (-1)) = some (.str "a") := by
  let entries : List (IntegerKey × Datum) := [(.signed (-1), .text "a"),
    (.unsigned 9223372036854775808, .nothing), (.unsigned 18446744073709551615, .bool true)]
  have hvalues : ∀ entry ∈ entries, ∃ v, entry.2.toValue = .ok v := by
    simp [entries, toValue]
  obtain ⟨table, htable, hall, hbelow, -⟩ := toValue_integerKeys hvalues (by decide)
  obtain ⟨-, v, hvalue, hget⟩ := hbelow (.signed (-1), .text "a") List.mem_cons_self (by decide)
  cases hvalue
  exact ⟨table, htable, (hall.mpr (by decide)).length_eq.symm, hget⟩

/-- The smallest two keys that become floats become the same one. Their entries are one in the table, and
neither is found by the decimal form of its key. -/
theorem toValue_integerKeys_rounded :
    ∃ table, (ofEntries [(.unsigned 9223372036854775808, .bool false),
        (.unsigned 9223372036854775809, .bool true)]).toValue = .ok (.map table) ∧
      table.length = 1 ∧ (Value.map table).get? "9223372036854775808" = none ∧
      (Value.map table).get? "9223372036854775809" = none :=
  ⟨[("9223372036854776000", .bool true)], rfl, rfl, by with_unfolding_all rfl, by with_unfolding_all rfl⟩

end Datum

end Stencil
