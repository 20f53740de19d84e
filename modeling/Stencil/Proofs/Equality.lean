import Mathlib.Data.List.Forall2
import Stencil.Proofs.Integers

/-! # Equality of values

Values are equal as data if they have the same shape and equal leaves: lists item by item, maps name by
name in any order. Strict equality of containers is this equality and not itself, so inside of containers a
whole number is equal to no float, although outside it can be. -/
namespace Stencil
open Float.Model

/-! ## Floats -/

theorem compare_then_swap (e e' : Int) (m m' : Nat) :
    ((compare e e').then (compare m m')).swap = (compare e' e).then (compare m' m) := by
  rw [Ordering.swap_then, Int.compare_swap, Nat.compare_swap]

theorem unpacked_compare_swap (x y : UnpackedFloat) : (x.compare y).map Ordering.swap = y.compare x := by
  cases x with
  | notANumber => cases y <;> rfl
  | infinity s =>
    cases y with
    | infinity t => cases s <;> cases t <;> rfl
    | _ => cases s <;> rfl
  | zero s =>
    cases y with
    | infinity t => cases t <;> rfl
    | finite t => cases t <;> rfl
    | _ => rfl
  | finite s m e =>
    cases y with
    | notANumber => cases s <;> rfl
    | infinity t => cases s <;> cases t <;> rfl
    | zero t => cases s <;> rfl
    | finite t m' e' =>
      have hswap := compare_then_swap e e' m m'
      cases s with
      | positive =>
        cases t with
        | positive => exact congrArg some hswap
        | negative => rfl
      | negative =>
        cases t with
        | positive => rfl
        | negative => exact congrArg (fun o : Ordering => some o.swap) hswap

theorem float_beq_comm (x y : Float) : (x == y) = (y == x) := by
  rw [Bool.eq_iff_iff, beq_iff_compare, beq_iff_compare, ← unpacked_compare_swap x.toModel.unpack]
  simp [Option.map_eq_some_iff, Ordering.swap_eq_eq]

namespace Entries

variable {α : Type} {table : Entries α} {key : String}

/-- All values under the name, in order. -/
def under (key : String) (table : Entries α) : List α :=
  table.filterMap fun entry => if entry.1 = key then some entry.2 else none

theorem under_cons (key k : String) (value : α) (rest : Entries α) :
    under key ((k, value) :: rest) = if k = key then value :: under key rest else under key rest := by
  unfold under
  rw [List.filterMap_cons]
  by_cases h : k = key <;> simp [h]

theorem mem_of_mem_under {value : α} (h : value ∈ table.under key) : (key, value) ∈ table := by
  obtain ⟨⟨k, v⟩, hmem, heq⟩ := List.mem_filterMap.mp h
  by_cases hk : k = key
  · simp_all
  · simp [hk] at heq

theorem forall_under_eq_nil_iff : (∀ key, table.under key = []) ↔ table = [] := by
  cases table with
  | nil => simp [under]
  | cons entry rest =>
    obtain ⟨k, value⟩ := entry
    refine iff_of_false (fun h => ?_) (List.cons_ne_nil _ _)
    have hk := h k
    simp [under_cons] at hk

theorem takeOut?_eq_none_iff : table.takeOut? key = none ↔ table.under key = [] := by
  induction table with
  | nil => simp [takeOut?, under]
  | cons entry rest ih =>
    rw [under_cons, takeOut?]
    by_cases h : entry.1 = key <;> simp [h, ih]

/-- The value that is taken out was the first under its name. -/
theorem under_of_takeOut? {value : α} {others : Entries α} (h : table.takeOut? key = some (value, others))
    (name : String) :
    table.under name = if key = name then value :: others.under name else others.under name := by
  induction table generalizing others with
  | nil => cases h
  | cons entry rest ih =>
    obtain ⟨k, v⟩ := entry
    rw [takeOut?] at h
    split at h
    · rename_i hk
      cases h
      subst hk
      rw [under_cons]
    · rename_i hk
      obtain ⟨⟨found, remaining⟩, hrest, heq⟩ := Option.map_eq_some_iff.mp h
      cases heq
      rw [under_cons, under_cons, ih hrest]
      by_cases hname : k = name
      · subst hname
        simp [Ne.symm hk]
      · simp [hname]

/-- A name that stands once has one value. -/
theorem under_eq_toList (h : table.keys.Nodup) (key : String) :
    table.under key = (table.get? key).toList := by
  induction table with
  | nil => rfl
  | cons entry rest ih =>
    obtain ⟨k, value⟩ := entry
    obtain ⟨hnot, hrest⟩ := List.nodup_cons.mp h
    rw [under_cons, get?, ih hrest]
    by_cases hk : k = key
    · subst hk
      have hnone : get? k rest = none := by
        simpa [contains] using mt (mem_keys_iff rest k).mpr hnot
      simp [hnone]
    · simp [hk]

end Entries

namespace Value

/-- Of each value, if of a container whenever of all that are in it. -/
@[elab_as_elim]
theorem induction {motive : Value → Prop} (null : motive .null) (bool : ∀ b, motive (.bool b))
    (int : ∀ n, motive (.int n)) (float : ∀ x, motive (.float x)) (str : ∀ s, motive (.str s))
    (list : ∀ items : List Value, (∀ item ∈ items, motive item) → motive (.list items))
    (map : ∀ entries : Entries Value, (∀ entry ∈ entries, motive entry.2) → motive (.map entries))
    (v : Value) : motive v :=
  @Value.rec motive (fun items => ∀ item ∈ items, motive item)
    (fun entries => ∀ entry ∈ entries, motive entry.2) (fun entry => motive entry.2)
    null bool int float str list map (List.forall_mem_nil _)
    (fun _ _ hfirst hrest => List.forall_mem_cons.mpr ⟨hfirst, hrest⟩) (List.forall_mem_nil _)
    (fun _ _ hfirst hrest => List.forall_mem_cons.mpr ⟨hfirst, hrest⟩) (fun _ _ hvalue => hvalue) v

/-! ## Data -/

/-- Equal as data. -/
def Same (a b : Value) : Prop :=
  equal a b = true

theorem same_bool_iff {p q : Bool} : Same (.bool p) (.bool q) ↔ p = q :=
  beq_iff_eq

theorem same_int_iff {m n : Int64} : Same (.int m) (.int n) ↔ m = n :=
  beq_iff_eq

theorem same_str_iff {s t : String} : Same (.str s) (.str t) ↔ s = t :=
  beq_iff_eq

theorem same_float_iff {x y : Float} : Same (.float x) (.float y) ↔ (x == y) = true :=
  Iff.rfl

theorem equalItems_iff {xs ys : List Value} : equalItems xs ys = true ↔ List.Forall₂ Same xs ys := by
  induction xs generalizing ys with
  | nil => cases ys <;> simp [equalItems]
  | cons x xs ih => cases ys <;> simp [equalItems, ih, Same]

theorem equalEntries_iff {m n : Entries Value} :
    equalEntries m n = true ↔ ∀ key, List.Forall₂ Same (m.under key) (n.under key) := by
  induction m generalizing n with
  | nil =>
    rw [equalEntries, List.isEmpty_iff, ← Entries.forall_under_eq_nil_iff]
    simp [Entries.under]
  | cons entry rest ih =>
    obtain ⟨k, value⟩ := entry
    rw [equalEntries]
    cases htake : Entries.takeOut? k n with
    | none =>
      refine iff_of_false Bool.false_ne_true fun h => ?_
      have hk := h k
      rw [Entries.takeOut?_eq_none_iff.mp htake, Entries.under_cons, if_pos rfl] at hk
      cases hk
    | some taken =>
      obtain ⟨partner, others⟩ := taken
      have hunder := Entries.under_of_takeOut? htake
      simp only [Bool.and_eq_true, ih, Entries.under_cons, hunder]
      constructor
      · rintro ⟨hvalue, hrest⟩ key
        by_cases hk : k = key
        · simp only [hk, if_true]
          exact .cons hvalue (hrest key)
        · simp only [hk, if_false]
          exact hrest key
      · intro h
        refine ⟨?_, fun key => ?_⟩
        · have hk := h k
          simp only [if_true] at hk
          exact (List.forall₂_cons.mp hk).1
        · have hkey := h key
          by_cases hk : k = key
          · simp only [hk, if_true] at hkey
            exact (List.forall₂_cons.mp hkey).2
          · simpa only [hk, if_false] using hkey

theorem forall₂_same_comm {xs ys : List Value} (h : ∀ x ∈ xs, ∀ y, Same x y ↔ Same y x) :
    List.Forall₂ Same xs ys ↔ List.Forall₂ Same ys xs := by
  induction xs generalizing ys with
  | nil => simp
  | cons x xs ih =>
    obtain ⟨hx, hxs⟩ := List.forall_mem_cons.mp h
    cases ys with
    | nil => simp
    | cons y ys => rw [List.forall₂_cons, List.forall₂_cons, hx y, ih hxs]

theorem same_comm (a b : Value) : Same a b ↔ Same b a := by
  induction a using Value.induction generalizing b with
  | null => cases b <;> exact Iff.rfl
  | bool p =>
    cases b with
    | bool q => rw [same_bool_iff, same_bool_iff, eq_comm]
    | _ => exact Iff.rfl
  | int m =>
    cases b with
    | int n => rw [same_int_iff, same_int_iff, eq_comm]
    | _ => exact Iff.rfl
  | float x =>
    cases b with
    | float y => rw [same_float_iff, same_float_iff, float_beq_comm]
    | _ => exact Iff.rfl
  | str s =>
    cases b with
    | str t => rw [same_str_iff, same_str_iff, eq_comm]
    | _ => exact Iff.rfl
  | list xs ih =>
    cases b with
    | list ys => exact equalItems_iff.trans ((forall₂_same_comm ih).trans equalItems_iff.symm)
    | _ => exact Iff.rfl
  | map m ih =>
    cases b with
    | map n =>
      refine equalEntries_iff.trans ((forall_congr' fun key => ?_).trans equalEntries_iff.symm)
      exact forall₂_same_comm fun v hv => ih _ (Entries.mem_of_mem_under hv)
    | _ => exact Iff.rfl

/-! ## Strict equality -/

/-- Strictly equal, and a whole number only to itself. -/
def Alike (a b : Value) : Prop :=
  strictEq a b = true ∧ ∀ n, a = .int n ∨ b = .int n → a = b

theorem kind_eq_of_same {a b : Value} (h : Same a b) : a.kind = b.kind := by
  cases a <;> cases b <;> first | rfl | cases h

theorem kind_eq_of_strictEq {a b : Value} (h : strictEq a b = true) : a.kind = b.kind := by
  unfold strictEq at h
  split at h
  · assumption
  · cases h

/-- Only numbers are compared in another way than as data. -/
theorem strictEq_iff_same {a b : Value} (h : a.kind ≠ .number) : strictEq a b = true ↔ Same a b := by
  unfold strictEq
  split
  · split
    · contradiction
    · exact Iff.rfl
  · rename_i hk
    exact iff_of_false Bool.false_ne_true fun hs => hk (kind_eq_of_same hs)

theorem not_int_of_kind {a b : Value} (h : a.kind ≠ .number) (hk : a.kind = b.kind) (n : Int64) :
    ¬ (a = .int n ∨ b = .int n) := by
  rintro (rfl | rfl)
  · exact h rfl
  · exact h hk

theorem same_iff_alike (a b : Value) : Same a b ↔ Alike a b := by
  by_cases hn : a.kind = .number
  · cases a with
    | int m =>
      cases b with
      | int n =>
        refine same_int_iff.trans ⟨?_, fun h => Value.int.inj (h.2 m (.inl rfl))⟩
        rintro rfl
        exact ⟨(equalNumbers_int_iff m m).mpr rfl, fun _ _ => rfl⟩
      | _ => exact iff_of_false nofun fun h => nomatch h.2 m (.inl rfl)
    | float x =>
      cases b with
      | int n => exact iff_of_false nofun fun h => nomatch h.2 n (.inr rfl)
      | float y => exact ⟨fun h => ⟨h, nofun⟩, And.left⟩
      | _ => exact iff_of_false nofun fun h => nomatch kind_eq_of_strictEq h.1
    | _ => cases hn
  · rw [Alike, strictEq_iff_same hn]
    exact ⟨fun h => ⟨h, fun n hint => absurd hint (not_int_of_kind hn (kind_eq_of_same h) n)⟩, And.left⟩

theorem forall₂_under_iff {m n : Entries Value} (hm : m.keys.Nodup) (hn : n.keys.Nodup) (key : String) :
    List.Forall₂ Same (m.under key) (n.under key) ↔
      (key ∈ m.keys ↔ key ∈ n.keys) ∧
        ∀ x y, m.get? key = some x → n.get? key = some y → Same x y := by
  rw [Entries.under_eq_toList hm, Entries.under_eq_toList hn, Entries.mem_keys_iff, Entries.mem_keys_iff,
    Entries.contains, Entries.contains]
  cases m.get? key <;> cases n.get? key <;> simp

/-- Two lists are strictly equal if they are as long and alike item by item, and two maps if they have the
same names and are alike name by name. -/
theorem strictEq_containers (xs ys : List Value) (m n : Entries Value) :
    (strictEq (.list xs) (.list ys) = true ↔ List.Forall₂ Alike xs ys) ∧
    (m.keys.Nodup → n.keys.Nodup →
      (strictEq (.map m) (.map n) = true ↔ (∀ key, key ∈ m.keys ↔ key ∈ n.keys) ∧
        ∀ key x y, m.get? key = some x → n.get? key = some y → Alike x y)) := by
  have halike : Alike = Same := by
    funext a b
    exact propext (same_iff_alike a b).symm
  have hlist : (list xs).kind ≠ .number := by simp [kind]
  have hmap : (map m).kind ≠ .number := by simp [kind]
  rw [halike]
  refine ⟨(strictEq_iff_same hlist).trans equalItems_iff, fun hm hn => ?_⟩
  refine (strictEq_iff_same hmap).trans (equalEntries_iff.trans ?_)
  rw [← forall_and]
  exact forall_congr' fun key => forall₂_under_iff hm hn key

theorem strictEq_containers_reordered :
    ∃ m n : Entries Value, m.keys = ["a", "b"] ∧ n.keys = ["b", "a"] ∧
      strictEq (.map m) (.map n) = true ∧ (∀ key, key ∈ m.keys ↔ key ∈ n.keys) ∧
        ∀ key x y, m.get? key = some x → n.get? key = some y → Alike x y := by
  have h : strictEq (.map [("a", .int 1), ("b", .list [.float 2, .str "c"])])
      (.map [("b", .list [.float 2, .str "c"]), ("a", .int 1)]) = true := by
    decide +kernel
  exact ⟨_, _, rfl, rfl, h, ((strictEq_containers [] [] _ _).2 (by decide) (by decide)).mp h⟩

/-- A whole number and a float are strictly equal, but no more when each is in a list or in a map. -/
theorem strictEq_lost_within :
    ∃ (n : Int64) (x : Float), strictEq (.int n) (.float x) = true ∧
      strictEq (.list [.int n]) (.list [.float x]) = false ∧
      strictEq (.map [("k", .int n)]) (.map [("k", .float x)]) = false := by
  refine ⟨1, 1, ?_, rfl, rfl⟩
  decide +kernel

end Value

end Stencil
