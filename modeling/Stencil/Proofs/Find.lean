import Mathlib.Data.List.Infix
import Stencil.Text.Find

/-! # Where a pattern stands first

`breakOn` in the vocabulary of prefixes and infixes. A text is clear of a pattern up to a position if no
occurrence starts before it; the first occurrence is the one up to which the text is clear. -/
namespace Stencil.Text.Find

theorem newlines_append (s t : List Char) : newlines (s ++ t) = newlines s + newlines t :=
  List.count_append

theorem newlines_eq_zero {s : List Char} (h : '\n' ∉ s) : newlines s = 0 :=
  List.count_eq_zero.mpr h

/-- No occurrence of the pattern starts at one of the first `n` positions. -/
def Clear (pattern s : List Char) (n : Nat) : Prop :=
  ∀ i < n, ¬ pattern <+: s.drop i

theorem Clear.of_prefix {pattern s t : List Char} {n : Nat} (h : Clear pattern s n)
    (ht : t <+: s) : Clear pattern t n :=
  fun i hi hp => h i hi (hp.trans (ht.drop i))

theorem clear_succ_iff {pattern rest : List Char} {c : Char} {n : Nat} :
    Clear pattern (c :: rest) (n + 1) ↔ ¬ pattern <+: c :: rest ∧ Clear pattern rest n := by
  constructor
  · intro h
    exact ⟨h 0 (Nat.succ_pos n), fun i hi => h (i + 1) (Nat.succ_lt_succ hi)⟩
  · rintro ⟨h, hr⟩ i hi
    cases i with
    | zero => exact h
    | succ i => exact hr i (Nat.lt_of_succ_lt_succ hi)

theorem clear_zero (pattern s : List Char) : Clear pattern s 0 :=
  fun i hi => absurd hi (Nat.not_lt_zero i)

theorem clear_of_not_infix {pattern s : List Char} (h : ¬ pattern <:+: s) (n : Nat) : Clear pattern s n :=
  fun i _ hp => h (hp.isInfix.trans (List.drop_suffix i s).isInfix)

/-- An occurrence starts with the first character of the pattern. -/
theorem clear_of_not_mem {pattern before : List Char} {c : Char} (hc : c ∉ before)
    (after : List Char) : Clear (c :: pattern) (before ++ after) before.length := by
  induction before with
  | nil => exact clear_zero _ _
  | cons x before ih =>
    rw [List.cons_append, List.length_cons]
    refine clear_succ_iff.mpr ⟨?_, ih (List.not_mem_of_not_mem_cons hc)⟩
    intro h
    obtain ⟨rest, hr⟩ := h
    exact List.ne_of_not_mem_cons hc (List.cons.inj hr).1

/-- An occurrence in a text that is too short for one behind position `n` starts before it. -/
theorem Clear.not_infix_of_lt {pattern s t : List Char} {n : Nat} (h : Clear pattern s n)
    (ht : t <+: s) (hn : t.length < n + pattern.length) : ¬ pattern <:+: t := by
  intro hi
  obtain ⟨a, b, rfl⟩ := hi
  simp only [List.length_append] at hn
  obtain ⟨u, rfl⟩ := ht
  refine h a.length (by omega) ?_
  simp [List.append_assoc]

/-- An occurrence in the first `n` characters starts at one of them. -/
theorem Clear.not_infix {pattern s t : List Char} {n : Nat} (h : Clear pattern s n)
    (hp : pattern ≠ []) (ht : t <+: s) (hn : t.length ≤ n) : ¬ pattern <:+: t := by
  have hpos := List.length_pos_iff.mpr hp
  exact h.not_infix_of_lt ht (by omega)

theorem breakOn_eq_none_iff {pattern s : List Char} (hp : pattern ≠ []) :
    breakOn pattern s = none ↔ ¬ pattern <:+: s := by
  induction s with
  | nil => simp [breakOn, hp]
  | cons c rest ih =>
    simp only [breakOn]
    split
    · rename_i h
      simpa using (List.isPrefixOf_iff_prefix.mp h).isInfix
    · rename_i h
      rw [Option.map_eq_none_iff, ih, List.infix_cons_iff, not_or]
      exact ⟨fun hr => ⟨fun hc => h (List.isPrefixOf_iff_prefix.mpr hc), hr⟩, And.right⟩

theorem occursIn_eq_false_iff {pattern s : List Char} (hp : pattern ≠ []) :
    occursIn pattern s = false ↔ ¬ pattern <:+: s := by
  rw [← breakOn_eq_none_iff hp, occursIn]
  cases breakOn pattern s <;> simp

theorem occursIn_iff {pattern s : List Char} (hp : pattern ≠ []) :
    occursIn pattern s = true ↔ pattern <:+: s := by
  rw [← Bool.not_eq_false, occursIn_eq_false_iff hp, not_not]

theorem clear_of_breakOn {pattern s before after : List Char}
    (h : breakOn pattern s = some (before, after)) : Clear pattern s before.length := by
  induction s generalizing before with
  | nil =>
    simp only [breakOn] at h
    split at h
    · obtain ⟨rfl, -⟩ : [] = before ∧ [] = after := by simpa using h
      exact clear_zero _ _
    · cases h
  | cons c rest ih =>
    simp only [breakOn] at h
    split at h
    · obtain ⟨rfl, -⟩ : [] = before ∧ _ = after := by simpa using h
      exact clear_zero _ _
    · rename_i hc
      obtain ⟨⟨b, a⟩, hb, he⟩ := Option.map_eq_some_iff.mp h
      obtain ⟨rfl, rfl⟩ : c :: b = before ∧ a = after := by simpa using he
      exact clear_succ_iff.mpr ⟨fun hp => hc (List.isPrefixOf_iff_prefix.mpr hp), ih hb⟩

theorem breakOn_of_clear {pattern before after : List Char} (hp : pattern ≠ [])
    (h : Clear pattern (before ++ pattern ++ after) before.length) :
    breakOn pattern (before ++ pattern ++ after) = some (before, after) := by
  induction before with
  | nil =>
    obtain ⟨c, rest, rfl⟩ := List.exists_cons_of_ne_nil hp
    simp [breakOn]
  | cons c before ih =>
    simp only [List.cons_append, List.length_cons] at h ⊢
    obtain ⟨hc, hr⟩ := clear_succ_iff.mp h
    rw [breakOn, if_neg (fun hq => hc (List.isPrefixOf_iff_prefix.mp hq)), ih hr, Option.map_some]

/-- The first occurrence is the one up to which the text is clear. -/
theorem breakOn_eq_some_iff {pattern s before after : List Char} (hp : pattern ≠ []) :
    breakOn pattern s = some (before, after) ↔
      s = before ++ pattern ++ after ∧ Clear pattern s before.length := by
  constructor
  · intro h
    exact ⟨(breakOn_append h).symm, clear_of_breakOn h⟩
  · intro h
    obtain ⟨rfl, h⟩ := h
    exact breakOn_of_clear hp h

/-! ## Two texts, one after the other -/

/-- An occurrence of the pattern starts in the one text and ends in the other. -/
def Straddles (pattern s t : List Char) : Prop :=
  ∃ i < s.length, s.length < i + pattern.length ∧ pattern <+: (s ++ t).drop i

instance (pattern s t : List Char) : Decidable (Straddles pattern s t) :=
  inferInstanceAs (Decidable (∃ i < s.length, s.length < i + pattern.length ∧
    pattern <+: (s ++ t).drop i))

theorem prefix_drop_append_iff {pattern s : List Char} {i : Nat} (h : i + pattern.length ≤ s.length)
    (t : List Char) : pattern <+: (s ++ t).drop i ↔ pattern <+: s.drop i := by
  rw [List.drop_append_of_le_length (by omega)]
  constructor
  · intro hp
    refine List.prefix_of_prefix_length_le hp (List.prefix_append _ _) ?_
    rw [List.length_drop]
    omega
  · exact fun hp => hp.trans (List.prefix_append _ _)

/-- More text is no nearer than an occurrence that is there already. -/
theorem Clear.append {pattern before after : List Char} {n : Nat}
    (h : Clear pattern (before ++ pattern ++ after) n) (hn : n ≤ before.length) (t : List Char) :
    Clear pattern (before ++ pattern ++ after ++ t) n := by
  intro i hi hp
  refine h i hi ((prefix_drop_append_iff ?_ t).mp hp)
  simp only [List.length_append]
  omega

theorem clear_append {pattern s t : List Char} (hs : ¬ pattern <:+: s) (ht : ¬ Straddles pattern s t) :
    Clear pattern (s ++ t) s.length := by
  intro i hi hp
  by_cases hle : i + pattern.length ≤ s.length
  · have hin := (prefix_drop_append_iff hle t).mp hp
    exact hs (hin.isInfix.trans (List.drop_suffix i s).isInfix)
  · exact ht ⟨i, hi, by omega, hp⟩

theorem breakOn_append_of_clear {pattern s t : List Char} (h : Clear pattern (s ++ t) s.length) :
    breakOn pattern (s ++ t) =
      (breakOn pattern t).map fun (before, after) => (s ++ before, after) := by
  induction s with
  | nil => simp
  | cons c s ih =>
    obtain ⟨hc, hs⟩ := clear_succ_iff.mp h
    have hne : ¬ pattern.isPrefixOf (c :: (s ++ t)) := fun hp => hc (List.isPrefixOf_iff_prefix.mp hp)
    rw [List.cons_append, breakOn, if_neg hne, ih hs, Option.map_map]
    rfl

theorem Straddles.of_suffix {pattern s s' t : List Char} (h : Straddles pattern s' t) (hs : s' <:+ s) :
    Straddles pattern s t := by
  obtain ⟨before, rfl⟩ := hs
  obtain ⟨i, hi, hlt, hp⟩ := h
  refine ⟨before.length + i, ?_, ?_, ?_⟩
  · simp only [List.length_append]
    omega
  · simp only [List.length_append]
    omega
  · rwa [List.append_assoc, List.drop_length_add_append]

/-- A pair of equal characters can only meet in the middle. -/
theorem Straddles.pair {c : Char} {s t : List Char} (h : Straddles [c, c] s t) :
    s.getLast? = some c ∧ t.head? = some c := by
  obtain ⟨i, hi, hlt, hp⟩ := h
  simp only [List.length_cons, List.length_nil] at hlt
  rcases List.eq_nil_or_concat s with rfl | ⟨init, x, rfl⟩
  · exact absurd hi (Nat.not_lt_zero i)
  · rw [List.concat_eq_append] at *
    rw [List.length_append, List.length_singleton] at hi hlt
    obtain rfl : i = init.length := by omega
    rw [List.append_assoc, List.drop_left] at hp
    obtain ⟨rfl, hc⟩ := List.cons_prefix_cons.mp hp
    obtain ⟨rest, rfl⟩ := hc
    exact ⟨by simp, rfl⟩

end Stencil.Text.Find
