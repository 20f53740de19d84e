/-! Looking for one text inside another: the first occurrence (`breakOn`), and the part of a text
between two positions (`slice`). Positions count characters. -/

namespace Stencil.Text.Find

/-- The text before the first occurrence of `pattern` and the text after that occurrence. -/
def breakOn (pattern : List Char) : List Char → Option (List Char × List Char)
  | [] => if pattern.isEmpty then some ([], []) else none
  | c :: rest =>
    if pattern.isPrefixOf (c :: rest) then some ([], (c :: rest).drop pattern.length)
    else (breakOn pattern rest).map fun (before, after) => (c :: before, after)

def occursIn (pattern s : List Char) : Bool :=
  (breakOn pattern s).isSome

/-- What follows `pattern` in a text that starts with it. -/
def remainder? (pattern s : List Char) : Option (List Char) :=
  if pattern.isPrefixOf s then some (s.drop pattern.length) else none

/-- The characters at the positions from `start` up to but not including `stop`. -/
def slice (s : List Char) (start stop : Nat) : List Char :=
  (s.drop start).take (stop - start)

def newlines (s : List Char) : Nat :=
  s.count '\n'

theorem breakOn_append {pattern s before after : List Char}
    (h : breakOn pattern s = some (before, after)) : before ++ pattern ++ after = s := by
  induction s generalizing before with
  | nil =>
    simp only [breakOn] at h
    split at h
    · rename_i hp
      obtain ⟨rfl, rfl⟩ : [] = before ∧ [] = after := by simpa using h
      simpa using hp
    · simp at h
  | cons c rest ih =>
    simp only [breakOn] at h
    split at h
    · rename_i hp
      obtain ⟨rfl, rfl⟩ : [] = before ∧ (c :: rest).drop pattern.length = after := by simpa using h
      obtain ⟨t, ht⟩ := List.isPrefixOf_iff_prefix.mp hp
      simp [← ht]
    · obtain ⟨⟨b, a⟩, hb, he⟩ := Option.map_eq_some_iff.mp h
      obtain ⟨rfl, rfl⟩ : c :: b = before ∧ a = after := by simpa using he
      simp [← ih hb]

/-- After an occurrence of a non-empty text less is left. -/
theorem length_lt_of_breakOn {pattern s before after : List Char} (hp : pattern ≠ [])
    (h : breakOn pattern s = some (before, after)) : after.length < s.length := by
  have hlen := congrArg List.length (breakOn_append h)
  have := List.length_pos_iff.mpr hp
  simp only [List.length_append] at hlen
  omega

end Stencil.Text.Find
