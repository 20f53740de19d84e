/-! Blank characters, those with the Unicode property White_Space, and what is cut at them: the
blank ends of a text (`trim`) and its first word (`firstWord`, `afterFirstWord`). -/

namespace Stencil.Text.Blank

/-- The ranges of White_Space, both ends included. -/
def ranges : List (Nat × Nat) :=
  [(0x9, 0xD), (0x20, 0x20), (0x85, 0x85), (0xA0, 0xA0), (0x1680, 0x1680), (0x2000, 0x200A),
    (0x2028, 0x2029), (0x202F, 0x202F), (0x205F, 0x205F), (0x3000, 0x3000)]

def isBlank (c : Char) : Bool :=
  ranges.any fun (first, last) => first ≤ c.toNat && c.toNat ≤ last

def trimStart (s : List Char) : List Char :=
  s.dropWhile isBlank

def trimEnd (s : List Char) : List Char :=
  (s.reverse.dropWhile isBlank).reverse

/-- The text without the blanks at its two ends. -/
def trim (s : List Char) : List Char :=
  trimEnd (trimStart s)

def trimmed (s : String) : String :=
  String.ofList (trim s.toList)

/-- What stands before the first blank: all of the text if it has none. -/
def firstWord (s : List Char) : List Char :=
  s.takeWhile (!isBlank ·)

/-- What follows the first word, trimmed. -/
def afterFirstWord (s : List Char) : List Char :=
  trim (s.dropWhile (!isBlank ·))

theorem mem_of_mem_trim {c : Char} {s : List Char} (h : c ∈ trim s) : c ∈ s := by
  have h₁ : c ∈ trimStart s := by
    simpa using (List.dropWhile_sublist isBlank).subset (List.mem_reverse.mp h)
  exact (List.dropWhile_sublist isBlank).subset h₁

end Stencil.Text.Blank
