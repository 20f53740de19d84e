/-! The two texts between which a directive stands. They may be any texts but the empty one, also equal
ones. -/

namespace Stencil

structure Delimiters where
  left : List Char := ['\x7b', '\x7b']
  right : List Char := ['\x7d', '\x7d']
  left_ne_nil : left ≠ [] := by decide
  right_ne_nil : right ≠ [] := by decide

namespace Delimiters

def orElse (given default : List Char) : List Char :=
  if given.isEmpty then default else given

theorem orElse_ne_nil {default : List Char} (h : default ≠ []) (given : List Char) :
    orElse given default ≠ [] := by
  cases given with
  | nil => exact h
  | cons c rest => exact List.cons_ne_nil c rest

/-- The defaults stand in for empty texts. -/
def ofTexts (left right : String) : Delimiters where
  left := orElse left.toList ['\x7b', '\x7b']
  right := orElse right.toList ['\x7d', '\x7d']
  left_ne_nil := orElse_ne_nil (by decide) left.toList
  right_ne_nil := orElse_ne_nil (by decide) right.toList

end Delimiters

end Stencil
