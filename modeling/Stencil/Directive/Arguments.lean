import Stencil.Text.Blank
import Stencil.Text.Mark

/-! The arguments of a helper call. Blanks stand between them; inside quotes, which may open anywhere
in an argument, a blank is part of it. -/

namespace Stencil.Directive.Arguments
open Text.Blank Text.Mark

/-- An argument and what follows it. `mark` is the quotation mark that is open. -/
def argument (mark : Option Char) : List Char → List Char × List Char
  | [] => ([], [])
  | c :: rest =>
    let inside (mark : Option Char) : List Char × List Char :=
      let (text, rest) := argument mark rest
      (c :: text, rest)
    match mark with
    | some m => inside (if c = m then none else some m)
    | none => if isBlank c then ([], c :: rest) else inside (if isMark c then some c else none)

theorem length_argument_le (mark : Option Char) (s : List Char) :
    (argument mark s).2.length ≤ s.length := by
  induction s generalizing mark with
  | nil => simp [argument]
  | cons c rest ih =>
    cases mark with
    | some m => simpa [argument] using Nat.le_succ_of_le (ih _)
    | none =>
      simp only [argument]
      split
      · simp
      · simpa using Nat.le_succ_of_le (ih _)

theorem length_argument_lt {c : Char} (h : isBlank c = false) (rest : List Char) :
    (argument none (c :: rest)).2.length < (c :: rest).length := by
  simpa [argument, h] using Nat.lt_succ_of_le (length_argument_le _ rest)

def split (s : List Char) : List (List Char) :=
  match s with
  | [] => []
  | c :: rest =>
    if _h : isBlank c then split rest
    else (argument none (c :: rest)).1 :: split (argument none (c :: rest)).2
termination_by s.length
decreasing_by
  · simp
  · exact length_argument_lt (by simpa using _h) rest

end Stencil.Directive.Arguments
