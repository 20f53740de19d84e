import Stencil.Delimiters
import Stencil.Fault
import Stencil.Text.Find

/-! A template cut at its delimiters: texts, and tags with the body of a directive. A right delimiter
has to close a tag, and the body of a tag has no left one. -/

namespace Stencil
open Text.Find

/-- What stands between two delimiters. `start` is the position of the left one and `stop` the
position after the right one; `line` and `endLine` are the lines of these positions. Positions count
characters, not the bytes with which a text is stored. -/
structure Tag where
  body : List Char
  start : Nat
  stop : Nat
  line : Nat
  endLine : Nat
deriving DecidableEq, Repr

inductive Segment where
  | text (chars : List Char)
  | tag (tag : Tag)
deriving DecidableEq, Repr

namespace Segment

/-- No segment stands for the empty text. -/
def ofText (chars : List Char) : List Segment :=
  if chars.isEmpty then [] else [.text chars]

def stray (d : Delimiters) (line : Nat) : Error :=
  .located line (.strayRight (String.ofList d.right))

/-- What stands before a right delimiter that comes before the next left one. `plain` is what stands
before the left one, if there is one. -/
def beforeStray? (d : Delimiters) (plain : Option (List Char)) (source : List Char) :
    Option (List Char) :=
  match breakOn d.right source, plain with
  | some (before, _), some plain => if before.length < plain.length then some before else none
  | some (before, _), none => some before
  | none, _ => none

/-- The segments of a text that starts at the given line and position. -/
def scan (d : Delimiters) (line offset : Nat) (source : List Char) : Except Error (List Segment) :=
  match _ : breakOn d.left source with
  | none =>
    match beforeStray? d none source with
    | some before => .error (stray d (line + newlines before))
    | none => .ok (ofText source)
  | some (plain, opened) =>
    match beforeStray? d (some plain) source with
    | some before => .error (stray d (line + newlines before))
    | none =>
      let start := offset + plain.length
      let startLine := line + newlines plain
      match _ : breakOn d.right opened with
      | none => .error (.located startLine .unterminated)
      | some (body, rest) =>
        if occursIn d.left body then
          .error (.located startLine (.unterminatedBefore (String.ofList d.left)))
        else
          let written := d.left ++ body ++ d.right
          let stop := start + written.length
          let endLine := startLine + newlines written
          (scan d endLine stop rest).map fun segments =>
            ofText plain ++ .tag ⟨body, start, stop, startLine, endLine⟩ :: segments
termination_by source.length
decreasing_by
  exact Nat.lt_trans (length_lt_of_breakOn d.right_ne_nil ‹breakOn d.right opened = some (body, rest)›)
    (length_lt_of_breakOn d.left_ne_nil ‹breakOn d.left source = some (plain, opened)›)

end Segment

end Stencil
