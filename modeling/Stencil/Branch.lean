import Stencil.Condition
import Stencil.Directive

/-! The branches of a conditional block: its body cut at the `else` tags that are not inside of
another block. A newline after the opening tag and one before a tag that ends a later branch belong to
the tags. -/

namespace Stencil
open Text.Find

/-- A branch without a condition is taken whenever it is reached. -/
structure Branch where
  condition : Option String
  body : List Char
  line : Nat
deriving DecidableEq, Repr

namespace Branch

/-- A tag where the next branch starts, and the condition of that branch. -/
structure Marker where
  condition : Option String
  tag : Tag

/-- The markers among segments that stand `depth` blocks deep. -/
def markers : Nat → List Segment → Except Error (List Marker)
  | _, [] => .ok []
  | depth, .text _ :: rest => markers depth rest
  | depth, .tag tag :: rest =>
    match tag.directive with
    | .error e => .error e
    | .ok directive =>
      match directive.branch?, depth with
      | some condition, 0 => (markers 0 rest).map (⟨condition, tag⟩ :: ·)
      | _, depth => markers (directive.nest depth) rest

/-- The marker after one that has no condition. -/
def beyondElse? : List Marker → Option Marker
  | marker :: next :: rest =>
    if marker.condition.isNone then some next else beyondElse? (next :: rest)
  | _ => none

/-- The branch after the opening tag. -/
def first (condition : String) (body : List Char) (line : Nat) : Branch :=
  match body with
  | '\n' :: rest => ⟨some condition, rest, line + 1⟩
  | body => ⟨some condition, body, line⟩

def withoutLastNewline (body : List Char) : List Char :=
  if body.getLast? = some '\n' then body.dropLast else body

/-- The branches after markers, each up to the next one. -/
def later (raw : List Char) : List Marker → List Branch
  | [] => []
  | marker :: rest =>
    let stop := (rest.head?.map (·.tag.start)).getD raw.length
    ⟨marker.condition, withoutLastNewline (slice raw marker.tag.stop stop), marker.tag.endLine⟩
      :: later raw rest

/-- The branches of a block with this condition, whose body `raw` starts on the given line. A body
without markers is left as it is. -/
def split (d : Delimiters) (condition : String) (raw : List Char) (line : Nat) :
    Except Error (List Branch) := do
  let found ← markers 0 (← Segment.scan d line 0 raw)
  match beyondElse? found, found with
  | some marker, _ => throw (.located marker.tag.line .elseNotLast)
  | none, [] => return [⟨some condition, raw, line⟩]
  | none, marker :: _ =>
    return first condition (slice raw 0 marker.tag.start) line :: later raw found

def parsed (branch : Branch) : Except ExpressionFault (Option Condition) :=
  match branch.condition with
  | some source => (Condition.parse source).map some
  | none => .ok none

/-- The body of the branch to be taken, empty if there is none. All conditions are read before the
first is tried. -/
def resolve (branches : List Branch) (context : Value) : Except Error (List Char) :=
  Except.mapError .expression do
    let arms ← branches.mapM fun branch => branch.parsed.map (·, branch.body)
    return (← Condition.select (Scope.ofRoot context) arms).getD []

end Branch

end Stencil
