import Stencil.Directive.Arguments
import Stencil.Segment

/-! What a tag asks for, told by the first character of its body or by its first word. -/

namespace Stencil
open Text.Blank

inductive Block where
  | conditional
  | loop
deriving DecidableEq, Repr

namespace Block

def keyword : Block → String
  | .conditional => "if"
  | .loop => "loop"

/-- The block that a closing tag with this keyword ends. -/
def ofClosing? (keyword : String) : Option Block :=
  match keyword with
  | "if" => some .conditional
  | "loop" | "for" => some .loop
  | _ => none

end Block

inductive Directive where
  | variable (source : Accessor) (escape : Bool)
  | call (name : String) (arguments : List String)
  | opening (block : Block) (argument : String)
  | elseIf (condition : String)
  | otherwise
  | closing (keyword : String)
deriving DecidableEq, Repr

namespace Directive

/-- Some keywords need something after them. -/
def required (keyword : String) (argument : List Char) : Except SyntaxFault String :=
  if argument.isEmpty then .error (.missingArgument keyword) else .ok (String.ofList argument)

def variableOf (escape : Bool) (name : List Char) : Except SyntaxFault Directive :=
  if name.isEmpty then .error .emptyName
  else if name.any isBlank then .error (.unknownDirective (String.ofList name))
  else
    match Accessor.parse (String.ofList name) with
    | .ok source => .ok (.variable source escape)
    | .error unknown => .error (.unknownVariable unknown)

/-- A position is a number, so nothing in it is to be escaped. -/
def reservedOf (escape : Bool) (name : List Char) : Except SyntaxFault Directive :=
  match Accessor.reserved? (String.ofList name) with
  | some source => .ok (.variable source (escape && source ≠ .index))
  | none => .error (.unknownVariable ⟨String.ofList name⟩)

def callOf (s : List Char) : Except SyntaxFault Directive :=
  match (Arguments.split s).map String.ofList with
  | name :: arguments => .ok (.call name arguments)
  | [] => .error .namelessCall

/-- What may follow the word `else`: nothing, or another condition. -/
def elseOf (tail : List Char) : Except SyntaxFault Directive :=
  if tail.isEmpty then .ok .otherwise
  else if firstWord tail ≠ "if".toList then .error (.afterElse (String.ofList tail))
  else (required "else if" (afterFirstWord tail)).map .elseIf

def wordOf (body : List Char) : Except SyntaxFault Directive :=
  match String.ofList (firstWord body) with
  | "if" => (required "if" (afterFirstWord body)).map (.opening .conditional)
  | "loop" => (required "loop" (afterFirstWord body)).map (.opening .loop)
  | "for" => (required "for" (afterFirstWord body)).map (.opening .loop)
  | "else" => elseOf (afterFirstWord body)
  | _ => variableOf true body

def classify (body : List Char) : Except SyntaxFault Directive :=
  match trim body with
  | [] => .error .emptyDirective
  | '/' :: rest => .ok (.closing (String.ofList (trim rest)))
  | '#' :: rest => callOf rest
  | '@' :: '%' :: rest => reservedOf false (trim rest)
  | '@' :: rest => reservedOf true (trim rest)
  | '%' :: rest => variableOf false (trim rest)
  | body => wordOf body

/-- How many blocks are open after the directive. A closing one that matches nothing is passed over. -/
def nest (depth : Nat) : Directive → Nat
  | .opening .. => depth + 1
  | .closing _ => depth - 1
  | _ => depth

/-- The condition of the branch that the directive starts, if it starts one. -/
def branch? : Directive → Option (Option String)
  | .elseIf condition => some (some condition)
  | .otherwise => some none
  | _ => none

end Directive

/-- The directive of a tag, whose faults are on the line where the tag starts. -/
def Tag.directive (tag : Tag) : Except Error Directive :=
  (Directive.classify tag.body).mapError (.located tag.line)

end Stencil
