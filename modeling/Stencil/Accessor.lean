import Stencil.Text.Find

/-! Where a name in a template reads its value: a path into the current item, or one of the reserved
variables, whose names are written after an at sign. -/

namespace Stencil
open Text.Find

inductive Accessor where
  /-- A path into the current item. -/
  | path (path : String)
  /-- `@data`: the current item, or a path into it. -/
  | data (path : Option String)
  /-- `@parent`: the item around the current loop, or a path into it. -/
  | parent (path : Option String)
  /-- `@index`: the position of the current item in its loop. -/
  | index
deriving DecidableEq, Repr

/-- A name after an at sign that is none of the reserved ones. -/
structure UnknownVariable where
  name : String
deriving DecidableEq, Repr

def UnknownVariable.message (u : UnknownVariable) : String :=
  "unknown reserved variable \"@" ++ u.name ++ "\""

namespace Accessor

/-- What follows the name of an item: nothing, or a point and a path. -/
def within? (rest : List Char) : Option (Option String) :=
  match rest with
  | [] => some none
  | '.' :: inner => if inner.isEmpty then none else some (some (String.ofList inner))
  | _ => none

/-- The reserved variable of this name, written without the at sign. -/
def reserved? (name : String) : Option Accessor :=
  let s := name.toList
  match remainder? "data".toList s, remainder? "parent".toList s with
  | some rest, _ => (within? rest).map .data
  | none, some rest => (within? rest).map .parent
  | none, none => if name = "index" then some .index else none

def parse (identifier : String) : Except UnknownVariable Accessor :=
  match identifier.toList with
  | '@' :: name =>
    match reserved? (String.ofList name) with
    | some accessor => .ok accessor
    | none => .error ⟨String.ofList name⟩
  | _ => .ok (.path identifier)

end Accessor

end Stencil
