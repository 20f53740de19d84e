import Stencil.Accessor
import Stencil.Value.Path

/-! What a template sees while it is rendered: the root value, and on top of it a frame for each loop
it is inside of. Closing more frames than were opened leaves the root alone. -/

namespace Stencil

structure Frame where
  item : Value
  index : Nat

structure Scope where
  root : Value
  /-- The innermost loop comes first. -/
  frames : List Frame

namespace Scope

def ofRoot (root : Value) : Scope :=
  ⟨root, []⟩

def push (scope : Scope) (item : Value) (index : Nat) : Scope :=
  { scope with frames := ⟨item, index⟩ :: scope.frames }

def pop (scope : Scope) : Scope :=
  { scope with frames := scope.frames.tail }

def current (scope : Scope) : Value :=
  match scope.frames with
  | [] => scope.root
  | frame :: _ => frame.item

/-- The item around the innermost loop. -/
def parent? (scope : Scope) : Option Value :=
  match scope.frames with
  | [] => none
  | _ :: outer => some (current { scope with frames := outer })

def index? (scope : Scope) : Option Nat :=
  scope.frames.head?.map (·.index)

def within? (value : Value) : Option String → Option Value
  | none => some value
  | some path => value.get? path

/-- The part of the data an accessor points at. A position is no part of the data. -/
def find? (scope : Scope) : Accessor → Option Value
  | .path path => scope.current.get? path
  | .data path => within? scope.current path
  | .parent path => scope.parent?.bind (within? · path)
  | .index => none

/-- The value an accessor reads. What is absent reads as null. -/
def resolve (scope : Scope) : Accessor → Value
  | .index => (scope.index?.map fun i => .int (Int64.ofNat i)).getD .null
  | accessor => (scope.find? accessor).getD .null

end Scope

end Stencil
