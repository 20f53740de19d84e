import Stencil.Node
import Stencil.Text.Entities

/-! Rendering a tree onto a page. The page holds what has been written and the scope in which names
are read; a block is written on a page of its own and joins the one around it without the blanks at
its ends. -/

namespace Stencil
open Text

structure Page where
  scope : Scope
  out : String

/-- A failed step leaves a page, too. -/
abbrev Rendering :=
  EStateM Error Page

namespace Rendering

def emit (text : String) : Rendering Unit :=
  modify fun page => { page with out := page.out ++ text }

def piece (body : Rendering Unit) : Rendering Unit := fun page =>
  match body { page with out := "" } with
  | .ok () after => .ok () { after with out := page.out ++ Blank.trimmed after.out }
  | .error e after => .error e { after with out := page.out }

def inFrame (item : Value) (index : Nat) (body : Rendering Unit) : Rendering Unit := fun page =>
  match body { page with scope := page.scope.push item index } with
  | .ok () after => .ok () { after with scope := after.scope.pop }
  | .error e after => .error e { after with scope := after.scope.pop }

/-- Renders the body once for each item, the first of which has the given index. -/
def each (body : Rendering Unit) : Nat → List Value → Rendering Unit
  | _, [] => pure ()
  | index, item :: rest => do
    piece (inFrame item index body)
    each body (index + 1) rest

/-- What a loop runs over. Only lists and maps have items. -/
def items : Value → List Value
  | .list items => items
  | .map entries => entries.map (·.2)
  | _ => []

def lookup {α : Type} (read : Scope → α) : Rendering α := do
  return read (← get).scope

def write (value : Value) (escape : Bool) : Rendering Unit :=
  emit (if escape then Entities.escape value.display else value.display)

def call (name : String) (helper : Helper) (arguments : List Operand) : Rendering Unit := do
  let values ← lookup fun scope => arguments.map (Operand.resolve scope)
  match helper values with
  | .ok value => write value false
  | .error message => throw (.helper name message)

/-- Takes the first arm whose condition holds. -/
def choose (arms : List (Option Condition × Rendering Unit)) : Rendering Unit := do
  match ← lookup (Condition.select · arms) with
  | .ok (some body) => piece body
  | .ok none => pure ()
  | .error fault => throw (.expression fault)

end Rendering

open Rendering

mutual

def Node.render : Node → Rendering Unit
  | .text text => emit text
  | .variable source escape => do write (← lookup (Scope.resolve · source)) escape
  | .call name helper arguments => call name helper arguments
  | .conditional arms => choose (renderArms arms)
  | .loop source body => do
    match ← lookup (Scope.find? · source) with
    | some value => each (renderAll body) 0 (items value)
    | none => pure ()
termination_by structural node => node

def renderAll : List Node → Rendering Unit
  | [] => pure ()
  | node :: rest => do
    node.render
    renderAll rest
termination_by structural nodes => nodes

def renderArms : List (Option Condition × List Node) → List (Option Condition × Rendering Unit)
  | [] => []
  | (condition, body) :: rest => (condition, renderAll body) :: renderArms rest
termination_by structural arms => arms

end

end Stencil
