import Stencil.Compilation
import Stencil.Proofs.Scan

/-! # The grammar of blocks

`Derives` says which tree the segments of a template stand for, without positions in a text: a block is
its opening tag, its body and a closing tag of its kind, and the tags that start a branch stand between
the tags of a condition. The searches of the compiler pass over whatever has a derivation. -/
namespace Stencil.Grammar
open Compilation

/-- A segment without its place in the template. -/
inductive Item where
  | text (chars : List Char)
  | tag (directive : Except SyntaxFault Directive)

def item : Segment → Item
  | .text chars => .text chars
  | .tag t => .tag (Directive.classify t.body)

abbrev Arm := Option Condition × List Node

/-! ## Trees -/

/-- No node stands for the empty text. -/
def textNodes (chars : List Char) : List Node :=
  if chars.isEmpty then [] else [.text (String.ofList chars)]

def withoutFirstNewline : List Node → List Node
  | .text s :: rest =>
    match s.toList with
    | '\n' :: more => textNodes more ++ rest
    | _ => .text s :: rest
  | nodes => nodes

def withoutLastNewline (nodes : List Node) : List Node :=
  match nodes.getLast? with
  | some (.text s) => nodes.dropLast ++ textNodes (Branch.withoutLastNewline s.toList)
  | _ => nodes

/-- The arms of a condition. A newline at the front of the first arm goes only if others follow. -/
def armsOf (condition : Option Condition) (nodes : List Node) (later : List Arm) : List Arm :=
  if later.isEmpty then [(condition, nodes)]
  else (condition, withoutFirstNewline nodes) :: later

/-- The condition of an arm, none for an arm that is always taken. -/
def condition? : Option String → Option (Option Condition)
  | none => some none
  | some source => (Condition.parse source).toOption.map some

/-- Segments that are a node by themselves. -/
inductive Leaf (helpers : Entries Helper) : Item → Node → Prop
  | text {chars} : Leaf helpers (.text chars) (.text (String.ofList chars))
  | variable {source escape} :
      Leaf helpers (.tag (.ok (.variable source escape))) (.variable source escape)
  | call {name arguments line node} : callNode helpers name arguments line = .ok node →
      Leaf helpers (.tag (.ok (.call name arguments))) node

/-- The node of a block whose body has these nodes, and after them these arms. -/
inductive Closes : Block → String → List Node → List Arm → Node → Prop
  | conditional {argument condition nodes later} : Condition.parse argument = .ok condition →
      Closes .conditional argument nodes later (.conditional (armsOf (some condition) nodes later))
  | loop {argument source nodes} : loopSource argument = .ok source →
      Closes .loop argument nodes [] (.loop source nodes)

/-- The items stand for the nodes up to the first tag that starts a branch, and from there on for the
arms. Blocks are at most `room` deep. -/
inductive Derives (settings : Settings) : Nat → List Item → List Node → List Arm → Prop
  | nil {room} : Derives settings room [] [] []
  | leaf {room i node rest nodes later} : Leaf settings.helpers i node →
      Derives settings room rest nodes later → Derives settings room (i :: rest) (node :: nodes) later
  | block {room block argument body inner arms keyword node rest nodes later} :
      Derives settings room body inner arms → Closes block argument inner arms node →
      Block.ofClosing? keyword = some block → Derives settings (room + 1) rest nodes later →
      Derives settings (room + 1)
        (.tag (.ok (.opening block argument)) :: (body ++ .tag (.ok (.closing keyword)) :: rest))
        (node :: nodes) later
  | marker {room directive source condition rest nodes later} :
      directive.branch? = some source → condition? source = some condition →
      (source = none → later = []) → Derives settings room rest nodes later →
      Derives settings room (.tag (.ok directive) :: rest) []
        ((condition, withoutLastNewline nodes) :: later)

variable {settings : Settings} {room : Nat} {nodes : List Node} {later : List Arm}

theorem Derives.append {xs ys : List Item} {more : List Node} (hx : Derives settings room xs nodes [])
    (hy : Derives settings room ys more later) :
    Derives settings room (xs ++ ys) (nodes ++ more) later := by
  generalize hn : ([] : List Arm) = none' at hx
  induction hx with
  | nil => exact hy
  | leaf hl _ ih => exact .leaf hl (ih hy hn)
  | block hb hc hk _ _ ih =>
    rw [List.cons_append, List.append_assoc, List.cons_append]
    exact .block hb hc hk (ih hy hn)
  | marker => cases hn

theorem Derives.nodes_nil_iff {xs : List Item} (h : Derives settings room xs nodes []) :
    nodes = [] ↔ xs = [] := by
  cases h <;> simp

end Stencil.Grammar
