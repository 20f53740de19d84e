import Stencil.Branch
import Stencil.Node

/-! From the text of a template to its tree. The body of a block is cut out as it stands between the
tags and compiled in the same way, one level deeper. -/

namespace Stencil
open Text.Find

structure Settings where
  delimiters : Delimiters := {}
  helpers : Entries Helper := []
  maxDepth : Nat := 64

namespace Compilation

/-- The tag that closes a block, and the segments after it. `depth` counts the blocks that have been
opened inside; their kinds do not matter here. -/
def closing (block : Block) (line : Nat) : Nat → List Segment → Except Error (Tag × List Segment)
  | _, [] => .error (.located line (.unclosed block.keyword))
  | depth, .text _ :: rest => closing block line depth rest
  | depth, .tag tag :: rest =>
    match tag.directive with
    | .error e => .error e
    | .ok (.closing keyword) =>
      match Block.ofClosing? keyword, depth with
      | none, _ => .error (.located tag.line (.unknownBlock keyword))
      | some closed, 0 =>
        if closed = block then .ok (tag, rest)
        else .error (.located tag.line (.wrongClosing block.keyword keyword))
      | some _, depth + 1 => closing block line depth rest
    | .ok directive => closing block line (directive.nest depth) rest

theorem length_lt_of_closing {block : Block} {line depth : Nat} {segments after : List Segment}
    {tag : Tag} (h : closing block line depth segments = .ok (tag, after)) :
    after.length < segments.length := by
  fun_induction closing block line depth segments with
  | case1 => simp at h
  | case2 depth chars rest ih => exact Nat.lt_succ_of_lt (ih h)
  | case3 => simp at h
  | case4 => simp at h
  | case5 => simp_all
  | case6 => simp at h
  | case7 depth tag rest keyword hd closed hc ih => exact Nat.lt_succ_of_lt (ih h)
  | case8 depth tag rest directive hn hd ih => exact Nat.lt_succ_of_lt (ih h)

/-- A call of a helper that is there. -/
def callNode (helpers : Entries Helper) (name : String) (arguments : List String) (line : Nat) :
    Except Error Node :=
  match helpers.get? name with
  | none => .error (.undefinedHelper name)
  | some helper => do
    let operands ← (arguments.mapM Operand.parse).mapError fun unknown =>
      .located line (.unknownVariable unknown)
    return .call name helper operands

def loopSource (argument : String) : Except SyntaxFault Accessor :=
  if argument.toList.any Text.Blank.isBlank then .error (.sourceNotPath argument)
  else (Accessor.parse argument).mapError .unknownVariable

/-- Compiles a text that starts on the given line. -/
abbrev Fragment :=
  List Char → Nat → Except Error (List Node)

def arm (fragment : Fragment) (branch : Branch) :
    Except Error (Option Condition × List Node) := do
  let condition ← branch.parsed.mapError fun fault => .located branch.line (.expression fault)
  return (condition, ← fragment branch.body branch.line)

/-- A block, given its opening tag and its body. -/
def blockNode (d : Delimiters) (fragment : Fragment) (block : Block) (argument : String)
    (opened : Tag) (body : List Char) : Except Error Node :=
  match block with
  | .conditional => do
    let branches ← Branch.split d argument body opened.endLine
    return .conditional (← branches.mapM (arm fragment))
  | .loop => do
    let source ← (loopSource argument).mapError (.located opened.line)
    return .loop source (← fragment body opened.endLine)

/-- The nodes of the segments of `source`. Without an `inner` compiler no block can be opened. -/
def assemble (settings : Settings) (source : List Char) (inner : Option Fragment)
    (segments : List Segment) : Except Error (List Node) :=
  match segments with
  | [] => .ok []
  | .text chars :: rest =>
    (assemble settings source inner rest).map (.text (String.ofList chars) :: ·)
  | .tag tag :: rest =>
    match tag.directive with
    | .error e => .error e
    | .ok (.variable accessor escape) =>
      (assemble settings source inner rest).map (.variable accessor escape :: ·)
    | .ok (.call name arguments) => do
      let node ← callNode settings.helpers name arguments tag.line
      (assemble settings source inner rest).map (node :: ·)
    | .ok (.opening block argument) =>
      match _ : closing block tag.line 0 rest with
      | .error e => .error e
      | .ok (closed, after) =>
        match inner with
        | none => .error (.nestingTooDeep settings.maxDepth)
        | some fragment => do
          let body := slice source tag.stop closed.start
          let node ← blockNode settings.delimiters fragment block argument tag body
          (assemble settings source inner after).map (node :: ·)
    | .ok (.closing keyword) => .error (.located tag.line (.strayClosing keyword))
    | .ok _ => .error (.located tag.line .strayElse)
termination_by segments.length
decreasing_by
  · simp
  · simp
  · simp
  · exact Nat.lt_succ_of_lt (length_lt_of_closing ‹_›)

/-- Compiles a text inside which blocks can be nested `room` deep. -/
def fragment (settings : Settings) : Nat → Fragment
  | 0, source, line => do
    assemble settings source none (← Segment.scan settings.delimiters line 0 source)
  | room + 1, source, line => do
    assemble settings source (some (fragment settings room))
      (← Segment.scan settings.delimiters line 0 source)

def compile (settings : Settings) (source : String) : Except Error (List Node) :=
  fragment settings settings.maxDepth source.toList 1

end Compilation

end Stencil
