import Stencil.Proofs.Failures

/-! # Rendering appends

A step of rendering adds a text to the page and leaves the scope as it is, whether it fails or not. What it
adds, and how it fails, depends on the scope alone. The nodes of a list end one after the other, up to the
first one that fails. -/
namespace Stencil
open Rendering Text.Blank

/-- What a step has added to the page, and the error if it has failed. -/
inductive Ending where
  | done (text : String)
  | failed (text : String) (e : Error)

namespace Ending

/-- The page behind the step. -/
def on : Ending → Page → EStateM.Result Error Page Unit
  | .done text, page => .ok () { page with out := page.out ++ text }
  | .failed text e, page => .error e { page with out := page.out ++ text }

/-- A step that fails has no next. -/
def append : Ending → Ending → Ending
  | .done text, .done more => .done (text ++ more)
  | .done text, .failed more e => .failed (text ++ more) e
  | .failed text e, _ => .failed text e

/-- A block joins the page without the blanks at its ends, or not at all. -/
def ofBlock : Ending → Ending
  | .done text => .done (trimmed text)
  | .failed _ e => .failed "" e

def each (body : Scope → Ending) (scope : Scope) : Nat → List Value → Ending
  | _, [] => .done ""
  | index, item :: rest =>
    (body (scope.push item index)).ofBlock.append (each body scope (index + 1) rest)

theorem append_assoc (a b c : Ending) : (a.append b).append c = a.append (b.append c) := by
  cases a with
  | failed => rfl
  | done text =>
    cases b with
    | failed => rfl
    | done more => cases c <;> simp only [append, String.append_assoc]

theorem done_append (a : Ending) : (done "").append a = a := by
  cases a <;> simp only [append, String.empty_append]

theorem on_on (a : Ending) (text : String) (page : Page) :
    a.on { page with out := page.out ++ text } = ((done text).append a).on page := by
  cases a <;> simp only [on, append, String.append_assoc]

end Ending

/-- How the step ends on an empty page. -/
def Rendering.ending (step : Rendering Unit) (scope : Scope) : Ending :=
  match step ⟨scope, ""⟩ with
  | .ok _ page => .done page.out
  | .error e page => .failed page.out e

/-- On every page, the step ends as it does for the scope of that page. -/
def Ends (step : Rendering Unit) (ending : Scope → Ending) : Prop :=
  ∀ page, step page = (ending page.scope).on page

/-! ## Steps of rendering -/

namespace Ends

variable {step next : Rendering Unit} {first second : Scope → Ending}

theorem ending_eq (h : Ends step first) : step.ending = first := by
  funext scope
  rw [Rendering.ending, h]
  dsimp only
  cases first scope <;> simp only [Ending.on, String.empty_append]

theorem self (h : Ends step first) : Ends step step.ending :=
  h.ending_eq.symm ▸ h

theorem of_emit (text : String) : Ends (emit text) fun _ => .done text :=
  fun _ => rfl

theorem of_pure : Ends (pure ()) fun _ => .done "" := by
  intro page
  simp only [Ending.on, String.append_empty]
  rfl

theorem of_throw (e : Error) : Ends (throw e) fun _ => .failed "" e := by
  intro page
  simp only [Ending.on, String.append_empty]
  rfl

theorem seq (h : Ends step first) (hn : Ends next second) :
    Ends (do step; next) fun scope => (first scope).append (second scope) := by
  intro page
  rw [Rendering.seq_eq, h page]
  dsimp only
  cases first page.scope with
  | failed => rfl
  | done text => exact (hn _).trans ((second page.scope).on_on text page)

theorem piece (h : Ends step first) : Ends (Rendering.piece step) fun scope => (first scope).ofBlock := by
  intro page
  rw [Rendering.piece, h]
  dsimp only
  cases first page.scope with
  | done text => simp only [Ending.on, Ending.ofBlock, String.empty_append]
  | failed text e => simp only [Ending.on, Ending.ofBlock, String.append_empty]

theorem inFrame (h : Ends step first) (item : Value) (index : Nat) :
    Ends (Rendering.inFrame item index step) fun scope => first (scope.push item index) := by
  intro page
  rw [Rendering.inFrame, h]
  dsimp only
  cases first (page.scope.push item index) <;> rfl

theorem each (h : Ends step first) (index : Nat) (values : List Value) :
    Ends (Rendering.each step index values) fun scope => .each first scope index values := by
  induction values generalizing index with
  | nil => exact of_pure
  | cons item values ih => exact (h.inFrame item index).piece.seq (ih (index + 1))

end Ends

/-! ## Trees -/

/-- Of each node, if of a node whenever of all that are in it. -/
@[elab_as_elim]
theorem Node.induction {motive : Node → Prop} (text : ∀ text, motive (.text text))
    («variable» : ∀ source escape, motive (.variable source escape))
    (call : ∀ name helper arguments, motive (.call name helper arguments))
    (conditional : ∀ arms : List (Option Condition × List Node),
      (∀ arm ∈ arms, ∀ node ∈ arm.2, motive node) → motive (.conditional arms))
    (loop : ∀ source body, (∀ node ∈ body, motive node) → motive (.loop source body)) (node : Node) :
    motive node :=
  @Node.rec motive (fun arms => ∀ arm ∈ arms, ∀ node ∈ arm.2, motive node)
    (fun nodes => ∀ node ∈ nodes, motive node) (fun arm => ∀ node ∈ arm.2, motive node)
    text «variable» call conditional loop (List.forall_mem_nil _)
    (fun _ _ hfirst hrest => List.forall_mem_cons.mpr ⟨hfirst, hrest⟩) (List.forall_mem_nil _)
    (fun _ _ hfirst hrest => List.forall_mem_cons.mpr ⟨hfirst, hrest⟩) (fun _ _ hnodes => hnodes) node

theorem Ends.all {nodes : List Node} (h : ∀ node ∈ nodes, Ends node.render node.render.ending) :
    Ends (renderAll nodes) (renderAll nodes).ending := by
  induction nodes with
  | nil => exact Ends.of_pure.self
  | cons node nodes ih =>
    obtain ⟨hnode, hnodes⟩ := List.forall_mem_cons.mp h
    exact (hnode.seq (ih hnodes)).self

/-- How the arm that is taken ends. -/
def Ending.ofArms (arms : List (Option Condition × List Node)) (scope : Scope) : Ending :=
  match Condition.select scope arms with
  | .ok (some nodes) => ((renderAll nodes).ending scope).ofBlock
  | .ok none => .done ""
  | .error fault => .failed "" (.expression fault)

theorem Ends.conditional {arms : List (Option Condition × List Node)}
    (h : ∀ arm ∈ arms, Ends (renderAll arm.2) (renderAll arm.2).ending) :
    Ends (Node.conditional arms).render (Ending.ofArms arms) := by
  intro page
  rw [Node.render_conditional, Ending.ofArms]
  rcases hs : Condition.select page.scope arms with fault | _ | nodes
  · exact Ends.of_throw _ page
  · exact Ends.of_pure page
  · obtain ⟨arm, ha, rfl⟩ := Condition.select_mem hs
    exact (h arm ha).piece page

/-- How the rounds of a loop end, one after the other. -/
def Ending.ofLoop (source : Accessor) (body : List Node) (scope : Scope) : Ending :=
  match scope.find? source with
  | some value => .each (renderAll body).ending scope 0 (items value)
  | none => .done ""

theorem Ends.loop {source : Accessor} {body : List Node}
    (h : Ends (renderAll body) (renderAll body).ending) :
    Ends (Node.loop source body).render (Ending.ofLoop source body) := by
  intro page
  rw [Node.render_loop, Ending.ofLoop]
  cases page.scope.find? source with
  | none => exact Ends.of_pure page
  | some value => exact h.each 0 (items value) page

def Ending.ofVariable (source : Accessor) (escape : Bool) (scope : Scope) : Ending :=
  let text := (scope.resolve source).display
  .done (if escape then Text.Entities.escape text else text)

theorem Ends.variable (source : Accessor) (escape : Bool) :
    Ends (Node.variable source escape).render (Ending.ofVariable source escape) :=
  fun _ => rfl

def Ending.ofCall (name : String) (helper : Helper) (arguments : List Operand) (scope : Scope) : Ending :=
  match helper (arguments.map (Operand.resolve scope)) with
  | .ok value => .done value.display
  | .error message => .failed "" (.helper name message)

theorem Ends.call (name : String) (helper : Helper) (arguments : List Operand) :
    Ends (Node.call name helper arguments).render (Ending.ofCall name helper arguments) := by
  intro page
  rw [Node.render, Rendering.call_eq, Ending.ofCall]
  cases helper (arguments.map (Operand.resolve page.scope)) with
  | ok value => exact Ends.of_emit value.display page
  | error message => exact Ends.of_throw _ page

theorem Node.ends (node : Node) : Ends node.render node.render.ending := by
  induction node using Node.induction with
  | text text => exact (Ends.of_emit text).self
  | «variable» source escape => exact (Ends.variable source escape).self
  | call name helper arguments => exact (Ends.call name helper arguments).self
  | conditional arms ih => exact (Ends.conditional fun arm ha => .all (ih arm ha)).self
  | loop source body ih => exact (Ends.loop (.all ih)).self

theorem renderAll_ends (nodes : List Node) : Ends (renderAll nodes) (renderAll nodes).ending :=
  .all fun node _ => node.ends

theorem Node.ending_conditional (arms : List (Option Condition × List Node)) :
    (Node.conditional arms).render.ending = Ending.ofArms arms :=
  (Ends.conditional fun arm _ => renderAll_ends arm.2).ending_eq

theorem Node.ending_loop (source : Accessor) (body : List Node) :
    (Node.loop source body).render.ending = Ending.ofLoop source body :=
  (Ends.loop (renderAll_ends body)).ending_eq

theorem ending_renderAll_nil (scope : Scope) : (renderAll []).ending scope = .done "" :=
  congrFun Ends.of_pure.ending_eq scope

theorem ending_renderAll_cons (node : Node) (nodes : List Node) (scope : Scope) :
    (renderAll (node :: nodes)).ending scope =
      (node.render.ending scope).append ((renderAll nodes).ending scope) :=
  congrFun (node.ends.seq (renderAll_ends nodes)).ending_eq scope

theorem ending_renderAll_append (xs ys : List Node) (scope : Scope) :
    (renderAll (xs ++ ys)).ending scope =
      ((renderAll xs).ending scope).append ((renderAll ys).ending scope) := by
  induction xs with
  | nil => rw [List.nil_append, ending_renderAll_nil, Ending.done_append]
  | cons node xs ih =>
    rw [List.cons_append, ending_renderAll_cons, ih, ending_renderAll_cons, Ending.append_assoc]

/-- Rendering keeps the scope and what is on the page, whether it fails or not. How it ends does not depend
on the page, and two lists, one after the other, end as the first one and then, if that has not failed, the
second one does. -/
theorem renderAll_appends :
    (∀ nodes scope out,
      renderAll nodes ⟨scope, out⟩ = ((renderAll nodes).ending scope).on ⟨scope, out⟩) ∧
      ∀ xs ys scope, (renderAll (xs ++ ys)).ending scope =
        ((renderAll xs).ending scope).append ((renderAll ys).ending scope) :=
  ⟨fun nodes scope out => renderAll_ends nodes ⟨scope, out⟩, ending_renderAll_append⟩

end Stencil
