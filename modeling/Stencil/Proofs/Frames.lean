import Mathlib.Algebra.Group.Nat.Defs
import Stencil.Scope

/-! # The frames of a scope

A scope is a stack with the root at its bottom. Which frames stand above the root is told by the steps that
have been taken: those that were opened and that no later step closes. A step closes the frame that was
opened last, so what lies between the opening and the closing of a frame is balanced. -/
namespace Stencil.Scope

/-! ## The stack -/

/-- The items with their positions, the innermost first. The root has no position. -/
def stack (scope : Scope) : List (Value × Option Nat) :=
  scope.frames.map (fun frame => (frame.item, some frame.index)) ++ [(scope.root, none)]

theorem stack_push (scope : Scope) (item : Value) (index : Nat) :
    (scope.push item index).stack = (item, some index) :: scope.stack :=
  rfl

/-- The last frame that is left is the root, and it stays. -/
theorem stack_pop (scope : Scope) :
    scope.pop.stack = if 1 < scope.stack.length then scope.stack.tail else scope.stack := by
  obtain ⟨root, _ | ⟨frame, outer⟩⟩ := scope
  · rfl
  · have hlength : 1 < (stack ⟨root, frame :: outer⟩).length := by simp [stack]
    rw [if_pos hlength]
    rfl

theorem head?_stack (scope : Scope) : scope.stack.head? = some (scope.current, scope.index?) := by
  obtain ⟨root, _ | ⟨frame, outer⟩⟩ := scope <;> rfl

theorem parent?_eq_stack (scope : Scope) : scope.parent? = scope.stack[1]?.map (·.1) := by
  obtain ⟨root, _ | ⟨frame, _ | ⟨around, outer⟩⟩⟩ := scope <;> rfl

theorem parent?_eq_none_iff {scope : Scope} : scope.parent? = none ↔ scope.frames = [] := by
  obtain ⟨root, _ | ⟨frame, outer⟩⟩ := scope <;> simp [parent?]

theorem find?_parent_none (scope : Scope) : scope.find? (.parent none) = scope.parent? :=
  Option.bind_fun_some _

theorem resolve_index_eq_null_iff {scope : Scope} : scope.resolve .index = .null ↔ scope.frames = [] := by
  obtain ⟨root, _ | ⟨frame, outer⟩⟩ := scope <;> simp [resolve, index?]

/-! ## Steps -/

inductive Step where
  | push (item : Value) (index : Nat)
  | pop

def perform (scope : Scope) : Step → Scope
  | .push item index => scope.push item index
  | .pop => scope.pop

def run (scope : Scope) (steps : List Step) : Scope :=
  steps.foldl perform scope

/-- A step on a stack that keeps its last frame. -/
def Step.onStack (frames : List (Value × Option Nat)) : Step → List (Value × Option Nat)
  | .push item index => (item, some index) :: frames
  | .pop => if 1 < frames.length then frames.tail else frames

theorem stack_perform (scope : Scope) (step : Step) :
    (scope.perform step).stack = step.onStack scope.stack := by
  cases step with
  | push item index => exact stack_push scope item index
  | pop => exact stack_pop scope

/-- A run of the scope is a run of one list of frames, the root among them, of which the last is never taken
off. -/
theorem stack_run (scope : Scope) (steps : List Step) :
    (scope.run steps).stack = steps.foldl Step.onStack scope.stack := by
  induction steps generalizing scope with
  | nil => rfl
  | cons step rest ih =>
    calc ((scope.perform step).run rest).stack
      _ = rest.foldl Step.onStack (scope.perform step).stack := ih _
      _ = rest.foldl Step.onStack (step.onStack scope.stack) := by rw [stack_perform]

theorem run_append (scope : Scope) (steps more : List Step) :
    scope.run (steps ++ more) = (scope.run steps).run more :=
  List.foldl_append

/-- Every frame that is opened is closed, and no other. -/
inductive Balanced : List Step → Prop
  | nil : Balanced []
  | frame {item index inner rest} : Balanced inner → Balanced rest →
      Balanced (.push item index :: (inner ++ .pop :: rest))

/-- A frame that was opened just before these steps is closed by one of them. -/
def Closes (steps : List Step) : Prop :=
  ∃ inner rest, Balanced inner ∧ steps = inner ++ .pop :: rest

/-- How many frames that were open before them the steps can close. -/
def surplus : List Step → Nat
  | [] => 0
  | .push _ _ :: rest => surplus rest - 1
  | .pop :: rest => surplus rest + 1

theorem Balanced.surplus_append {steps : List Step} (h : Balanced steps) (more : List Step) :
    surplus (steps ++ more) = surplus more := by
  induction h generalizing more with
  | nil => rfl
  | frame _ _ ihInner ihRest =>
    rw [List.cons_append, List.append_assoc, List.cons_append, surplus, ihInner, surplus, ihRest,
      Nat.add_sub_cancel]

theorem exists_balanced_of_surplus {steps : List Step} (h : 0 < surplus steps) :
    ∃ inner rest, Balanced inner ∧ steps = inner ++ .pop :: rest := by
  induction hn : steps.length using Nat.strongRecOn generalizing steps with
  | ind n ih =>
    subst hn
    cases steps with
    | nil => exact absurd h (Nat.lt_irrefl 0)
    | cons step more =>
      cases step with
      | pop => exact ⟨[], more, .nil, rfl⟩
      | push item index =>
        simp only [surplus] at h
        -- the first pop to spare closes this frame, and the next one is the one that is looked for
        obtain ⟨inner, rest, hinner, rfl⟩ := ih _ (Nat.lt_succ_self _) (show 0 < surplus more by omega) rfl
        rw [hinner.surplus_append, surplus, Nat.add_sub_cancel] at h
        have hlt : rest.length < (Step.push item index :: (inner ++ .pop :: rest)).length := by
          simp only [List.length_cons, List.length_append]
          omega
        obtain ⟨inner', rest', hinner', rfl⟩ := ih _ hlt h rfl
        refine ⟨.push item index :: (inner ++ .pop :: inner'), rest', .frame hinner hinner', ?_⟩
        simp only [List.cons_append, List.append_assoc]

theorem closes_iff {steps : List Step} : Closes steps ↔ 0 < surplus steps := by
  constructor
  · intro h
    obtain ⟨inner, rest, hinner, rfl⟩ := h
    rw [hinner.surplus_append, surplus]
    exact Nat.succ_pos _
  · exact exists_balanced_of_surplus

instance (steps : List Step) : Decidable (Closes steps) :=
  decidable_of_iff _ closes_iff.symm

/-- The frames that are opened and that no later step closes, the last one first. -/
def unclosed : List Step → List Frame
  | [] => []
  | .push item index :: rest =>
    if Closes rest then unclosed rest else unclosed rest ++ [⟨item, index⟩]
  | .pop :: rest => unclosed rest

/-! ## Runs -/

theorem root_run (scope : Scope) (steps : List Step) : (scope.run steps).root = scope.root := by
  induction steps generalizing scope with
  | nil => rfl
  | cons step rest ih =>
    have hstep : (scope.perform step).root = scope.root := by cases step <;> rfl
    exact (ih _).trans hstep

/-- Of the frames that were there the steps take off what they can close, and on top of the others they
leave what they have not closed. -/
theorem frames_run (scope : Scope) (steps : List Step) :
    (scope.run steps).frames = unclosed steps ++ scope.frames.drop (surplus steps) := by
  induction steps generalizing scope with
  | nil => rfl
  | cons step rest ih =>
    show ((scope.perform step).run rest).frames = _
    rw [ih]
    cases step with
    | pop =>
      show unclosed rest ++ scope.frames.tail.drop (surplus rest) = _
      rw [List.drop_tail]
      rfl
    | push item index =>
      show unclosed rest ++ (⟨item, index⟩ :: scope.frames).drop (surplus rest) = _
      rw [unclosed, surplus]
      split
      · rename_i hcloses
        obtain ⟨n, hn⟩ := Nat.exists_eq_succ_of_ne_zero (Nat.ne_of_gt (closes_iff.mp hcloses))
        rw [hn, List.drop_succ_cons, Nat.succ_sub_one]
      · rename_i hopen
        have hzero : surplus rest = 0 := Nat.eq_zero_of_not_pos (mt closes_iff.mpr hopen)
        rw [hzero, List.drop_zero, List.drop_zero, List.append_assoc, List.singleton_append]

theorem Balanced.run_eq {steps : List Step} (h : Balanced steps) (scope : Scope) :
    scope.run steps = scope := by
  induction h generalizing scope with
  | nil => rfl
  | @frame item index inner rest _ _ ihInner ihRest =>
    show (scope.push item index).run (inner ++ .pop :: rest) = scope
    rw [run_append, ihInner]
    exact ihRest _

/-- What the steps leave of a scope that starts with the root. -/
def after (root : Value) (steps : List Step) : Scope :=
  (ofRoot root).run steps

theorem after_eq (root : Value) (steps : List Step) : after root steps = ⟨root, unclosed steps⟩ := by
  have hroot : (after root steps).root = root := root_run _ _
  have hframes : (after root steps).frames = unclosed steps ++ [].drop (surplus steps) := frames_run _ _
  rw [List.drop_nil, List.append_nil] at hframes
  calc after root steps = ⟨(after root steps).root, (after root steps).frames⟩ := rfl
    _ = ⟨root, unclosed steps⟩ := by rw [hroot, hframes]

theorem after_concat (root : Value) (steps : List Step) (step : Step) :
    after root (steps ++ [step]) = (after root steps).perform step :=
  run_append _ _ _

/-- What names stand for in a frame that has just been opened in the outer scope. -/
structure Opened (outer : Scope) (item : Value) (index : Nat) (inner : Scope) : Prop where
  find_parent : ∀ path, inner.find? (.parent path) = outer.find? (.data path)
  resolve_parent : ∀ path, inner.resolve (.parent path) = outer.resolve (.data path)
  find_item : inner.find? (.data none) = some item
  find_path : ∀ path, ∀ accessor ∈ [Accessor.data (some path), .path path],
    inner.find? accessor = item.get? path
  resolve_path : ∀ path, ∀ accessor ∈ [Accessor.data (some path), .path path],
    inner.resolve accessor = (item.get? path).getD .null
  resolve_index : ∃ n : Int64, inner.resolve .index = .int n ∧ n.toInt = index

theorem find?_push_parent (scope : Scope) (item : Value) (index : Nat) (path : Option String) :
    (scope.push item index).find? (.parent path) = scope.find? (.data path) :=
  rfl

theorem opened_push (scope : Scope) (item : Value) {index : Nat} (h : index < 2 ^ 63) :
    Opened scope item index (scope.push item index) where
  find_parent := find?_push_parent scope item index
  resolve_parent path := congrArg (·.getD Value.null) (find?_push_parent scope item index path)
  find_item := rfl
  find_path path accessor ha := by
    simp only [List.mem_cons, List.not_mem_nil, or_false] at ha
    rcases ha with rfl | rfl <;> rfl
  resolve_path path accessor ha := by
    simp only [List.mem_cons, List.not_mem_nil, or_false] at ha
    rcases ha with rfl | rfl <;> rfl
  resolve_index := ⟨Int64.ofNat index, rfl, Int64.toInt_ofNat_of_lt h⟩

/-- The scope is the stack of these frames on the root, and what names are read from is on top of it. -/
structure StackOf (root : Value) (frames : List Frame) (scope : Scope) : Prop where
  stack_eq : scope.stack = frames.map (fun frame => (frame.item, some frame.index)) ++ [(root, none)]
  top_eq : scope.stack.head? = some (scope.current, scope.index?)
  around_eq : scope.stack[1]?.map (·.1) = scope.parent?
  index_eq_null_iff : scope.resolve .index = .null ↔ frames = []
  parent_eq_none_iff : scope.find? (.parent none) = none ↔ frames = []

theorem stackOf_mk (root : Value) (frames : List Frame) : StackOf root frames ⟨root, frames⟩ where
  stack_eq := rfl
  top_eq := head?_stack _
  around_eq := (parent?_eq_stack _).symm
  index_eq_null_iff := resolve_index_eq_null_iff
  parent_eq_none_iff := by rw [find?_parent_none, parent?_eq_none_iff]

theorem after_closed (root : Value) (steps : List Step) (item : Value) (index : Nat) {inner : List Step}
    (h : Balanced inner) :
    after root (steps ++ .push item index :: (inner ++ [.pop])) = after root steps := by
  have hclosed : Balanced (.push item index :: (inner ++ [.pop])) := .frame h .nil
  exact (run_append _ _ _).trans (hclosed.run_eq _)

/-- After any steps from a root, the scope is the stack of the frames that have not been closed, with the
root at the bottom. If no frame is open, a step that closes one changes nothing. A frame that has been opened
and closed again leaves every name as it was, and in one that has just been opened the item around it is the
one that was current. -/
theorem after_isStack (root : Value) (steps : List Step) :
    StackOf root (unclosed steps) (after root steps) ∧
      (unclosed steps = [] → after root (steps ++ [.pop]) = after root steps) ∧
      (∀ item index inner, Balanced inner → ∀ accessor,
        (after root (steps ++ .push item index :: (inner ++ [.pop]))).find? accessor =
            (after root steps).find? accessor ∧
          (after root (steps ++ .push item index :: (inner ++ [.pop]))).resolve accessor =
            (after root steps).resolve accessor) ∧
      ∀ item index, index < 2 ^ 63 →
        Opened (after root steps) item index (after root (steps ++ [.push item index])) := by
  refine ⟨?_, fun hnone => ?_, fun item index inner hinner accessor => ?_, fun item index hindex => ?_⟩
  · rw [after_eq]
    exact stackOf_mk root (unclosed steps)
  · rw [after_concat, after_eq, hnone]
    rfl
  · rw [after_closed root steps item index hinner]
    exact ⟨rfl, rfl⟩
  · rw [after_concat]
    exact opened_push _ item hindex

/-- A step closes nothing, then one of two frames is closed. The greatest position is still a number. -/
theorem after_isStack_surplus :
    ∃ (root item : Value) (steps : List Step), unclosed steps = [⟨item, 7⟩] ∧
      (after root steps).stack = [(item, some 7), (root, none)] ∧
      (after root (steps ++ .push .null 0 :: ([.push item 1, .pop] ++ [.pop]))).resolve .index = .int 7 ∧
      Opened (after root steps) root (2 ^ 63 - 1) (after root (steps ++ [.push root (2 ^ 63 - 1)])) := by
  let item : Value := .list [.int 5]
  let steps : List Step := [.pop, .push item 7, .push .null 0, .pop]
  have hunclosed : unclosed steps = [⟨item, 7⟩] := rfl
  obtain ⟨hstack, -, hclosed, hopened⟩ := after_isStack (.str "r") steps
  rw [hunclosed] at hstack
  exact ⟨.str "r", item, steps, hunclosed, hstack.stack_eq,
    (hclosed .null 0 [.push item 1, .pop] (.frame .nil .nil) .index).2, hopened _ _ (by decide)⟩

end Stencil.Scope
