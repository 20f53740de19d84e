import Stencil.Proofs.Moved

/-! # What a tree asks of the settings

Apart from the delimiters, a template asks two things of the settings with which it is compiled: a helper
for each call, and room for each block. The tree lists what it has asked for in the order of the template.
With other settings the template compiles to the same tree, with the helpers of those settings, or fails at
the first thing that they do not grant. -/
namespace Stencil
open Compilation Grammar Segment

/-! ## Demands -/

/-- A helper of this name, or room for blocks at this level. -/
inductive Demand where
  | helper (name : String)
  | level (level : Nat)
deriving DecidableEq, Repr

/-- The error with which a demand is refused. -/
def Settings.refusal? (settings : Settings) : Demand → Option Error
  | .helper name => if settings.helpers.contains name then none else some (.undefinedHelper name)
  | .level level =>
    if level ≤ settings.maxDepth then none else some (.nestingTooDeep settings.maxDepth)

def Settings.firstRefusal? (settings : Settings) (demands : List Demand) : Option Error :=
  demands.findSome? settings.refusal?

mutual

/-- What a node asks for that stands in blocks of this level: a block asks for room before anything in it
is looked at. -/
def Node.demands (level : Nat) : Node → List Demand
  | .text _ => []
  | .variable .. => []
  | .call name _ _ => [.helper name]
  | .conditional arms => .level (level + 1) :: demandsOfArms (level + 1) arms
  | .loop _ body => .level (level + 1) :: demandsOfAll (level + 1) body
termination_by structural node => node

def demandsOfAll (level : Nat) : List Node → List Demand
  | [] => []
  | node :: rest => node.demands level ++ demandsOfAll level rest
termination_by structural nodes => nodes

def demandsOfArms (level : Nat) : List (Option Condition × List Node) → List Demand
  | [] => []
  | (_, body) :: rest => demandsOfAll level body ++ demandsOfArms level rest
termination_by structural arms => arms

end

mutual

/-- The node with the functions that this table has for the names of its calls. -/
def Node.relinked (helpers : Entries Helper) : Node → Node
  | .text s => .text s
  | .variable source escape => .variable source escape
  | .call name helper arguments => .call name ((helpers.get? name).getD helper) arguments
  | .conditional arms => .conditional (relinkedArms helpers arms)
  | .loop source body => .loop source (relinkedAll helpers body)
termination_by structural node => node

def relinkedAll (helpers : Entries Helper) : List Node → List Node
  | [] => []
  | node :: rest => node.relinked helpers :: relinkedAll helpers rest
termination_by structural nodes => nodes

def relinkedArms (helpers : Entries Helper) :
    List (Option Condition × List Node) → List (Option Condition × List Node)
  | [] => []
  | (condition, body) :: rest => (condition, relinkedAll helpers body) :: relinkedArms helpers rest
termination_by structural arms => arms

end

section
variable (settings : Settings)

theorem firstRefusal?_append (demands more : List Demand) :
    settings.firstRefusal? (demands ++ more) =
      (settings.firstRefusal? demands).or (settings.firstRefusal? more) :=
  List.findSome?_append

theorem firstRefusal?_call (name : String) :
    settings.firstRefusal? [.helper name] =
      if settings.helpers.contains name then none else some (.undefinedHelper name) := by
  simp only [Settings.firstRefusal?, List.findSome?_singleton, Settings.refusal?]

theorem firstRefusal?_level_of_le {level : Nat} (h : level ≤ settings.maxDepth) (demands : List Demand) :
    settings.firstRefusal? (.level level :: demands) = settings.firstRefusal? demands := by
  rw [Settings.firstRefusal?, List.findSome?_cons, Settings.refusal?, if_pos h]
  rfl

theorem firstRefusal?_level_of_lt {level : Nat} (h : settings.maxDepth < level) (demands : List Demand) :
    settings.firstRefusal? (.level level :: demands) = some (.nestingTooDeep settings.maxDepth) := by
  rw [Settings.firstRefusal?, List.findSome?_cons, Settings.refusal?, if_neg (Nat.not_le_of_lt h)]

end

/-! ## Compiling once more -/

variable {settings other : Settings} {source : List Char} {inner : Option Fragment} {level room line : Nat}

/-- What the tree of a text that stands in blocks of this level becomes with these settings. -/
def regranted (settings : Settings) (level : Nat) (nodes : List Node) : Except Error (List Node) :=
  .barring (settings.firstRefusal? (demandsOfAll level nodes)) (relinkedAll settings.helpers nodes)

theorem regranted_cons {node : Node} {rest : List Node} (x : Except Error Node)
    (hx : x = .barring (other.firstRefusal? (node.demands level)) (node.relinked other.helpers)) :
    (x >>= fun node => (regranted other level rest).map (node :: ·)) =
      regranted other level (node :: rest) := by
  rw [hx, regranted, regranted, demandsOfAll, firstRefusal?_append]
  exact Except.barring_bind _ _ _ (Except.barring_map ..)

/-- A compiler of texts that has made a tree from a text where blocks can be nested so deep makes of it
with the other settings what they grant. -/
def Regrants (other : Settings) (f : Fragment) : Prop :=
  ∀ level room, level + room = other.maxDepth → ∀ source line nodes, f source line = .ok nodes →
    fragment other room source line = regranted other level nodes

theorem callNode_regrant {name : String} {arguments : List String} {node : Node}
    (h : callNode settings.helpers name arguments line = .ok node) :
    callNode other.helpers name arguments line =
      .barring (other.firstRefusal? (node.demands level)) (node.relinked other.helpers) := by
  obtain ⟨helper, operands, -, ho, rfl⟩ := callNode_eq_ok h
  rw [Node.demands, firstRefusal?_call, Node.relinked, Entries.contains]
  unfold callNode
  rw [ho]
  cases other.helpers.get? name <;> rfl

theorem arm_of_condition {f : Fragment} {branch : Branch} {condition : Option Condition}
    (h : condition? branch.condition = some condition) :
    arm f branch = (f branch.body branch.line).map (condition, ·) := by
  unfold arm
  rw [parsed_eq_ok_iff.mpr h]
  cases f branch.body branch.line <;> rfl

theorem arms_regrant {f : Fragment} (hf : Regrants other f) (hl : level + room = other.maxDepth)
    {branches : List Branch} {arms : List Arm}
    (h : List.Forall₂ (fun branch a => arm f branch = .ok a) branches arms) :
    branches.mapM (arm (fragment other room)) =
      .barring (other.firstRefusal? (demandsOfArms level arms)) (relinkedArms other.helpers arms) := by
  induction h with
  | nil => rfl
  | @cons branch a branches arms ha _ ih =>
    obtain ⟨hcondition, hn⟩ := arm_eq_ok_iff.mp ha
    rw [List.mapM_cons, arm_of_condition hcondition, hf level room hl _ _ _ hn, regranted,
      Except.barring_map, demandsOfArms, firstRefusal?_append]
    refine Except.barring_bind _ _ _ ?_
    rw [ih]
    exact Except.barring_map _ _ ((a.1, relinkedAll other.helpers a.2) :: ·)

theorem blockNode_regrant {f : Fragment} (hf : Regrants other f) (hl : level + 1 + room = other.maxDepth)
    {block : Block} {argument : String} {opened : Tag} {node : Node}
    (h : blockNode settings.delimiters f block argument opened source = .ok node) :
    blockNode settings.delimiters (fragment other room) block argument opened source =
      .barring (other.firstRefusal? (node.demands level)) (node.relinked other.helpers) := by
  have hle : level + 1 ≤ other.maxDepth := by omega
  cases built_iff.mp h with
  | @conditional branches arms hb ha =>
    unfold blockNode
    rw [hb, Node.demands, firstRefusal?_level_of_le other hle, Node.relinked]
    show (branches.mapM (arm (fragment other room)) >>= _) = _
    rw [arms_regrant hf hl (Except.forall₂_of_mapM ha)]
    exact Except.barring_map _ _ Node.conditional
  | @loop path nodes hp hn =>
    unfold blockNode
    rw [hp, Node.demands, firstRefusal?_level_of_le other hle, Node.relinked]
    show (fragment other room source opened.endLine >>= _) = _
    rw [hf (level + 1) room hl _ _ _ hn]
    exact Except.barring_map _ _ (Node.loop path)

theorem demands_of_blockNode {f : Fragment} {block : Block} {argument : String} {opened : Tag} {node : Node}
    (h : blockNode settings.delimiters f block argument opened source = .ok node) (level : Nat) :
    ∃ more, node.demands level = .level (level + 1) :: more := by
  cases built_iff.mp h <;> exact ⟨_, rfl⟩

theorem assemble_regrant (hd : other.delimiters = settings.delimiters)
    (hi : ∀ f, inner = some f → Regrants other f) (hl : level + room = other.maxDepth)
    {segments : List Segment} {nodes : List Node}
    (h : assemble settings source inner segments = .ok nodes) :
    assemble other source (innerFragment other room) segments = regranted other level nodes := by
  replace h := assembled_of_assemble h
  induction h with
  | nil =>
    rw [assemble]
    rfl
  | text _ ih =>
    rw [assemble, ih]
    exact regranted_cons (.ok _) rfl
  | «variable» ht _ ih =>
    rw [assemble, ht]
    dsimp only
    rw [ih]
    exact regranted_cons (.ok _) rfl
  | call ht hn _ ih =>
    rw [assemble, ht]
    dsimp only
    rw [ih]
    exact regranted_cons _ (callNode_regrant hn)
  | block ho hc hinner hn _ ih =>
    rw [assemble_opening ho, hc]
    dsimp only
    cases room with
    | zero =>
      -- a block asks for room before anything in it or behind it is looked at
      have hlt : other.maxDepth < level + 1 := by omega
      obtain ⟨more, hm⟩ := demands_of_blockNode hn level
      rw [regranted, demandsOfAll, hm, List.cons_append, firstRefusal?_level_of_lt other hlt]
      rfl
    | succ room =>
      have hroom : level + 1 + room = other.maxDepth := by omega
      show (blockNode other.delimiters (fragment other room) _ _ _ _ >>= _) = _
      rw [hd, ih]
      exact regranted_cons _ (blockNode_regrant (hi _ hinner) hroom hn)

theorem regrants_fragment (hd : other.delimiters = settings.delimiters) (room : Nat) :
    Regrants other (fragment settings room) := by
  refine fragment_induction (fun inner hi level room hl source line nodes h => ?_) room
  obtain ⟨segments, hs, ha⟩ := Except.bind_eq_ok_iff.mp h
  rw [fragment_eq, hd, hs]
  exact assemble_regrant hd hi hl ha

/-- A template that has been compiled, with other settings and the same delimiters. -/
theorem compile_regrant {source : String} {nodes : List Node} (h : compile settings source = .ok nodes)
    (other : Settings) (hd : other.delimiters = settings.delimiters) :
    compile other source = regranted other 0 nodes :=
  regrants_fragment hd _ 0 _ (Nat.zero_add _) _ _ _ h

/-- The settings have granted all that the tree asks for. -/
theorem granted_of_compile {source : String} {nodes : List Node} (h : compile settings source = .ok nodes) :
    settings.firstRefusal? (demandsOfAll 0 nodes) = none ∧ relinkedAll settings.helpers nodes = nodes :=
  Except.barring_eq_ok_iff.mp ((compile_regrant h settings rfl).symm.trans h)

/-! ## Room for blocks -/

mutual

/-- How deep the blocks are nested. -/
def Node.depth : Node → Nat
  | .text _ => 0
  | .variable .. => 0
  | .call .. => 0
  | .conditional arms => depthOfArms arms + 1
  | .loop _ body => depthOfAll body + 1
termination_by structural node => node

def depthOfAll : List Node → Nat
  | [] => 0
  | node :: rest => max node.depth (depthOfAll rest)
termination_by structural nodes => nodes

def depthOfArms : List (Option Condition × List Node) → Nat
  | [] => 0
  | (_, body) :: rest => max (depthOfAll body) (depthOfArms rest)
termination_by structural arms => arms

end

/-- None of the demands is for room at a deeper level. -/
def Within (limit : Nat) (demands : List Demand) : Prop :=
  ∀ level, .level level ∈ demands → level ≤ limit

theorem within_append_iff {limit : Nat} {demands more : List Demand} :
    Within limit (demands ++ more) ↔ Within limit demands ∧ Within limit more := by
  simp only [Within, List.mem_append, or_imp, forall_and]

theorem within_level_iff {limit level : Nat} {demands : List Demand} :
    Within limit (.level level :: demands) ↔ level ≤ limit ∧ Within limit demands := by
  simp only [Within, List.mem_cons, Demand.level.injEq, or_imp, forall_and, forall_eq]

theorem within_nil (limit : Nat) : Within limit [] :=
  fun _ h => nomatch h

mutual

theorem Node.within_demands_iff {limit level : Nat} (h : level ≤ limit) :
    ∀ node : Node, Within limit (node.demands level) ↔ level + node.depth ≤ limit
  | .text _ => iff_of_true (within_nil limit) h
  | .variable .. => iff_of_true (within_nil limit) h
  | .call .. => iff_of_true (fun _ hm => by simp [Node.demands] at hm) h
  | .conditional arms => by
    rw [Node.demands, Node.depth, within_level_iff]
    by_cases hl : level + 1 ≤ limit
    · rw [within_demandsOfArms_iff hl arms]
      omega
    · omega
  | .loop _ body => by
    rw [Node.demands, Node.depth, within_level_iff]
    by_cases hl : level + 1 ≤ limit
    · rw [within_demandsOfAll_iff hl body]
      omega
    · omega
termination_by structural node => node

theorem within_demandsOfAll_iff {limit level : Nat} (h : level ≤ limit) :
    ∀ nodes, Within limit (demandsOfAll level nodes) ↔ level + depthOfAll nodes ≤ limit
  | [] => iff_of_true (within_nil limit) h
  | node :: rest => by
    rw [demandsOfAll, depthOfAll, within_append_iff, node.within_demands_iff h,
      within_demandsOfAll_iff h rest]
    omega
termination_by structural nodes => nodes

theorem within_demandsOfArms_iff {limit level : Nat} (h : level ≤ limit) :
    ∀ arms, Within limit (demandsOfArms level arms) ↔ level + depthOfArms arms ≤ limit
  | [] => iff_of_true (within_nil limit) h
  | (_, body) :: rest => by
    rw [demandsOfArms, depthOfArms, within_append_iff, within_demandsOfAll_iff h body,
      within_demandsOfArms_iff h rest]
    omega
termination_by structural arms => arms

end

section
variable (settings : Settings) (limit : Nat)

theorem refusal?_level_eq_none_iff (level : Nat) :
    { settings with maxDepth := limit }.refusal? (.level level) = none ↔ level ≤ limit := by
  simp [Settings.refusal?]

variable {settings limit}

theorem within_of_firstRefusal? {demands : List Demand}
    (h : { settings with maxDepth := limit }.firstRefusal? demands = none) : Within limit demands :=
  fun level hm => (refusal?_level_eq_none_iff settings limit level).mp (List.findSome?_eq_none_iff.mp h _ hm)

/-- Where all helpers are there, a smaller limit is the only thing that can be in the way. -/
theorem refusal?_of_limit {demand : Demand} (h : settings.refusal? demand = none) {e : Error}
    (he : { settings with maxDepth := limit }.refusal? demand = some e) :
    e = .nestingTooDeep limit ∧ ∃ level, demand = .level level ∧ limit < level := by
  cases demand with
  | helper name => cases h.symm.trans he
  | level level =>
    rw [Settings.refusal?] at he
    split at he
    · cases he
    · rename_i hlt
      cases he
      exact ⟨rfl, level, rfl, Nat.lt_of_not_le hlt⟩

theorem firstRefusal?_of_limit (limit : Nat) {demands : List Demand}
    (h : settings.firstRefusal? demands = none) :
    (Within limit demands → { settings with maxDepth := limit }.firstRefusal? demands = none) ∧
      (¬ Within limit demands →
        { settings with maxDepth := limit }.firstRefusal? demands = some (.nestingTooDeep limit)) := by
  have hall := List.findSome?_eq_none_iff.mp h
  cases hrefused : { settings with maxDepth := limit }.firstRefusal? demands with
  | none => exact ⟨fun _ => rfl, fun hn => absurd (within_of_firstRefusal? hrefused) hn⟩
  | some e =>
    obtain ⟨demand, hm, he⟩ := List.exists_of_findSome?_eq_some hrefused
    obtain ⟨rfl, level, rfl, hlt⟩ := refusal?_of_limit (hall demand hm) he
    exact ⟨fun hw => absurd (hw level hm) (Nat.not_le_of_lt hlt), fun _ => rfl⟩

end

/-- The limit on the nesting decides whether the template is compiled, not to what. -/
theorem compile_with_limit {source : String} {nodes : List Node} (h : compile settings source = .ok nodes)
    (limit : Nat) : compile { settings with maxDepth := limit } source =
      if depthOfAll nodes ≤ limit then .ok nodes else .error (.nestingTooDeep limit) := by
  obtain ⟨hnone, hlinked⟩ := granted_of_compile h
  obtain ⟨hwithin, hdeep⟩ := firstRefusal?_of_limit limit hnone
  rw [within_demandsOfAll_iff (Nat.zero_le limit), Nat.zero_add] at hwithin hdeep
  rw [compile_regrant h { settings with maxDepth := limit } rfl, regranted, hlinked]
  split
  · rename_i hle
    rw [hwithin hle, Except.barring_none]
  · rename_i hlt
    rw [hdeep hlt, Except.barring_some]

theorem compile_with_limit_nested :
    ∃ source nodes, compile {} source = .ok nodes ∧ depthOfAll nodes = 2 ∧
      compile { maxDepth := 2 } source = .ok nodes ∧
      compile { maxDepth := 1 } source = .error (.nestingTooDeep 1) := by
  have h : compile {} "{{if a}}x{{else}}{{for b}}y{{/for}}{{/if}}" =
      .ok [.conditional [(some ⟨"a", [{ left := [.operand (.reference (.path "a"))] }], []⟩, [.text "x"]),
        (none, [.loop (.path "b") [.text "y"]])]] := by
    with_unfolding_all rfl
  refine ⟨_, _, h, rfl, ?_, ?_⟩
  · exact (compile_with_limit h 2).trans (if_pos (by decide))
  · exact (compile_with_limit h 1).trans (if_neg (by decide))

end Stencil
