import Mathlib.Data.Option.Basic
import Stencil.Proofs.Fragments

/-! # Compiling in one pass

The template is scanned once and each directive is read once; the blocks that are open wait on a stack.
The compiler, which cuts out the text of a block and scans it again, gives the same trees. -/
namespace Stencil.OnePass
open Compilation Grammar Segment

/-- An open block: a condition with the arms that are finished and the condition of the arm that is
being written, or a loop. -/
inductive Opened where
  | conditional (arms : List Arm) (condition : Option Condition)
  | loop (source : Accessor)

/-- An open block and the nodes before it. -/
structure Level where
  before : List Node
  opened : Opened

/-- The open blocks, innermost first, and the nodes since the last tag that opened a block or started a
branch. -/
structure State where
  stack : List Level := []
  nodes : List Node := []

def State.push (state : State) (node : Node) : State :=
  { state with nodes := state.nodes ++ [node] }

/-- The arms with one more, after which a branch starts. -/
def addArm (arms : List Arm) (condition : Option Condition) (nodes : List Node) : List Arm :=
  if arms.isEmpty then [(condition, withoutFirstNewline nodes)]
  else arms ++ [(condition, withoutLastNewline nodes)]

/-- The arms with the last one. Without a branch the body stays as it is. -/
def lastArm (arms : List Arm) (condition : Option Condition) (nodes : List Node) : List Arm :=
  if arms.isEmpty then [(condition, nodes)] else arms ++ [(condition, withoutLastNewline nodes)]

def open? (block : Block) (argument : String) : Option Opened :=
  match block with
  | .conditional => (Condition.parse argument).toOption.map fun c => .conditional [] (some c)
  | .loop => (loopSource argument).toOption.map .loop

def State.enter? (maxDepth : Nat) (state : State) (block : Block) (argument : String) : Option State :=
  if state.stack.length < maxDepth then
    (open? block argument).map fun opened => ⟨⟨state.nodes, opened⟩ :: state.stack, []⟩
  else none

/-- A branch can start in a condition that has not had its last branch. -/
def State.branch? (state : State) (source : Option String) : Option State :=
  match state.stack with
  | ⟨before, .conditional arms (some c)⟩ :: outer =>
    (condition? source).map fun next =>
      ⟨⟨before, .conditional (addArm arms (some c) state.nodes) next⟩ :: outer, []⟩
  | _ => none

def close? (opened : Opened) (block : Block) (nodes : List Node) : Option Node :=
  match opened, block with
  | .conditional arms condition, .conditional => some (.conditional (lastArm arms condition nodes))
  | .loop source, .loop => some (.loop source nodes)
  | _, _ => none

def State.leave? (state : State) (block : Block) : Option State :=
  match state.stack with
  | ⟨before, opened⟩ :: outer =>
    (close? opened block state.nodes).map fun node => ⟨outer, before ++ [node]⟩
  | [] => none

def follow? (settings : Settings) (state : State) (line : Nat) : Directive → Option State
  | .variable source escape => some (state.push (.variable source escape))
  | .call name arguments => (callNode settings.helpers name arguments line).toOption.map state.push
  | .opening block argument => state.enter? settings.maxDepth block argument
  | .elseIf source => state.branch? (some source)
  | .otherwise => state.branch? none
  | .closing keyword => (Block.ofClosing? keyword).bind state.leave?

def step? (settings : Settings) (state : State) : Segment → Option State
  | .text chars => some (state.push (.text (String.ofList chars)))
  | .tag t => (Directive.classify t.body).toOption.bind (follow? settings state t.line)

/-- The nodes of all the segments, if no block is left open. -/
def run? (settings : Settings) (state : State) (segments : List Segment) : Option (List Node) :=
  (segments.foldlM (step? settings) state).bind fun last =>
    if last.stack.isEmpty then some last.nodes else none

def compile? (settings : Settings) (source : String) : Option (List Node) :=
  (scan settings.delimiters 1 0 source.toList).toOption.bind (run? settings {})

variable {settings : Settings} {stack : List Level} {nodes result : List Node}

theorem run?_cons {state next : State} {s : Segment} {rest : List Segment}
    (h : step? settings state s = some next) :
    run? settings state (s :: rest) = run? settings next rest := by
  unfold run?
  rw [List.foldlM_cons, h]
  rfl

theorem run?_cons_eq_some_iff {state : State} {s : Segment} {rest : List Segment} :
    run? settings state (s :: rest) = some result ↔
      ∃ next, step? settings state s = some next ∧ run? settings next rest = some result := by
  cases h : step? settings state s with
  | none => simp [run?, h]
  | some next => simp [run?_cons h]

theorem step?_tag {state : State} {t : Tag} {directive : Directive}
    (h : t.directive = .ok directive) :
    step? settings state (.tag t) = follow? settings state t.line directive := by
  unfold step?
  dsimp only
  rw [directive_eq_ok_iff.mp h]
  rfl

theorem follow?_of_branch {state : State} {line : Nat} {directive : Directive}
    {source : Option String} (h : directive.branch? = some source) :
    follow? settings state line directive = state.branch? source := by
  cases directive <;> cases h <;> rfl

theorem follow?_of_closing {state : State} {line : Nat} {block : Block} {keyword : String}
    (h : Block.ofClosing? keyword = some block) :
    follow? settings state line (.closing keyword) = state.leave? block := by
  show (Block.ofClosing? keyword).bind state.leave? = state.leave? block
  rw [h]
  rfl

theorem leave?_cons {before : List Node} {opened : Opened} {block : Block} :
    State.leave? ⟨⟨before, opened⟩ :: stack, nodes⟩ block =
      (close? opened block nodes).map fun node => ⟨stack, before ++ [node]⟩ :=
  rfl

theorem branch?_cons {before : List Node} {arms : List Arm} {c : Condition}
    {source : Option String} {condition : Option Condition} (h : condition? source = some condition) :
    State.branch? ⟨⟨before, .conditional arms (some c)⟩ :: stack, nodes⟩ source =
      some ⟨⟨before, .conditional (addArm arms (some c) nodes) condition⟩ :: stack, []⟩ := by
  show (condition? source).map _ = _
  rw [h]
  rfl

theorem step?_of_leaf {state : State} {s : Segment} {node : Node}
    (h : Leaf settings.helpers (item s) node) : step? settings state s = some (state.push node) := by
  cases s with
  | text chars =>
    rw [Leaf.text_iff.mp h]
    rfl
  | tag t =>
    generalize hi : item (.tag t) = i at h
    cases h with
    | text => cases hi
    | «variable» => rw [step?_tag (directive_eq_ok_iff.mpr (Item.tag.inj hi)), follow?]
    | call hc =>
      rw [step?_tag (directive_eq_ok_iff.mpr (Item.tag.inj hi)), follow?, callNode_call hc]
      rfl

/-! ## A run over what has a derivation -/

/-- How an open block ends, given the nodes of the arm that is being written and the arms that are still
to come. -/
inductive Ends : Opened → Block → List Node → List Arm → Node → Prop
  | conditional {arms condition nodes later} : (condition = none → later = []) →
      Ends (.conditional arms condition) .conditional nodes later
        (.conditional (if arms.isEmpty then armsOf condition nodes later
          else arms ++ (condition, withoutLastNewline nodes) :: later))
  | loop {source nodes} : Ends (.loop source) .loop nodes [] (.loop source nodes)

theorem ends_nil_iff {opened : Opened} {block : Block} {node : Node} :
    Ends opened block nodes [] node ↔ close? opened block nodes = some node := by
  constructor
  · intro h
    cases h with
    | conditional => simp [close?, lastArm, armsOf]
    | loop => rfl
  · intro h
    unfold close? at h
    split at h
    · cases h
      exact .conditional fun _ => rfl
    · cases h
      exact .loop
    · cases h

theorem ends_cons_iff {opened : Opened} {block : Block} {condition : Option Condition}
    {inner : List Node} {later : List Arm} {node : Node} :
    Ends opened block nodes ((condition, withoutLastNewline inner) :: later) node ∧
        (condition = none → later = []) ↔
      ∃ arms c, opened = .conditional arms (some c) ∧
        Ends (.conditional (addArm arms (some c) nodes) condition) block inner later node := by
  constructor
  · intro h
    obtain ⟨h, he⟩ := h
    generalize hl : (condition, withoutLastNewline inner) :: later = all at h
    cases h with
    | @conditional arms current nodes _ hc =>
      subst hl
      cases current with
      | none => cases hc rfl
      | some c =>
        refine ⟨arms, c, rfl, ?_⟩
        have hends := @Ends.conditional (addArm arms (some c) nodes) condition inner later he
        cases arms with
        | nil => exact hends
        | cons a arms => simpa [addArm] using hends
    | loop => cases hl
  · intro h
    obtain ⟨arms, c, rfl, h⟩ := h
    cases h with
    | conditional he =>
      refine ⟨?_, he⟩
      have hends := @Ends.conditional arms (some c) nodes
        ((condition, withoutLastNewline inner) :: later) nofun
      cases arms with
      | nil => exact hends
      | cons a arms => simpa [addArm] using hends

theorem open?_ends {block : Block} {argument : String} {later : List Arm} {node : Node}
    (h : Closes block argument nodes later node) :
    ∃ opened, open? block argument = some opened ∧ Ends opened block nodes later node := by
  cases h with
  | @conditional argument condition nodes later hp =>
    refine ⟨.conditional [] (some condition), ?_, ?_⟩
    · rw [open?, hp]
      rfl
    · exact .conditional nofun
  | loop hs =>
    refine ⟨_, ?_, .loop⟩
    rw [open?, hs]
    rfl

theorem enter?_eq {maxDepth room : Nat} {state : State} {block : Block} {argument : String}
    {opened : Opened} (hr : room + 1 = maxDepth - state.stack.length)
    (h : open? block argument = some opened) :
    state.enter? maxDepth block argument = some ⟨⟨state.nodes, opened⟩ :: state.stack, []⟩ := by
  have hlt : state.stack.length < maxDepth := by omega
  rw [State.enter?, if_pos hlt, h]
  rfl

/-- The body of an open block is left behind with its closing tag. -/
theorem run?_body {room : Nat} {items : List Item} {more : List Node} {later : List Arm}
    {body rest : List Segment} {before : List Node} {opened : Opened} {closed : Tag} {block : Block}
    {keyword : String} {node : Node} (h : Derives settings room items more later)
    (hi : body.map item = items) (hr : room = settings.maxDepth - (stack.length + 1))
    (hclosed : closed.directive = .ok (.closing keyword)) (hk : Block.ofClosing? keyword = some block)
    (hends : Ends opened block (nodes ++ more) later node) :
    run? settings ⟨⟨before, opened⟩ :: stack, nodes⟩ (body ++ .tag closed :: rest) =
      run? settings ⟨stack, before ++ [node]⟩ rest := by
  induction h generalizing body rest nodes before opened stack closed block keyword node with
  | nil =>
    rw [List.map_eq_nil_iff.mp hi, List.nil_append]
    refine run?_cons ?_
    rw [List.append_nil] at hends
    rw [step?_tag hclosed, follow?_of_closing hk, leave?_cons, ends_nil_iff.mp hends]
    rfl
  | leaf hl _ ih =>
    obtain ⟨s, segments, rfl, rfl, hm⟩ := List.map_eq_cons_iff.mp hi
    rw [List.cons_append, run?_cons (step?_of_leaf hl)]
    exact ih hm hr hclosed hk (by simpa using hends)
  | block _ hc hkind _ ihb ih =>
    obtain ⟨t, inner, u, segments, rfl, ht, hinner, hu, hm⟩ := map_item_eq_block hi
    obtain ⟨opened', ho, hends'⟩ := open?_ends hc
    rw [List.cons_append, List.append_assoc, List.cons_append,
      run?_cons ((step?_tag ht).trans (enter?_eq hr ho)),
      ihb hinner (by simp; omega) hu hkind (by simpa using hends')]
    exact ih hm hr hclosed hk (by simpa using hends)
  | @marker _ directive source condition _ _ _ hb hcond helse _ ih =>
    obtain ⟨t, segments, rfl, ht, hm⟩ := map_item_eq_tag_cons hi
    have hlast : condition = none → _ = [] := fun hn => helse ((condition?_eq_none_iff hcond).mpr hn)
    rw [List.append_nil] at hends
    obtain ⟨arms, c, rfl, hends'⟩ := ends_cons_iff.mp ⟨hends, hlast⟩
    rw [List.cons_append,
      run?_cons ((step?_tag ht).trans ((follow?_of_branch hb).trans (branch?_cons hcond)))]
    exact ih hm hr hclosed hk (by simpa using hends')

theorem run?_of_derives {room : Nat} {items : List Item} {more : List Node} {later : List Arm}
    {segments : List Segment} (h : Derives settings room items more later) (hl : later = [])
    (hi : segments.map item = items) (hr : room = settings.maxDepth) :
    run? settings ⟨[], nodes⟩ segments = some (nodes ++ more) := by
  induction h generalizing segments nodes with
  | nil =>
    rw [List.map_eq_nil_iff.mp hi, List.append_nil]
    rfl
  | leaf hleaf _ ih =>
    obtain ⟨s, segments, rfl, rfl, hm⟩ := List.map_eq_cons_iff.mp hi
    rw [run?_cons (step?_of_leaf hleaf), State.push, ih hl hm hr]
    simp
  | @block _ block argument _ _ _ _ _ _ _ _ hbody hc hkind _ _ ih =>
    obtain ⟨t, inner, u, segments, rfl, ht, hinner, hu, hm⟩ := map_item_eq_block hi
    obtain ⟨opened, ho, hends⟩ := open?_ends hc
    have henter : State.enter? settings.maxDepth ⟨[], nodes⟩ block argument = some _ :=
      enter?_eq hr ho
    rw [run?_cons ((step?_tag ht).trans henter),
      run?_body hbody hinner (by simp; omega) hu hkind (by simpa using hends), ih hl hm hr]
    simp
  | marker => cases hl

/-! ## What a run has passed -/

/-- The items end the open blocks one after the other, and stand for nodes at the end. -/
inductive Finish (settings : Settings) : List Level → List Node → List Item → List Node → Prop
  | top {nodes items more} : Derives settings settings.maxDepth items more [] →
      Finish settings [] nodes items (nodes ++ more)
  | inside {before opened outer nodes body more later block keyword node rest result} :
      Derives settings (settings.maxDepth - (outer.length + 1)) body more later →
      Ends opened block (nodes ++ more) later node → Block.ofClosing? keyword = some block →
      Finish settings outer (before ++ [node]) rest result →
      Finish settings (⟨before, opened⟩ :: outer) nodes
        (body ++ .tag (.ok (.closing keyword)) :: rest) result

theorem Finish.leaf {i : Item} {node : Node} {items : List Item} (hl : Leaf settings.helpers i node)
    (h : Finish settings stack (nodes ++ [node]) items result) :
    Finish settings stack nodes (i :: items) result := by
  cases h with
  | @top _ _ more h =>
    rw [List.append_assoc]
    exact .top (.leaf hl h)
  | inside h hends hk hrest =>
    exact .inside (.leaf hl h) (by simpa using hends) hk hrest

theorem closes_of_ends {block kind : Block} {argument : String} {opened : Opened} {later : List Arm}
    {node : Node} (ho : open? block argument = some opened) (h : Ends opened kind nodes later node) :
    kind = block ∧ Closes block argument nodes later node := by
  cases block with
  | conditional =>
    obtain ⟨condition, hp, rfl⟩ := Option.map_eq_some_iff.mp ho
    cases h with
    | conditional => exact ⟨rfl, .conditional (Except.toOption_eq_some_iff.mp hp)⟩
  | loop =>
    obtain ⟨source, hs, rfl⟩ := Option.map_eq_some_iff.mp ho
    cases h with
    | loop => exact ⟨rfl, .loop (Except.toOption_eq_some_iff.mp hs)⟩

theorem derives_block {depth : Nat} {block : Block} {argument keyword : String}
    {body rest : List Item} {inner more : List Node} {arms later : List Arm} {node : Node}
    (hlt : depth < settings.maxDepth)
    (hb : Derives settings (settings.maxDepth - (depth + 1)) body inner arms)
    (hc : Closes block argument inner arms node) (hk : Block.ofClosing? keyword = some block)
    (hr : Derives settings (settings.maxDepth - depth) rest more later) :
    Derives settings (settings.maxDepth - depth)
      (.tag (.ok (.opening block argument)) :: (body ++ .tag (.ok (.closing keyword)) :: rest))
      (node :: more) later := by
  have hroom : settings.maxDepth - depth = settings.maxDepth - (depth + 1) + 1 := by omega
  rw [hroom] at hr ⊢
  exact .block hb hc hk hr

theorem Finish.opening {block : Block} {argument : String} {opened : Opened} {items : List Item}
    (hlt : stack.length < settings.maxDepth) (ho : open? block argument = some opened)
    (h : Finish settings (⟨nodes, opened⟩ :: stack) [] items result) :
    Finish settings stack nodes (.tag (.ok (.opening block argument)) :: items) result := by
  cases h with
  | inside hbody hends hk hrest =>
    obtain ⟨rfl, hc⟩ := closes_of_ends ho hends
    cases hrest with
    | top hrest =>
      rw [List.append_assoc]
      exact .top (derives_block hlt hbody hc hk hrest)
    | inside hrest hends hkind houter =>
      have hnext := derives_block hlt hbody hc hk hrest
      have hall := Finish.inside hnext (by simpa using hends) hkind houter
      simpa using hall

theorem Finish.branch {before : List Node} {arms : List Arm} {c : Condition} {directive : Directive}
    {source : Option String} {condition : Option Condition} {items : List Item}
    (hb : directive.branch? = some source) (hc : condition? source = some condition)
    (h : Finish settings (⟨before, .conditional (addArm arms (some c) nodes) condition⟩ :: stack) []
      items result) :
    Finish settings (⟨before, .conditional arms (some c)⟩ :: stack) nodes
      (.tag (.ok directive) :: items) result := by
  cases h with
  | inside hbody hends hk hrest =>
    obtain ⟨hends, hlast⟩ := ends_cons_iff.mpr ⟨arms, c, rfl, hends⟩
    have hmarked := Derives.marker hb hc
      (fun hn => hlast ((condition?_eq_none_iff hc).mp hn)) hbody
    exact .inside hmarked (by simpa using hends) hk hrest

theorem Finish.closing {before : List Node} {opened : Opened} {block : Block} {keyword : String}
    {node : Node} {items : List Item} (hk : Block.ofClosing? keyword = some block)
    (hc : close? opened block nodes = some node)
    (h : Finish settings stack (before ++ [node]) items result) :
    Finish settings (⟨before, opened⟩ :: stack) nodes (.tag (.ok (.closing keyword)) :: items)
      result := by
  have hends : Ends opened block (nodes ++ []) [] node := by
    rw [List.append_nil]
    exact ends_nil_iff.mpr hc
  exact .inside .nil hends hk h

theorem finish_of_follow? {state next : State} {line : Nat} {directive : Directive}
    {items : List Item} (hs : follow? settings state line directive = some next)
    (h : Finish settings next.stack next.nodes items result) :
    Finish settings state.stack state.nodes (.tag (.ok directive) :: items) result := by
  have branch : ∀ source, directive.branch? = some source → state.branch? source = some next →
      Finish settings state.stack state.nodes (.tag (.ok directive) :: items) result := by
    intro source hb hs
    obtain ⟨stack, nodes⟩ := state
    unfold State.branch? at hs
    split at hs
    · rename_i hstack
      obtain ⟨condition, hc, rfl⟩ := Option.map_eq_some_iff.mp hs
      obtain rfl := hstack
      exact h.branch hb hc
    · cases hs
  cases directive with
  | «variable» source escape =>
    cases hs
    exact .leaf .variable h
  | call name arguments =>
    obtain ⟨node, hn, rfl⟩ := Option.map_eq_some_iff.mp hs
    exact .leaf (.call (Except.toOption_eq_some_iff.mp hn)) h
  | opening block argument =>
    unfold follow? State.enter? at hs
    dsimp only at hs
    split at hs
    · rename_i hlt
      obtain ⟨opened, ho, rfl⟩ := Option.map_eq_some_iff.mp hs
      exact h.opening hlt ho
    · cases hs
  | elseIf source => exact branch _ rfl hs
  | otherwise => exact branch _ rfl hs
  | closing keyword =>
    obtain ⟨block, hk, hl⟩ := Option.bind_eq_some_iff.mp hs
    obtain ⟨stack, nodes⟩ := state
    cases stack with
    | nil => cases hl
    | cons level outer =>
      obtain ⟨node, hc, rfl⟩ := Option.map_eq_some_iff.mp hl
      exact h.closing hk hc

theorem finish_of_step? {state next : State} {s : Segment} {items : List Item}
    (hs : step? settings state s = some next)
    (h : Finish settings next.stack next.nodes items result) :
    Finish settings state.stack state.nodes (item s :: items) result := by
  cases s with
  | text chars =>
    cases hs
    exact .leaf .text h
  | tag t =>
    obtain ⟨directive, hd, hf⟩ := Option.bind_eq_some_iff.mp hs
    have hitem : item (.tag t) = .tag (.ok directive) :=
      congrArg Item.tag (Except.toOption_eq_some_iff.mp hd)
    rw [hitem]
    exact finish_of_follow? hf h

theorem finish_of_run? {state : State} {segments : List Segment}
    (h : run? settings state segments = some result) :
    Finish settings state.stack state.nodes (segments.map item) result := by
  induction segments generalizing state with
  | nil =>
    obtain ⟨stack, nodes⟩ := state
    cases stack with
    | nil =>
      obtain rfl : nodes = result := Option.some.inj h
      have htop := @Finish.top settings nodes [] [] .nil
      rwa [List.append_nil] at htop
    | cons level outer => cases h
  | cons s segments ih =>
    obtain ⟨next, hs, hrun⟩ := run?_cons_eq_some_iff.mp h
    exact finish_of_step? hs (ih hrun)

theorem run?_eq_some_iff {segments : List Segment} :
    run? settings {} segments = some nodes ↔
      Derives settings settings.maxDepth (segments.map item) nodes [] := by
  constructor
  · intro h
    have hfinish : Finish settings [] [] (segments.map item) nodes := finish_of_run? h
    cases hfinish with
    | top hderives => exact hderives
  · exact fun h => run?_of_derives h rfl rfl rfl

/-! ## Blocks within each other -/

/-- Blocks are nested, each closed by a tag of its own kind. `branches` tells whether a tag may start a
branch: it may inside of a condition, up to a tag without a condition. -/
inductive Nested : Bool → List Segment → Prop
  | nil {branches} : Nested branches []
  | text {branches chars rest} : Nested branches rest → Nested branches (.text chars :: rest)
  | passive {branches t directive rest} : t.directive = .ok directive → Passive directive →
      Nested branches rest → Nested branches (.tag t :: rest)
  | block {branches opened closed block argument keyword body rest} :
      opened.directive = .ok (.opening block argument) → Nested (block = .conditional) body →
      closed.directive = .ok (.closing keyword) → Block.ofClosing? keyword = some block →
      Nested branches rest → Nested branches (.tag opened :: (body ++ .tag closed :: rest))
  | branch {t directive source rest} : t.directive = .ok directive →
      directive.branch? = some source → Nested source.isSome rest → Nested true (.tag t :: rest)

theorem nested_of_derives {room : Nat} {items : List Item} {later : List Arm} {branches : Bool}
    {segments : List Segment} (h : Derives settings room items nodes later)
    (hi : segments.map item = items) (hb : later = [] ∨ branches = true) :
    Nested branches segments := by
  induction h generalizing segments branches with
  | nil =>
    rw [List.map_eq_nil_iff.mp hi]
    exact .nil
  | leaf hl _ ih =>
    obtain ⟨s, segments, rfl, rfl, hm⟩ := List.map_eq_cons_iff.mp hi
    rcases hl.passive with ⟨chars, rfl⟩ | ⟨t, directive, rfl, ht, hp⟩
    · exact .text (ih hm hb)
    · exact .passive ht hp (ih hm hb)
  | @block _ block _ _ _ _ _ _ _ _ _ _ hc hk _ ihb ih =>
    obtain ⟨t, inner, u, segments, rfl, ht, hinner, hu, hm⟩ := map_item_eq_block hi
    refine .block ht (ihb hinner ?_) hu hk (ih hm hb)
    cases hc with
    | conditional => exact .inr (decide_eq_true rfl)
    | loop => exact .inl rfl
  | @marker _ _ source _ _ _ _ hd _ hlast _ ih =>
    obtain ⟨t, segments, rfl, ht, hm⟩ := map_item_eq_tag_cons hi
    obtain rfl : branches = true := hb.resolve_left (List.cons_ne_nil _ _)
    refine .branch ht hd (ih hm ?_)
    cases source with
    | none => exact .inl (hlast rfl)
    | some text => exact .inr rfl

theorem compile_eq_ok_iff_compile? (hd : OneLine settings.delimiters) {source : String} :
    compile settings source = .ok nodes ↔ compile? settings source = some nodes := by
  rw [compile_eq_ok_iff hd, compile?, Option.bind_eq_some_iff]
  simp only [Except.toOption_eq_some_iff, run?_eq_some_iff]

/-- Compiling block by block, each time from the text between the tags, accepts the templates that are
accepted in one pass, and gives the same trees. The blocks of an accepted template are nested. -/
theorem compile_eq_onePass (settings : Settings) (hd : OneLine settings.delimiters) (source : String) :
    (∀ nodes, compile settings source = .ok nodes ↔ compile? settings source = some nodes) ∧
      ∀ nodes, compile settings source = .ok nodes → ∃ segments,
        scan settings.delimiters 1 0 source.toList = .ok segments ∧ Nested false segments := by
  refine ⟨fun nodes => compile_eq_ok_iff_compile? hd, fun nodes h => ?_⟩
  obtain ⟨segments, hs, hn⟩ := (compile_eq_ok_iff hd).mp h
  exact ⟨segments, hs, nested_of_derives hn rfl (.inl rfl)⟩

theorem compile_eq_onePass_else :
    OneLine ({} : Settings).delimiters ∧
      compile {} "{{if a}}\nx{{else}}y\n{{/if}}" =
        .ok [.conditional
          [(some ⟨"a", [{ left := [.operand (.reference (.path "a"))] }], []⟩, [.text "x"]),
            (none, [.text "y"])]] := by
  have hd : OneLine ({} : Settings).delimiters := ⟨by decide, by decide⟩
  exact ⟨hd, ((compile_eq_onePass {} hd _).1 _).mpr (by with_unfolding_all rfl)⟩

end Stencil.OnePass
