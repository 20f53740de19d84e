import Mathlib.Data.List.Forall2
import Stencil.Proofs.Newlines

/-! # Compiled text

Compiling a text gives the tree that its segments stand for. A block is compiled from the text between
its tags, and an arm from a part of that text, but the segments found there are those that the scan of
the whole text has found. -/
namespace Stencil.Grammar
open Compilation Segment Text.Find

/-- The same segments are found wherever the text stands. -/
theorem Cut.moved {d : Delimiters} {line offset : Nat} {source : List Char} {segments : List Segment}
    (h : Cut d line offset source segments) (line' offset' : Nat) :
    ∃ there, Cut d line' offset' source there ∧ there.map item = segments.map item := by
  induction h generalizing line' offset' with
  | plain hl hr => exact ⟨_, .plain hl hr, rfl⟩
  | @tag _ _ _ plain body _ _ ho _ ih =>
    obtain ⟨there, hc, hm⟩ := ih (tagAfter d line' offset' plain body).endLine
      (tagAfter d line' offset' plain body).stop
    refine ⟨_, .tag ho hc, ?_⟩
    rw [List.map_append, List.map_cons, hm, List.map_append, List.map_cons]
    rfl

/-- No delimiter has a newline. -/
structure OneLine (d : Delimiters) : Prop where
  left : '\n' ∉ d.left
  right : '\n' ∉ d.right

theorem OneLine.not_newlineOpens {d : Delimiters} (hd : OneLine d) (segments : List Segment) :
    ¬ NewlineOpens d segments :=
  fun h => hd.left (List.mem_of_mem_head? h.1)

theorem OneLine.not_newlineCloses {d : Delimiters} (hd : OneLine d) (segments : List Segment) :
    ¬ NewlineCloses d segments :=
  fun h => hd.right (List.mem_of_getLast? h.1)

/-- The compiler of texts gives what their segments stand for. -/
def Compiles (settings : Settings) (room : Nat) (f : Fragment) : Prop :=
  ∀ source line nodes, f source line = .ok nodes ↔
    ∃ segments, scan settings.delimiters line 0 source = .ok segments ∧
      Derives settings room (segments.map item) nodes []

variable {settings : Settings} {room line offset : Nat} {f : Fragment} {source : List Char}
  {segments : List Segment} {nodes : List Node} {later : List Arm}

theorem Compiles.of_cut (hf : Compiles settings room f)
    (hc : Cut settings.delimiters line offset source segments) (at' : Nat) :
    f source at' = .ok nodes ↔ Derives settings room (segments.map item) nodes [] := by
  obtain ⟨there, ht, hm⟩ := Cut.moved hc at' 0
  rw [hf source at' nodes, ← hm]
  constructor
  · intro h
    obtain ⟨found, hs, h⟩ := h
    obtain rfl : there = found := Except.ok.inj ((scan_of_cut ht).symm.trans hs)
    exact h
  · exact fun h => ⟨there, scan_of_cut ht, h⟩

/-! ## Arms -/

theorem parsed_eq_ok_iff {branch : Branch} {condition : Option Condition} :
    branch.parsed = .ok condition ↔ condition? branch.condition = some condition := by
  unfold Branch.parsed condition?
  cases branch.condition with
  | none => simp
  | some text =>
    simp only [Except.map_eq_ok_iff, Option.map_eq_some_iff, Except.toOption_eq_some_iff]

theorem arm_eq_ok_iff {branch : Branch} {a : Arm} :
    arm f branch = .ok a ↔
      condition? branch.condition = some a.1 ∧ f branch.body branch.line = .ok a.2 := by
  unfold arm
  rw [Except.bind_eq_ok_iff, ← parsed_eq_ok_iff]
  constructor
  · intro h
    obtain ⟨condition, hc, h⟩ := h
    obtain ⟨nodes, hn, ha⟩ := Except.bind_eq_ok_iff.mp h
    cases ha
    exact ⟨Except.mapError_eq_ok_iff.mp hc, hn⟩
  · intro h
    obtain ⟨hc, hn⟩ := h
    exact ⟨a.1, Except.mapError_eq_ok_iff.mpr hc, Except.bind_eq_ok_iff.mpr ⟨a.2, hn, rfl⟩⟩

theorem later_arm_iff (hf : Compiles settings room f) (hd : OneLine settings.delimiters)
    {part : Part} {a : Arm} (hc : Cut settings.delimiters line offset source part.2) (at' : Nat) :
    arm f ⟨part.1.condition, Branch.withoutLastNewline source, at'⟩ = .ok a ↔
      StandsFor settings room part a := by
  rw [arm_eq_ok_iff]
  refine and_congr_right fun _ => ?_
  by_cases hs : source.getLast? = some '\n'
  · obtain ⟨s, rfl⟩ := List.getLast?_eq_some_iff.mp hs
    obtain ⟨init, chars, hp, hcut⟩ := hc.of_append_newline (hd.not_newlineCloses _)
    have hofText : [Segment.text (chars ++ ['\n'])] = ofText (chars ++ ['\n']) := by simp [ofText]
    rw [Branch.withoutLastNewline_concat, hf.of_cut hcut, hp, hofText, derives_append_ofText_iff]
    constructor
    · intro h
      obtain ⟨more, ha, hm⟩ := h
      refine ⟨_, derives_append_ofText_iff.mpr ⟨more, rfl, hm⟩, ?_⟩
      rw [withoutLastNewline_textNodes, ha]
    · intro h
      obtain ⟨_, hn, ha⟩ := h
      obtain ⟨more, rfl, hm⟩ := derives_append_ofText_iff.mp hn
      exact ⟨more, by rw [ha, withoutLastNewline_textNodes], hm⟩
  · rw [Branch.withoutLastNewline_of_getLast?_ne hs, hf.of_cut hc]
    constructor
    · exact fun h => ⟨_, h, (withoutLastNewline_eq_self hc h hs).symm⟩
    · intro h
      obtain ⟨_, h, ha⟩ := h
      rwa [ha, withoutLastNewline_eq_self hc h hs]

theorem first_arm_iff (hf : Compiles settings room f) (hd : OneLine settings.delimiters)
    {argument : String} {a : Arm} (hc : Cut settings.delimiters line offset source segments)
    (at' : Nat) :
    arm f (Branch.first argument source at') = .ok a ↔ condition? (some argument) = some a.1 ∧
      ∃ nodes, Derives settings room (segments.map item) nodes [] ∧
        a.2 = withoutFirstNewline nodes := by
  rw [arm_eq_ok_iff, Branch.first_condition]
  refine and_congr_right fun _ => ?_
  by_cases hs : source.head? = some '\n'
  · obtain ⟨s, rfl⟩ := List.head?_eq_some_iff.mp hs
    obtain ⟨chars, more, rfl, hcut⟩ := hc.of_cons_newline (hd.not_newlineOpens _)
    show f s (at' + 1) = .ok a.2 ↔ _
    rw [hf.of_cut hcut, derives_ofText_append_iff]
    constructor
    · intro h
      obtain ⟨rest, ha, hm⟩ := h
      refine ⟨_, derives_text_cons_iff.mpr ⟨rest, rfl, hm⟩, ?_⟩
      rw [withoutFirstNewline_textNodes, ha]
    · intro h
      obtain ⟨_, hn, ha⟩ := h
      obtain ⟨rest, rfl, hm⟩ := derives_text_cons_iff.mp hn
      exact ⟨rest, by rw [ha, withoutFirstNewline_textNodes], hm⟩
  · rw [Branch.first_of_head?_ne hs, hf.of_cut hc]
    constructor
    · exact fun h => ⟨_, h, (withoutFirstNewline_eq_self hc h hs).symm⟩
    · intro h
      obtain ⟨_, h, ha⟩ := h
      rwa [ha, withoutFirstNewline_eq_self hc h hs]

theorem append_joined_cons (before : List Segment) (part : Part) (parts : List Part) :
    before ++ joined (part :: parts) = (before ++ .tag part.1.tag :: part.2) ++ joined parts := by
  rw [joined_cons, List.append_assoc, List.cons_append]

/-- The text of a part reaches up to the next one. -/
theorem cut_of_joined {d : Delimiters} {before : List Segment} {part : Part} {parts : List Part}
    (hc : Cut d line 0 source (before ++ joined (part :: parts))) :
    Cut d part.1.tag.endLine part.1.tag.stop
      (slice source part.1.tag.stop
        (((parts.map (·.1)).head?.map (·.tag.start)).getD source.length)) part.2 := by
  cases parts with
  | nil => exact Cut.after (by simpa [joined_cons, joined] using hc)
  | cons next parts => exact Cut.between (by simpa [joined_cons] using hc)

/-- A branch after the first holds the text of its part, without a newline at its end. -/
def HoldsPart (d : Delimiters) (branch : Branch) (part : Part) : Prop :=
  ∃ text, branch = ⟨part.1.condition, Branch.withoutLastNewline text, part.1.tag.endLine⟩ ∧
    Cut d part.1.tag.endLine part.1.tag.stop text part.2

theorem later_holds {d : Delimiters} {before : List Segment} {parts : List Part}
    (hc : Cut d line 0 source (before ++ joined parts)) :
    List.Forall₂ (HoldsPart d) (Branch.later source (parts.map (·.1))) parts := by
  induction parts generalizing before with
  | nil => exact .nil
  | cons part parts ih =>
    have hpart := cut_of_joined hc
    rw [append_joined_cons] at hc
    rw [List.map_cons, Branch.later]
    exact .cons ⟨_, rfl, hpart⟩ (ih hc)

/-- The branches after the first, each compiled from its own text. -/
theorem later_arms_iff (hf : Compiles settings room f) (hd : OneLine settings.delimiters)
    {branches : List Branch} {parts : List Part}
    (hh : List.Forall₂ (HoldsPart settings.delimiters) branches parts) :
    branches.mapM (arm f) = .ok later ↔ List.Forall₂ (StandsFor settings room) parts later := by
  induction hh generalizing later with
  | nil =>
    rw [List.forall₂_nil_left_iff]
    simp [pure, Except.pure, eq_comm]
  | cons hpart _ ih =>
    obtain ⟨text, rfl, hcut⟩ := hpart
    rw [Except.mapM_cons_eq_ok_iff]
    constructor
    · intro h
      obtain ⟨a, more, ha, hm, rfl⟩ := h
      exact .cons ((later_arm_iff hf hd hcut _).mp ha) (ih.mp hm)
    · intro h
      rcases h with _ | ⟨ha, hm⟩
      exact ⟨_, _, (later_arm_iff hf hd hcut _).mpr ha, ih.mpr hm, rfl⟩

/-! ## Blocks -/

/-- What a block is made of if nothing is wrong. -/
inductive Built (d : Delimiters) (f : Fragment) (argument : String) (opened : Tag) (body : List Char) :
    Block → Node → Prop
  | conditional {branches arms} : Branch.split d argument body opened.endLine = .ok branches →
      branches.mapM (arm f) = .ok arms → Built d f argument opened body .conditional (.conditional arms)
  | loop {path nodes} : loopSource argument = .ok path → f body opened.endLine = .ok nodes →
      Built d f argument opened body .loop (.loop path nodes)

theorem built_iff {d : Delimiters} {block : Block} {argument : String} {opened : Tag} {body : List Char}
    {node : Node} :
    blockNode d f block argument opened body = .ok node ↔ Built d f argument opened body block node := by
  constructor
  · intro h
    cases block with
    | conditional =>
      obtain ⟨branches, hb, h⟩ := Except.bind_eq_ok_iff.mp h
      obtain ⟨arms, ha, h⟩ := Except.bind_eq_ok_iff.mp h
      cases h
      exact .conditional hb ha
    | loop =>
      obtain ⟨path, hp, h⟩ := Except.bind_eq_ok_iff.mp h
      obtain ⟨nodes, hn, h⟩ := Except.bind_eq_ok_iff.mp h
      cases h
      exact .loop (Except.mapError_eq_ok_iff.mp hp) hn
  · intro h
    cases h with
    | conditional hb ha =>
      exact Except.bind_eq_ok_iff.mpr ⟨_, hb, Except.bind_eq_ok_iff.mpr ⟨_, ha, rfl⟩⟩
    | loop hp hn =>
      refine Except.bind_eq_ok_iff.mpr ⟨_, Except.mapError_eq_ok_iff.mpr hp, ?_⟩
      exact Except.bind_eq_ok_iff.mpr ⟨_, hn, rfl⟩

theorem blockNode_not_text {d : Delimiters} {block : Block} {argument : String} {opened : Tag}
    {body : List Char} {node : Node} (h : blockNode d f block argument opened body = .ok node)
    (s : String) : node ≠ .text s := by
  cases built_iff.mp h <;> exact nofun

/-- The branches of a body that has a part for each marker. -/
def branchesOf (argument : String) (raw : List Char) (line : Nat) : List Branch.Marker → List Branch
  | [] => [⟨some argument, raw, line⟩]
  | marker :: rest =>
    Branch.first argument (slice raw 0 marker.tag.start) line :: Branch.later raw (marker :: rest)

theorem split_of_markers {d : Delimiters} {argument : String} {raw : List Char}
    {branches : List Branch} {found : List Branch.Marker} (hs : scan d line 0 raw = .ok segments)
    (hf : Branch.markers 0 segments = .ok found) :
    Branch.split d argument raw line = .ok branches ↔
      Branch.beyondElse? found = none ∧ branches = branchesOf argument raw line found := by
  unfold Branch.split
  rw [hs]
  dsimp only [bind, Except.bind]
  rw [hf]
  dsimp only
  cases Branch.beyondElse? found with
  | some marker => simp [throw, throwThe, MonadExceptOf.throw]
  | none => cases found <;> simp [branchesOf, pure, Except.pure, eq_comm]

theorem split_eq_ok_iff {d : Delimiters} {argument : String} {raw : List Char}
    {branches : List Branch} :
    Branch.split d argument raw line = .ok branches ↔ ∃ segments found,
      scan d line 0 raw = .ok segments ∧ Branch.markers 0 segments = .ok found ∧
      Branch.beyondElse? found = none ∧ branches = branchesOf argument raw line found := by
  constructor
  · intro h
    obtain ⟨segments, hs, hrest⟩ := Except.bind_eq_ok_iff.mp h
    obtain ⟨found, hf, -⟩ := Except.bind_eq_ok_iff.mp hrest
    exact ⟨segments, found, hs, hf, (split_of_markers hs hf).mp h⟩
  · intro h
    obtain ⟨segments, found, hs, hf, h⟩ := h
    exact (split_of_markers hs hf).mpr h

theorem condition?_some_iff {argument : String} {condition : Option Condition} :
    condition? (some argument) = some condition ↔
      ∃ c, Condition.parse argument = .ok c ∧ condition = some c := by
  unfold condition?
  rw [Option.map_eq_some_iff]
  simp only [Except.toOption_eq_some_iff, eq_comm (a := condition)]

theorem condition?_cases {source : Option String} {condition : Option Condition}
    (h : condition? source = some condition) :
    source = none ∧ condition = none ∨
      ∃ text c, source = some text ∧ condition = some c ∧ Condition.parse text = .ok c := by
  cases source with
  | none =>
    cases h
    exact .inl ⟨rfl, rfl⟩
  | some text =>
    obtain ⟨c, hparse, hc⟩ := condition?_some_iff.mp h
    exact .inr ⟨text, c, rfl, hc, hparse⟩

theorem condition?_eq_none_iff {source : Option String} {condition : Option Condition}
    (h : condition? source = some condition) : source = none ↔ condition = none := by
  rcases condition?_cases h with ⟨rfl, rfl⟩ | ⟨_, _, rfl, rfl, -⟩
  · exact iff_of_true rfl rfl
  · exact iff_of_false nofun nofun

/-- What an arm is compiled from. -/
theorem arm_of_mem {branches : List Branch} {arms : List Arm} {a : Arm}
    (ha : branches.mapM (arm f) = .ok arms) (h : a ∈ arms) :
    (∀ condition, a.1 = some condition → ∃ source, Condition.parse source = .ok condition) ∧
      ∃ body line, f body line = .ok a.2 := by
  obtain ⟨branch, -, hb⟩ := Except.exists_of_mem_mapM ha h
  obtain ⟨hc, hn⟩ := arm_eq_ok_iff.mp hb
  refine ⟨fun condition hsome => ?_, _, _, hn⟩
  rcases condition?_cases hc with ⟨-, hnone⟩ | ⟨source, c, -, hsome', hparse⟩
  · cases hnone.symm.trans hsome
  · cases hsome'.symm.trans hsome
    exact ⟨source, hparse⟩

theorem branchesOf_mapM_iff (hf : Compiles settings room f) (hd : OneLine settings.delimiters)
    {argument : String} {arms : List Arm} {first : List Segment} {parts : List Part}
    (hc : Cut settings.delimiters line 0 source segments) (hs : Splits segments first parts) :
    (branchesOf argument source line (parts.map (·.1))).mapM (arm f) = .ok arms ↔
      ∃ condition nodes later, Condition.parse argument = .ok condition ∧
        Derives settings room (first.map item) nodes [] ∧
        List.Forall₂ (StandsFor settings room) parts later ∧
        arms = armsOf (some condition) nodes later := by
  have hcut := hc
  rw [hs.eq_append] at hcut
  cases parts with
  | nil =>
    have hfirst : first = segments := by simpa [joined] using hs.eq_append.symm
    rw [List.map_nil, branchesOf, Except.mapM_cons_eq_ok_iff]
    constructor
    · intro h
      obtain ⟨⟨_, nodes⟩, _, ha, hnil, rfl⟩ := h
      obtain ⟨hcond, hn⟩ := arm_eq_ok_iff.mp ha
      obtain ⟨condition, hparse, rfl⟩ := condition?_some_iff.mp hcond
      cases hnil
      exact ⟨condition, nodes, [], hparse, hfirst ▸ (hf.of_cut hc _).mp hn, .nil, rfl⟩
    · intro h
      obtain ⟨condition, nodes, later, hparse, hn, hlater, rfl⟩ := h
      cases hlater
      refine ⟨(some condition, nodes), [], arm_eq_ok_iff.mpr ⟨?_, ?_⟩, rfl, rfl⟩
      · exact condition?_some_iff.mpr ⟨condition, hparse, rfl⟩
      · exact (hf.of_cut hc _).mpr (hfirst ▸ hn)
  | cons part parts =>
    have hbefore := hcut
    rw [joined_cons] at hbefore
    rw [List.map_cons, branchesOf, Except.mapM_cons_eq_ok_iff]
    constructor
    · intro h
      obtain ⟨⟨_, body⟩, later, ha, hlater, rfl⟩ := h
      obtain ⟨hcond, nodes, hn, rfl⟩ := (first_arm_iff hf hd hbefore.before _).mp ha
      obtain ⟨condition, hparse, rfl⟩ := condition?_some_iff.mp hcond
      have hstands := (later_arms_iff hf hd (later_holds hcut)).mp hlater
      refine ⟨condition, nodes, later, hparse, hn, hstands, ?_⟩
      cases hstands
      rfl
    · intro h
      obtain ⟨condition, nodes, later, hparse, hn, hstands, rfl⟩ := h
      refine ⟨(some condition, withoutFirstNewline nodes), later, ?_,
        (later_arms_iff hf hd (later_holds hcut)).mpr hstands, ?_⟩
      · refine (first_arm_iff hf hd hbefore.before _).mpr ⟨?_, nodes, hn, rfl⟩
        exact condition?_some_iff.mpr ⟨condition, hparse, rfl⟩
      · cases hstands
        rfl

/-- The arms of a body, compiled branch by branch. -/
theorem branches_iff (hf : Compiles settings room f) (hd : OneLine settings.delimiters)
    {argument : String} {arms : List Arm}
    (hc : Cut settings.delimiters line offset source segments) (at' : Nat) :
    (∃ branches, Branch.split settings.delimiters argument source at' = .ok branches ∧
      branches.mapM (arm f) = .ok arms) ↔
    ∃ condition nodes later, Condition.parse argument = .ok condition ∧
      Derives settings room (segments.map item) nodes later ∧
      arms = armsOf (some condition) nodes later := by
  obtain ⟨there, ht, hm⟩ := Cut.moved hc at' 0
  rw [← hm]
  constructor
  · intro h
    obtain ⟨branches, hb, ha⟩ := h
    obtain ⟨found, markers, hs, hmarkers, helse, rfl⟩ := split_eq_ok_iff.mp hb
    obtain rfl : there = found := Except.ok.inj ((scan_of_cut ht).symm.trans hs)
    obtain ⟨first, parts, hsplits, rfl⟩ := splits_of_markers hmarkers
    obtain ⟨condition, nodes, later, hparse, hn, hstands, rfl⟩ :=
      (branchesOf_mapM_iff hf hd ht hsplits).mp ha
    exact ⟨condition, nodes, later, hparse, Parts.derives_all ⟨hsplits, hn, hstands, helse⟩, rfl⟩
  · intro h
    obtain ⟨condition, nodes, later, hparse, hderives, rfl⟩ := h
    obtain ⟨first, parts, hp⟩ := hderives.parts
    refine ⟨_, split_eq_ok_iff.mpr ⟨there, _, scan_of_cut ht, hp.markers_eq, hp.else_last, rfl⟩, ?_⟩
    exact (branchesOf_mapM_iff hf hd ht hp.toSplits).mpr
      ⟨condition, nodes, later, hparse, hp.derives, hp.standsFor, rfl⟩

/-- A block is compiled from a text with these segments to the node its body stands for. -/
theorem blockNode_eq_ok_iff (hf : Compiles settings room f) (hd : OneLine settings.delimiters)
    {block : Block} {argument : String} {opened : Tag} {node : Node}
    (hc : Cut settings.delimiters line offset source segments) :
    blockNode settings.delimiters f block argument opened source = .ok node ↔
      ∃ nodes later, Derives settings room (segments.map item) nodes later ∧
        Closes block argument nodes later node := by
  rw [built_iff]
  constructor
  · intro h
    cases h with
    | conditional hb ha =>
      obtain ⟨condition, nodes, later, hparse, hderives, rfl⟩ :=
        (branches_iff hf hd hc _).mp ⟨_, hb, ha⟩
      exact ⟨nodes, later, hderives, .conditional hparse⟩
    | loop hp hn => exact ⟨_, [], (hf.of_cut hc _).mp hn, .loop hp⟩
  · intro h
    obtain ⟨nodes, later, hderives, hcloses⟩ := h
    cases hcloses with
    | conditional hparse =>
      obtain ⟨branches, hb, ha⟩ := (branches_iff hf hd hc opened.endLine).mpr
        ⟨_, nodes, later, hparse, hderives, rfl⟩
      exact .conditional hb ha
    | loop hp => exact .loop hp ((hf.of_cut hc _).mpr hderives)

/-! ## Texts -/

/-- What holds of a compiler of texts because it holds of the one for the texts inside of blocks, holds at
every depth. -/
theorem fragment_induction {settings : Settings} {P : Fragment → Prop}
    (step : ∀ inner, (∀ f, inner = some f → P f) →
      P fun source line =>
        scan settings.delimiters line 0 source >>= assemble settings source inner)
    (room : Nat) : P (fragment settings room) := by
  induction room with
  | zero => exact step none nofun
  | succ room ih =>
    refine step (some (fragment settings room)) fun f hf => ?_
    cases hf
    exact ih

/-- What a compiler of texts does with the blocks that it finds. -/
inductive Inner (settings : Settings) : Option Fragment → Nat → Prop
  | none : Inner settings none 0
  | some {g depth} : Compiles settings depth g → Inner settings (some g) (depth + 1)

theorem callNode_call {helpers : Entries Helper} {name : String} {arguments : List String}
    {line : Nat} {node : Node} (h : callNode helpers name arguments line = .ok node) (at' : Nat) :
    callNode helpers name arguments at' = .ok node := by
  obtain ⟨helper, operands, hh, ho, rfl⟩ := callNode_eq_ok h
  unfold callNode
  rw [hh, ho]
  rfl

/-- What assembling makes of segments if nothing is wrong: a node of each text, of each tag that stands
alone and of each block. -/
inductive Assembled (settings : Settings) (source : List Char) (inner : Option Fragment) :
    List Segment → List Node → Prop
  | nil : Assembled settings source inner [] []
  | text {chars rest nodes} : Assembled settings source inner rest nodes →
      Assembled settings source inner (.text chars :: rest) (.text (String.ofList chars) :: nodes)
  | variable {t rest path escape nodes} : t.directive = .ok (.variable path escape) →
      Assembled settings source inner rest nodes →
      Assembled settings source inner (.tag t :: rest) (.variable path escape :: nodes)
  | call {t rest name arguments node nodes} : t.directive = .ok (.call name arguments) →
      callNode settings.helpers name arguments t.line = .ok node →
      Assembled settings source inner rest nodes →
      Assembled settings source inner (.tag t :: rest) (node :: nodes)
  | block {opened closed rest after block argument f node nodes} :
      opened.directive = .ok (.opening block argument) →
      closing block opened.line 0 rest = .ok (closed, after) → inner = some f →
      blockNode settings.delimiters f block argument opened
        (slice source opened.stop closed.start) = .ok node →
      Assembled settings source inner after nodes →
      Assembled settings source inner (.tag opened :: rest) (node :: nodes)

theorem assembled_of_assemble {inner : Option Fragment}
    (h : assemble settings source inner segments = .ok nodes) :
    Assembled settings source inner segments nodes := by
  fun_induction assemble settings source inner segments generalizing nodes with
  | case1 =>
    cases h
    exact .nil
  | case2 chars rest ih =>
    obtain ⟨more, hm, rfl⟩ := Except.map_eq_ok_iff.mp h
    exact .text (ih hm)
  | case3 => cases h
  | case4 t rest path escape ht ih =>
    obtain ⟨more, hm, rfl⟩ := Except.map_eq_ok_iff.mp h
    exact .variable ht (ih hm)
  | case5 t rest name arguments ht ih =>
    obtain ⟨node, hn, h⟩ := Except.bind_eq_ok_iff.mp h
    obtain ⟨more, hm, rfl⟩ := Except.map_eq_ok_iff.mp h
    exact .call ht hn (ih hm)
  -- no closing tag, and no room for a block
  | case6 => cases h
  | case7 => cases h
  | case8 opened rest block argument ho closed after hclosing f hinner body =>
    rename_i ih
    subst hinner
    obtain ⟨node, hn, h⟩ := Except.bind_eq_ok_iff.mp h
    obtain ⟨more, hm, rfl⟩ := Except.map_eq_ok_iff.mp h
    exact .block ho hclosing rfl hn (ih hm)
  -- tags that have no place here
  | case9 => cases h
  | case10 => cases h

theorem derives_of_assemble {inner : Option Fragment} (hi : Inner settings inner room)
    (hd : OneLine settings.delimiters) (before : List Segment)
    (hc : Cut settings.delimiters line 0 source (before ++ segments))
    (h : assemble settings source inner segments = .ok nodes) :
    Derives settings room (segments.map item) nodes [] := by
  replace h := assembled_of_assemble h
  induction h generalizing before with
  | nil => exact .nil
  | @text chars _ _ _ ih => exact .leaf .text (ih (before ++ [.text chars]) (by simpa using hc))
  | @«variable» t _ _ _ _ ht _ ih =>
    rw [List.map_cons, item_tag ht]
    exact .leaf .variable (ih (before ++ [.tag t]) (by simpa using hc))
  | @call t _ _ _ _ _ ht hn _ ih =>
    rw [List.map_cons, item_tag ht]
    exact .leaf (.call hn) (ih (before ++ [.tag t]) (by simpa using hc))
  | @block opened closed _ _ _ _ _ _ _ ho hclosing hinner hn _ ih =>
    -- the body is cut out of the source, but the segments inside are those of the whole scan
    obtain ⟨inside, keyword, rfl, hclosed, hk⟩ := closing_eq_ok hclosing
    subst hinner
    cases hi with
    | some hf =>
      obtain ⟨nodes, later, hbody, hcloses⟩ := (blockNode_eq_ok_iff hf hd hc.between).mp hn
      have hrest := ih (before ++ .tag opened :: (inside ++ [.tag closed])) (by simpa using hc)
      exact .of_block ho hclosed hbody hcloses hk hrest

/-- The search of the closing tag comes before the limit on the nesting. -/
theorem assemble_opening {inner : Option Fragment} {opened : Tag} {block : Block} {argument : String}
    {rest : List Segment} (ho : opened.directive = .ok (.opening block argument)) :
    assemble settings source inner (.tag opened :: rest) =
      match closing block opened.line 0 rest with
      | .error e => .error e
      | .ok (closed, after) =>
        match inner with
        | none => .error (.nestingTooDeep settings.maxDepth)
        | some f =>
          blockNode settings.delimiters f block argument opened
              (slice source opened.stop closed.start) >>=
            fun node => (assemble settings source inner after).map (node :: ·) := by
  rw [assemble, ho]
  dsimp only
  split
  · rename_i hc
    rw [hc]
  · rename_i hc
    cases inner with
    | none => rw [hc]
    | some f => rw [hc]

theorem assemble_of_derives {inner : Option Fragment} (hi : Inner settings inner room)
    (hd : OneLine settings.delimiters) (before : List Segment)
    (hc : Cut settings.delimiters line 0 source (before ++ segments))
    (h : Derives settings room (segments.map item) nodes []) :
    assemble settings source inner segments = .ok nodes := by
  generalize hs : segments.map item = items at h
  generalize hn : ([] : List Arm) = none' at h
  induction h generalizing segments before with
  | nil =>
    rw [List.map_eq_nil_iff.mp hs, assemble]
  | @leaf _ _ node rest nodes _ hleaf hr ih =>
    subst hn
    obtain ⟨s, more, rfl, hitem, hm⟩ := List.map_eq_cons_iff.mp hs
    have hrest := ih hi (before ++ [s]) (by simpa using hc) hm rfl
    cases s with
    | text chars =>
      obtain rfl := Leaf.text_iff.mp (hitem.symm ▸ hleaf)
      rw [assemble, hrest]
      rfl
    | tag t =>
      cases hleaf with
      | text => cases hitem
      | «variable» =>
        rw [assemble, directive_eq_ok_iff.mpr (Item.tag.inj hitem)]
        dsimp only
        rw [hrest]
        rfl
      | call hcall =>
        rw [assemble, directive_eq_ok_iff.mpr (Item.tag.inj hitem)]
        dsimp only
        rw [callNode_call hcall, hrest]
        rfl
  | block hbody hcloses hk hr _ ih =>
    subst hn
    obtain ⟨opened, body, closed, after, rfl, ho, rfl, hclosed, hafter⟩ := map_item_eq_block hs
    have hclosing : closing _ opened.line 0 (body ++ .tag closed :: after) = .ok (closed, after) :=
      (hbody.closing_append _ _ _ _).trans (closing_cons_found hclosed hk)
    have hrest := ih hi (before ++ .tag opened :: (body ++ [.tag closed]))
      (by simpa using hc) hafter rfl
    cases hi with
    | some hf =>
      rw [assemble_opening ho, hclosing]
      dsimp only
      rw [(blockNode_eq_ok_iff hf hd hc.between).mpr ⟨_, _, hbody, hcloses⟩, hrest]
      rfl
  | marker => cases hn

theorem assemble_eq_ok_iff {inner : Option Fragment} (hi : Inner settings inner room)
    (hd : OneLine settings.delimiters) (hc : Cut settings.delimiters line 0 source segments) :
    assemble settings source inner segments = .ok nodes ↔
      Derives settings room (segments.map item) nodes [] :=
  ⟨derives_of_assemble hi hd [] hc, assemble_of_derives hi hd [] hc⟩

theorem compiles_fragment (hd : OneLine settings.delimiters) :
    Compiles settings room (fragment settings room) := by
  have step : ∀ {inner room}, Inner settings inner room → ∀ source line nodes,
      (scan settings.delimiters line 0 source >>= assemble settings source inner) = .ok nodes ↔
        ∃ segments, scan settings.delimiters line 0 source = .ok segments ∧
          Derives settings room (segments.map item) nodes [] := by
    intro inner room hi source line nodes
    rw [Except.bind_eq_ok_iff]
    refine exists_congr fun segments => and_congr_right fun hs => ?_
    exact assemble_eq_ok_iff hi hd (cut_of_scan hs)
  induction room with
  | zero => exact step .none
  | succ room ih => exact step (.some ih)

theorem compile_eq_ok_iff (hd : OneLine settings.delimiters) {text : String} :
    compile settings text = .ok nodes ↔ ∃ segments,
      scan settings.delimiters 1 0 text.toList = .ok segments ∧
      Derives settings settings.maxDepth (segments.map item) nodes [] :=
  compiles_fragment hd text.toList 1 nodes

end Stencil.Grammar
