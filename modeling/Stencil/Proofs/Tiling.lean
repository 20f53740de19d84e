import Stencil.Proofs.NormalForm

/-! # The branches of a body tile it

Which tags cut a body is told by a count of the blocks that are open before each of them. The branches
and these tags, one behind the other, are the body, but for a newline at the front of the first branch
and one at the end of each later one. -/
namespace Stencil.Branch
open Grammar Segment Text.Find

/-! ## The tags that cut a body -/

/-- The number of blocks open after the segment, where `depth` of them are open before it. -/
def opened (depth : Nat) : Segment → Nat
  | .text _ => depth
  | .tag t =>
    match Directive.classify t.body with
    | .ok (.opening _ _) => depth + 1
    | .ok (.closing _) => depth - 1
    | _ => depth

/-- The marker that a segment is outside of all blocks. -/
def marker? : Segment → Option Marker
  | .text _ => none
  | .tag t =>
    match Directive.classify t.body with
    | .ok (.elseIf condition) => some ⟨some condition, t⟩
    | .ok .otherwise => some ⟨none, t⟩
    | _ => none

/-- The markers before which no block is open, where `depth` blocks are open before the segments. -/
def topLevel (depth : Nat) (segments : List Segment) : List Marker :=
  (segments.zip (segments.scanl opened depth)).filterMap fun (s, depth) =>
    if depth = 0 then marker? s else none

/-- Each tag has a directive. -/
def Classified (segments : List Segment) : Prop :=
  ∀ t, .tag t ∈ segments → ∃ directive, Directive.classify t.body = .ok directive

theorem topLevel_cons (depth : Nat) (s : Segment) (rest : List Segment) :
    topLevel depth (s :: rest) =
      (if depth = 0 then marker? s else none).toList ++ topLevel (opened depth s) rest := by
  unfold topLevel
  rw [List.scanl_cons, List.zip_cons_cons, List.filterMap_cons]
  dsimp only
  cases (if depth = 0 then marker? s else none) <;> rfl

theorem opened_tag {t : Tag} {directive : Directive} (h : t.directive = .ok directive)
    (depth : Nat) : opened depth (.tag t) = directive.nest depth := by
  rw [opened, directive_eq_ok_iff.mp h]
  cases directive <;> rfl

theorem marker?_tag {t : Tag} {directive : Directive} (h : t.directive = .ok directive) :
    marker? (.tag t) = directive.branch?.map (⟨·, t⟩) := by
  rw [marker?, directive_eq_ok_iff.mp h]
  cases directive <;> rfl

theorem classified_text_cons {chars : List Char} {rest : List Segment} :
    Classified (.text chars :: rest) ↔ Classified rest := by
  simp [Classified]

theorem classified_tag_cons {t : Tag} {rest : List Segment} :
    Classified (.tag t :: rest) ↔ (∃ directive, t.directive = .ok directive) ∧ Classified rest := by
  simp [Classified, directive_eq_ok_iff]

/-- The search finds the markers that the count tells. -/
theorem markers_eq_ok_iff {depth : Nat} {segments : List Segment} {found : List Marker} :
    markers depth segments = .ok found ↔ Classified segments ∧ found = topLevel depth segments := by
  fun_induction markers depth segments generalizing found with
  | case1 => simp [Classified, topLevel, eq_comm]
  | case2 depth chars rest ih =>
    rw [ih, classified_text_cons, topLevel_cons]
    simp [marker?, opened]
  | case3 depth t rest e hd => simp [classified_tag_cons, hd]
  | case4 t rest directive hd condition hb ih =>
    have hcons : topLevel 0 (.tag t :: rest) = ⟨condition, t⟩ :: topLevel 0 rest := by
      rw [topLevel_cons, opened_tag hd, nest_of_branch hb, if_pos rfl, marker?_tag hd, hb]
      rfl
    rw [Except.map_eq_ok_iff, classified_tag_cons, hcons]
    constructor
    · intro h
      obtain ⟨more, hm, rfl⟩ := h
      obtain ⟨hrest, rfl⟩ := ih.mp hm
      exact ⟨⟨⟨_, hd⟩, hrest⟩, rfl⟩
    · intro h
      obtain ⟨⟨-, hrest⟩, rfl⟩ := h
      exact ⟨_, ih.mpr ⟨hrest, rfl⟩, rfl⟩
  | case5 t rest directive hd depth hnot ih =>
    -- inside of a block, or a tag that starts no branch
    have hnone : (if depth = 0 then marker? (.tag t) else none) = none := by
      split
      · subst depth
        rw [marker?_tag hd, Option.map_eq_none_iff, Option.eq_none_iff_forall_ne_some]
        exact fun condition hb => hnot condition hb rfl
      · rfl
    rw [ih, classified_tag_cons, topLevel_cons, opened_tag hd, hnone]
    simp [hd]

/-- A plain `else` with another marker behind it. -/
def ElseBeforeMarker (found : List Marker) : Prop :=
  ∃ front marker next back, found = front ++ marker :: next :: back ∧ marker.condition = none

theorem elseBeforeMarker_cons {marker : Marker} {rest : List Marker} :
    ElseBeforeMarker (marker :: rest) ↔
      marker.condition = none ∧ rest ≠ [] ∨ ElseBeforeMarker rest := by
  constructor
  · intro h
    obtain ⟨front, plain, next, back, hfound, hnone⟩ := h
    rcases List.cons_eq_append_iff.mp hfound with ⟨-, heq⟩ | ⟨front', -, hrest⟩
    · cases heq
      exact .inl ⟨hnone, List.cons_ne_nil next back⟩
    · exact .inr ⟨front', plain, next, back, hrest, hnone⟩
  · intro h
    rcases h with ⟨hnone, hrest⟩ | ⟨front, plain, next, back, rfl, hnone⟩
    · obtain ⟨next, back, rfl⟩ := List.exists_cons_of_ne_nil hrest
      exact ⟨[], marker, next, back, rfl, hnone⟩
    · exact ⟨marker :: front, plain, next, back, rfl, hnone⟩

theorem beyondElse?_eq_none_iff {found : List Marker} :
    beyondElse? found = none ↔ ¬ ElseBeforeMarker found := by
  induction found with
  | nil =>
    refine iff_of_true rfl fun h => ?_
    obtain ⟨front, _, _, _, hfound, -⟩ := h
    simp at hfound
  | cons marker rest ih =>
    rw [beyondElse?_cons_eq_none_iff, elseBeforeMarker_cons, not_or, not_and, not_not, ih]

/-! ## What a body is put together from -/

/-- A later branch stands behind the tag of the marker, which stands behind `before`. What stands behind
the branch is the newline that it has lost, if it has lost one. -/
structure Behind (d : Delimiters) (line : Nat) (before : List Char) (marker : Marker) (branch : Branch)
    (newline : List Char) : Prop where
  start_eq : marker.tag.start = before.length
  condition_eq : branch.condition = marker.condition
  line_eq : branch.line = line + newlines (before ++ wrapped d marker.tag.body)
  newline_eq : newline = ['\n'] ∨ newline = [] ∧ branch.body.getLast? ≠ some '\n'

/-- The markers and the branches behind them take turns from `before` on, up to the end of a body. -/
inductive Tiles (d : Delimiters) (line : Nat) :
    List Char → List Marker → List Branch → List Char → Prop
  | nil {before} : Tiles d line before [] [] []
  | cons {before marker markers branch branches newline rest} :
      Behind d line before marker branch newline →
      Tiles d line (before ++ (wrapped d marker.tag.body ++ branch.body ++ newline)) markers branches
        rest →
      Tiles d line before (marker :: markers) (branch :: branches)
        (wrapped d marker.tag.body ++ branch.body ++ newline ++ rest)

/-- A body without markers is left as it is. With markers, the first branch ends at the first of them, and
what stands in front of that branch is the newline that it has lost, if it has lost one. -/
inductive Reassembles (d : Delimiters) (line : Nat) :
    List Char → List Marker → List Branch → Prop
  | whole {raw branch} : branch.body = raw → branch.line = line → Reassembles d line raw [] [branch]
  | cut {newline rest first branches marker markers} :
      newline = ['\n'] ∨ newline = [] ∧ first.body.head? ≠ some '\n' →
      first.line = line + newlines newline →
      Tiles d line (newline ++ first.body) (marker :: markers) branches rest →
      Reassembles d line (newline ++ first.body ++ rest) (marker :: markers) (first :: branches)

variable {d : Delimiters} {condition : String} {raw : List Char} {line : Nat} {branches : List Branch}

theorem tiles_later {before : List Segment} {parts : List Part}
    (hc : Cut d line 0 raw (before ++ joined parts)) :
    Tiles d line (before.flatMap (written d)) (parts.map (·.1)) (later raw (parts.map (·.1)))
      ((joined parts).flatMap (written d)) := by
  induction parts generalizing before with
  | nil => exact .nil
  | cons part parts ih =>
    have hbody := (cut_of_joined hc).flatMap_written
    have htag := hc
    rw [joined_cons] at htag
    have hrest := ih (append_joined_cons before part parts ▸ hc)
    rw [List.flatMap_append, List.flatMap_cons, hbody] at hrest
    rw [List.map_cons, later, joined_cons, List.flatMap_cons, List.flatMap_append, hbody]
    generalize slice raw part.1.tag.stop _ = text at hrest ⊢
    obtain ⟨newline, htext, hnewline⟩ := withoutLastNewline_append text
    have hbehind : Behind d line (before.flatMap (written d)) part.1
        ⟨part.1.condition, withoutLastNewline text, part.1.tag.endLine⟩ newline :=
      ⟨htag.positions_eq.1.trans (Nat.zero_add _), rfl, htag.lines_eq.2, hnewline⟩
    have hwritten : written d (.tag part.1.tag) ++ text =
        wrapped d part.1.tag.body ++ withoutLastNewline text ++ newline := by
      rw [List.append_assoc, ← htext]
      rfl
    rw [hwritten] at hrest
    rw [← List.append_assoc, hwritten]
    exact .cons hbehind hrest

theorem reassembles_branchesOf {front : List Segment} {parts : List Part}
    (hc : Cut d line 0 raw (front ++ joined parts)) :
    Reassembles d line raw (parts.map (·.1)) (branchesOf condition raw line (parts.map (·.1))) := by
  cases parts with
  | nil => exact .whole rfl rfl
  | cons part parts =>
    have htag := hc
    rw [joined_cons] at htag
    have hlater := tiles_later hc
    have hraw := hc.flatMap_written
    rw [List.flatMap_append, htag.before.flatMap_written] at hraw
    rw [htag.before.flatMap_written] at hlater
    rw [List.map_cons, branchesOf]
    generalize slice raw 0 part.1.tag.start = text at hlater hraw ⊢
    obtain ⟨newline, htext, hnewline, hline⟩ := first_append condition text line
    have hcut := Reassembles.cut hnewline hline (htext ▸ hlater)
    rwa [← htext, hraw] at hcut

/-! ## Every body -/

theorem exists_split_iff :
    (∃ branches, split d condition raw line = .ok branches) ↔ ∃ segments,
      scan d line 0 raw = .ok segments ∧ Classified segments ∧
        ¬ ElseBeforeMarker (topLevel 0 segments) := by
  constructor
  · intro h
    obtain ⟨branches, h⟩ := h
    obtain ⟨segments, found, hs, hf, helse, -⟩ := split_eq_ok_iff.mp h
    obtain ⟨hclass, rfl⟩ := markers_eq_ok_iff.mp hf
    exact ⟨segments, hs, hclass, beyondElse?_eq_none_iff.mp helse⟩
  · intro h
    obtain ⟨segments, hs, hclass, helse⟩ := h
    exact ⟨_, split_eq_ok_iff.mpr ⟨segments, _, hs, markers_eq_ok_iff.mpr ⟨hclass, rfl⟩,
      beyondElse?_eq_none_iff.mpr helse, rfl⟩⟩

/-- A body that is split has one branch more than it has markers outside of all blocks. The conditions are
those of the block and of the markers, and with the markers the branches make up the body. A body is not
split if its tags cannot be read, or if a marker comes after a plain `else`. -/
theorem split_tiles (d : Delimiters) (condition : String) (raw : List Char) (line : Nat) :
    (∀ branches, split d condition raw line = .ok branches → ∃ segments,
      scan d line 0 raw = .ok segments ∧ branches.length = (topLevel 0 segments).length + 1 ∧
      branches.map (·.condition) = some condition :: (topLevel 0 segments).map (·.condition) ∧
      ElseLast (branches.map (·.condition)) ∧
      Reassembles d line raw (topLevel 0 segments) branches) ∧
    ((∃ e, split d condition raw line = .error e) ↔
      (∃ e, scan d line 0 raw = .error e) ∨ ∃ segments, scan d line 0 raw = .ok segments ∧
        (¬ Classified segments ∨ ElseBeforeMarker (topLevel 0 segments))) := by
  constructor
  · intro branches h
    obtain ⟨segments, found, hs, hf, helse, rfl⟩ := split_eq_ok_iff.mp h
    have hconditions := conditions_branchesOf condition raw line found
    have hlength := congrArg List.length hconditions
    obtain ⟨front, parts, hsplits, rfl⟩ := splits_of_markers hf
    have hc := cut_of_scan hs
    rw [hsplits.eq_append] at hc
    refine ⟨segments, hs, ?_⟩
    rw [← (markers_eq_ok_iff.mp hf).2]
    refine ⟨?_, hconditions, elseLast_branchesOf helse _ _ _, reassembles_branchesOf hc⟩
    simpa using hlength
  · rw [Except.exists_error_iff, exists_split_iff]
    cases hs : scan d line 0 raw with
    | error e => simp
    | ok segments => simp [imp_iff_not_or]

/-- A block with its own `else`, a closing tag without a block, and newlines on both sides of tags. -/
theorem split_tiles_nested :
    ∃ raw segments, raw = "\nx{{if b}}1{{else}}2{{/if}}{{/if}}\n{{else if c}}\ny\n\n{{else}}z".toList ∧
      (topLevel 0 segments).map (·.condition) = [some "c", none] ∧
      Reassembles {} 4 raw (topLevel 0 segments)
        [⟨some "a", "x{{if b}}1{{else}}2{{/if}}{{/if}}\n".toList, 5⟩,
          ⟨some "c", "\ny\n".toList, 6⟩, ⟨none, ['z'], 9⟩] ∧
      ∃ e, split {} "a" "1{{else}}2{{else if b}}3".toList 1 = .error e := by
  have h : split {} "a"
      "\nx{{if b}}1{{else}}2{{/if}}{{/if}}\n{{else if c}}\ny\n\n{{else}}z".toList 4 =
        .ok [⟨some "a", "x{{if b}}1{{else}}2{{/if}}{{/if}}\n".toList, 5⟩,
          ⟨some "c", "\ny\n".toList, 6⟩, ⟨none, ['z'], 9⟩] := by
    with_unfolding_all rfl
  have hs : scan {} 1 0 "1{{else}}2{{else if b}}3".toList =
      .ok [.text ['1'], .tag ⟨"else".toList, 1, 9, 1, 1⟩, .text ['2'],
        .tag ⟨"else if b".toList, 10, 23, 1, 1⟩, .text ['3']] := by
    with_unfolding_all rfl
  have htop : topLevel 0 [.text ['1'], .tag ⟨"else".toList, 1, 9, 1, 1⟩, .text ['2'],
      .tag ⟨"else if b".toList, 10, 23, 1, 1⟩, .text ['3']] =
        [⟨none, "else".toList, 1, 9, 1, 1⟩, ⟨some "b", "else if b".toList, 10, 23, 1, 1⟩] := by
    with_unfolding_all rfl
  obtain ⟨segments, -, -, hconditions, -, hraw⟩ := (split_tiles {} "a" _ 4).1 _ h
  refine ⟨_, segments, rfl, (List.cons.inj hconditions).2.symm, hraw, ?_⟩
  exact (split_tiles {} "a" _ 1).2.mpr (.inr ⟨_, hs, .inr ⟨[], _, _, [], htop, rfl⟩⟩)

end Stencil.Branch
