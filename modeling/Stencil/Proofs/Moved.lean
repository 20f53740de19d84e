import Stencil.Proofs.Fragments

/-! # A text further down in a template

Where a text stands decides the lines and positions of what is found in it, and nothing else. An error
is the same error, told of a line as much further down as the text is. -/
namespace Stencil
open Compilation Text.Find

/-- The same error in a text that starts so many lines further down. -/
def Error.moved (lines : Nat) : Error → Error
  | .located line fault => .located (line + lines) fault
  | e => e

def Tag.moved (lines chars : Nat) (t : Tag) : Tag where
  body := t.body
  start := t.start + chars
  stop := t.stop + chars
  line := t.line + lines
  endLine := t.endLine + lines

theorem Tag.directive_moved (lines chars : Nat) (t : Tag) :
    (t.moved lines chars).directive = t.directive.mapError (Error.moved lines) := by
  unfold Tag.directive
  show (Directive.classify t.body).mapError _ = _
  cases Directive.classify t.body <;> rfl

theorem Tag.line_moved (lines chars : Nat) (t : Tag) : (t.moved lines chars).line = t.line + lines :=
  rfl

theorem Tag.directive_moved_ok (lines chars : Nat) {t : Tag} {directive : Directive}
    (h : t.directive = .ok directive) : (t.moved lines chars).directive = .ok directive := by
  rw [directive_moved, h]
  rfl

/-! ## Segments -/

namespace Segment

def moved (lines chars : Nat) : Segment → Segment
  | .text s => .text s
  | .tag t => .tag (t.moved lines chars)

variable (lines chars : Nat)

theorem map_moved_ofText (s : List Char) : (ofText s).map (moved lines chars) = ofText s := by
  cases s <;> rfl

theorem tagAfter_moved (d : Delimiters) (line offset : Nat) (plain body : List Char) :
    tagAfter d (line + lines) (offset + chars) plain body =
      (tagAfter d line offset plain body).moved lines chars := by
  simp only [tagAfter, Tag.moved, Tag.mk.injEq, true_and]
  omega

theorem scan_moved (d : Delimiters) (line offset : Nat) (source : List Char) :
    scan d (line + lines) (offset + chars) source =
      ((scan d line offset source).map (·.map (moved lines chars))).mapError (Error.moved lines) := by
  induction hn : source.length using Nat.strong_induction_on generalizing line offset source with
  | h n ih =>
    subst hn
    rw [scan_eq, scan_eq d line]
    cases hs : step d source with
    | fault before fault =>
      dsimp only [Except.map, Except.mapError, Error.moved]
      rw [Nat.add_right_comm]
    | plain =>
      dsimp only [Except.map, Except.mapError]
      rw [map_moved_ofText]
    | tag plain body rest =>
      dsimp only
      have hrest := ih _ (step_eq_tag_iff.mp hs).length_lt
        (tagAfter d line offset plain body).endLine (tagAfter d line offset plain body).stop rest rfl
      rw [tagAfter_moved, Tag.moved, hrest]
      cases scan d _ _ rest with
      | error e => rfl
      | ok segments =>
        dsimp only [Except.map, Except.mapError]
        rw [List.map_append, List.map_cons, map_moved_ofText]
        rfl

/-! ## A part of a text by itself -/

variable {d : Delimiters} {line offset : Nat} {source : List Char} {segments : List Segment}

theorem Cut.map_moved (h : Cut d line offset source segments) (lines chars : Nat) :
    Cut d (line + lines) (offset + chars) source (segments.map (moved lines chars)) := by
  refine cut_of_scan ?_
  rw [scan_moved, scan_of_cut h]
  rfl

theorem Cut.of_moved {lines chars : Nat} (h : Cut d (line + lines) (offset + chars) source segments) :
    ∃ there, Cut d line offset source there ∧ segments = there.map (moved lines chars) := by
  have hs := scan_of_cut h
  rw [scan_moved] at hs
  cases hthere : scan d line offset source with
  | error e =>
    rw [hthere] at hs
    cases hs
  | ok there =>
    rw [hthere] at hs
    exact ⟨there, cut_of_scan hthere, (Except.ok.inj hs).symm⟩

theorem Cut.from_start (h : Cut d line offset source segments) :
    ∃ there, Cut d line 0 source there ∧ segments = there.map (moved 0 offset) :=
  Cut.of_moved (by rwa [Nat.add_zero, Nat.zero_add])

/-- What stands between two tags, scanned by itself as a text that starts on the line on which the first of
them ends, has the segments that the whole text has there. Only the positions are told from its own start. -/
theorem scan_between {before inner after : List Segment} {opened closed : Tag}
    (h : scan d line 0 source = .ok (before ++ .tag opened :: (inner ++ .tag closed :: after))) :
    opened.stop ≤ closed.start ∧
      ∃ found, scan d opened.endLine 0 (slice source opened.stop closed.start) = .ok found ∧
        inner = found.map (moved 0 opened.stop) := by
  have hcut := cut_of_scan h
  obtain ⟨found, hfound, hmoved⟩ := hcut.between.from_start
  exact ⟨hcut.stop_le_start, found, scan_of_cut hfound, hmoved⟩

/-- The two delimiters are the same, and the texts start or end with a part of one. -/
theorem scan_between_equal :
    ∃ d : Delimiters, d.left = ['%', '%'] ∧ d.right = ['%', '%'] ∧
      scan d 4 0 "%%a%%x%\n%%b\n%%%y\n%%c%%".toList =
        .ok [.tag ⟨['a'], 0, 5, 4, 4⟩, .text ['x', '%', '\n'], .tag ⟨['b', '\n'], 8, 14, 5, 6⟩,
          .text ['%', 'y', '\n'], .tag ⟨['c'], 17, 22, 7, 7⟩] ∧
      ∃ found, scan d 4 0 (slice "%%a%%x%\n%%b\n%%%y\n%%c%%".toList 5 17) = .ok found ∧
        [.text ['x', '%', '\n'], .tag ⟨['b', '\n'], 8, 14, 5, 6⟩, .text ['%', 'y', '\n']] =
          found.map (moved 0 5) := by
  let d : Delimiters := { left := ['%', '%'], right := ['%', '%'] }
  have hscan : scan d 4 0 "%%a%%x%\n%%b\n%%%y\n%%c%%".toList =
      .ok ([] ++ .tag ⟨['a'], 0, 5, 4, 4⟩ :: ([.text ['x', '%', '\n'], .tag ⟨['b', '\n'], 8, 14, 5, 6⟩,
        .text ['%', 'y', '\n']] ++ .tag ⟨['c'], 17, 22, 7, 7⟩ :: [])) := by
    with_unfolding_all rfl
  exact ⟨d, rfl, rfl, hscan, (scan_between hscan).2⟩

end Segment

/-! ## Searches -/

variable (lines chars : Nat)

theorem closing_moved (block : Block) (line depth : Nat) (segments : List Segment) :
    closing block (line + lines) depth (segments.map (Segment.moved lines chars)) =
      ((closing block line depth segments).map fun (closed, after) =>
        (closed.moved lines chars, after.map (Segment.moved lines chars))).mapError
          (Error.moved lines) := by
  induction segments generalizing depth with
  | nil => rfl
  | cons s rest ih =>
    cases s with
    | text s => exact ih depth
    | tag t =>
      rw [List.map_cons, Segment.moved, closing, closing, Tag.directive_moved]
      cases t.directive with
      | error e => rfl
      | ok directive =>
        cases directive with
        | closing keyword =>
          dsimp only [Except.mapError]
          cases Block.ofClosing? keyword with
          | none => rfl
          | some closed =>
            cases depth with
            | zero =>
              dsimp only
              split <;> rfl
            | succ depth => exact ih depth
        | _ => exact ih _

namespace Branch

def Marker.moved (marker : Marker) : Marker :=
  { marker with tag := marker.tag.moved lines 0 }

def moved (branch : Branch) : Branch :=
  { branch with line := branch.line + lines }

theorem markers_moved (depth : Nat) (segments : List Segment) :
    markers depth (segments.map (Segment.moved lines 0)) =
      ((markers depth segments).map (·.map (Marker.moved lines))).mapError (Error.moved lines) := by
  induction segments generalizing depth with
  | nil => rfl
  | cons s rest ih =>
    cases s with
    | text s => exact ih depth
    | tag t =>
      rw [List.map_cons, Segment.moved, markers, markers, Tag.directive_moved]
      cases t.directive with
      | error e => rfl
      | ok directive =>
        dsimp only [Except.mapError]
        split
        · rw [ih]
          cases markers 0 rest <;> rfl
        · exact ih _

theorem beyondElse?_moved (found : List Marker) :
    beyondElse? (found.map (Marker.moved lines)) = (beyondElse? found).map (Marker.moved lines) := by
  induction found with
  | nil => rfl
  | cons marker rest ih =>
    cases rest with
    | nil => rfl
    | cons next rest =>
      simp only [List.map_cons, beyondElse?] at ih ⊢
      rw [ih]
      show (if marker.condition.isNone then _ else _) = _
      split <;> rfl

theorem later_moved (raw : List Char) (found : List Marker) :
    later raw (found.map (Marker.moved lines)) = (later raw found).map (moved lines) := by
  induction found with
  | nil => rfl
  | cons marker rest ih =>
    rw [List.map_cons, later, later, ih]
    cases rest <;> rfl

theorem first_moved (condition : String) (body : List Char) (line : Nat) :
    first condition body (line + lines) = (first condition body line).moved lines := by
  unfold first
  split
  · rw [Nat.add_right_comm]
    rfl
  · rfl

theorem split_moved (d : Delimiters) (condition : String) (raw : List Char) (line : Nat) :
    split d condition raw (line + lines) =
      ((split d condition raw line).map (·.map (moved lines))).mapError (Error.moved lines) := by
  unfold split
  have hscan := Segment.scan_moved lines 0 d line 0 raw
  rw [hscan]
  cases Segment.scan d line 0 raw with
  | error e => rfl
  | ok segments =>
    dsimp only [bind, Except.bind, Except.map, Except.mapError]
    rw [markers_moved]
    cases markers 0 segments with
    | error e => rfl
    | ok found =>
      dsimp only [Except.map, Except.mapError]
      rw [beyondElse?_moved]
      cases beyondElse? found with
      | some marker => rfl
      | none =>
        rw [later_moved]
        cases found with
        | nil => rfl
        | cons marker rest =>
          show Except.ok (first condition (slice raw 0 marker.tag.start) (line + lines) :: _) = _
          rw [first_moved]
          rfl

end Branch

/-! ## Texts -/

/-- What a compiler of texts makes of a text does not depend on its line, but for the lines of errors. -/
def Movable (f : Fragment) : Prop :=
  ∀ source line lines, f source (line + lines) = (f source line).mapError (Error.moved lines)

theorem Movable.arm {f : Fragment} (hf : Movable f) (branch : Branch) :
    arm f (branch.moved lines) = (arm f branch).mapError (Error.moved lines) := by
  unfold Compilation.arm
  show (branch.parsed.mapError _ >>= _) = _
  cases branch.parsed with
  | error fault => rfl
  | ok condition =>
    show (f branch.body (branch.line + lines) >>= _) = _
    rw [hf]
    cases f branch.body branch.line <;> rfl

theorem Movable.blockNode {f : Fragment} (hf : Movable f) (d : Delimiters) (block : Block)
    (argument : String) (opened : Tag) (body : List Char) :
    blockNode d f block argument (opened.moved lines chars) body =
      (blockNode d f block argument opened body).mapError (Error.moved lines) := by
  cases block with
  | conditional =>
    unfold Compilation.blockNode
    show (Branch.split d argument body (opened.endLine + lines) >>= _) = _
    rw [Branch.split_moved]
    cases Branch.split d argument body opened.endLine with
    | error e => rfl
    | ok branches =>
      have harms : (branches.map (Branch.moved lines)).mapM (Compilation.arm f) =
          (branches.mapM (Compilation.arm f)).mapError (Error.moved lines) := by
        rw [List.mapM_map, Except.mapError_mapM]
        congr 1
        funext branch
        exact hf.arm lines branch
      show ((branches.map (Branch.moved lines)).mapM (Compilation.arm f) >>= _) = _
      rw [harms]
      show _ = (branches.mapM (Compilation.arm f) >>= fun arms =>
        pure (Node.conditional arms)).mapError (Error.moved lines)
      rw [Except.mapError_bind]
      rfl
  | loop =>
    unfold Compilation.blockNode
    show ((loopSource argument).mapError _ >>= _) = _
    cases loopSource argument with
    | error fault => rfl
    | ok source =>
      show (f body (opened.endLine + lines) >>= _) = _
      rw [hf]
      cases f body opened.endLine <;> rfl

theorem slice_append (before source : List Char) (start stop : Nat) :
    slice (before ++ source) (start + before.length) (stop + before.length) = slice source start stop := by
  rw [slice, slice, Nat.add_sub_add_right, Nat.add_comm start, List.drop_length_add_append]

theorem callNode_moved (helpers : Entries Helper) (name : String) (arguments : List String) (line : Nat) :
    callNode helpers name arguments (line + lines) =
      (callNode helpers name arguments line).mapError (Error.moved lines) := by
  unfold callNode
  cases helpers.get? name with
  | none => rfl
  | some helper =>
    dsimp only
    cases arguments.mapM Operand.parse <;> rfl

/-- The text is assembled in the same way after other text. -/
theorem assemble_moved {settings : Settings} {inner : Option Fragment}
    (hi : ∀ f, inner = some f → Movable f) (before source : List Char) (segments : List Segment) :
    assemble settings (before ++ source) inner (segments.map (Segment.moved lines before.length)) =
      (assemble settings source inner segments).mapError (Error.moved lines) := by
  fun_induction assemble settings source inner segments with
  | case1 =>
    rw [List.map_nil, assemble]
    rfl
  | case2 s rest ih =>
    rw [List.map_cons, Segment.moved, assemble, ih, Except.mapError_map]
  | case3 t rest e ht =>
    rw [List.map_cons, Segment.moved, assemble, Tag.directive_moved, ht]
    rfl
  | case4 t rest path escape ht ih =>
    rw [List.map_cons, Segment.moved, assemble, Tag.directive_moved, ht, Except.mapError_map, ← ih]
    rfl
  | case5 t rest name arguments ht ih =>
    rw [List.map_cons, Segment.moved, assemble, Tag.directive_moved, ht]
    show (callNode settings.helpers name arguments (t.line + lines) >>= _) = _
    rw [callNode_moved, Except.mapError_bind]
    simp only [Except.mapError_map, ← ih]
  -- a block: no closing tag, no room for it, and one that is compiled
  | case6 t rest block argument ht e hc =>
    rw [List.map_cons, Segment.moved, Grammar.assemble_opening (Tag.directive_moved_ok _ _ ht),
      Tag.line_moved, closing_moved, hc]
    rfl
  | case7 t rest block argument ht closed after hc hnone =>
    subst hnone
    rw [List.map_cons, Segment.moved, Grammar.assemble_opening (Tag.directive_moved_ok _ _ ht),
      Tag.line_moved, closing_moved, hc]
    rfl
  | case8 t rest block argument ht closed after hc f hf body ih =>
    subst hf
    rw [List.map_cons, Segment.moved, Grammar.assemble_opening (Tag.directive_moved_ok _ _ ht),
      Tag.line_moved, closing_moved, hc]
    show (blockNode _ _ _ _ _ (slice (before ++ source) (t.stop + before.length)
      (closed.start + before.length)) >>= _) = _
    rw [slice_append, (hi _ rfl).blockNode, Except.mapError_bind]
    simp only [Except.mapError_map, ← ih]
    rfl
  -- tags that have no place here
  | case9 t rest keyword ht =>
    rw [List.map_cons, Segment.moved, assemble, Tag.directive_moved, ht]
    rfl
  | case10 t rest directive hv hcall ho hcl ht =>
    rw [List.map_cons, Segment.moved, assemble, Tag.directive_moved, ht]
    cases directive with
    | elseIf => rfl
    | otherwise => rfl
    | «variable» => exact absurd rfl (hv _ _)
    | call => exact absurd rfl (hcall _ _)
    | opening => exact absurd rfl (ho _ _)
    | closing => exact absurd rfl (hcl _)

/-- The compiler of the texts inside of blocks, none where no block may be opened. -/
def innerFragment (settings : Settings) : Nat → Option Fragment
  | 0 => none
  | room + 1 => some (fragment settings room)

theorem fragment_eq (settings : Settings) (room : Nat) (source : List Char) (line : Nat) :
    fragment settings room source line =
      Segment.scan settings.delimiters line 0 source >>=
        assemble settings source (innerFragment settings room) := by
  cases room <;> rfl

theorem movable_fragment (settings : Settings) (room : Nat) : Movable (fragment settings room) := by
  refine Grammar.fragment_induction (fun inner hi source line lines => ?_) room
  have hscan := Segment.scan_moved lines 0 settings.delimiters line 0 source
  dsimp only
  rw [hscan, Except.mapError_bind, Except.mapError_map, Except.map_bind]
  congr 1
  funext segments
  exact assemble_moved lines hi [] source segments

end Stencil
