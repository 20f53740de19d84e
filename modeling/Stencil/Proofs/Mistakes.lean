import Stencil.Proofs.Origins

/-! # Where a mistake is told

What is wrong with a template is told of one of its lines, or it is a helper that is not there or a limit
that is passed. A mistake in a condition is told of the line where the tag with the condition ends; only
if the newline behind that tag is dropped, because other branches follow, it is told of the line below. -/
namespace Stencil
open Compilation Grammar Segment Text.Find

/-! ## Places in a text -/

/-- The part stands in a text that starts on the line, and itself starts on the line `start`. -/
def Stands (source : List Char) (line : Nat) (part : List Char) (start : Nat) : Prop :=
  ∃ before after, source = before ++ part ++ after ∧ start = line + newlines before

theorem Stands.of_prefix {source part shorter : List Char} {line start : Nat}
    (h : Stands source line part start) (hp : shorter <+: part) : Stands source line shorter start := by
  obtain ⟨before, after, rfl, rfl⟩ := h
  obtain ⟨more, rfl⟩ := hp
  exact ⟨before, more ++ after, by simp, rfl⟩

/-- A tag with this directive, and what stands before and after it. By itself, the tag is scanned whole. -/
structure TagAt (d : Delimiters) (source : List Char) (directive : Directive)
    (before body after : List Char) : Prop where
  source_eq : source = before ++ wrapped d body ++ after
  opens : Opens d (wrapped d body) [] body []
  classify_eq : Directive.classify body = .ok directive

/-- A tag that starts a branch is somewhere in the text. -/
def HasBranch (d : Delimiters) (source : List Char) : Prop :=
  ∃ directive before body after, TagAt d source directive before body after ∧
    directive.branch? ≠ none

section
variable {d : Delimiters} {part : List Char}

theorem TagAt.widen {directive : Directive} {before body after : List Char}
    (h : TagAt d part directive before body after) (front back : List Char) :
    TagAt d (front ++ part ++ back) directive (front ++ before) body (after ++ back) := by
  refine ⟨?_, h.opens, h.classify_eq⟩
  rw [h.source_eq]
  simp

theorem HasBranch.append (h : HasBranch d part) (back : List Char) : HasBranch d (part ++ back) := by
  obtain ⟨directive, before, body, after, ht, hb⟩ := h
  exact ⟨directive, _, body, _, ht.widen [] back, hb⟩

end

namespace Segment.Cut

variable {d : Delimiters} {line offset : Nat} {source : List Char} {before after : List Segment} {t : Tag}

theorem source_eq (h : Cut d line offset source (before ++ .tag t :: after)) :
    source = before.flatMap (written d) ++ wrapped d t.body ++ after.flatMap (written d) := by
  rw [← h.flatMap_written, List.flatMap_append, List.flatMap_cons, List.append_assoc]
  rfl

theorem tagAt {directive : Directive} (h : Cut d line offset source (before ++ .tag t :: after))
    (ht : t.directive = .ok directive) :
    TagAt d source directive (before.flatMap (written d)) t.body (after.flatMap (written d)) where
  source_eq := h.source_eq
  opens := h.opens_of_mem (List.mem_append_right before List.mem_cons_self)
  classify_eq := directive_eq_ok_iff.mp ht

/-- The lines of a tag are those of its place. -/
theorem lines_eq (h : Cut d line offset source (before ++ .tag t :: after)) :
    t.line = line + newlines (before.flatMap (written d)) ∧
      t.endLine = line + newlines (before.flatMap (written d) ++ wrapped d t.body) := by
  generalize hs : before ++ .tag t :: after = segments at h
  induction h generalizing before with
  | @plain _ _ source => exact absurd (by simp [← hs]) (tag_not_mem_ofText t source)
  | @tag line offset source plain body rest segments ho hc ih =>
    rcases append_tag_eq_append hs.symm with ⟨rfl, rfl, -⟩ | ⟨more, rfl, hr⟩
    · rw [flatMap_written_ofText, newlines_append, ← Nat.add_assoc]
      exact ⟨rfl, rfl⟩
    · obtain ⟨hline, hend⟩ := ih hr.symm
      rw [hline, hend, List.flatMap_append, List.flatMap_cons, flatMap_written_ofText]
      simp only [newlines_append, tagAfter, written]
      omega

end Segment.Cut

/-! ## Mistakes -/

/-- A mistake that is not one in a condition. -/
def SyntaxFault.Structural : SyntaxFault → Prop
  | .expression _ => False
  | _ => True

/-- The condition that a tag of an `if` or of an `else if` has. -/
def Directive.condition? : Directive → Option String
  | .opening .conditional condition => some condition
  | .elseIf condition => some condition
  | _ => none

/-- The line on which a text that starts on `line` tells of a mistake in a condition. -/
inductive Reported (d : Delimiters) (source : List Char) (line : Nat) (fault : ExpressionFault)
    (told : Nat) : Prop
  /-- The line where the tag ends. -/
  | at_end {directive condition before body after} : TagAt d source directive before body after →
      directive.condition? = some condition → Condition.parse condition = .error fault →
      told = line + newlines (before ++ wrapped d body) → Reported d source line fault told
  /-- The line below, for an `if` with a newline behind its tag and a second branch. -/
  | below {condition before body after} :
      TagAt d source (.opening .conditional condition) before body ('\n' :: after) →
      HasBranch d after → Condition.parse condition = .error fault →
      told = line + newlines (before ++ wrapped d body) + 1 → Reported d source line fault told

/-- What can be wrong with a text that starts on the line. -/
inductive Amiss (settings : Settings) (source : List Char) (line : Nat) : Error → Prop
  | structural {before after fault} : source = before ++ after → fault.Structural →
      Amiss settings source line (.located (line + newlines before) fault)
  | condition {told fault} : Reported settings.delimiters source line fault told →
      Amiss settings source line (.located told (.expression fault))
  | undefinedHelper {name} : settings.helpers.get? name = none →
      Amiss settings source line (.undefinedHelper name)
  | nestingTooDeep : Amiss settings source line (.nestingTooDeep settings.maxDepth)

section
variable {d : Delimiters} {settings : Settings} {source part : List Char} {line start told : Nat}

theorem Reported.of_stands {fault : ExpressionFault} (h : Reported d part start fault told)
    (hs : Stands source line part start) : Reported d source line fault told := by
  obtain ⟨front, back, rfl, rfl⟩ := hs
  have hlines : ∀ s, line + newlines front + newlines s = line + newlines (front ++ s) := by
    intro s
    rw [newlines_append, Nat.add_assoc]
  cases h with
  | at_end ht hc hf htold =>
    refine .at_end (ht.widen front back) hc hf ?_
    rw [htold, hlines, List.append_assoc]
  | below ht hb hf htold =>
    refine .below (ht.widen front back) (hb.append back) hf ?_
    rw [htold, hlines, List.append_assoc]

theorem Amiss.of_stands {e : Error} (h : Amiss settings part start e)
    (hs : Stands source line part start) : Amiss settings source line e := by
  cases h with
  | @structural before after fault hpart hf =>
    obtain ⟨front, back, rfl, rfl⟩ := hs
    have hsource : front ++ part ++ back = front ++ before ++ (after ++ back) := by simp [hpart]
    rw [Nat.add_assoc, ← newlines_append]
    exact .structural hsource hf
  | condition hr => exact .condition (hr.of_stands hs)
  | undefinedHelper hn => exact .undefinedHelper hn
  | nestingTooDeep => exact .nestingTooDeep

end

/-! ## Scanning and searching -/

theorem Segment.Blames.structural {d : Delimiters} {source before : List Char} {fault : SyntaxFault}
    (h : Blames d source before fault) : before <+: source ∧ fault.Structural := by
  rcases h with ⟨rfl, hp⟩ | ⟨rfl | rfl, hp⟩
  all_goals exact ⟨(List.prefix_append before _).trans hp, trivial⟩

theorem amiss_of_scan {settings : Settings} {source : List Char} {line offset : Nat} {e : Error}
    (h : scan settings.delimiters line offset source = .error e) : Amiss settings source line e := by
  obtain ⟨before, fault, hstops, rfl⟩ := scan_eq_error_iff.mp h
  obtain ⟨⟨after, rfl⟩, hf⟩ := hstops.blames.structural
  exact .structural rfl hf

namespace Directive

variable {fault : SyntaxFault}

theorem required_structural {keyword : String} {argument : List Char}
    (h : required keyword argument = .error fault) : fault.Structural := by
  unfold required at h
  split at h
  · cases h
    exact trivial
  · cases h

theorem variableOf_structural {escape : Bool} {name : List Char}
    (h : variableOf escape name = .error fault) : fault.Structural := by
  unfold variableOf at h
  split at h
  · cases h
    exact trivial
  · split at h
    · cases h
      exact trivial
    · split at h
      · cases h
      · cases h
        exact trivial

theorem reservedOf_structural {escape : Bool} {name : List Char}
    (h : reservedOf escape name = .error fault) : fault.Structural := by
  unfold reservedOf at h
  split at h
  · cases h
  · cases h
    exact trivial

theorem elseOf_structural {tail : List Char} (h : elseOf tail = .error fault) : fault.Structural := by
  unfold elseOf at h
  split at h
  · cases h
  · split at h
    · cases h
      exact trivial
    · exact required_structural (Except.map_eq_error_iff.mp h)

theorem wordOf_structural {body : List Char} (h : wordOf body = .error fault) : fault.Structural := by
  unfold wordOf at h
  split at h
  · exact required_structural (Except.map_eq_error_iff.mp h)
  · exact required_structural (Except.map_eq_error_iff.mp h)
  · exact required_structural (Except.map_eq_error_iff.mp h)
  · exact elseOf_structural h
  · exact variableOf_structural h

theorem classify_structural {body : List Char} (h : classify body = .error fault) :
    fault.Structural := by
  unfold classify at h
  split at h
  · cases h
    exact trivial
  · cases h
  · unfold callOf at h
    split at h
    · cases h
    · cases h
      exact trivial
  · exact reservedOf_structural h
  · exact reservedOf_structural h
  · exact variableOf_structural h
  · exact wordOf_structural h

end Directive

/-- The error is told of one of the tags. -/
def ToldOf (segments : List Segment) (e : Error) : Prop :=
  ∃ t fault, .tag t ∈ segments ∧ fault.Structural ∧ e = .located t.line fault

namespace ToldOf

variable {s : Segment} {segments rest : List Segment} {t : Tag} {e : Error}

theorem cons (h : ToldOf rest e) (s : Segment) : ToldOf (s :: rest) e := by
  obtain ⟨t, fault, ht, hf⟩ := h
  exact ⟨t, fault, List.mem_cons_of_mem s ht, hf⟩

theorem first {fault : SyntaxFault} (h : fault.Structural) :
    ToldOf (.tag t :: rest) (.located t.line fault) :=
  ⟨t, fault, List.mem_cons_self, h, rfl⟩

theorem of_directive (h : t.directive = .error e) : ToldOf (.tag t :: rest) e := by
  obtain ⟨fault, hf, rfl⟩ := Except.mapError_eq_error_iff.mp h
  exact first (Directive.classify_structural hf)

theorem amiss {settings : Settings} {source : List Char} {line offset : Nat} (h : ToldOf segments e)
    (before : List Segment) (hc : Cut settings.delimiters line offset source (before ++ segments)) :
    Amiss settings source line e := by
  obtain ⟨t, fault, ht, hf, rfl⟩ := h
  obtain ⟨front, after, rfl⟩ := List.append_of_mem ht
  rw [← List.append_assoc] at hc
  rw [hc.lines_eq.1]
  exact .structural (hc.source_eq.trans (List.append_assoc ..)) hf

end ToldOf

theorem closing_told {block : Block} {line depth : Nat} {segments : List Segment} {e : Error}
    (h : closing block line depth segments = .error e) :
    e = .located line (.unclosed block.keyword) ∨ ToldOf segments e := by
  fun_induction closing block line depth segments with
  | case1 =>
    cases h
    exact .inl rfl
  | case2 depth chars rest ih => exact (ih h).imp_right fun hr => hr.cons _
  | case3 depth t rest e' hd =>
    cases h
    exact .inr (.of_directive hd)
  | case4 =>
    cases h
    exact .inr (.first trivial)
  | case5 => cases h
  | case6 =>
    cases h
    exact .inr (.first trivial)
  | case7 depth tag rest keyword hd closed hc ih => exact (ih h).imp_right fun hr => hr.cons _
  | case8 depth tag rest directive hn hd ih => exact (ih h).imp_right fun hr => hr.cons _

namespace Branch

theorem markers_told {depth : Nat} {segments : List Segment} {e : Error}
    (h : markers depth segments = .error e) : ToldOf segments e := by
  fun_induction markers depth segments with
  | case1 => cases h
  | case2 =>
    rename_i ih
    exact (ih h).cons _
  | case3 depth t rest e' hd =>
    cases h
    exact .of_directive hd
  | case4 =>
    rename_i ih
    exact (ih (Except.map_eq_error_iff.mp h)).cons _
  | case5 =>
    rename_i ih
    exact (ih h).cons _

theorem mem_of_beyondElse? {found : List Marker} {marker : Marker}
    (h : beyondElse? found = some marker) : marker ∈ found := by
  fun_induction beyondElse? found with
  | case1 =>
    cases h
    exact List.mem_cons_of_mem _ List.mem_cons_self
  | case2 =>
    rename_i ih
    exact List.mem_cons_of_mem _ (ih h)
  | case3 => cases h

/-! ## Branches -/

/-- Where a branch of a body comes from: its text stands in the body, and its condition is that of the
block or that of a tag in the body. -/
structure Placed (d : Delimiters) (argument : String) (raw : List Char) (line : Nat)
    (branch : Branch) : Prop where
  stands : Stands raw line branch.body branch.line
  condition : ∀ source, branch.condition = some source →
    (source = argument ∧ (branch.line = line ∨
      branch.line = line + 1 ∧ ∃ more, raw = '\n' :: more ∧ HasBranch d more)) ∨
    ∃ before body after, TagAt d raw (.elseIf source) before body after ∧
      branch.line = line + newlines (before ++ wrapped d body)

variable {d : Delimiters} {argument : String} {raw : List Char} {line : Nat}

theorem placed_of_first {front back : List Char} (hraw : raw = front ++ back) (hb : HasBranch d back) :
    (first argument front line).Placed d argument raw line := by
  subst hraw
  have condition_eq : ∀ {source}, (some argument : Option String) = some source → source = argument := by
    rintro source ⟨⟩
    rfl
  unfold first
  split
  · rename_i rest
    refine ⟨⟨['\n'], back, rfl, rfl⟩, fun source hs => .inl ⟨condition_eq hs, .inr ⟨rfl, _, rfl, ?_⟩⟩⟩
    obtain ⟨directive, before, body, after, ht, hsome⟩ := hb
    have hwide := ht.widen rest []
    rw [List.append_nil] at hwide
    exact ⟨directive, _, body, _, hwide, hsome⟩
  · exact ⟨⟨[], back, rfl, rfl⟩, fun source hs => .inl ⟨condition_eq hs, .inl rfl⟩⟩

theorem placed_of_later {before : List Segment} {parts : List Part}
    (hc : Cut d line 0 raw (before ++ joined parts)) (hm : ∀ part ∈ parts, Marks part.1) :
    ∀ branch ∈ later raw (parts.map (·.1)), branch.Placed d argument raw line := by
  induction parts generalizing before with
  | nil => exact nofun
  | cons part parts ih =>
    have hbody := (cut_of_joined hc).flatMap_written
    obtain ⟨⟨directive, hd, hbranch⟩, hm⟩ := List.forall_mem_cons.mp hm
    have htag := hc
    rw [joined_cons] at htag
    have hend := htag.lines_eq.2
    have hraw := htag.source_eq
    rw [List.flatMap_append] at hraw
    rw [append_joined_cons] at hc
    rw [List.map_cons, later, List.forall_mem_cons]
    refine ⟨⟨?_, fun source hs => .inr ⟨_, _, _, htag.tagAt (hd.trans ?_), hend⟩⟩, ih hc hm⟩
    · have hstands : Stands raw line (part.2.flatMap (written d)) part.1.tag.endLine :=
        ⟨_, _, hraw.trans (List.append_assoc ..).symm, hend⟩
      rw [hbody] at hstands
      exact hstands.of_prefix (withoutLastNewline_isPrefix _)
    · have hsource : directive.branch? = some (some source) := by
        rw [hbranch]
        exact congrArg some hs
      cases directive with
      | elseIf condition =>
        cases hsource
        rfl
      | _ => cases hsource

theorem placed_of_split {branches : List Branch} (h : split d argument raw line = .ok branches) :
    ∀ branch ∈ branches, branch.Placed d argument raw line := by
  obtain ⟨segments, found, hs, hf, -, rfl⟩ := split_eq_ok_iff.mp h
  obtain ⟨front, parts, hsplits, rfl⟩ := splits_of_markers hf
  have hc := cut_of_scan hs
  rw [hsplits.eq_append] at hc
  cases parts with
  | nil =>
    refine List.forall_mem_singleton.mpr ⟨⟨[], [], by simp, rfl⟩, fun source hs => ?_⟩
    cases hs
    exact .inl ⟨rfl, .inl rfl⟩
  | cons part parts =>
    have htag := hc
    rw [joined_cons] at htag
    obtain ⟨directive, hd, hbranch⟩ := hsplits.marks part List.mem_cons_self
    have hraw := htag.source_eq
    rw [htag.before.flatMap_written, List.append_assoc] at hraw
    have hback : HasBranch d (wrapped d part.1.tag.body ++
        (part.2 ++ joined parts).flatMap (written d)) := by
      refine ⟨directive, [], _, _, ⟨rfl, htag.opens_of_mem ?_, directive_eq_ok_iff.mp hd⟩, ?_⟩
      · exact List.mem_append_right _ List.mem_cons_self
      rw [hbranch]
      exact Option.some_ne_none _
    rw [List.map_cons, branchesOf, List.forall_mem_cons]
    exact ⟨placed_of_first hraw hback, placed_of_later hc hsplits.marks⟩

theorem amiss_of_split {settings : Settings} {e : Error}
    (h : split settings.delimiters argument raw line = .error e) : Amiss settings raw line e := by
  unfold split at h
  rcases Except.bind_eq_error_iff.mp h with hs | ⟨segments, hs, h⟩
  · exact amiss_of_scan hs
  · have hc := cut_of_scan hs
    rcases Except.bind_eq_error_iff.mp h with hm | ⟨found, hf, h⟩
    · exact (markers_told hm).amiss [] hc
    · split at h
      · rename_i marker hbeyond
        cases h
        obtain ⟨front, parts, hsplits, rfl⟩ := splits_of_markers hf
        obtain ⟨part, hpart, rfl⟩ := List.mem_map.mp (mem_of_beyondElse? hbeyond)
        have hmem : .tag part.1.tag ∈ segments := by
          rw [hsplits.eq_append]
          exact List.mem_append_right _ (List.mem_flatMap.mpr ⟨part, hpart, List.mem_cons_self⟩)
        exact ToldOf.amiss ⟨_, .elseNotLast, hmem, trivial, rfl⟩ [] hc
      · cases h
      · cases h

end Branch

/-! ## Blocks and texts -/

/-- What is wrong with a text is told of it. -/
def Truthful (settings : Settings) (f : Fragment) : Prop :=
  ∀ source line e, f source line = .error e → Amiss settings source line e

variable {settings : Settings} {source : List Char} {line : Nat} {e : Error}

theorem TagAt.behind {d : Delimiters} {directive : Directive} {before body part after : List Char}
    (h : TagAt d source directive before body (part ++ after)) :
    Stands source line part (line + newlines (before ++ wrapped d body)) := by
  refine ⟨before ++ wrapped d body, after, ?_, rfl⟩
  rw [h.source_eq, List.append_assoc _ part]

/-- The condition of a branch is told of the tag that it comes from. -/
theorem Branch.Placed.reported {branch : Branch} {condition argument : String} {fault : ExpressionFault}
    {before body raw after : List Char}
    (h : branch.Placed settings.delimiters argument raw
      (line + newlines (before ++ wrapped settings.delimiters body)))
    (ht : TagAt settings.delimiters source (.opening .conditional argument) before body (raw ++ after))
    (hc : branch.condition = some condition) (hf : Condition.parse condition = .error fault) :
    Reported settings.delimiters source line fault branch.line := by
  rcases h.condition condition hc with ⟨rfl, hline | ⟨hline, more, rfl, hb⟩⟩ | ⟨_, _, _, helse, hline⟩
  · exact .at_end ht rfl hf hline
  · exact .below ht (hb.append after) hf hline
  · exact Reported.of_stands (.at_end helse rfl hf hline) ht.behind

theorem parsed_eq_error {branch : Branch} {fault : ExpressionFault}
    (h : branch.parsed = .error fault) :
    ∃ condition, branch.condition = some condition ∧ Condition.parse condition = .error fault := by
  unfold Branch.parsed at h
  split at h
  · rename_i condition hc
    exact ⟨condition, hc, Except.map_eq_error_iff.mp h⟩
  · cases h

theorem arm_eq_error {f : Fragment} {branch : Branch} (h : arm f branch = .error e) :
    (∃ condition fault, branch.condition = some condition ∧ Condition.parse condition = .error fault ∧
        e = .located branch.line (.expression fault)) ∨
      f branch.body branch.line = .error e := by
  rcases Except.bind_eq_error_iff.mp h with hp | ⟨_, -, h⟩
  · obtain ⟨fault, hparsed, rfl⟩ := Except.mapError_eq_error_iff.mp hp
    obtain ⟨condition, hc, hf⟩ := parsed_eq_error hparsed
    exact .inl ⟨condition, fault, hc, hf, rfl⟩
  · exact .inr (Except.bind_ok_eq_error_iff.mp h)

theorem loopSource_structural {argument : String} {fault : SyntaxFault}
    (h : loopSource argument = .error fault) : fault.Structural := by
  unfold loopSource at h
  split at h
  · cases h
    exact trivial
  · obtain ⟨unknown, -, rfl⟩ := Except.mapError_eq_error_iff.mp h
    exact trivial

theorem Truthful.blockNode {f : Fragment} (hf : Truthful settings f) {block : Block}
    {argument : String} {opened : Tag} {before raw after : List Char}
    (ht : TagAt settings.delimiters source (.opening block argument) before opened.body (raw ++ after))
    (hline : opened.line = line + newlines before)
    (hend : opened.endLine = line + newlines (before ++ wrapped settings.delimiters opened.body))
    (h : blockNode settings.delimiters f block argument opened raw = .error e) :
    Amiss settings source line e := by
  unfold Compilation.blockNode at h
  rw [hline, hend] at h
  cases block with
  | conditional =>
    rcases Except.bind_eq_error_iff.mp h with hs | ⟨branches, hs, h⟩
    · exact (Branch.amiss_of_split hs).of_stands ht.behind
    · obtain ⟨branch, hmem, ha⟩ :=
        Except.exists_of_mapM_eq_error (Except.bind_ok_eq_error_iff.mp h)
      have hplaced := Branch.placed_of_split hs branch hmem
      rcases arm_eq_error ha with ⟨condition, fault, hc, hparse, rfl⟩ | hbody
      · exact .condition (hplaced.reported ht hc hparse)
      · exact ((hf _ _ _ hbody).of_stands hplaced.stands).of_stands ht.behind
  | loop =>
    rcases Except.bind_eq_error_iff.mp h with hs | ⟨path, -, h⟩
    · obtain ⟨fault, hsource, rfl⟩ := Except.mapError_eq_error_iff.mp hs
      exact .structural (ht.source_eq.trans (List.append_assoc ..)) (loopSource_structural hsource)
    · exact (hf _ _ _ (Except.bind_ok_eq_error_iff.mp h)).of_stands ht.behind

theorem callNode_eq_error {name : String} {arguments : List String} {t : Tag} {rest : List Segment}
    (h : callNode settings.helpers name arguments t.line = .error e) :
    settings.helpers.get? name = none ∧ e = .undefinedHelper name ∨ ToldOf (.tag t :: rest) e := by
  unfold callNode at h
  split at h
  · rename_i hn
    cases h
    exact .inl ⟨hn, rfl⟩
  · obtain ⟨unknown, -, rfl⟩ :=
      Except.mapError_eq_error_iff.mp (Except.bind_ok_eq_error_iff.mp h)
    exact .inr (.first trivial)

theorem amiss_of_assemble {inner : Option Fragment} (hi : ∀ f, inner = some f → Truthful settings f)
    (before : List Segment) {segments : List Segment}
    (hc : Cut settings.delimiters line 0 source (before ++ segments))
    (h : assemble settings source inner segments = .error e) : Amiss settings source line e := by
  have further : ∀ {rest : Except Error (List Node)} {node : Node},
      rest.map (node :: ·) = .error e → rest = .error e := Except.map_eq_error_iff.mp
  fun_induction assemble settings source inner segments generalizing before with
  | case1 => cases h
  | case2 chars rest ih => exact ih (before ++ [.text chars]) (by simpa using hc) (further h)
  | case3 t rest e' ht =>
    cases h
    exact (ToldOf.of_directive ht).amiss before hc
  | case4 t rest path escape ht ih => exact ih (before ++ [.tag t]) (by simpa using hc) (further h)
  | case5 t rest name arguments ht ih =>
    rcases Except.bind_eq_error_iff.mp h with hn | ⟨node, -, h⟩
    · rcases callNode_eq_error hn with ⟨hnone, rfl⟩ | ht
      · exact .undefinedHelper hnone
      · exact ht.amiss before hc
    · exact ih (before ++ [.tag t]) (by simpa using hc) (further h)
  -- a block: no closing tag, no room for it, and one that is compiled
  | case6 opened rest block argument ht e' hclosing =>
    cases h
    rcases closing_told hclosing with rfl | hrest
    · exact ToldOf.amiss (.first trivial) before hc
    · exact (hrest.cons _).amiss before hc
  | case7 opened rest block argument ht closed after hclosing hnone =>
    cases h
    exact .nestingTooDeep
  | case8 opened rest block argument ho closed after hclosing f hinner body ih =>
    subst hinner
    obtain ⟨inside, keyword, rfl, -, -⟩ := closing_eq_ok hclosing
    rcases Except.bind_eq_error_iff.mp h with hn | ⟨node, -, h⟩
    · have ht := hc.tagAt ho
      rw [List.flatMap_append, hc.between.flatMap_written] at ht
      exact (hi f rfl).blockNode ht hc.lines_eq.1 hc.lines_eq.2 hn
    · exact ih (before ++ .tag opened :: (inside ++ [.tag closed])) (by simpa using hc) (further h)
  -- tags that have no place here
  | case9 =>
    cases h
    exact ToldOf.amiss (.first trivial) before hc
  | case10 =>
    cases h
    exact ToldOf.amiss (.first trivial) before hc

theorem truthful_fragment (settings : Settings) (room : Nat) :
    Truthful settings (fragment settings room) := by
  refine fragment_induction (fun inner hi source line e h => ?_) room
  rcases Except.bind_eq_error_iff.mp h with hs | ⟨segments, hs, h⟩
  · exact amiss_of_scan hs
  · exact amiss_of_assemble hi [] (cut_of_scan hs) h

theorem amiss_of_compile {settings : Settings} {source : String} {e : Error}
    (h : compile settings source = .error e) : Amiss settings source.toList 1 e :=
  truthful_fragment settings settings.maxDepth source.toList 1 e h

/-! ## What a reader is told -/

/-- An error that is told of a line is told of a line of the text. -/
theorem Amiss.line_le {settings : Settings} {source : List Char} {line told : Nat} {fault : SyntaxFault}
    (h : Amiss settings source line (.located told fault)) :
    line ≤ told ∧ told ≤ line + newlines source := by
  cases h with
  | structural hsource =>
    rw [hsource, newlines_append]
    omega
  | condition hr =>
    cases hr with
    | at_end ht _ _ htold =>
      simp only [htold, ht.source_eq, newlines_append]
      omega
    | @below _ before body after ht _ _ htold =>
      have hbehind : newlines ('\n' :: after) = newlines after + 1 := List.count_cons_self
      simp only [htold, ht.source_eq, newlines_append, hbehind]
      omega

/-- A template that is not compiled has a mistake on one of its lines, calls a helper that is not there
or nests its blocks too deep. -/
theorem compile_error {settings : Settings} {source : String} {e : Error}
    (h : compile settings source = .error e) :
    (∃ line fault, e = .located line fault ∧ 1 ≤ line ∧ line ≤ 1 + newlines source.toList) ∨
      (∃ name, settings.helpers.get? name = none ∧ e = .undefinedHelper name) ∨
      e = .nestingTooDeep settings.maxDepth := by
  have hamiss := amiss_of_compile h
  cases e with
  | located line fault =>
    obtain ⟨hfirst, hlast⟩ := hamiss.line_le
    exact .inl ⟨line, fault, rfl, hfirst, hlast⟩
  | undefinedHelper name =>
    cases hamiss with
    | undefinedHelper hn => exact .inr (.inl ⟨name, hn, rfl⟩)
  | nestingTooDeep limit =>
    cases hamiss
    exact .inr (.inr rfl)
  | expression => nomatch hamiss
  | helper => nomatch hamiss
  | context => nomatch hamiss

theorem compile_error_nested :
    ∃ (settings : Settings) (source : String) (e : Error), compile settings source = .error e ∧
      ((∃ line fault, e = .located line fault ∧ 1 ≤ line ∧ line ≤ 1 + newlines source.toList) ∨
        (∃ name, settings.helpers.get? name = none ∧ e = .undefinedHelper name) ∨
        e = .nestingTooDeep settings.maxDepth) := by
  have h : compile {} "\x7b\x7bfor a\x7d\x7d\n\x7b\x7belse\x7d\x7d\x7b\x7b/for\x7d\x7d" =
      .error (.located 2 .strayElse) := by
    with_unfolding_all rfl
  exact ⟨_, _, _, h, compile_error h⟩

/-- A mistake in a condition is told of the line where its tag ends, or of the line below. -/
theorem compile_condition_error {settings : Settings} {source : String} {line : Nat}
    {fault : ExpressionFault} (h : compile settings source = .error (.located line (.expression fault))) :
    Reported settings.delimiters source.toList 1 fault line := by
  cases amiss_of_compile h with
  | structural _ hf => exact hf.elim
  | condition hr => exact hr

theorem compile_condition_error_nested :
    ∃ source line fault, compile {} source = .error (.located line (.expression fault)) ∧
      Reported {} source.toList 1 fault line := by
  have h : compile {} "\x7b\x7bfor a\x7d\x7d\n\x7b\x7bif b >\x7d\x7d\x7b\x7b/if\x7d\x7d\x7b\x7b/for\x7d\x7d" =
      .error (.located 2 (.expression (.missingRight .gt "b >"))) := by
    with_unfolding_all rfl
  exact ⟨_, _, _, h, compile_condition_error h⟩

/-- The line can be one that the tag is not on. -/
theorem condition_error_below_tag :
    ∃ source tag segments fault,
      scan {} 1 0 source.toList = .ok (.tag tag :: segments) ∧
      tag.directive = .ok (.opening .conditional "a >") ∧ Condition.parse "a >" = .error fault ∧
      compile {} source = .error (.located 2 (.expression fault)) ∧ tag.line = 1 ∧ tag.endLine = 1 := by
  have hscan : scan {} 1 0 "\x7b\x7bif a >\x7d\x7d\nx\x7b\x7belse\x7d\x7dy\x7b\x7b/if\x7d\x7d".toList =
      .ok [.tag ⟨"if a >".toList, 0, 10, 1, 1⟩, .text "\nx".toList,
        .tag ⟨"else".toList, 12, 20, 2, 2⟩, .text ['y'], .tag ⟨"/if".toList, 21, 28, 2, 2⟩] := by
    with_unfolding_all rfl
  have herror : compile {} "\x7b\x7bif a >\x7d\x7d\nx\x7b\x7belse\x7d\x7dy\x7b\x7b/if\x7d\x7d" =
      .error (.located 2 (.expression (.missingRight .gt "a >"))) := by
    with_unfolding_all rfl
  have hopened : Tag.directive ⟨"if a >".toList, 0, 10, 1, 1⟩ = .ok (.opening .conditional "a >") := by
    with_unfolding_all rfl
  have hparse : Condition.parse "a >" = .error (.missingRight .gt "a >") := by
    with_unfolding_all rfl
  exact ⟨_, _, _, _, hscan, hopened, hparse, herror, rfl, rfl⟩

end Stencil
