import Mathlib.Data.List.Forall2
import Stencil.Proofs.Moved

/-! # What the cleanup of a branch leaves of its tags

A branch loses a newline at one of its ends as text, after the scan that has found its tags. Where that
newline is not part of a delimiter, a scan of what is left finds the same tags again. A tag whose right
delimiter has lost its newline is not closed any more. -/
namespace Stencil
open Segment Grammar Text.Find

variable {d : Delimiters} {line offset : Nat} {source : List Char} {segments : List Segment}

namespace Segment

/-- The bodies of the tags, in order. -/
def bodies (segments : List Segment) : List (List Char) :=
  segments.filterMap fun
    | .text _ => none
    | .tag t => some t.body

theorem bodies_append (segments more : List Segment) :
    bodies (segments ++ more) = bodies segments ++ bodies more :=
  List.filterMap_append

theorem bodies_text_cons (chars : List Char) (segments : List Segment) :
    bodies (.text chars :: segments) = bodies segments :=
  rfl

theorem bodies_ofText (chars : List Char) : bodies (ofText chars) = [] := by
  cases chars <;> rfl

theorem bodies_moved (lines chars : Nat) (segments : List Segment) :
    bodies (segments.map (moved lines chars)) = bodies segments := by
  unfold bodies
  rw [List.filterMap_map]
  congr 1
  funext s
  cases s <;> rfl

/-- A scan of the text finds the tags of these segments, wherever the text stands. -/
def Rescans (d : Delimiters) (text : List Char) (segments : List Segment) : Prop :=
  ∀ line offset, ∃ found, scan d line offset text = .ok found ∧ bodies found = bodies segments

/-- A scan of the text finds a tag without an end, wherever the text stands. -/
def Unclosed (d : Delimiters) (text : List Char) : Prop :=
  ∀ line offset, ∃ told, scan d line offset text = .error (.located told .unterminated)

theorem scan_eq_moved (d : Delimiters) (line offset : Nat) (source : List Char) :
    scan d line offset source =
      ((scan d 0 0 source).map (·.map (moved line offset))).mapError (Error.moved line) := by
  have h := scan_moved line offset d 0 0 source
  rwa [Nat.zero_add, Nat.zero_add] at h

theorem Cut.rescans (h : Cut d line offset source segments) : Rescans d source segments := by
  intro line' offset'
  obtain ⟨there, hthere, rfl⟩ : ∃ there, Cut d 0 0 source there ∧ segments = there.map (moved line offset) :=
    Cut.of_moved (by rwa [Nat.zero_add, Nat.zero_add])
  have hscan := scan_of_cut (hthere.map_moved line' offset')
  rw [Nat.zero_add, Nat.zero_add] at hscan
  exact ⟨_, hscan, by rw [bodies_moved, bodies_moved]⟩

theorem Rescans.bodies_eq {found : List Segment} (h : Rescans d source segments)
    (hs : scan d line offset source = .ok found) : bodies found = bodies segments := by
  obtain ⟨_, hs', hb⟩ := h line offset
  obtain rfl := Except.ok.inj (hs.symm.trans hs')
  exact hb

theorem unclosed_of_scan {told : Nat}
    (h : scan d line offset source = .error (.located told .unterminated)) : Unclosed d source := by
  intro line' offset'
  rw [scan_eq_moved] at h ⊢
  cases hthere : scan d 0 0 source with
  | ok there =>
    rw [hthere] at h
    cases h
  | error e =>
    rw [hthere] at h
    cases e with
    | located line fault =>
      cases h
      exact ⟨_, rfl⟩
    | _ => cases h

/-! ## A tag without its last character -/

theorem Opens.step_dropLast {plain body s : List Char} {c : Char}
    (h : Opens d (s ++ [c]) plain body []) : step d s = .fault plain .unterminated := by
  obtain ⟨right, x, hright⟩ := (List.eq_nil_or_concat d.right).resolve_left d.right_ne_nil
  obtain rfl : s = plain ++ d.left ++ (body ++ right) := by
    have hall : s ++ [c] = plain ++ d.left ++ (body ++ right) ++ [x] := by
      rw [h.source_eq, hright]
      simp [List.append_assoc]
    exact (List.append_inj' hall rfl).1
  have hshort : plain ++ d.left ++ (body ++ right) <+: plain ++ d.left ++ (body ++ right) ++ [c] :=
    List.prefix_append _ _
  have hleft : breakOn d.left (plain ++ d.left ++ (body ++ right)) = some (plain, body ++ right) :=
    breakOn_of_clear d.left_ne_nil (h.left_clear.of_prefix hshort)
  -- the right delimiter occurs behind the body at the earliest, where one character is missing
  have hopened : breakOn d.right (body ++ right) = none := by
    refine (breakOn_eq_none_iff d.right_ne_nil).mpr (h.body_clear.not_infix_of_lt ?_ ?_)
    · rw [hright, List.concat_eq_append, List.append_nil, ← List.append_assoc]
      exact List.prefix_append _ _
    · rw [hright]
      simp
  rw [step, hleft]
  dsimp only
  rw [beforeStray?_some_iff.mpr (h.right_clear.of_prefix hshort)]
  dsimp only
  rw [hopened]

theorem Cut.scan_dropLast {s : List Char} {c : Char} {init : List Segment} {t : Tag}
    (h : Cut d line offset (s ++ [c]) (init ++ [.tag t])) :
    scan d line offset s = .error (.located t.line .unterminated) := by
  generalize hs : s ++ [c] = source at h
  generalize ht : init ++ [.tag t] = segments at h
  induction h generalizing s init with
  | @plain _ _ source => exact absurd (by simp [← ht]) (tag_not_mem_ofText t source)
  | @tag line offset source plain body rest segments ho hc ih =>
    rcases append_tag_eq_append ht.symm with ⟨-, rfl, rfl⟩ | ⟨more, rfl, hmore⟩
    · obtain rfl : rest = [] := hc.flatMap_written.symm
      subst hs
      rw [scan_eq, ho.step_dropLast]
      rfl
    · rcases List.eq_nil_or_concat rest with rfl | ⟨less, x, rfl⟩
      · have hnil := hmore ▸ hc.of_nil
        simp at hnil
      · obtain rfl : s = plain ++ (d.left ++ body ++ d.right) ++ less := by
          have hall := hs.trans ho.source_eq
          rw [List.concat_eq_append, ← List.append_assoc] at hall
          exact (List.append_inj' hall rfl).1
        have hlast : c = x := by
          have hall := congrArg List.getLast? (hs.trans ho.source_eq)
          simpa using hall
        rw [scan_of_opens (ho.of_prefix ⟨[x], by simp⟩), ih (by simp [hlast]) hmore.symm]
        rfl

end Segment

/-- No newline is at the outer end of a delimiter. -/
structure Delimiters.Firm (d : Delimiters) : Prop where
  left : d.left.head? ≠ some '\n'
  right : d.right.getLast? ≠ some '\n'

namespace Branch

/-! ## One branch -/

/-- What the cleanup leaves of a part of a body: a text with the tags of the part, unless the newline
that it takes off belongs to a delimiter. -/
inductive Cleaned (d : Delimiters) (part : List Segment) (text : List Char) : Prop
  | whole : Rescans d text part → Cleaned d part text
  | front : NewlineOpens d part → part.flatMap (written d) = '\n' :: text → Cleaned d part text
  | back : NewlineCloses d part → part.flatMap (written d) = text ++ ['\n'] → Unclosed d text →
      Cleaned d part text

theorem cleaned_first (argument : String) (at' : Nat) (h : Cut d line offset source segments) :
    Cleaned d segments (first argument source at').body := by
  unfold first
  split
  · rename_i rest
    by_cases hn : NewlineOpens d segments
    · exact .front hn h.flatMap_written
    · obtain ⟨chars, more, rfl, hcut⟩ := h.of_cons_newline hn
      refine .whole fun line offset => ?_
      obtain ⟨found, hs, hb⟩ := hcut.rescans line offset
      refine ⟨found, hs, hb.trans ?_⟩
      rw [bodies_append, bodies_ofText, List.nil_append, bodies_text_cons]
  · exact .whole h.rescans

theorem cleaned_withoutLastNewline (h : Cut d line offset source segments) :
    Cleaned d segments (withoutLastNewline source) := by
  unfold withoutLastNewline
  split
  · rename_i hlast
    obtain ⟨s, rfl⟩ := List.getLast?_eq_some_iff.mp hlast
    rw [List.dropLast_concat]
    by_cases hn : NewlineCloses d segments
    · refine .back hn h.flatMap_written ?_
      obtain ⟨-, init, t, rfl⟩ := hn
      exact unclosed_of_scan h.scan_dropLast
    · obtain ⟨init, chars, rfl, hcut⟩ := h.of_append_newline hn
      refine .whole fun line offset => ?_
      obtain ⟨found, hs, hb⟩ := hcut.rescans line offset
      refine ⟨found, hs, hb.trans ?_⟩
      rw [bodies_append, bodies_append, bodies_ofText, bodies_text_cons]
      rfl
  · exact .whole h.rescans

theorem Cleaned.rescans {part : List Segment} {text : List Char} (h : Cleaned d part text)
    (hd : d.Firm) : Rescans d text part := by
  cases h with
  | whole h => exact h
  | front h => exact absurd h.1 hd.left
  | back h => exact absurd h.1 hd.right

/-- What has lost the end of a tag does not scan. A text that scans has kept its tags, unless it has lost the
front of one. -/
theorem Cleaned.rescans_of_scan {part : List Segment} {text : List Char} (h : Cleaned d part text)
    (hleft : d.left.head? ≠ some '\n') {found : List Segment} (hs : scan d line offset text = .ok found) :
    Rescans d text part := by
  cases h with
  | whole h => exact h
  | front h => exact absurd h.1 hleft
  | back _ _ hunclosed =>
    obtain ⟨told, he⟩ := hunclosed line offset
    cases hs.symm.trans he

/-! ## All branches -/

theorem cleaned_split {argument : String} {at' : Nat} {branches : List Branch}
    (h : split d argument source at' = .ok branches) :
    ∃ segments first parts, scan d at' 0 source = .ok segments ∧
      markers 0 segments = .ok (parts.map (·.1)) ∧ Splits segments first parts ∧
      List.Forall₂ (fun branch part => Cleaned d part branch.body) branches
        (first :: parts.map (·.2)) := by
  obtain ⟨segments, found, hs, hf, -, rfl⟩ := split_eq_ok_iff.mp h
  obtain ⟨first, parts, hsplits, rfl⟩ := splits_of_markers hf
  have hc := cut_of_scan hs
  rw [hsplits.eq_append] at hc
  refine ⟨segments, first, parts, hs, hf, hsplits, ?_⟩
  cases parts with
  | nil =>
    rw [joined, List.flatMap_nil, List.append_nil] at hc
    exact .cons (.whole hc.rescans) .nil
  | cons part parts =>
    have hbefore := hc
    rw [joined_cons] at hbefore
    refine .cons (cleaned_first argument at' hbefore.before) ?_
    refine List.forall₂_map_right_iff.mpr ((later_holds hc).imp fun _ _ hpart => ?_)
    obtain ⟨text, rfl, hcut⟩ := hpart
    exact cleaned_withoutLastNewline hcut

/-- The branches of a body are its parts, from one tag that starts a branch to the next. A scan of a
branch finds the tags of its part, unless the newline that the branch has lost belongs to a delimiter. -/
theorem split_keeps_tags {argument : String} {raw : List Char} {branches : List Branch}
    (h : split d argument raw line = .ok branches) :
    ∃ first parts, scan d line 0 raw = .ok (first ++ joined parts) ∧
      markers 0 (first ++ joined parts) = .ok (parts.map (·.1)) ∧
      List.Forall₂ (fun branch part => Cleaned d part branch.body) branches
        (first :: parts.map (·.2)) ∧
      (d.Firm → List.Forall₂ (fun branch part => Rescans d branch.body part) branches
        (first :: parts.map (·.2))) := by
  obtain ⟨segments, first, parts, hs, hm, hsplits, hcleaned⟩ := cleaned_split h
  rw [hsplits.eq_append] at hs hm
  refine ⟨first, parts, hs, hm, hcleaned, fun hd => ?_⟩
  exact hcleaned.imp fun _ _ hpart => hpart.rescans hd

theorem split_keeps_tags_else :
    ∃ branches first parts, split {} "a" "\n{{b}}\n{{else}}c\n".toList 1 =
        .ok branches ∧ branches.length = 2 ∧
      scan {} 1 0 "\n{{b}}\n{{else}}c\n".toList =
        .ok (first ++ joined parts) ∧
      markers 0 (first ++ joined parts) = .ok (parts.map (·.1)) ∧
      List.Forall₂ (fun branch part => Rescans {} branch.body part) branches
        (first :: parts.map (·.2)) := by
  have h : split {} "a" "\n{{b}}\n{{else}}c\n".toList 1 =
      .ok [⟨some "a", "{{b}}\n".toList, 2⟩, ⟨none, ['c'], 3⟩] := by
    with_unfolding_all rfl
  obtain ⟨first, parts, hs, hm, -, hrescans⟩ := split_keeps_tags h
  exact ⟨_, first, parts, h, rfl, hs, hm, hrescans ⟨by decide, by decide⟩⟩

/-- A left delimiter that starts with a newline loses it at the front of a body, and what is left of its
tag does not scan. -/
theorem split_severs_tag :
    ∃ (settings : Settings) (raw body : List Char) (rest : List Segment),
      split settings.delimiters "a" raw 2 = .ok [⟨some "a", body, 3⟩, ⟨none, ['y'], 4⟩] ∧
      scan settings.delimiters 2 0 raw = .ok (.tag ⟨['b'], 0, 4, 2, 3⟩ :: rest) ∧
      scan settings.delimiters 3 0 body = .error (.located 3 (.strayRight "\x7d")) ∧
      Compilation.compile settings (String.ofList ("\n{if a}".toList ++ raw ++
        "\n{/if}".toList)) = .error (.located 3 (.strayRight "\x7d")) := by
  refine ⟨{ delimiters := .ofTexts "\n\x7b" "\x7d" }, "\n{b}x\n{else}y".toList,
    "{b}x".toList, [.text ['x'], .tag ⟨"else".toList, 5, 12, 3, 4⟩, .text ['y']], ?_, ?_, ?_, ?_⟩
  · with_unfolding_all rfl
  · with_unfolding_all rfl
  · with_unfolding_all rfl
  · with_unfolding_all rfl

end Branch

end Stencil
