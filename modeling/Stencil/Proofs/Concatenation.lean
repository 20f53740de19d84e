import Stencil.Proofs.Moved

/-! # One template after another

A template that compiles can be put before any other. The nodes of the two stand one after the other,
only a text at the end of the first and one at the start of the second become one; and what is wrong with
the second is told as it would be of the second alone, so many lines further down. -/
namespace Stencil
open Compilation Text.Find

/-! ## Lists that meet -/

/-- The one list after the other. The last of the one and the first of the other become one if they can
meet. -/
def meeting {α : Type} (meet? : α → α → Option α) : List α → List α → List α
  | [], ys => ys
  | [x], y :: ys =>
    match meet? x y with
    | some z => z :: ys
    | none => x :: y :: ys
  | x :: xs, ys => x :: meeting meet? xs ys

section
variable {α : Type} {meet? : α → α → Option α}

theorem meeting_nil (xs : List α) : meeting meet? xs [] = xs := by
  induction xs with
  | nil => rfl
  | cons x xs ih =>
    rw [meeting, ih]
    exact nofun

theorem meeting_cons {xs : List α} (h : xs ≠ []) (x : α) (ys : List α) :
    meeting meet? (x :: xs) ys = x :: meeting meet? xs ys := by
  obtain ⟨x', xs, rfl⟩ := List.exists_cons_of_ne_nil h
  rfl

theorem meeting_cons_of_none {x : α} (h : ∀ y, meet? x y = none) (xs ys : List α) :
    meeting meet? (x :: xs) ys = x :: meeting meet? xs ys := by
  cases xs with
  | nil =>
    cases ys with
    | nil => rfl
    | cons y ys => simp only [meeting, h y]
  | cons x' xs => rfl

theorem meeting_cons_right {y : α} (h : ∀ x, meet? x y = none) (xs ys : List α) :
    meeting meet? xs (y :: ys) = xs ++ y :: ys := by
  induction xs with
  | nil => rfl
  | cons x xs ih =>
    cases xs with
    | nil => simp only [meeting, h x, List.cons_append, List.nil_append]
    | cons x' xs => exact congrArg (x :: ·) ih

theorem map_meeting {β : Type} {f : α → β} {meet' : β → β → Option β}
    (h : ∀ x y, meet' (f x) (f y) = (meet? x y).map f) (xs ys : List α) :
    (meeting meet? xs ys).map f = meeting meet' (xs.map f) (ys.map f) := by
  induction xs with
  | nil => rfl
  | cons x xs ih =>
    cases xs with
    | nil =>
      cases ys with
      | nil => rfl
      | cons y ys =>
        simp only [meeting, List.map_cons, List.map_nil, h]
        cases meet? x y <;> rfl
    | cons x' xs => exact congrArg (f x :: ·) ih

theorem meeting_append {ys : List α} (h : ys ≠ []) (xs zs : List α) :
    meeting meet? (xs ++ ys) zs = xs ++ meeting meet? ys zs := by
  induction xs with
  | nil => rfl
  | cons x xs ih =>
    have hne : xs ++ ys ≠ [] := List.append_ne_nil_of_right_ne_nil xs h
    rw [List.cons_append, meeting_cons hne, ih, List.cons_append]

end

/-! ## Scanning -/

namespace Segment

def meet? : Segment → Segment → Option Segment
  | .text s, .text t => some (.text (s ++ t))
  | _, _ => none

/-- The step where more plain text stands before. -/
def Step.after (s : List Char) : Step → Step
  | .fault before f => .fault (s ++ before) f
  | .plain => .plain
  | .tag first body rest => .tag (s ++ first) body rest

theorem beforeStray?_append {d : Delimiters} {s t : List Char}
    (h : Clear d.right (s ++ t) s.length) (plain : Option (List Char)) :
    beforeStray? d (plain.map (s ++ ·)) (s ++ t) = (beforeStray? d plain t).map (s ++ ·) := by
  unfold beforeStray?
  rw [breakOn_append_of_clear h]
  cases breakOn d.right t with
  | none => rfl
  | some p =>
    cases plain with
    | none => rfl
    | some plain =>
      simp only [Option.map_some, List.length_append, Nat.add_lt_add_iff_left]
      split <;> rfl

theorem step_append {d : Delimiters} {s t : List Char} (hl : Clear d.left (s ++ t) s.length)
    (hr : Clear d.right (s ++ t) s.length) : step d (s ++ t) = (step d t).after s := by
  unfold step
  rw [breakOn_append_of_clear hl]
  cases breakOn d.left t with
  | none =>
    have hstray := beforeStray?_append hr none
    dsimp only [Option.map_none] at hstray ⊢
    rw [hstray]
    cases beforeStray? d none t <;> rfl
  | some p =>
    have hstray := beforeStray?_append hr (some p.1)
    dsimp only [Option.map_some] at hstray ⊢
    rw [hstray]
    cases beforeStray? d (some p.1) t with
    | some before => rfl
    | none =>
      dsimp only [Option.map_none]
      cases breakOn d.right p.2 with
      | none => rfl
      | some q =>
        dsimp only
        split <;> rfl

theorem Opens.append {d : Delimiters} {source plain body rest : List Char}
    (h : Opens d source plain body rest) (t : List Char) :
    Opens d (source ++ t) plain body (rest ++ t) := by
  have hleft := h.left_clear
  have hright := h.right_clear
  obtain rfl := h.source_eq
  refine ⟨by simp, ?_, ?_, ?_, h.body_plain⟩
  · have hl : Clear d.left (plain ++ d.left ++ (body ++ d.right ++ rest)) plain.length := by
      simpa using hleft
    simpa using hl.append (Nat.le_refl _) t
  · have hr : Clear d.right ((plain ++ d.left ++ body) ++ d.right ++ rest) plain.length := by
      simpa using hright
    simpa using hr.append (by simp) t
  · simpa using h.body_clear.append (Nat.le_refl _) t

theorem meeting_ofText (s t : List Char) : meeting meet? (ofText s) (ofText t) = ofText (s ++ t) := by
  cases s with
  | nil => rfl
  | cons c s => cases t <;> simp [ofText, meeting, meet?]

theorem meeting_ofText_tag (s t : List Char) (u : Tag) (rest : List Segment) :
    meeting meet? (ofText s) (ofText t ++ .tag u :: rest) = ofText (s ++ t) ++ .tag u :: rest := by
  cases s with
  | nil => rfl
  | cons c s => cases t <;> simp [ofText, meeting, meet?]

theorem tagAfter_append (d : Delimiters) (line offset : Nat) (s plain body : List Char) :
    tagAfter d line offset (s ++ plain) body =
      tagAfter d (line + newlines s) (offset + s.length) plain body := by
  simp only [tagAfter, newlines_append, List.length_append, Tag.mk.injEq, true_and]
  omega

/-- A scan goes on in the second text where that of the first has ended. -/
theorem Cut.scan_append {d : Delimiters} {line offset : Nat} {s t : List Char}
    {segments : List Segment} (h : Cut d line offset s segments) (hl : ¬ Straddles d.left s t)
    (hr : ¬ Straddles d.right s t) :
    scan d line offset (s ++ t) =
      (scan d (line + newlines s) (offset + s.length) t).map (meeting meet? segments) := by
  induction h with
  -- no tag is left in the first text: the step of the whole is that of the second
  | @plain line offset s hls hrs =>
    rw [scan_eq, step_append (clear_append hls hl) (clear_append hrs hr), scan_eq d _ _ t]
    cases step d t with
    | fault before fault =>
      dsimp only [Step.after, Except.map]
      rw [newlines_append, Nat.add_assoc]
    | plain =>
      dsimp only [Step.after, Except.map]
      rw [meeting_ofText]
    | tag plain body rest =>
      dsimp only [Step.after]
      rw [tagAfter_append]
      cases scan d _ _ rest with
      | error e => rfl
      | ok more =>
        dsimp only [Except.map]
        rw [meeting_ofText_tag]
  | @tag line offset source plain body rest segments ho _ ih =>
    have hsuffix : rest <:+ source := ⟨_, ho.source_eq.symm⟩
    rw [scan_of_opens (ho.append t), ih (fun hs => hl (hs.of_suffix hsuffix))
      (fun hs => hr (hs.of_suffix hsuffix))]
    have hline : (tagAfter d line offset plain body).endLine + newlines rest =
        line + newlines source := by
      rw [ho.source_eq, newlines_append, newlines_append]
      simp only [tagAfter]
      omega
    have hstop : (tagAfter d line offset plain body).stop + rest.length =
        offset + source.length := by
      rw [ho.source_eq, List.length_append, List.length_append]
      simp only [tagAfter]
      omega
    rw [hline, hstop]
    cases scan d _ _ t with
    | error e => rfl
    | ok more =>
      dsimp only [Except.map]
      rw [meeting_append (List.cons_ne_nil _ _), meeting_cons_of_none (fun _ => rfl)]

end Segment

/-! ## Assembling -/

def Node.meet? : Node → Node → Option Node
  | .text s, .text t => some (.text (s ++ t))
  | _, _ => none

theorem closing_meeting {block : Block} {line depth : Nat} {segments after : List Segment} {closed : Tag}
    (h : closing block line depth segments = .ok (closed, after)) (more : List Segment) :
    closing block line depth (meeting Segment.meet? segments more) =
      .ok (closed, meeting Segment.meet? after more) := by
  fun_induction closing block line depth segments with
  | case1 => cases h
  | case2 depth s rest ih =>
    have hne : rest ≠ [] := by
      rintro rfl
      cases h
    rw [meeting_cons hne, closing]
    exact ih h
  | case3 => cases h
  | case4 => cases h
  | case5 t rest keyword ht hk =>
    cases h
    rw [meeting_cons_of_none (fun _ => rfl)]
    exact Grammar.closing_cons_found ht hk
  | case6 => cases h
  | case7 t rest keyword ht closed depth hk ih =>
    rw [meeting_cons_of_none (fun _ => rfl), Grammar.closing_cons_closing ht hk]
    exact ih h
  | case8 depth t rest directive hn ht ih =>
    rw [meeting_cons_of_none (fun _ => rfl), Grammar.closing_cons ht hn]
    exact ih h

variable {settings : Settings} {source : List Char} {inner : Option Fragment}

/-- The node that a segment starts is a text only if the segment is. -/
theorem assemble_cons {s : Segment} {rest : List Segment} {nodes : List Node}
    (h : assemble settings source inner (s :: rest) = .ok nodes) :
    ∃ node more, nodes = node :: more ∧ ∀ text, node = .text text → ∃ chars, s = .text chars := by
  cases Grammar.assembled_of_assemble h with
  | @text chars => exact ⟨_, _, rfl, fun _ _ => ⟨chars, rfl⟩⟩
  | «variable» => exact ⟨_, _, rfl, nofun⟩
  | call _ hn =>
    obtain ⟨_, _, _, _, rfl⟩ := Grammar.callNode_eq_ok hn
    exact ⟨_, _, rfl, nofun⟩
  | block _ _ _ hn => exact ⟨_, _, rfl, fun text hs => absurd hs (Grammar.blockNode_not_text hn text)⟩

theorem meeting_text_singleton {chars : List Char} {more : List Segment} :
    assemble settings source inner (meeting Segment.meet? [.text chars] more) =
      (assemble settings source inner more).map (meeting Node.meet? [.text (String.ofList chars)]) := by
  cases more with
  | nil =>
    have hnil : assemble settings source inner [] = .ok [] := by rw [assemble]
    rw [hnil, meeting_nil, assemble, hnil]
    rfl
  | cons s rest =>
    cases s with
    | text more =>
      show assemble settings source inner (.text (chars ++ more) :: rest) = _
      rw [assemble, assemble]
      cases assemble settings source inner rest with
      | error e => rfl
      | ok nodes =>
        dsimp only [Except.map, meeting, Node.meet?]
        rw [String.ofList_append]
    | tag t =>
      show assemble settings source inner (.text chars :: .tag t :: rest) = _
      rw [assemble]
      cases h : assemble settings source inner (.tag t :: rest) with
      | error e => rfl
      | ok nodes =>
        obtain ⟨node, more, rfl, htext⟩ := assemble_cons h
        cases node with
        | text s =>
          obtain ⟨chars, hs⟩ := htext s rfl
          cases hs
        | _ => rfl

theorem slice_append_right {s : List Char} {stop : Nat} (h : stop ≤ s.length) (start : Nat)
    (t : List Char) : slice (s ++ t) start stop = slice s start stop := by
  unfold slice
  by_cases hs : start ≤ s.length
  · rw [List.drop_append_of_le_length hs, List.take_append_of_le_length]
    rw [List.length_drop]
    omega
  · rw [show stop - start = 0 by omega, List.take_zero, List.take_zero]

theorem map_meeting_cons {node : Node} (h : ∀ s, node ≠ .text s) (nodes : List Node)
    (more : Except Error (List Node)) :
    (more.map (meeting Node.meet? nodes)).map (node :: ·) =
      more.map (meeting Node.meet? (node :: nodes)) := by
  have hmeet : ∀ other, Node.meet? node other = none := by
    intro other
    cases node with
    | text s => exact absurd rfl (h s)
    | _ => rfl
  cases more with
  | error e => rfl
  | ok others => exact congrArg Except.ok (meeting_cons_of_none hmeet nodes others).symm

/-- Segments of a text, and after them what may follow in a longer text. -/
theorem assemble_meeting {segments more : List Segment} {nodes : List Node} {t : List Char}
    (hpos : ∀ u, .tag u ∈ segments → u.start ≤ source.length)
    (h : assemble settings source inner segments = .ok nodes) :
    assemble settings (source ++ t) inner (meeting Segment.meet? segments more) =
      (assemble settings (source ++ t) inner more).map (meeting Node.meet? nodes) := by
  replace h := Grammar.assembled_of_assemble h
  induction h with
  | nil =>
    cases h : assemble settings (source ++ t) inner more <;> simp [meeting, h, Except.map]
  | @text chars rest nodes hn ih =>
    cases rest with
    -- the last segment: only here a text of the first can become one with a text of the second
    | nil =>
      cases hn
      exact meeting_text_singleton
    | cons s rest =>
      have hne : nodes ≠ [] := by
        rintro rfl
        cases hn
      obtain ⟨node, others, rfl⟩ := List.exists_cons_of_ne_nil hne
      rw [meeting_cons (List.cons_ne_nil _ _), assemble,
        ih (fun u hu => hpos u (List.mem_cons_of_mem _ hu))]
      cases assemble settings (source ++ t) inner more <;> rfl
  | @«variable» u rest path escape nodes hu _ ih =>
    have hnot : ∀ s, Node.variable path escape ≠ .text s := fun _ => Node.noConfusion
    rw [meeting_cons_of_none (fun _ => rfl), assemble, hu]
    dsimp only
    rw [ih (fun u hu => hpos u (List.mem_cons_of_mem _ hu)), map_meeting_cons hnot]
  | @call u rest name arguments node nodes hu hnode _ ih =>
    have hnot : ∀ s, node ≠ .text s := by
      obtain ⟨_, _, _, _, rfl⟩ := Grammar.callNode_eq_ok hnode
      exact fun _ => Node.noConfusion
    rw [meeting_cons_of_none (fun _ => rfl), assemble, hu]
    dsimp only
    rw [hnode, ← map_meeting_cons hnot nodes, ← ih (fun u hu => hpos u (List.mem_cons_of_mem _ hu))]
    rfl
  | @block u closed rest after block argument f node nodes hu hc hinner hnode _ ih =>
    subst hinner
    obtain ⟨inside, _, rfl, -, -⟩ := Grammar.closing_eq_ok hc
    have hclosed : closed.start ≤ source.length := hpos closed (by simp)
    rw [meeting_cons_of_none (fun _ => rfl), Grammar.assemble_opening hu, closing_meeting hc]
    dsimp only
    rw [slice_append_right hclosed, hnode, ← map_meeting_cons (Grammar.blockNode_not_text hnode) nodes,
      ← ih (fun u hu => hpos u (by simp [hu]))]
    rfl

/-! ## Compiling -/

theorem Segment.Cut.start_le {d : Delimiters} {line offset : Nat} {source : List Char}
    {segments : List Segment} (h : Cut d line offset source segments) {t : Tag}
    (ht : .tag t ∈ segments) : t.start ≤ offset + source.length := by
  induction h with
  | plain => exact absurd ht (tag_not_mem_ofText t _)
  | tag ho _ ih =>
    rw [ho.source_eq]
    rcases List.mem_append.mp ht with ht | ht
    · exact absurd ht (tag_not_mem_ofText t _)
    · rcases List.mem_cons.mp ht with heq | ht
      · cases heq
        simp only [tagAfter, List.length_append]
        omega
      · have := ih ht
        simp only [tagAfter, List.length_append] at this ⊢
        omega

/-- A text that compiles, and after it another with which it shares no delimiter. -/
theorem fragment_append {room line : Nat} {s t : List Char} {nodes : List Node}
    (hl : ¬ Straddles settings.delimiters.left s t) (hr : ¬ Straddles settings.delimiters.right s t)
    (h : fragment settings room s line = .ok nodes) :
    fragment settings room (s ++ t) line =
      ((fragment settings room t line).mapError (Error.moved (newlines s))).map
        (meeting Node.meet? nodes) := by
  rw [fragment_eq] at h ⊢
  obtain ⟨segments, hs, ha⟩ := Except.bind_eq_ok_iff.mp h
  have hcut := Segment.cut_of_scan hs
  have hmovable : ∀ f, innerFragment settings room = some f → Movable f := by
    intro f hf
    cases room with
    | zero => cases hf
    | succ room =>
      cases hf
      exact movable_fragment settings room
  have hassemble : ∀ more, assemble settings (s ++ t) (innerFragment settings room)
      (meeting Segment.meet? segments (more.map (Segment.moved (newlines s) s.length))) =
        ((assemble settings t (innerFragment settings room) more).mapError
          (Error.moved (newlines s))).map (meeting Node.meet? nodes) := by
    intro more
    have hpos : ∀ u, .tag u ∈ segments → u.start ≤ s.length := by
      intro u hu
      simpa using hcut.start_le hu
    rw [assemble_meeting hpos ha, assemble_moved _ hmovable]
  rw [hcut.scan_append hl hr, Segment.scan_moved, fragment_eq]
  cases Segment.scan settings.delimiters line 0 t with
  | error e => rfl
  | ok more => exact hassemble more

/-- Compiling one template after another, where no delimiter reaches from the one into the other. -/
theorem compile_append (settings : Settings) {first second : String} {nodes : List Node}
    (hl : ¬ Straddles settings.delimiters.left first.toList second.toList)
    (hr : ¬ Straddles settings.delimiters.right first.toList second.toList)
    (h : compile settings first = .ok nodes) :
    (∀ more, compile settings second = .ok more →
      compile settings (first ++ second) = .ok (meeting Node.meet? nodes more)) ∧
    ∀ e, compile settings second = .error e →
      compile settings (first ++ second) = .error (e.moved (newlines first.toList)) := by
  have happend : compile settings (first ++ second) =
      ((compile settings second).mapError (Error.moved (newlines first.toList))).map
        (meeting Node.meet? nodes) := by
    rw [compile, String.toList_append]
    exact fragment_append hl hr h
  refine ⟨fun more hm => ?_, fun e he => ?_⟩
  · rw [happend, hm]
    rfl
  · rw [happend, he]
    rfl

theorem compile_append_loop :
    ¬ Straddles ({} : Delimiters).left "{{loop a}}\nb{{/loop}}c".toList "d\n{{y}}".toList ∧
      ¬ Straddles ({} : Delimiters).right "{{loop a}}\nb{{/loop}}c".toList "d\n{{y}}".toList ∧
      compile {} ("{{loop a}}\nb{{/loop}}c" ++ "d\n{{y}}") =
        .ok [.loop (.path "a") [.text "\nb"], .text "cd\n", .variable (.path "y") true] ∧
      compile {} ("{{loop a}}\nb{{/loop}}c" ++ "d\n{{else}}") = .error (.located 3 .strayElse) := by
  have hfirst : compile {} "{{loop a}}\nb{{/loop}}c" =
      .ok [.loop (.path "a") [.text "\nb"], .text "c"] := by with_unfolding_all rfl
  have hsecond : compile {} "d\n{{y}}" = .ok [.text "d\n", .variable (.path "y") true] := by with_unfolding_all rfl
  have hfault : compile {} "d\n{{else}}" = .error (.located 2 .strayElse) := by with_unfolding_all rfl
  refine ⟨by decide, by decide, ?_, ?_⟩
  · rw [(compile_append {} (by decide) (by decide) hfirst).1 _ hsecond]
    rfl
  · rw [(compile_append {} (by decide) (by decide) hfirst).2 _ hfault]
    rfl

end Stencil
