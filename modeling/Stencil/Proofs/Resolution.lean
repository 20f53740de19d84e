import Stencil.Proofs.Failures
import Stencil.Proofs.Trim

/-! # A condition and its branches

The body of a condition can be split into branches and the branch to be taken compiled by itself. That
gives the text that the whole condition is rendered to. -/
namespace Stencil
open Compilation Grammar Segment Text.Find Text.Blank

/-! ## A condition around a text -/

namespace Segment

/-- A tag at the front of a text, whose body has no character with which a delimiter starts. -/
theorem opens_of_not_mem {d : Delimiters} {l r : Char} {left right body : List Char}
    (hl : d.left = l :: left) (hr : d.right = r :: right) (hbl : l ∉ body) (hbr : r ∉ body)
    (rest : List Char) : Opens d (d.left ++ body ++ d.right ++ rest) [] body rest := by
  refine ⟨rfl, clear_zero _ _, clear_zero _ _, ?_, ?_⟩
  · rw [hr, List.append_assoc]
    exact clear_of_not_mem hbr _
  · intro h
    have hmem : l ∈ d.left := by
      rw [hl]
      exact List.mem_cons_self
    exact hbl (h.subset hmem)

theorem cut_of_opens {d : Delimiters} {line offset : Nat} {source plain body rest : List Char}
    {segments : List Segment} (ho : Opens d source plain body rest)
    (h : Cut d line offset source segments) :
    ∃ more, segments = ofText plain ++ .tag (tagAfter d line offset plain body) :: more ∧
      Cut d (tagAfter d line offset plain body).endLine (tagAfter d line offset plain body).stop
        rest more := by
  have hs := scan_of_cut h
  rw [scan_of_opens ho] at hs
  obtain ⟨more, hm, rfl⟩ := Except.map_eq_ok_iff.mp hs
  exact ⟨more, rfl, cut_of_scan hm⟩

/-- Where the text ends with a closing tag of its own, the last tag is that one. -/
theorem eq_of_closing {raw before body : List Char} {keyword : String}
    (h : raw ++ ['\x7b', '\x7b', '/', 'i', 'f'] = before ++ '\x7b' :: '\x7b' :: body)
    (hb : ¬ ['\x7b', '\x7b'] <:+: body)
    (hc : Directive.classify body = .ok (.closing keyword)) : before = raw := by
  rcases List.append_eq_append_iff.mp h with ⟨more, rfl, hm⟩ | ⟨more, rfl, hm⟩
  · match more, hm with
    | [], _ => exact List.append_nil raw
    | [_], hm => simp at hm
    | [_, _], hm => simp at hm
    | [_, _, _], hm => simp at hm
    | [_, _, _, _], hm => simp at hm
    | _ :: _ :: _ :: _ :: _ :: _, hm => simp at hm
  · match more, hm with
    | [], _ => exact (List.append_nil before).symm
    | [_], hm =>
      obtain rfl : body = ['\x7b', '/', 'i', 'f'] := by simpa using (List.cons.inj (List.cons.inj hm).2).2
      cases hc
    | _ :: _ :: more, hm =>
      have hbody : body = more ++ ['\x7b', '\x7b', '/', 'i', 'f'] := by
        simpa using (List.cons.inj (List.cons.inj hm).2).2
      exact absurd ⟨more, ['/', 'i', 'f'], by simp [hbody]⟩ hb

/-- The segments of a text that a closing tag follows. -/
theorem Cut.before_closing {line offset : Nat} {raw : List Char} {inner : List Segment} {closed : Tag}
    {keyword : String}
    (h : Cut {} line offset (raw ++ ['\x7b', '\x7b', '/', 'i', 'f', '\x7d', '\x7d'])
      (inner ++ [.tag closed]))
    (hc : closed.directive = .ok (.closing keyword)) : Cut {} line offset raw inner := by
  obtain ⟨n, -, htake⟩ := h.take
  have hwritten := h.flatMap_written
  have hplain := (h.opens_of_mem (List.mem_append_right _ List.mem_cons_self)).body_plain
  rw [List.flatMap_append, htake.flatMap_written, List.flatMap_singleton] at hwritten
  generalize List.take n _ = before at htake hwritten
  have heq : before ++ '\x7b' :: '\x7b' :: closed.body = raw ++ ['\x7b', '\x7b', '/', 'i', 'f'] := by
    have hall : (before ++ '\x7b' :: '\x7b' :: closed.body) ++ ['\x7d', '\x7d'] =
        (raw ++ ['\x7b', '\x7b', '/', 'i', 'f']) ++ ['\x7d', '\x7d'] := by
      simpa [written] using hwritten
    exact List.append_cancel_right hall
  rwa [eq_of_closing heq.symm hplain (directive_eq_ok_iff.mp hc)] at htake

end Segment

theorem Grammar.Derives.mono {settings : Settings} {room room' : Nat} {items : List Item}
    {nodes : List Node} {later : List Arm} (h : Derives settings room items nodes later)
    (hr : room ≤ room') : Derives settings room' items nodes later := by
  induction h generalizing room' with
  | nil => exact .nil
  | leaf hl _ ih => exact .leaf hl (ih hr)
  | block _ hc hk _ ihb ih =>
    obtain ⟨room', rfl⟩ := Nat.exists_eq_add_one_of_ne_zero (Nat.ne_zero_of_lt hr)
    exact .block (ihb (Nat.le_of_succ_le_succ hr)) hc hk (ih hr)
  | marker hb hc hlast _ ih => exact .marker hb hc hlast (ih hr)

/-- A condition around a text, between the default delimiters. -/
def ifBlock (condition raw : String) : String :=
  "\x7b\x7bif " ++ condition ++ "\x7d\x7d" ++ raw ++ "\x7b\x7b/if\x7d\x7d"

theorem toList_ifBlock (condition raw : String) :
    (ifBlock condition raw).toList =
      ['\x7b', '\x7b'] ++ ('i' :: 'f' :: ' ' :: condition.toList) ++ ['\x7d', '\x7d'] ++
        (raw.toList ++ ['\x7b', '\x7b', '/', 'i', 'f', '\x7d', '\x7d']) := by
  simp [ifBlock]

/-- A text that can be the condition of an opening tag, and that the tag keeps as it is. -/
structure Plain (condition : String) : Prop where
  not_blank : condition ≠ ""
  trimmed : trimmed condition = condition
  no_left : '\x7b' ∉ condition.toList
  no_right : '\x7d' ∉ condition.toList

theorem Plain.trim_eq {condition : String} (h : Plain condition) :
    trim condition.toList = condition.toList := by
  have htrim := congrArg String.toList h.trimmed
  rwa [Text.Blank.trimmed, String.toList_ofList] at htrim

theorem oneLine_default : OneLine ({} : Delimiters) :=
  ⟨by decide, by decide⟩

theorem derives_of_ifBlock {c raw : String} {arms : List Arm} (hc : Plain c)
    (h : compile {} (ifBlock c raw) = .ok [.conditional arms]) :
    ∃ line offset inner condition nodes later, Cut {} line offset raw.toList inner ∧
      Condition.parse c = .ok condition ∧ Derives {} 63 (inner.map item) nodes later ∧
      arms = armsOf (some condition) nodes later := by
  obtain ⟨segments, hs, hd⟩ := (compile_eq_ok_iff oneLine_default).mp h
  rw [toList_ifBlock] at hs
  have hl : '\x7b' ∉ 'i' :: 'f' :: ' ' :: c.toList := by simp [hc.no_left]
  have hr : '\x7d' ∉ 'i' :: 'f' :: ' ' :: c.toList := by simp [hc.no_right]
  have hopens := @opens_of_not_mem {} _ _ _ _ _ rfl rfl hl hr
    (raw.toList ++ ['\x7b', '\x7b', '/', 'i', 'f', '\x7d', '\x7d'])
  obtain ⟨more, rfl, hmore⟩ := cut_of_opens hopens (cut_of_scan hs)
  have hitems : (ofText [] ++ .tag (tagAfter {} 1 0 [] ('i' :: 'f' :: ' ' :: c.toList)) :: more).map
      item = .tag (.ok (.opening .conditional c)) :: more.map item := by
    have hdirective := Directive.classify_if hc.trim_eq (mt String.toList_eq_nil_iff.mp hc.not_blank)
    rw [String.ofList_toList] at hdirective
    exact congrArg (Item.tag · :: more.map item) hdirective
  have hroom : Derives {} (63 + 1) (.tag (.ok (.opening .conditional c)) :: more.map item)
      [.conditional arms] [] := hitems ▸ hd
  generalize hm : more.map item = items at hroom
  cases hroom with
  | leaf hleaf => cases hleaf
  | block hbody hcloses hk hrest =>
    obtain rfl := hrest.nodes_nil_iff.mp rfl
    obtain ⟨inner, others, rfl, rfl, hothers⟩ := List.map_eq_append_iff.mp hm
    obtain ⟨closed, rest, rfl, hclosed, hnil⟩ := map_item_eq_tag_cons hothers
    obtain rfl := List.map_eq_nil_iff.mp hnil
    cases hcloses with
    | conditional hparse =>
      exact ⟨_, _, inner, _, _, _, hmore.before_closing hclosed, hparse, hbody, rfl⟩

/-! ## The arm that is taken -/

/-- A condition by itself is rendered as the arm that is selected is by itself. -/
theorem Template.render_conditional (arms : List (Option Condition × List Node)) (context : Value) :
    Template.render ⟨[.conditional arms]⟩ context =
      match Condition.select (Scope.ofRoot context) arms with
      | .ok (some nodes) => Template.render ⟨nodes⟩ context
      | .ok none => .ok ""
      | .error fault => .error (.expression fault) := by
  have hone : renderAll [.conditional arms] ⟨Scope.ofRoot context, ""⟩ =
      (Node.conditional arms).render ⟨Scope.ofRoot context, ""⟩ := by
    show (do (Node.conditional arms).render; pure ()) _ = _
    rw [Rendering.seq_eq]
    cases (Node.conditional arms).render ⟨Scope.ofRoot context, ""⟩ <;> rfl
  unfold Template.render
  rw [hone, Node.render_conditional]
  rcases Condition.select (Scope.ofRoot context) arms with fault | _ | nodes
  · rfl
  · rfl
  · dsimp only
    unfold Rendering.piece
    cases renderAll nodes ⟨Scope.ofRoot context, ""⟩ with
    | error e after => rfl
    | ok _ after =>
      dsimp only
      rw [String.empty_append, trimmed_trimmed]

/-- The arms with the texts that they were compiled from. -/
theorem pairs_of_mapM {f : Fragment} {branches : List Branch} {arms : List Arm}
    (h : branches.mapM (arm f) = .ok arms) :
    ∃ pairs : List (Option Condition × List Char × List Node),
      (branches.mapM fun branch => branch.parsed.map (·, branch.body)) =
        .ok (pairs.map fun p => (p.1, p.2.1)) ∧
      arms = pairs.map (fun p => (p.1, p.2.2)) ∧ ∀ p ∈ pairs, ∃ line, f p.2.1 line = .ok p.2.2 := by
  induction branches generalizing arms with
  | nil =>
    cases h
    exact ⟨[], rfl, rfl, nofun⟩
  | cons branch branches ih =>
    obtain ⟨⟨condition, nodes⟩, more, ha, hm, rfl⟩ := Except.mapM_cons_eq_ok_iff.mp h
    obtain ⟨hcond, hnodes⟩ := arm_eq_ok_iff.mp ha
    obtain ⟨pairs, hbodies, rfl, hpairs⟩ := ih hm
    refine ⟨(condition, branch.body, nodes) :: pairs, ?_, rfl, ?_⟩
    · refine Except.mapM_cons_eq_ok_iff.mpr ⟨_, _, ?_, hbodies, rfl⟩
      exact Except.map_eq_ok_iff.mpr ⟨condition, parsed_eq_ok_iff.mpr hcond, rfl⟩
    · exact List.forall_mem_cons.mpr ⟨⟨branch.line, hnodes⟩, hpairs⟩

/-- What was compiled inside of a block can be compiled by itself. -/
theorem compile_of_fragment {body : List Char} {line : Nat} {nodes : List Node}
    (h : fragment {} 63 body line = .ok nodes) : compile {} (String.ofList body) = .ok nodes := by
  obtain ⟨segments, hs, hd⟩ := (compiles_fragment oneLine_default body line nodes).mp h
  have hcompiles : Compiles {} 64 (fragment {} 64) := compiles_fragment oneLine_default
  rw [compile, String.toList_ofList]
  exact (hcompiles.of_cut (cut_of_scan hs) 1).mpr (hd.mono (by decide))

/-- The text of a template that is one condition is that of the body which resolving its branches gives,
compiled by itself. -/
theorem resolve_render_eq {c raw : String} {whole : Template} {arms : List Arm} (hc : Plain c)
    (h : Template.compile {} (ifBlock c raw) = .ok whole) (ho : whole.nodes = [.conditional arms]) :
    ∃ branches, Branch.split {} c raw.toList 1 = .ok branches ∧ ∀ context, ∃ body part text,
      Branch.resolve branches context = .ok body ∧
      Template.compile {} (String.ofList body) = .ok part ∧
      part.render context = .ok text ∧ whole.render context = .ok text := by
  obtain ⟨nodes, hn, hw⟩ := Except.bind_eq_ok_iff.mp h
  cases hw
  obtain rfl : nodes = _ := ho
  obtain ⟨line, offset, inner, condition, nodes, later, hcut, hparse, hderives, rfl⟩ :=
    derives_of_ifBlock hc hn
  have hcompiles : Compiles {} 63 (fragment {} 63) := compiles_fragment oneLine_default
  obtain ⟨branches, hb, ha⟩ := (branches_iff hcompiles oneLine_default hcut 1).mpr
    ⟨condition, nodes, later, hparse, hderives, rfl⟩
  refine ⟨branches, hb, fun context => ?_⟩
  obtain ⟨pairs, hbodies, harms, hpairs⟩ := pairs_of_mapM ha
  obtain ⟨text, ht⟩ := Template.render_of_sound (Template.sound_of_compile h) context
  have hselected := ht
  rw [harms, Template.render_conditional, Condition.select_map] at hselected
  cases hs : Condition.select (Scope.ofRoot context) pairs with
  | error fault =>
    rw [hs] at hselected
    cases hselected
  | ok chosen =>
    rw [hs] at hselected
    have hresolve := Branch.resolve_eq_ok_iff.mpr
      ⟨_, chosen.map (·.1), hbodies, by rw [Condition.select_map, hs]; rfl, rfl⟩
    cases chosen with
    | none =>
      cases hselected
      exact ⟨[], ⟨[]⟩, "", hresolve, Template.compile_of_nodes (by with_unfolding_all rfl), rfl, ht⟩
    | some pair =>
      obtain ⟨p, hp, rfl⟩ := Condition.select_mem hs
      obtain ⟨line, hf⟩ := hpairs p hp
      exact ⟨_, ⟨p.2.2⟩, text, hresolve, Template.compile_of_nodes (compile_of_fragment hf), hselected, ht⟩

theorem resolve_render_else :
    Plain "a" ∧ ∃ whole arms, whole.nodes = [.conditional arms] ∧
      Template.compile {} (ifBlock "a" "\nx\x7b\x7belse\x7d\x7dy") = .ok whole ∧
      ∃ branches, Branch.split {} "a" "\nx\x7b\x7belse\x7d\x7dy".toList 1 = .ok branches ∧
        ∀ context, ∃ body part text, Branch.resolve branches context = .ok body ∧
          Template.compile {} (String.ofList body) = .ok part ∧
          part.render context = .ok text ∧ whole.render context = .ok text := by
  have hc : Plain "a" := ⟨by decide, by decide, by decide, by decide⟩
  have hcompile : Compilation.compile {} (ifBlock "a" "\nx\x7b\x7belse\x7d\x7dy") =
      .ok [.conditional [(some ⟨"a", [{ left := [.operand (.reference (.path "a"))] }], []⟩,
        [.text "x"]), (none, [.text "y"])]] := by
    with_unfolding_all rfl
  have ht := Template.compile_of_nodes hcompile
  exact ⟨hc, _, _, rfl, ht, resolve_render_eq hc ht rfl⟩

end Stencil
