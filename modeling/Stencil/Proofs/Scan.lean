import Stencil.Proofs.Find
import Stencil.Proofs.Outcome
import Stencil.Segment

/-! # What a scan finds

`Cut` says which segments a text has, without the search that `scan` does. Cutting a text short before a
tag, or starting after one, leaves the other segments as they are, so the text between two tags has the
segments that the whole text has there. -/
namespace Stencil.Segment
open Text.Find

/-- The first tag of a text, its body and what stands before and after it. -/
structure Opens (d : Delimiters) (source plain body rest : List Char) : Prop where
  source_eq : source = plain ++ (d.left ++ body ++ d.right) ++ rest
  left_clear : Clear d.left source plain.length
  right_clear : Clear d.right source plain.length
  body_clear : Clear d.right (body ++ d.right ++ rest) body.length
  body_plain : ¬ d.left <:+: body

/-- The tag with this body after a plain text. -/
def tagAfter (d : Delimiters) (line offset : Nat) (plain body : List Char) : Tag where
  body := body
  start := offset + plain.length
  stop := offset + plain.length + (d.left ++ body ++ d.right).length
  line := line + newlines plain
  endLine := line + newlines plain + newlines (d.left ++ body ++ d.right)

inductive Cut (d : Delimiters) : Nat → Nat → List Char → List Segment → Prop
  | plain {line offset source} : ¬ d.left <:+: source → ¬ d.right <:+: source →
      Cut d line offset source (ofText source)
  | tag {line offset source plain body rest segments} : Opens d source plain body rest →
      Cut d (tagAfter d line offset plain body).endLine (tagAfter d line offset plain body).stop
        rest segments →
      Cut d line offset source (ofText plain ++ .tag (tagAfter d line offset plain body) :: segments)

theorem beforeStray?_none_iff {d : Delimiters} {source : List Char} :
    beforeStray? d none source = none ↔ ¬ d.right <:+: source := by
  rw [← breakOn_eq_none_iff d.right_ne_nil]
  unfold beforeStray?
  cases breakOn d.right source <;> simp

theorem beforeStray?_some_iff {d : Delimiters} {source plain : List Char} :
    beforeStray? d (some plain) source = none ↔ Clear d.right source plain.length := by
  unfold beforeStray?
  cases hb : breakOn d.right source with
  | none =>
    have hn := (breakOn_eq_none_iff d.right_ne_nil).mp hb
    simp only [true_iff]
    exact clear_of_not_infix hn plain.length
  | some p =>
    obtain ⟨before, after⟩ := p
    obtain ⟨hs, hc⟩ := (breakOn_eq_some_iff d.right_ne_nil).mp hb
    simp only [ite_eq_right_iff, reduceCtorEq, imp_false, Nat.not_lt]
    constructor
    · exact fun hle i hi => hc i (Nat.lt_of_lt_of_le hi hle)
    · intro hp
      by_contra hlt
      refine hp before.length (by omega) ?_
      simp [hs, List.append_assoc]

theorem Opens.breakOn_left {d : Delimiters} {source plain body rest : List Char}
    (h : Opens d source plain body rest) :
    breakOn d.left source = some (plain, body ++ d.right ++ rest) := by
  refine (breakOn_eq_some_iff d.left_ne_nil).mpr ⟨?_, h.left_clear⟩
  simp [h.source_eq, List.append_assoc]

theorem Opens.of_prefix {d : Delimiters} {source plain body rest less : List Char}
    (h : Opens d source plain body rest) (hp : less <+: rest) :
    Opens d (plain ++ (d.left ++ body ++ d.right) ++ less) plain body less := by
  have hs : plain ++ (d.left ++ body ++ d.right) ++ less <+: source := by
    rw [h.source_eq]
    exact (List.prefix_append_right_inj _).mpr hp
  refine ⟨rfl, h.left_clear.of_prefix hs, h.right_clear.of_prefix hs, ?_, h.body_plain⟩
  exact h.body_clear.of_prefix ((List.prefix_append_right_inj _).mpr hp)

theorem Opens.length_lt {d : Delimiters} {source plain body rest : List Char}
    (h : Opens d source plain body rest) : rest.length < source.length := by
  have := List.length_pos_iff.mpr d.left_ne_nil
  rw [h.source_eq]
  simp only [List.length_append]
  omega

theorem Opens.plain_clear {d : Delimiters} {source plain body rest : List Char} (h : Opens d source plain body rest) :
    ¬ d.left <:+: plain ∧ ¬ d.right <:+: plain := by
  have hp : plain <+: source := by
    rw [h.source_eq, List.append_assoc]
    exact List.prefix_append _ _
  exact ⟨h.left_clear.not_infix d.left_ne_nil hp (Nat.le_refl _),
    h.right_clear.not_infix d.right_ne_nil hp (Nat.le_refl _)⟩

theorem Opens.body_free {d : Delimiters} {source plain body rest : List Char} (h : Opens d source plain body rest) :
    ¬ d.left <:+: body ∧ ¬ d.right <:+: body := by
  have hp : body <+: body ++ d.right ++ rest := by
    rw [List.append_assoc]
    exact List.prefix_append _ _
  exact ⟨h.body_plain, h.body_clear.not_infix d.right_ne_nil hp (Nat.le_refl _)⟩

/-- The tag by itself. -/
theorem Opens.alone {d : Delimiters} {source plain body rest : List Char}
    (h : Opens d source plain body rest) : Opens d (d.left ++ body ++ d.right) [] body [] where
  source_eq := by simp
  left_clear := nofun
  right_clear := nofun
  body_clear := h.body_clear.of_prefix ((List.prefix_append_right_inj _).mpr List.nil_prefix)
  body_plain := h.body_plain

/-! ## One step of a scan -/

/-- What a scan does first with a text, wherever that text stands: it finds a fault, which is on the line
that follows what stands before it, or no delimiter, or a tag. -/
inductive Step where
  | fault (before : List Char) (fault : SyntaxFault)
  | plain
  | tag (plain body rest : List Char)

def step (d : Delimiters) (source : List Char) : Step :=
  match breakOn d.left source with
  | none =>
    match beforeStray? d none source with
    | some before => .fault before (.strayRight (String.ofList d.right))
    | none => .plain
  | some (plain, opened) =>
    match beforeStray? d (some plain) source with
    | some before => .fault before (.strayRight (String.ofList d.right))
    | none =>
      match breakOn d.right opened with
      | none => .fault plain .unterminated
      | some (body, rest) =>
        if occursIn d.left body then .fault plain (.unterminatedBefore (String.ofList d.left))
        else .tag plain body rest

theorem scan_eq (d : Delimiters) (line offset : Nat) (source : List Char) :
    scan d line offset source =
      match step d source with
      | .fault before fault => .error (.located (line + newlines before) fault)
      | .plain => .ok (ofText source)
      | .tag plain body rest =>
        (scan d (tagAfter d line offset plain body).endLine (tagAfter d line offset plain body).stop
          rest).map (ofText plain ++ .tag (tagAfter d line offset plain body) :: ·) := by
  rw [scan, step]
  split
  · rename_i hl
    simp only [hl]
    cases beforeStray? d none source <;> rfl
  · rename_i plain opened hl
    simp only [hl]
    cases beforeStray? d (some plain) source with
    | some before => rfl
    | none =>
      dsimp only
      split
      · rename_i hr
        simp only [hr]
      · rename_i body rest hr
        simp only [hr]
        cases occursIn d.left body <;> rfl

theorem step_eq_plain_iff {d : Delimiters} {source : List Char} :
    step d source = .plain ↔ ¬ d.left <:+: source ∧ ¬ d.right <:+: source := by
  rw [← breakOn_eq_none_iff d.left_ne_nil, ← beforeStray?_none_iff]
  unfold step
  cases hl : breakOn d.left source with
  | none => cases beforeStray? d none source <;> simp
  | some p =>
    simp only [reduceCtorEq, false_and, iff_false]
    cases beforeStray? d (some p.1) source with
    | some before => exact Step.noConfusion
    | none =>
      dsimp only
      split
      · exact Step.noConfusion
      · split <;> exact Step.noConfusion

theorem step_eq_tag_iff {d : Delimiters} {source plain body rest : List Char} :
    step d source = .tag plain body rest ↔ Opens d source plain body rest := by
  constructor
  · intro h
    unfold step at h
    split at h
    · split at h <;> cases h
    · rename_i hl
      split at h
      · cases h
      · rename_i hs
        split at h
        · cases h
        · rename_i hr
          split at h
          · cases h
          · rename_i ho
            cases h
            obtain ⟨hs₁, hc₁⟩ := (breakOn_eq_some_iff d.left_ne_nil).mp hl
            obtain ⟨rfl, hc₂⟩ := (breakOn_eq_some_iff d.right_ne_nil).mp hr
            refine ⟨?_, hc₁, beforeStray?_some_iff.mp hs, hc₂, ?_⟩
            · simp [hs₁, List.append_assoc]
            · exact (occursIn_eq_false_iff d.left_ne_nil).mp (Bool.eq_false_iff.mpr ho)
  · intro h
    have hr : breakOn d.right (body ++ d.right ++ rest) = some (body, rest) :=
      breakOn_of_clear d.right_ne_nil h.body_clear
    have ho : occursIn d.left body = false := (occursIn_eq_false_iff d.left_ne_nil).mpr h.body_plain
    rw [step, h.breakOn_left]
    dsimp only
    rw [beforeStray?_some_iff.mpr h.right_clear]
    dsimp only
    rw [hr]
    dsimp only
    rw [ho]
    rfl

theorem scan_of_opens {d : Delimiters} {source plain body rest : List Char}
    (h : Opens d source plain body rest) (line offset : Nat) :
    scan d line offset source =
      (scan d (tagAfter d line offset plain body).endLine (tagAfter d line offset plain body).stop
        rest).map (ofText plain ++ .tag (tagAfter d line offset plain body) :: ·) := by
  rw [scan_eq, step_eq_tag_iff.mpr h]

theorem scan_of_plain {d : Delimiters} {source : List Char} (hl : ¬ d.left <:+: source)
    (hr : ¬ d.right <:+: source) (line offset : Nat) :
    scan d line offset source = .ok (ofText source) := by
  rw [scan_eq, step_eq_plain_iff.mpr ⟨hl, hr⟩]

theorem cut_of_scan {d : Delimiters} {line offset : Nat} {source : List Char}
    {segments : List Segment} (h : scan d line offset source = .ok segments) :
    Cut d line offset source segments := by
  induction hn : source.length using Nat.strong_induction_on generalizing line offset source segments with
  | h n ih =>
    subst hn
    rw [scan_eq] at h
    cases hs : step d source with
    | fault before fault =>
      rw [hs] at h
      cases h
    | plain =>
      rw [hs] at h
      cases h
      obtain ⟨hl, hr⟩ := step_eq_plain_iff.mp hs
      exact .plain hl hr
    | tag plain body rest =>
      rw [hs] at h
      obtain ⟨more, hm, rfl⟩ := Except.map_eq_ok_iff.mp h
      have ho := step_eq_tag_iff.mp hs
      exact .tag ho (ih _ ho.length_lt hm rfl)

theorem scan_of_cut {d : Delimiters} {line offset : Nat} {source : List Char}
    {segments : List Segment} (h : Cut d line offset source segments) :
    scan d line offset source = .ok segments := by
  induction h with
  | plain hl hr => exact scan_of_plain hl hr _ _
  | tag ho _ ih => rw [scan_of_opens ho, ih, Except.map]

theorem scan_eq_ok_iff {d : Delimiters} {line offset : Nat} {source : List Char}
    {segments : List Segment} :
    scan d line offset source = .ok segments ↔ Cut d line offset source segments :=
  ⟨cut_of_scan, scan_of_cut⟩

/-! ## A scan that fails -/

/-- The first occurrence of the pattern, with what stands before and after it. -/
def FirstAt (pattern source before after : List Char) : Prop :=
  source = before ++ pattern ++ after ∧ Clear pattern source before.length

/-- Nothing can be read off the front of the text. What is wrong with it follows `before`: a right delimiter
in front of which no left one starts, or a left one without a right one in front of the next left one. -/
inductive Stuck (d : Delimiters) (source before : List Char) : SyntaxFault → Prop
  | stray {after} : FirstAt d.right source before after → Clear d.left source (before.length + 1) →
      Stuck d source before (.strayRight (String.ofList d.right))
  | unterminated {after} : FirstAt d.left source before after → Clear d.right source before.length →
      ¬ d.right <:+: after → Stuck d source before .unterminated
  | unterminatedBefore {after body rest} : FirstAt d.left source before after →
      Clear d.right source before.length → FirstAt d.right after body rest → d.left <:+: body →
      Stuck d source before (.unterminatedBefore (String.ofList d.left))

/-- Tags are read off the front until nothing can be. -/
inductive Stops (d : Delimiters) : List Char → List Char → SyntaxFault → Prop
  | here {source before fault} : Stuck d source before fault → Stops d source before fault
  | later {source plain body rest before fault} : Opens d source plain body rest →
      Stops d rest before fault → Stops d source (plain ++ (d.left ++ body ++ d.right) ++ before) fault

section
variable {d : Delimiters} {line offset : Nat} {source before : List Char} {fault : SyntaxFault}

theorem breakOn_iff_firstAt {pattern after : List Char} (hp : pattern ≠ []) :
    breakOn pattern source = some (before, after) ↔ FirstAt pattern source before after :=
  breakOn_eq_some_iff hp

theorem step_of_stuck (h : Stuck d source before fault) : step d source = .fault before fault := by
  unfold step
  cases h with
  | @stray after hr hl =>
    have hright := (breakOn_iff_firstAt d.right_ne_nil).mpr hr
    cases hb : breakOn d.left source with
    | none => simp only [beforeStray?, hright]
    | some p =>
      obtain ⟨plain, opened⟩ := p
      obtain ⟨hs, -⟩ := (breakOn_iff_firstAt d.left_ne_nil).mp hb
      -- the left delimiter comes behind the right one
      have hlt : before.length < plain.length := by
        by_contra hle
        refine hl plain.length (by omega) ?_
        simp [hs, List.append_assoc]
      simp only [beforeStray?, hright, if_pos hlt]
  | unterminated hl hr hn =>
    have hleft := (breakOn_iff_firstAt d.left_ne_nil).mpr hl
    have hright := (breakOn_eq_none_iff d.right_ne_nil).mpr hn
    simp only [hleft, beforeStray?_some_iff.mpr hr, hright]
  | unterminatedBefore hl hr hb ho =>
    have hleft := (breakOn_iff_firstAt d.left_ne_nil).mpr hl
    have hright := (breakOn_iff_firstAt d.right_ne_nil).mpr hb
    have hopen := (occursIn_iff d.left_ne_nil).mpr ho
    simp only [hleft, beforeStray?_some_iff.mpr hr, hright, hopen, if_true]

/-- A right delimiter is stray if no left one starts in front of it, or at the same place. -/
theorem stuck_of_beforeStray? {plain : Option (List Char)}
    (hs : beforeStray? d plain source = some before)
    (hl : ∀ n, (∀ p ∈ plain, n ≤ p.length) → Clear d.left source n) :
    Stuck d source before (.strayRight (String.ofList d.right)) := by
  unfold beforeStray? at hs
  cases hb : breakOn d.right source with
  | none =>
    rw [hb] at hs
    cases hs
  | some p =>
    obtain ⟨first, after⟩ := p
    have hfirst := (breakOn_iff_firstAt d.right_ne_nil).mp hb
    rw [hb] at hs
    cases plain with
    | none =>
      cases hs
      exact .stray hfirst (hl _ nofun)
    | some plain =>
      obtain ⟨hlt, heq⟩ := Option.ite_none_right_eq_some.mp hs
      cases heq
      refine .stray hfirst (hl _ ?_)
      rintro _ ⟨⟩
      exact hlt

theorem stuck_of_step (h : step d source = .fault before fault) : Stuck d source before fault := by
  unfold step at h
  split at h
  · rename_i hl
    split at h
    · rename_i hs
      cases h
      have hnone := (breakOn_eq_none_iff d.left_ne_nil).mp hl
      exact stuck_of_beforeStray? hs fun n _ => clear_of_not_infix hnone n
    · cases h
  · rename_i plain opened hl
    have hplain := (breakOn_iff_firstAt d.left_ne_nil).mp hl
    split at h
    · rename_i hs
      cases h
      exact stuck_of_beforeStray? hs fun n hn i hi => hplain.2 i (Nat.lt_of_lt_of_le hi (hn plain rfl))
    · rename_i hs
      have hright := beforeStray?_some_iff.mp hs
      split at h
      · rename_i hr
        cases h
        exact .unterminated hplain hright ((breakOn_eq_none_iff d.right_ne_nil).mp hr)
      · rename_i hr
        have hbody := (breakOn_iff_firstAt d.right_ne_nil).mp hr
        split at h
        · rename_i ho
          cases h
          exact .unterminatedBefore hplain hright hbody ((occursIn_iff d.left_ne_nil).mp ho)
        · cases h

theorem step_eq_fault_iff : step d source = .fault before fault ↔ Stuck d source before fault :=
  ⟨stuck_of_step, step_of_stuck⟩

theorem stops_of_scan {e : Error} (h : scan d line offset source = .error e) :
    ∃ before fault, Stops d source before fault ∧ e = .located (line + newlines before) fault := by
  induction hn : source.length using Nat.strong_induction_on generalizing line offset source with
  | h n ih =>
    subst hn
    rw [scan_eq] at h
    cases hs : step d source with
    | fault before fault =>
      rw [hs] at h
      cases h
      exact ⟨before, fault, .here (step_eq_fault_iff.mp hs), rfl⟩
    | plain =>
      rw [hs] at h
      cases h
    | tag plain body rest =>
      rw [hs] at h
      have ho := step_eq_tag_iff.mp hs
      obtain ⟨before, fault, hstops, rfl⟩ := ih _ ho.length_lt (Except.map_eq_error_iff.mp h) rfl
      refine ⟨_, fault, .later ho hstops, ?_⟩
      simp only [tagAfter, newlines_append]
      simp only [Nat.add_assoc]

theorem scan_of_stops (h : Stops d source before fault) (line offset : Nat) :
    scan d line offset source = .error (.located (line + newlines before) fault) := by
  induction h generalizing line offset with
  | here h => rw [scan_eq, step_eq_fault_iff.mpr h]
  | later ho _ ih =>
    rw [scan_of_opens ho, ih, Except.map]
    simp only [tagAfter, newlines_append]
    simp only [Nat.add_assoc]

theorem scan_eq_error_iff {e : Error} :
    scan d line offset source = .error e ↔
      ∃ before fault, Stops d source before fault ∧ e = .located (line + newlines before) fault := by
  constructor
  · exact stops_of_scan
  · rintro ⟨before, fault, h, rfl⟩
    exact scan_of_stops h line offset

/-- The delimiter that a scan tells of. -/
def Blames (d : Delimiters) (source before : List Char) (fault : SyntaxFault) : Prop :=
  fault = .strayRight (String.ofList d.right) ∧ before ++ d.right <+: source ∨
    (fault = .unterminated ∨ fault = .unterminatedBefore (String.ofList d.left)) ∧
      before ++ d.left <+: source

theorem Blames.append (h : Blames d source before fault) (front : List Char) :
    Blames d (front ++ source) (front ++ before) fault := by
  unfold Blames at *
  rwa [List.append_assoc, List.append_assoc, List.prefix_append_right_inj, List.prefix_append_right_inj]

theorem FirstAt.isPrefix {pattern after : List Char} (h : FirstAt pattern source before after) :
    before ++ pattern <+: source :=
  ⟨after, h.1.symm⟩

theorem Stuck.blames (h : Stuck d source before fault) : Blames d source before fault := by
  cases h with
  | stray hr => exact .inl ⟨rfl, hr.isPrefix⟩
  | unterminated hl => exact .inr ⟨.inl rfl, hl.isPrefix⟩
  | unterminatedBefore hl => exact .inr ⟨.inr rfl, hl.isPrefix⟩

theorem Stops.blames (h : Stops d source before fault) : Blames d source before fault := by
  induction h with
  | here h => exact h.blames
  | @later source plain body rest _ _ ho _ ih =>
    rw [ho.source_eq]
    exact ih.append (plain ++ (d.left ++ body ++ d.right))

end

/-! ## The characters of the segments -/

/-- What a segment looks like in the template. -/
def written (d : Delimiters) : Segment → List Char
  | .text chars => chars
  | .tag t => d.left ++ t.body ++ d.right

theorem flatMap_written_ofText (d : Delimiters) (chars : List Char) :
    (ofText chars).flatMap (written d) = chars := by
  cases chars <;> simp [ofText, written]

theorem Cut.flatMap_written {d : Delimiters} {line offset : Nat} {source : List Char}
    {segments : List Segment} (h : Cut d line offset source segments) :
    segments.flatMap (written d) = source := by
  induction h with
  | plain _ _ => exact flatMap_written_ofText d _
  | tag ho _ ih =>
    rw [List.flatMap_append, List.flatMap_cons, flatMap_written_ofText, ih, ho.source_eq]
    simp [written, tagAfter]

theorem Cut.of_nil {d : Delimiters} {line offset : Nat} {segments : List Segment}
    (h : Cut d line offset [] segments) : segments = [] := by
  generalize hs : [] = source at h
  cases h with
  | plain => rw [← hs, ofText, if_pos (List.isEmpty_nil)]
  | tag ho _ =>
    have hlt := ho.length_lt
    simp [← hs] at hlt

theorem Cut.text_ne_nil {d : Delimiters} {line offset : Nat} {source chars : List Char}
    {segments : List Segment} (h : Cut d line offset source segments)
    (hc : .text chars ∈ segments) : chars ≠ [] := by
  have ofText_ne_nil : ∀ s, .text chars ∈ ofText s → chars ≠ [] := by
    intro s hs
    cases s <;> simp_all [ofText]
  induction h with
  | plain _ _ => exact ofText_ne_nil _ hc
  | tag _ _ ih =>
    rcases List.mem_append.mp hc with hc | hc
    · exact ofText_ne_nil _ hc
    · exact ih (by simpa using hc)

/-! ## Parts of a text -/

theorem tag_not_mem_ofText (t : Tag) (chars : List Char) : .tag t ∉ ofText chars := by
  cases chars <;> simp [ofText]

theorem Cut.opens_of_mem {d : Delimiters} {line offset : Nat} {source : List Char}
    {segments : List Segment} {t : Tag} (h : Cut d line offset source segments)
    (ht : .tag t ∈ segments) : Opens d (d.left ++ t.body ++ d.right) [] t.body [] := by
  induction h with
  | plain => exact absurd ht (tag_not_mem_ofText t _)
  | @tag line offset source plain body rest segments ho hc ih =>
    rcases List.mem_append.mp ht with ht | ht
    · exact absurd ht (tag_not_mem_ofText t plain)
    · cases ht with
      | head => exact ho.alone
      | tail _ ht => exact ih ht

/-- Where the first of two tags is found. -/
theorem append_tag_eq_append {plain : List Char} {t u : Tag} {before rest after : List Segment}
    (h : ofText plain ++ .tag t :: rest = before ++ .tag u :: after) :
    (before = ofText plain ∧ u = t ∧ after = rest) ∨
      ∃ more, before = ofText plain ++ .tag t :: more ∧ rest = more ++ .tag u :: after := by
  rcases List.append_eq_append_iff.mp h with ⟨more, hb, hr⟩ | ⟨more, hp, hr⟩
  · cases more with
    | nil => simp_all
    | cons x more => simp_all
  · cases more with
    | nil => simp_all
    | cons x more =>
      exact absurd (by simp_all) (tag_not_mem_ofText u plain)

/-- The text up to one of its tags. -/
theorem Cut.take {d : Delimiters} {line offset : Nat} {source : List Char}
    {before after : List Segment} {u : Tag}
    (h : Cut d line offset source (before ++ .tag u :: after)) :
    ∃ n, u.start = offset + n ∧ Cut d line offset (source.take n) before := by
  generalize hs : before ++ .tag u :: after = segments at h
  induction h generalizing before with
  | @plain _ _ source =>
    exact absurd (by simp [← hs]) (tag_not_mem_ofText u source)
  | @tag line offset source plain body rest segments ho hc ih =>
    rcases append_tag_eq_append hs.symm with ⟨rfl, rfl, -⟩ | ⟨more, rfl, hr⟩
    · have hp : source.take plain.length = plain := by
        simp [ho.source_eq, List.append_assoc]
      refine ⟨plain.length, rfl, ?_⟩
      rw [hp]
      exact .plain ho.plain_clear.1 ho.plain_clear.2
    · obtain ⟨n, hn, hcut⟩ := ih hr.symm
      refine ⟨(plain ++ (d.left ++ body ++ d.right)).length + n, ?_, ?_⟩
      · rw [hn]
        simp only [tagAfter, List.length_append]
        omega
      · rw [ho.source_eq, List.take_length_add_append]
        exact .tag (ho.of_prefix (List.take_prefix n rest)) hcut

/-- The text after one of its tags. -/
theorem Cut.drop {d : Delimiters} {line offset : Nat} {source : List Char}
    {before after : List Segment} {u : Tag}
    (h : Cut d line offset source (before ++ .tag u :: after)) :
    ∃ n, u.stop = offset + n ∧ Cut d u.endLine u.stop (source.drop n) after := by
  generalize hs : before ++ .tag u :: after = segments at h
  induction h generalizing before with
  | @plain _ _ source =>
    exact absurd (by simp [← hs]) (tag_not_mem_ofText u source)
  | @tag line offset source plain body rest segments ho hc ih =>
    have hlen : source.drop (plain ++ (d.left ++ body ++ d.right)).length = rest := by
      rw [ho.source_eq, List.drop_left]
    rcases append_tag_eq_append hs.symm with ⟨-, rfl, rfl⟩ | ⟨more, -, hr⟩
    · refine ⟨_, ?_, hlen ▸ hc⟩
      simp only [tagAfter, List.length_append]
      omega
    · obtain ⟨n, hn, hcut⟩ := ih hr.symm
      refine ⟨(plain ++ (d.left ++ body ++ d.right)).length + n, ?_, ?_⟩
      · rw [hn]
        simp only [tagAfter, List.length_append]
        omega
      · rwa [← List.drop_drop, hlen]

/-- Scanning what stands between two tags finds what the scan of the whole text has found there. -/
theorem Cut.between {d : Delimiters} {line : Nat} {source : List Char}
    {before inner after : List Segment} {opened closed : Tag}
    (h : Cut d line 0 source (before ++ .tag opened :: (inner ++ .tag closed :: after))) :
    Cut d opened.endLine opened.stop (slice source opened.stop closed.start) inner := by
  obtain ⟨n, hn, hdrop⟩ := h.drop
  obtain ⟨m, hm, htake⟩ := hdrop.take
  obtain rfl : opened.stop = n := by omega
  have : closed.start - opened.stop = m := by omega
  rwa [slice, this]

theorem Cut.stop_le_start {d : Delimiters} {line : Nat} {source : List Char}
    {before inner after : List Segment} {opened closed : Tag}
    (h : Cut d line 0 source (before ++ .tag opened :: (inner ++ .tag closed :: after))) :
    opened.stop ≤ closed.start := by
  obtain ⟨_, _, hdrop⟩ := h.drop
  obtain ⟨m, hm, _⟩ := hdrop.take
  exact hm ▸ Nat.le_add_right _ m

theorem Cut.before {d : Delimiters} {line : Nat} {source : List Char}
    {before after : List Segment} {closed : Tag}
    (h : Cut d line 0 source (before ++ .tag closed :: after)) :
    Cut d line 0 (slice source 0 closed.start) before := by
  obtain ⟨n, hn, htake⟩ := h.take
  obtain rfl : closed.start = n := by omega
  exact htake

theorem Cut.after {d : Delimiters} {line : Nat} {source : List Char}
    {before after : List Segment} {opened : Tag}
    (h : Cut d line 0 source (before ++ .tag opened :: after)) :
    Cut d opened.endLine opened.stop (slice source opened.stop source.length) after := by
  obtain ⟨n, hn, hdrop⟩ := h.drop
  obtain rfl : opened.stop = n := by omega
  rw [slice, List.take_of_length_le (by simp)]
  exact hdrop

/-! ## Without a newline at one of the ends -/

/-- A newline in front of these segments belongs to the delimiter of the first one. -/
def NewlineOpens (d : Delimiters) (segments : List Segment) : Prop :=
  d.left.head? = some '\n' ∧ ∃ t rest, segments = .tag t :: rest

/-- A newline behind these segments belongs to the delimiter of the last one. -/
def NewlineCloses (d : Delimiters) (segments : List Segment) : Prop :=
  d.right.getLast? = some '\n' ∧ ∃ init t, segments = init ++ [.tag t]

theorem NewlineCloses.append {d : Delimiters} {segments : List Segment} (h : NewlineCloses d segments)
    (before : List Segment) : NewlineCloses d (before ++ segments) := by
  obtain ⟨hd, init, t, rfl⟩ := h
  exact ⟨hd, before ++ init, t, (List.append_assoc ..).symm⟩

theorem Cut.of_cons_newline {d : Delimiters} {line offset : Nat} {s : List Char}
    {segments : List Segment} (hd : ¬ NewlineOpens d segments)
    (h : Cut d line offset ('\n' :: s) segments) :
    ∃ chars more, segments = .text ('\n' :: chars) :: more ∧
      Cut d (line + 1) (offset + 1) s (ofText chars ++ more) := by
  generalize hs : '\n' :: s = source at h
  cases h with
  | plain hl hr =>
    subst hs
    refine ⟨s, [], rfl, ?_⟩
    rw [List.append_nil]
    exact .plain (fun h => hl (h.trans (List.suffix_cons _ _).isInfix))
      (fun h => hr (h.trans (List.suffix_cons _ _).isInfix))
  | @tag _ _ _ plain body rest segments ho hc =>
    cases plain with
    | nil =>
      obtain ⟨x, left, hleft⟩ := List.exists_cons_of_ne_nil d.left_ne_nil
      have hhead := congrArg List.head? (hs.trans ho.source_eq)
      obtain rfl : '\n' = x := by simpa [hleft] using hhead
      exact absurd ⟨by rw [hleft, List.head?_cons], _, _, rfl⟩ hd
    | cons x plain =>
      obtain ⟨rfl, rfl⟩ : '\n' = x ∧ s = plain ++ (d.left ++ body ++ d.right) ++ rest := by
        simpa using hs.trans ho.source_eq
      subst hs
      have ht : tagAfter d (line + 1) (offset + 1) plain body =
          tagAfter d line offset ('\n' :: plain) body := by
        simp only [tagAfter, newlines, List.length_cons, List.count_cons_self, Tag.mk.injEq, true_and]
        omega
      refine ⟨plain, _, rfl, ?_⟩
      rw [← ht] at hc ⊢
      exact .tag ⟨rfl, (clear_succ_iff.mp ho.left_clear).2, (clear_succ_iff.mp ho.right_clear).2,
        ho.body_clear, ho.body_plain⟩ hc

theorem Cut.of_append_newline {d : Delimiters} {line offset : Nat} {s : List Char}
    {segments : List Segment} (hd : ¬ NewlineCloses d segments)
    (h : Cut d line offset (s ++ ['\n']) segments) :
    ∃ init chars, segments = init ++ [.text (chars ++ ['\n'])] ∧
      Cut d line offset s (init ++ ofText chars) := by
  generalize hs : s ++ ['\n'] = source at h
  induction h generalizing s with
  | plain hl hr =>
    subst hs
    refine ⟨[], s, by simp [ofText], ?_⟩
    rw [List.nil_append]
    exact .plain (fun h => hl (h.trans (List.prefix_append _ _).isInfix))
      (fun h => hr (h.trans (List.prefix_append _ _).isInfix))
  | @tag line offset source plain body rest segments ho hc ih =>
    rcases List.eq_nil_or_concat rest with rfl | ⟨less, x, rfl⟩
    · -- the text ends with the right delimiter of the tag
      obtain ⟨right, x, hright⟩ := (List.eq_nil_or_concat d.right).resolve_left d.right_ne_nil
      have hlast := congrArg List.getLast? (hs.trans ho.source_eq)
      obtain rfl : '\n' = x := by simpa [hright] using hlast
      obtain rfl := hc.of_nil
      exact absurd ⟨by simp [hright], _, _, rfl⟩ hd
    · obtain ⟨rfl, hx⟩ : s = plain ++ (d.left ++ body ++ d.right) ++ less ∧ x = '\n' := by
        have := hs.trans ho.source_eq
        rw [List.concat_eq_append, ← List.append_assoc] at this
        obtain ⟨h₁, h₂⟩ := List.append_inj' this rfl
        exact ⟨h₁, by simpa using h₂.symm⟩
      have hmore : ¬ NewlineCloses d segments := fun hn => hd ((hn.append [_]).append _)
      obtain ⟨init, chars, rfl, hcut⟩ := @ih less hmore (by simp [hx])
      refine ⟨ofText plain ++ .tag (tagAfter d line offset plain body) :: init, chars, by simp, ?_⟩
      rw [List.append_assoc (ofText plain), List.cons_append]
      exact .tag (ho.of_prefix ⟨[x], by simp⟩) hcut

end Stencil.Segment
