import Stencil.Condition
import Stencil.Proofs.Arguments

/-! # The words of a condition

Splitting a condition into words loses nothing but blanks, and each word is of one of six shapes. Words of
these shapes, of which only the last one is an open quotation, are split off again when they are written with
single spaces between them. -/
namespace Stencil.Condition
open Text.Blank Text.Mark

namespace Words
open Directive.Arguments (Ended ended_space isBlank_of_isMark)

/-- What a word can be. Only one in which the quotation mark does not come again is not closed. -/
inductive Shape : Bool → List Char → Prop
  | parenthesis {c} : isParenthesis c = true → Shape true [c]
  | operator {run} : run ∈ operators → Shape true run
  | unknown {run} : run ≠ [] → run.length ≤ 3 → (∀ c ∈ run, isSymbol c = true) →
      (∀ op ∈ operators, ¬ op <+: run) → Shape true run
  | quoted {mark inside} : isMark mark = true → mark ∉ inside → Shape true (mark :: (inside ++ [mark]))
  | unclosed {mark inside} : isMark mark = true → mark ∉ inside → Shape false (mark :: inside)
  | plain {c rest} : isMark c = false → (∀ x ∈ c :: rest, isInner x = true) → Shape true (c :: rest)

/-! ## Characters -/

theorem not_of_isSymbol {c : Char} (h : isSymbol c = true) :
    isBlank c = false ∧ isMark c = false ∧ isParenthesis c = false := by
  have hc := List.contains_iff_mem.mp h
  simp only [List.mem_cons, List.not_mem_nil, or_false] at hc
  rcases hc with rfl | rfl | rfl | rfl | rfl | rfl | rfl | rfl | rfl | rfl <;> decide

theorem not_of_isParenthesis {c : Char} (h : isParenthesis c = true) :
    isBlank c = false ∧ isMark c = false := by
  simp only [isParenthesis, Bool.or_eq_true, decide_eq_true_eq] at h
  rcases h with rfl | rfl <;> decide

theorem isInner_iff {c : Char} :
    isInner c = true ↔ isBlank c = false ∧ isParenthesis c = false ∧ isSymbol c = false := by
  simp [isInner, and_assoc]

theorem isSymbol_of_isBlank {c : Char} (h : isBlank c = true) : isSymbol c = false :=
  Bool.eq_false_iff.mpr fun hs => Bool.eq_false_iff.mp (not_of_isSymbol hs).1 h

theorem isInner_of_isBlank {c : Char} (h : isBlank c = true) : isInner c = false :=
  Bool.eq_false_iff.mpr fun hi => Bool.eq_false_iff.mp (isInner_iff.mp hi).1 h

/-! ## Runs of operator characters -/

theorem operators_symbolic : ∀ op ∈ operators, op ≠ [] ∧ op.all isSymbol = true ∧
    pieceLength op = op.length := by
  decide

theorem pieceLength_of_unknown {run : List Char} (h : ∀ op ∈ operators, ¬ op <+: run) :
    pieceLength run = 3 := by
  have hnone : operators.find? (·.isPrefixOf run) = none :=
    List.find?_eq_none.mpr fun op hop hp => h op hop (List.isPrefixOf_iff_prefix.mp hp)
  rw [pieceLength, hnone]
  rfl

theorem cut_of_length_le {run : List Char} (hne : run ≠ []) (h : run.length ≤ pieceLength run) :
    cut run = [run] := by
  obtain ⟨c, rest, rfl⟩ := List.exists_cons_of_ne_nil hne
  rw [cut, List.take_of_length_le h, List.drop_of_length_le h, cut]

/-- The first piece of a run is an operator, or three characters of none if there are so many. -/
theorem shape_take {run : List Char} (hne : run ≠ []) (h : ∀ c ∈ run, isSymbol c = true) :
    Shape true (run.take (pieceLength run)) := by
  cases hfind : operators.find? (·.isPrefixOf run) with
  | some op =>
    have hprefix : op <+: run := List.isPrefixOf_iff_prefix.mp (List.find?_eq_some_iff_append.mp hfind).1
    have hlength : pieceLength run = op.length := by rw [pieceLength, hfind]; rfl
    rw [hlength, ← List.prefix_iff_eq_take.mp hprefix]
    exact .operator (List.mem_of_find?_eq_some hfind)
  | none =>
    have hnone : ∀ op ∈ operators, ¬ op <+: run := fun op hop hp =>
      List.find?_eq_none.mp hfind op hop (List.isPrefixOf_iff_prefix.mpr hp)
    rw [pieceLength_of_unknown hnone]
    refine .unknown ?_ (List.length_take_le 3 run) (fun c hc => h c (List.mem_of_mem_take hc)) ?_
    · simpa using hne
    · exact fun op hop hp => hnone op hop (hp.trans (List.take_prefix 3 run))

theorem shape_cut {run : List Char} (h : ∀ c ∈ run, isSymbol c = true) :
    ∀ piece ∈ cut run, Shape true piece := by
  fun_induction cut run with
  | case1 => exact List.forall_mem_nil _
  | case2 c rest ih =>
    refine List.forall_mem_cons.mpr ⟨shape_take (List.cons_ne_nil c rest) h, ih fun x hx => ?_⟩
    exact h x (List.mem_of_mem_drop hx)

theorem flatten_cut (run : List Char) : (cut run).flatten = run := by
  fun_induction cut run with
  | case1 => rfl
  | case2 c rest ih => rw [List.flatten_cons, ih, List.take_append_drop]

/-! ## Quotations -/

theorem quoted_append {mark : Char} {inside : List Char} (h : mark ∉ inside) (rest : List Char) :
    quoted mark (inside ++ mark :: rest) = (inside ++ [mark], rest) := by
  induction inside with
  | nil => exact if_pos rfl
  | cons c inside ih =>
    obtain ⟨hc, hinside⟩ := List.ne_and_not_mem_of_not_mem_cons h
    rw [List.cons_append, quoted, if_neg hc.symm, ih hinside]
    rfl

theorem quoted_of_not_mem {mark : Char} {inside : List Char} (h : mark ∉ inside) :
    quoted mark inside = (inside, []) := by
  induction inside with
  | nil => rfl
  | cons c inside ih =>
    obtain ⟨hc, hinside⟩ := List.ne_and_not_mem_of_not_mem_cons h
    rw [quoted, if_neg hc.symm, ih hinside]

/-- A quotation goes on to its mark, or to the end if that does not come again. -/
theorem quoted_cases (mark : Char) (s : List Char) :
    (∃ inside rest, mark ∉ inside ∧ s = inside ++ mark :: rest ∧ quoted mark s = (inside ++ [mark], rest)) ∨
      mark ∉ s ∧ quoted mark s = (s, []) := by
  by_cases h : mark ∈ s
  · obtain ⟨inside, rest, rfl, hinside⟩ := List.eq_append_cons_of_mem h
    exact .inl ⟨inside, rest, hinside, rfl, quoted_append hinside rest⟩
  · exact .inr ⟨h, quoted_of_not_mem h⟩

theorem quoted_append_eq (mark : Char) (s : List Char) : (quoted mark s).1 ++ (quoted mark s).2 = s := by
  rcases quoted_cases mark s with ⟨inside, rest, -, rfl, hq⟩ | ⟨-, hq⟩
  · rw [hq, List.append_assoc, List.singleton_append]
  · rw [hq, List.append_nil]

/-! ## The first word -/

theorem split_nil : split [] = [] := by
  rw [split]

theorem split_blank {c : Char} (h : isBlank c = true) (rest : List Char) :
    split (c :: rest) = split rest := by
  rw [split, if_pos h]

theorem split_mark {c : Char} (h : isMark c = true) (rest : List Char) :
    split (c :: rest) = (c :: (quoted c rest).1) :: split (quoted c rest).2 := by
  rw [split, if_neg (Bool.eq_false_iff.mp (isBlank_of_isMark h)), if_pos h]

theorem split_parenthesis {c : Char} (h : isParenthesis c = true) (rest : List Char) :
    split (c :: rest) = [c] :: split rest := by
  obtain ⟨hb, hm⟩ := not_of_isParenthesis h
  rw [split, if_neg (Bool.eq_false_iff.mp hb), if_neg (Bool.eq_false_iff.mp hm), if_pos h]

theorem split_symbol {c : Char} (h : isSymbol c = true) (rest : List Char) :
    split (c :: rest) = cut (c :: rest.takeWhile isSymbol) ++ split (rest.dropWhile isSymbol) := by
  obtain ⟨hb, hm, hp⟩ := not_of_isSymbol h
  rw [split, if_neg (Bool.eq_false_iff.mp hb), if_neg (Bool.eq_false_iff.mp hm),
    if_neg (Bool.eq_false_iff.mp hp), if_pos h]

theorem split_inner {c : Char} (hm : isMark c = false) (h : isInner c = true) (rest : List Char) :
    split (c :: rest) = (c :: rest.takeWhile isInner) :: split (rest.dropWhile isInner) := by
  obtain ⟨hb, hp, hs⟩ := isInner_iff.mp h
  rw [split, if_neg (Bool.eq_false_iff.mp hb), if_neg (Bool.eq_false_iff.mp hm),
    if_neg (Bool.eq_false_iff.mp hp), if_neg (Bool.eq_false_iff.mp hs)]

/-- Characters of a kind that blanks are not of are taken up to the end of the word. -/
theorem takeWhile_ended {p : Char → Bool} (hp : ∀ c, isBlank c = true → p c = false) {word rest : List Char}
    (hw : ∀ c ∈ word, p c = true) (hr : Ended rest) :
    (word ++ rest).takeWhile p = word ∧ (word ++ rest).dropWhile p = rest := by
  rw [List.takeWhile_append_of_pos hw, List.dropWhile_append_of_pos hw]
  cases rest with
  | nil => exact ⟨List.append_nil word, rfl⟩
  | cons c rest =>
    have hc : ¬ p c = true := Bool.eq_false_iff.mp (hp c (hr c rfl))
    rw [List.takeWhile_cons_of_neg hc, List.dropWhile_cons_of_neg hc, List.append_nil]
    exact ⟨rfl, rfl⟩

/-- A run that is not cut is one word. -/
theorem split_run {run : List Char} (hne : run ≠ []) (h : ∀ c ∈ run, isSymbol c = true)
    (hcut : cut run = [run]) {rest : List Char} (hr : Ended rest) : split (run ++ rest) = run :: split rest := by
  obtain ⟨c, more, rfl⟩ := List.exists_cons_of_ne_nil hne
  obtain ⟨hc, hmore⟩ := List.forall_mem_cons.mp h
  obtain ⟨htake, hdrop⟩ := takeWhile_ended (fun _ => isSymbol_of_isBlank) hmore hr
  rw [List.cons_append, split_symbol hc, htake, hdrop, hcut, List.singleton_append]

/-- A word is split off with whatever can follow it. -/
theorem Shape.split_append {closed : Bool} {word : List Char} (h : Shape closed word) {rest : List Char}
    (hr : Ended rest) (hc : closed = false → rest = []) : split (word ++ rest) = word :: split rest := by
  cases h with
  | parenthesis hp => exact split_parenthesis hp rest
  | operator hop =>
    obtain ⟨hne, hsymbol, hlength⟩ := operators_symbolic _ hop
    exact split_run hne (List.all_eq_true.mp hsymbol) (cut_of_length_le hne (Nat.le_of_eq hlength.symm)) hr
  | unknown hne hlength hsymbol hnone =>
    refine split_run hne hsymbol (cut_of_length_le hne ?_) hr
    rwa [pieceLength_of_unknown hnone]
  | @quoted mark inside hm hinside =>
    rw [List.cons_append, List.append_assoc, List.singleton_append, split_mark hm, quoted_append hinside]
  | unclosed hm hinside =>
    rw [hc rfl, List.append_nil, split_mark hm, quoted_of_not_mem hinside]
  | plain hm hinner =>
    obtain ⟨hc, hmore⟩ := List.forall_mem_cons.mp hinner
    obtain ⟨htake, hdrop⟩ := takeWhile_ended (fun _ => isInner_of_isBlank) hmore hr
    rw [List.cons_append, split_inner hm hc, htake, hdrop]

/-! ## All words -/

/-- Words of which only the last one can be an open quotation. -/
structure Canonical (words : List (List Char)) : Prop where
  shaped : ∀ word ∈ words, ∃ closed, Shape closed word
  closed : ∀ word ∈ words.dropLast, Shape true word

theorem canonical_nil : Canonical [] :=
  ⟨List.forall_mem_nil _, List.forall_mem_nil _⟩

theorem canonical_singleton {closed : Bool} {word : List Char} (h : Shape closed word) : Canonical [word] :=
  ⟨List.forall_mem_singleton.mpr ⟨closed, h⟩, List.forall_mem_nil _⟩

theorem Canonical.append {first words : List (List Char)} (hf : ∀ word ∈ first, Shape true word)
    (h : Canonical words) : Canonical (first ++ words) := by
  refine ⟨List.forall_mem_append.mpr ⟨fun word hw => ⟨true, hf word hw⟩, h.shaped⟩, ?_⟩
  cases words with
  | nil =>
    rw [List.append_nil]
    exact fun word hw => hf word (List.mem_of_mem_dropLast hw)
  | cons =>
    rw [List.dropLast_append_cons]
    exact List.forall_mem_append.mpr ⟨hf, h.closed⟩

theorem Canonical.cons {word : List Char} {words : List (List Char)} (hw : Shape true word)
    (h : Canonical words) : Canonical (word :: words) :=
  h.append (List.forall_mem_singleton.mpr hw)

theorem canonical_split (s : List Char) : Canonical (split s) := by
  fun_induction split s with
  | case1 => exact canonical_nil
  | case2 c rest hb ih => exact ih
  | case3 c rest hb hm ih =>
    rcases quoted_cases c rest with ⟨inside, after, hinside, -, hq⟩ | ⟨hnot, hq⟩
    · rw [hq] at ih ⊢
      exact ih.cons (.quoted hm hinside)
    · rw [hq, split_nil]
      exact canonical_singleton (.unclosed hm hnot)
  | case4 c rest hb hm hp ih => exact ih.cons (.parenthesis hp)
  | case5 c rest hb hm hp hs ih =>
    refine ih.append (shape_cut (List.forall_mem_cons.mpr ⟨hs, fun x hx => ?_⟩))
    exact List.mem_takeWhile_imp hx
  | case6 c rest hb hm hp hs ih =>
    rw [Bool.not_eq_true] at hb hm hp hs
    refine ih.cons (.plain hm (List.forall_mem_cons.mpr ⟨isInner_iff.mpr ⟨hb, hp, hs⟩, fun x hx => ?_⟩))
    exact List.mem_takeWhile_imp hx

theorem split_intercalate {words : List (List Char)} (h : Canonical words) :
    split ([' '].intercalate words) = words := by
  refine split_spaced split_nil (fun word hw => ?_) (fun word hw rest => ?_)
  · obtain ⟨closed, hshape⟩ := h.shaped word hw
    have hsplit : split (word ++ []) = word :: split [] := hshape.split_append nofun fun _ => rfl
    rwa [List.append_nil, split_nil] at hsplit
  · rw [(h.closed word hw).split_append (ended_space rest) nofun, split_blank (by decide)]

/-- Nothing but blanks is lost. -/
theorem filter_flatten_split (s : List Char) :
    (split s).flatten.filter (!isBlank ·) = s.filter (!isBlank ·) := by
  fun_induction split s with
  | case1 => rfl
  | case2 c rest hb ih => rw [ih, List.filter_cons_of_neg (by simp [hb])]
  | case3 c rest hb hm ih =>
    rw [List.flatten_cons, List.filter_append, ih, ← List.filter_append, List.cons_append, quoted_append_eq]
  | case4 c rest hb hm hp ih =>
    rw [List.flatten_cons, List.filter_append, ih, ← List.filter_append, List.singleton_append]
  | case5 c rest hb hm hp hs ih =>
    rw [List.flatten_append, flatten_cut, List.filter_append, ih, ← List.filter_append, List.cons_append,
      List.takeWhile_append_dropWhile]
  | case6 c rest hb hm hp hs ih =>
    rw [List.flatten_cons, List.filter_append, ih, ← List.filter_append, List.cons_append,
      List.takeWhile_append_dropWhile]

end Words

/-! ## Texts -/

open Words

theorem map_toList_words (source : String) : (words source).map String.toList = split source.toList := by
  rw [words, List.map_map]
  exact (List.map_congr_left fun _ _ => String.toList_ofList).trans (List.map_id _)

theorem words_spaced {written : List String} (h : Canonical (written.map String.toList)) :
    words (" ".intercalate written) = written := by
  have hsplit : split (" ".intercalate written).toList = written.map String.toList := by
    rw [String.toList_intercalate]
    exact split_intercalate h
  rw [words, hsplit, List.map_map]
  exact (List.map_congr_left fun _ _ => String.ofList_toList).trans (List.map_id _)

theorem canonical_words (source : String) : Canonical ((words source).map String.toList) := by
  rw [map_toList_words]
  exact canonical_split _

/-- The words of a text hold all its characters but blanks, in their order, and each of them can be a word; a
quotation that is left open is the last one. Words that are written with single spaces between them are the
words of what is written exactly when they are of this kind, as the words of any text are. -/
theorem words_canonical :
    (∀ source : String,
      ((words source).flatMap String.toList).filter (!isBlank ·) = source.toList.filter (!isBlank ·) ∧
        Canonical ((words source).map String.toList) ∧
        words (" ".intercalate (words source)) = words source) ∧
      ∀ written : List String,
        words (" ".intercalate written) = written ↔ Canonical (written.map String.toList) := by
  refine ⟨fun source => ⟨?_, canonical_words source, words_spaced (canonical_words source)⟩,
    fun written => ⟨fun h => ?_, words_spaced⟩⟩
  · rw [List.flatMap_def, map_toList_words, filter_flatten_split]
  · rw [← h]
    exact canonical_words _

/-- A mark inside of a word, operators without a space, a run of three that are none and an open quotation. -/
example : words "a'b>=-c &|=&&(\t'd e'@f.g \"h " =
    ["a'b", ">=", "-", "c", "&|=", "&&", "(", "'d e'", "@f.g", "\"h "] := by
  cbv

end Stencil.Condition
